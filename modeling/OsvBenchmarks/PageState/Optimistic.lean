import OsvBenchmarks.PageState.Lock

/-!
Optimistic reads of one page. A version that a GuardO obtained and that is
validated later names one content: between the two nobody locked, evicted or
changed the page.
-/
namespace PageState
open RwLock Runs
variable {T C : Type} [DecidableEq T]

/-- A version in a guard was read from an unlocked or share-locked word, and the
    words loaded against it carry the same version. -/
def GuardOk (th : Thread) : Prop :=
  ∀ g, th.guard = some g → byte g ≤ 252 ∧
    ∀ v, th.pc = .checkClear v ∨ th.pc = .guardXLock v → version v = version g

theorem readable_byte {w : Word} (marked : getState w ≠ Marked) (locked : getState w ≠ Locked)
    (evicted : getState w ≠ Evicted) : byte w ≤ 252 := by
  have := byte_lt w
  rw [ne_eq, getState_eq_iff] at marked locked evicted
  simp only [marked_toNat, locked_toNat, evicted_toNat] at marked locked evicted
  omega

theorem guard_elsewhere {th th' : Thread} (ok : GuardOk th) (guard : th'.guard = th.guard)
    (pc : ∀ v, th'.pc ≠ .checkClear v ∧ th'.pc ≠ .guardXLock v) : GuardOk th' := by
  intro g hg
  rw [guard] at hg
  refine ⟨(ok g hg).1, fun v at_ => ?_⟩
  rcases at_ with h | h
  · exact absurd h (pc v).1
  · exact absurd h (pc v).2

theorem ret_elsewhere (ret : Ret) (v : Word) : ret.pc ≠ .checkClear v ∧ ret.pc ≠ .guardXLock v := by
  cases ret <;> simp [Ret.pc]

theorem guard_dropped {th : Thread} (none : th.guard = none) : GuardOk th := by
  intro g hg
  rw [none] at hg
  cases hg

theorem run_guard {s : State T C} {t : T} (ok : GuardOk (s.thread t)) : GuardOk ((runPc s t (s.thread t).pc).2.thread t) := by
  cases hpc : (s.thread t).pc with
  | init =>
    simp only [runPc]
    split
    · exact guard_elsewhere ok (by simp) (by simp)
    · rename_i marked
      split
      · exact ok
      · rename_i locked
        split
        · exact guard_elsewhere ok (by simp) (by simp)
        · rename_i evicted
          intro g hg
          simp only [put_thread, Option.some.injEq] at hg
          subst hg
          exact ⟨readable_byte marked locked evicted, fun v at_ => by simp at at_⟩
  | initClear v =>
    simp only [runPc]
    split
    · intro g hg
      simp only [put_thread, Option.some.injEq] at hg
      subst hg
      exact ⟨by simp, fun w at_ => by simp at at_⟩
    · exact guard_elsewhere ok (by simp) (by simp)
  | check =>
    simp only [runPc, State.invalid]
    split
    · exact guard_elsewhere ok (by simp) (by simp)
    · rename_i g hg
      split
      · exact guard_elsewhere ok (by simp) (by simp)
      · split
        · rename_i same
          split
          · exact guard_elsewhere ok (by simp) (by simp)
          · split
            · intro g' hg'
              simp only [goto_thread] at hg'
              refine ⟨(ok g' hg').1, fun w at_ => ?_⟩
              simp only [goto_thread, Pc.checkClear.injEq, reduceCtorEq, or_false] at at_
              rw [hg] at hg'
              cases hg'
              rw [← at_]
              exact shift_eq_iff.mp same
            · split <;> exact guard_elsewhere ok (by simp [State.throw]) (by simp [State.throw])
        · split <;> exact guard_elsewhere ok (by simp [State.throw]) (by simp [State.throw])
  | guardX =>
    simp only [runPc]
    split
    · exact guard_elsewhere ok (by simp) (by simp)
    · rename_i g hg
      split
      · exact guard_elsewhere ok (by simp [State.throw]) (by simp [State.throw])
      · rename_i same
        split
        · intro g' hg'
          simp only [goto_thread] at hg'
          refine ⟨(ok g' hg').1, fun w at_ => ?_⟩
          simp only [goto_thread, Pc.guardXLock.injEq, reduceCtorEq, false_or] at at_
          rw [hg] at hg'
          cases hg'
          rw [← at_]
          exact shift_eq_iff.mp (not_not.mp same)
        · exact ok
  | unlockXStore v st ret => exact guard_elsewhere ok (by simp [runPc, State.setWord]) (fun v => by
      simpa [runPc] using ret_elsewhere ret v)
  | unlockSOnce v ret =>
    simp only [runPc]
    split
    · exact guard_elsewhere ok (by simp [State.setWord]) fun v => by simpa using ret_elsewhere ret v
    · exact guard_elsewhere ok (by simp) (by simp)
  | guardXLock v =>
    simp only [runPc]
    split
    · exact guard_dropped (by simp)
    · exact guard_elsewhere ok (by simp) (by simp)
  | guardS =>
    simp only [runPc]
    split
    · exact guard_elsewhere ok (by simp) (by simp)
    · split
      · exact guard_dropped (by simp)
      · exact guard_elsewhere ok (by simp [State.throw]) (by simp [State.throw])
  | _ =>
    simp only [runPc, State.invalid]
    (repeat' split) <;>
      first
      | exact ok
      | exact guard_elsewhere ok (by simp [State.setWord, State.throw]) (by simp [State.throw])

theorem next_guard {s s' : State T C} {m : T × Act C} (ok : GuardOk (s.thread m.1)) (step : next s m = some s') : GuardOk (s'.thread m.1) := by
  obtain ⟨t, a⟩ := m
  cases next_moved step with
  | run => exact run_guard ok
  | start r _ idle h =>
    unfold startRoutine at h
    split at h <;> cases h <;> exact guard_elsewhere ok (by simp) (by simp)
  | write c idle held => exact ok
  | flag _ b idle => exact guard_elsewhere ok (by simp) (by simp [idle])
  | jump _ pc j => cases j <;> exact guard_elsewhere ok (by simp) (by simp)
  | invalid _ v version here =>
    simp only [State.invalid]
    split <;> exact guard_elsewhere ok (by simp [State.throw]) (by simp [State.throw])

def Busy (w : Word) : Prop := byte w = 253 ∨ byte w = 255

theorem exclusive_busy [Fintype T] {s : State T C} {t : T} (owned : Owned s)
    (held : InExclusive s t) : Busy s.word := Or.inl (exclusive_byte owned held).1

theorem effect_progress [Fintype T] {s s' : State T C} {t : T} (e : Effect s s' t)
    (desc : Describes s.owners (status s.word)) (room : version s.word + 1 < 2 ^ 56) :
    version s.word ≤ version s'.word ∧
      (Busy s.word → version s.word < version s'.word ∨ Busy s'.word) := by
  cases e with
  | quiet word => rw [word]; exact ⟨Nat.le_refl _, Or.inr⟩
  | recolor st color free word =>
    rw [word, version_sameVersion]
    exact ⟨Nat.le_refl _, fun busy => by rcases busy with h | h <;> omega⟩
  | lockX free word =>
    rw [word, version_sameVersion]
    exact ⟨Nat.le_refl _, fun _ => Or.inr (Or.inl (byte_sameVersion _ _))⟩
  | unlockX st color held word =>
    rw [word, version_nextVersion room]
    exact ⟨Nat.le_succ _, fun _ => Or.inl (Nat.lt_succ_self _)⟩
  | lockS unheld word =>
    obtain ⟨_, same, bytes⟩ := tryLockS_some word
    rw [same]
    exact ⟨Nat.le_refl _, fun busy => by rcases busy with h | h <;> omega⟩
  | unlockS held word =>
    rw [(unlockSOnce_some word).2.1]
    have bytes := status_shared_iff.mp (shared_status desc held).1
    exact ⟨Nat.le_refl _, fun busy => by rcases busy with h | h <;> omega⟩
  | upgrade held one word =>
    rw [word, version_sameVersion]
    exact ⟨Nat.le_refl _, fun _ => Or.inr (Or.inl (byte_sameVersion _ _))⟩

/-- The content changes only in a write or at the end of a fault. -/
theorem run_mem (s : State T C) (t : T) (pc : Pc) :
    (runPc s t pc).2.mem = s.mem ∨ pc = .fixXFault ∨ pc = .fixSFault ∨ pc = .initFault := by
  cases pc <;> simp only [runPc, State.invalid] <;> (repeat' split) <;>
    simp [State.goto, State.hold, State.put, State.throw, State.setWord, State.fault, State.writeBack]

theorem next_mem [Fintype T] {s s' : State T C} {m : T × Act C} (inv : Inv s)
    (step : next s m = some s') (idle : ¬ Busy s.word) : s'.mem = s.mem := by
  obtain ⟨t, a⟩ := m
  have notHeld : ¬ InExclusive s t := fun held => idle (exclusive_busy inv.owned held)
  have code := inv.code t
  cases next_moved step with
  | run =>
    rcases run_mem s t (s.thread t).pc with same | fault
    · exact same
    · exfalso
      apply notHeld
      have fixed : (s.thread t).hold = .fixed := by
        rcases fault with h | h | h <;> simpa only [PcOk, h] using code
      rw [InExclusive, State.owners, fixed]
      rfl
  | start r _ idle h =>
    unfold startRoutine at h
    split at h <;> cases h <;> rfl
  | write c idle held =>
    exfalso
    apply notHeld
    rw [InExclusive, State.owners, held]
    rfl
  | flag _ b idle => rfl
  | jump _ pc j => rfl
  | invalid _ v version here =>
    simp only [State.invalid]
    split <;> rfl

/-- From a state to a later one with the same version in which the page is not
    busy, nothing happened to the content. -/
theorem quiet_between [Fintype T] {s u : State T C} {ms : List (T × Act C)} (inv : ListedInv s)
    (listed : ∀ m ∈ ms, Listed m) (run : exec next s ms = some u) (few : u.ended < 2 ^ 56 - 1) :
    version s.word ≤ version u.word ∧
      (version u.word = version s.word → ¬ Busy u.word → ¬ Busy s.word ∧ u.mem = s.mem) := by
  induction ms generalizing s with
  | nil => cases run; exact ⟨Nat.le_refl _, fun _ idle => ⟨idle, rfl⟩⟩
  | cons m ms ih =>
    obtain ⟨s', step, tail⟩ := exec_cons_iff.mp run
    have inv' := listed_step inv (listed m (by simp)) step
    have rest : ∀ n ∈ ms, Listed n := fun n mem => listed n (by simp [mem])
    obtain ⟨grow, same⟩ := ih inv' rest tail
    have ended := effect_ended (inv.effect step)
    have later := (listed_run inv' rest tail).2
    obtain ⟨describes, count⟩ := inv.counted (by omega)
    obtain ⟨up, busy⟩ := effect_progress (inv.effect step) describes (by omega)
    refine ⟨by omega, fun eq idle => ?_⟩
    obtain ⟨idle', mem⟩ := same (by omega) idle
    have idleHere : ¬ Busy s.word := fun h => by
      rcases busy h with less | still
      · omega
      · exact idle' still
    exact ⟨idleHere, mem.trans (next_mem inv.inv step idleHere)⟩

theorem run_obtained {s s' : State T C} {t : T} {w : Word}
    (h : runPc s t (s.thread t).pc = (.obtained w, s')) : s'.word = w ∧ ¬ Busy w := by
  cases hpc : (s.thread t).pc with
  | init =>
    simp only [runPc, hpc] at h
    split at h
    · cases h
    · rename_i marked
      split at h
      · cases h
      · rename_i locked
        split at h
        · cases h
        · rename_i evicted
          cases h
          have := readable_byte marked locked evicted
          exact ⟨rfl, fun busy => by rcases busy with h | h <;> omega⟩
  | initClear v =>
    simp only [runPc, hpc] at h
    split at h
    · cases h
      exact ⟨rfl, fun busy => by
        simp only [Busy, byte_sameVersion, unlocked_toNat] at busy
        omega⟩
    · cases h
  | _ =>
    simp only [runPc, State.invalid, hpc] at h
    (repeat' split at h) <;> cases h

/-- The step validates version `w`: checkVersionAndRestart returns while no
    exception is in flight, or GuardX(GuardO&&) or GuardS(GuardO&&) succeeds. -/
def Validates (s : State T C) (m : T × Act C) (w : Word) : Prop :=
  (event s m = some (.returned w) ∧ (s.thread m.1).uncaught = false) ∨
    event s m = some (.lockedX w) ∨ event s m = some (.lockedS w)

theorem invalid_returns {s s' : State T C} {t : T} {v w : Word}
    (h : s.invalid t v = (.returned w, s')) : (s.thread t).uncaught = true := by
  unfold State.invalid at h
  split at h
  · assumption
  · cases h

theorem run_returned {s s' : State T C} {t : T} {w : Word} (code : PcOk s.word (s.thread t))
    (ok : GuardOk (s.thread t)) (calm : (s.thread t).uncaught = false)
    (h : runPc s t (s.thread t).pc = (.returned w, s')) :
    version s.word = version w ∧ ¬ Busy s.word := by
  have caught : ∀ v, s.invalid t v ≠ (.returned w, s') := fun v bad => by
    rw [invalid_returns bad] at calm
    cases calm
  cases hpc : (s.thread t).pc with
  | check =>
    simp only [runPc, hpc] at h
    split at h
    · cases h
    · rename_i g hg
      split at h
      · rename_i same
        cases h
        have := (ok w hg).1
        rw [← same]
        exact ⟨rfl, fun busy => by rcases busy with h | h <;> omega⟩
      · split at h
        · rename_i same
          split at h
          · rename_i small
            cases h
            rw [BitVec.le_def, getState_toNat] at small
            change byte s.word ≤ 252 at small
            exact ⟨shift_eq_iff.mp same, fun busy => by rcases busy with h | h <;> omega⟩
          · split at h
            · cases h
            · exact absurd h (caught g)
        · exact absurd h (caught g)
  | checkClear v =>
    simp only [PcOk, hpc] at code
    simp only [runPc, hpc] at h
    split at h
    · cases h
    · rename_i g hg
      split at h
      · rename_i same
        cases h
        rw [same]
        exact ⟨(ok w hg).2 v (Or.inl hpc), fun busy => by rcases busy with h | h <;> omega⟩
      · exact absurd h (caught g)
  | _ =>
    simp only [runPc, hpc] at h
    (repeat' split at h) <;> cases h

theorem run_lockedX {s s' : State T C} {t : T} {w : Word} (code : PcOk s.word (s.thread t))
    (ok : GuardOk (s.thread t)) (h : runPc s t (s.thread t).pc = (.lockedX w, s')) :
    version s.word = version w ∧ ¬ Busy s.word := by
  cases hpc : (s.thread t).pc with
  | guardXLock v =>
    simp only [PcOk, hpc] at code
    simp only [runPc, hpc] at h
    split at h
    · rename_i g _ hg lock
      cases h
      obtain ⟨same, _⟩ := tryLockX_some lock
      rw [same]
      exact ⟨(ok w hg).2 v (Or.inr hpc), fun busy => by rcases busy with h | h <;> omega⟩
    · cases h
  | _ =>
    simp only [runPc, State.invalid, hpc] at h
    (repeat' split at h) <;> cases h

theorem run_lockedS {s s' : State T C} {t : T} {w : Word}
    (ok : GuardOk (s.thread t)) (h : runPc s t (s.thread t).pc = (.lockedS w, s')) :
    version s.word = version w ∧ ¬ Busy s.word := by
  cases hpc : (s.thread t).pc with
  | guardS =>
    simp only [runPc, hpc] at h
    split at h
    · cases h
    · rename_i g hg
      split at h
      · rename_i lock
        cases h
        have := (ok w hg).1
        rw [(tryLockS_some lock).1]
        exact ⟨rfl, fun busy => by rcases busy with h | h <;> omega⟩
      · cases h
  | _ =>
    simp only [runPc, State.invalid, hpc] at h
    (repeat' split at h) <;> cases h

/-- Only the atomic steps of the code make something known, except that a spurious
    failure in checkVersionAndRestart may return into an unwinding. -/
theorem act_loud {s s' : State T C} {m : T × Act C} {e : Event} (h : act s m = some (e, s'))
    (loud : e ≠ .silent) :
    runPc s m.1 (s.thread m.1).pc = (e, s') ∨ ∃ v, s.invalid m.1 v = (e, s') := by
  obtain ⟨t, a⟩ := m
  cases a with
  | run => exact Or.inl (Option.some.inj h)
  | spurious =>
    simp only [act] at h
    split at h
    · cases h; exact absurd rfl loud
    · obtain ⟨v, _, same⟩ := Option.map_eq_some_iff.mp h
      exact Or.inr ⟨v, same⟩
    · cases h; exact absurd rfl loud
    · cases h
  | start r =>
    simp only [act] at h
    split at h
    · obtain ⟨_, _, same⟩ := Option.map_eq_some_iff.mp h
      cases same
      exact absurd rfl loud
    · cases h
  | _ =>
    simp only [act] at h
    (repeat' split at h) <;> cases h <;> exact absurd rfl loud

theorem event_act {s s' : State T C} {m : T × Act C} {e : Event} (step : next s m = some s')
    (seen : event s m = some e) : act s m = some (e, s') := by
  obtain ⟨⟨e₁, s₁⟩, h₁, rfl⟩ := Option.map_eq_some_iff.mp step
  obtain ⟨⟨e₂, s₂⟩, h₂, rfl⟩ := Option.map_eq_some_iff.mp seen
  cases Option.some.inj (h₁.symm.trans h₂)
  exact h₁

theorem next_obtained {s s' : State T C} {m : T × Act C} {w : Word} (step : next s m = some s')
    (seen : event s m = some (.obtained w)) : s'.word = w ∧ ¬ Busy w := by
  rcases act_loud (event_act step seen) (by simp) with h | ⟨v, h⟩
  · exact run_obtained h
  · unfold State.invalid at h
    split at h <;> cases h

theorem next_validates {s s' : State T C} {m : T × Act C} {w : Word}
    (code : PcOk s.word (s.thread m.1)) (ok : GuardOk (s.thread m.1)) (step : next s m = some s')
    (valid : Validates s m w) : version s.word = version w ∧ ¬ Busy s.word := by
  rcases valid with ⟨seen, calm⟩ | seen | seen
  · rcases act_loud (event_act step seen) (by simp) with h | ⟨v, h⟩
    · exact run_returned code ok calm h
    · rw [invalid_returns h] at calm
      cases calm
  · rcases act_loud (event_act step seen) (by simp) with h | ⟨v, h⟩
    · exact run_lockedX code ok h
    · unfold State.invalid at h
      split at h <;> cases h
  · rcases act_loud (event_act step seen) (by simp) with h | ⟨v, h⟩
    · exact run_lockedS ok h
    · unfold State.invalid at h
      split at h <;> cases h

theorem guard_step {s s' : State T C} {m : T × Act C} (ok : ∀ t, GuardOk (s.thread t))
    (step : next s m = some s') (t : T) : GuardOk (s'.thread t) := by
  by_cases same : t = m.1
  · rw [same]; exact next_guard (ok m.1) step
  · rw [next_frame step same]; exact ok t

theorem guard_run {s u : State T C} {ms : List (T × Act C)} (ok : ∀ t, GuardOk (s.thread t))
    (run : exec next s ms = some u) (t : T) : GuardOk (u.thread t) :=
  exec_invariant (fun _ _ => True) (fun s => ∀ t, GuardOk (s.thread t))
    (fun _ _ _ ok _ step => guard_step ok step) ok (allowed_of_forall fun _ _ _ => trivial) run t

/-- A version obtained by step `a` and validated by step `b`: in every state
    between the two nobody has an exclusive section open, the page is not
    evicted, and its content is the one that step `a` saw. -/
theorem validated_reads_consistent [Fintype T] (c : C) (flag : Bool)
    (before between : List (T × Act C)) (a b : T × Act C) (w : Word) (s₀ s₁ s₂ s₃ : State T C)
    (listed : ∀ m ∈ before ++ a :: (between ++ [b]), Listed m)
    (start : exec next (initial c flag) before = some s₀) (obtain_ : next s₀ a = some s₁)
    (obtained : event s₀ a = some (.obtained w)) (run : exec next s₁ between = some s₂)
    (validate : next s₂ b = some s₃) (validates : Validates s₂ b w)
    (few : s₃.ended < 2 ^ 56 - 1) :
    ∀ early late s, between = early ++ late → exec next s₁ early = some s →
      (∀ t, ¬ InExclusive s t) ∧ getState s.word ≠ Evicted ∧ s.mem = s₁.mem := by
  intro early late s split partial_
  subst split
  have inv₀ := (listed_run (listed_initial c flag) (fun m mem => listed m (by simp [mem])) start).1
  have inv₁ := listed_step inv₀ (listed a (by simp)) obtain_
  have guards := guard_run (fun t => guard_dropped rfl)
    (exec_snoc_iff.mpr ⟨s₀, start, obtain_⟩ : exec next (initial c flag) (before ++ [a]) = some s₁)
  have listedEarly : ∀ m ∈ early, Listed m := fun m mem => listed m (by simp [mem])
  have listedLate : ∀ m ∈ late, Listed m := fun m mem => listed m (by simp [mem])
  -- the run passes through `s` on its way to the validation
  obtain ⟨s', first, second⟩ := exec_append_iff.mp run
  cases first.symm.trans partial_
  have invS := (listed_run inv₁ listedEarly first).1
  obtain ⟨inv₂, ended₂⟩ := listed_run invS listedLate second
  have ended₃ := effect_ended (inv₂.effect validate)
  -- both ends carry the same version, and neither is busy
  obtain ⟨word, _⟩ := next_obtained obtain_ obtained
  obtain ⟨same, idle⟩ := next_validates (inv₂.inv.code b.1) (guard_run guards run b.1) validate
    validates
  rw [← word] at same
  obtain ⟨up, back⟩ := quiet_between inv₁ listedEarly first (by omega)
  obtain ⟨up', back'⟩ := quiet_between invS listedLate second (by omega)
  obtain ⟨idleS, _⟩ := back' (by omega) idle
  obtain ⟨_, mem⟩ := back (by omega) idleS
  refine ⟨fun t held => idleS (exclusive_busy invS.inv.owned held), fun evicted => ?_, mem⟩
  exact idleS (Or.inr (getState_eq_iff.mp evicted))

/-- The page is faulted in by thread 0, which then reads its word. -/
def faultedIn : List (Fin 2 × Act ℕ) :=
  [(0, .start .init), (0, .run), (0, .run), (0, .run), (0, .run), (0, .run)]

/-- A reader comes, then thread 0 enters checkVersionAndRestart. -/
def readerComes : List (Fin 2 × Act ℕ) :=
  [(1, .start .fixS), (1, .run), (1, .run), (0, .start .check)]

theorem validated_reads_consistent_reader :
    ∃ s₁ s₂ : State (Fin 2) ℕ, exec next (initial 7 false) (faultedIn ++ [(0, .run)]) = some s₁ ∧
      exec next s₁ readerComes = some s₂ ∧ (∀ t, ¬ InExclusive s₂ t) ∧ s₂.mem = s₁.mem := by
  refine ⟨_, _, rfl, rfl, ?_⟩
  have all := validated_reads_consistent 7 false faultedIn readerComes (0, .run) (0, .run) _ _ _ _ _
    (by decide) rfl rfl rfl rfl rfl (Or.inl ⟨rfl, rfl⟩) (by decide) readerComes [] _
    (List.append_nil _).symm rfl
  exact ⟨all.1, all.2.2⟩

/-- While thread 0 unwinds, thread 1 changes the page, and then the destructor of
    the guard of thread 0 runs checkVersionAndRestart. -/
def writerComes : List (Fin 2 × Act ℕ) :=
  [(0, .raise), (1, .start .fixX), (1, .run), (1, .run), (1, .start .guardXPid), (1, .run),
   (1, .write 8), (0, .start .check)]

/-- checkVersionAndRestart does not throw during stack unwinding, so returning
    from it says nothing there. -/
theorem unwinding_check_returns :
    ∃ (w : Word) (s₀ s₁ s₂ s₃ : State (Fin 2) ℕ),
      (∀ m ∈ faultedIn ++ (0, .run) :: (writerComes ++ [(0, .run)]), Listed m) ∧
      exec next (initial 7 false) faultedIn = some s₀ ∧ next s₀ (0, .run) = some s₁ ∧
      event s₀ (0, .run) = some (.obtained w) ∧ exec next s₁ writerComes = some s₂ ∧
      next s₂ (0, .run) = some s₃ ∧ event s₂ (0, .run) = some (.returned w) ∧
      InExclusive s₂ 1 ∧ s₂.mem ≠ s₁.mem := by
  exact ⟨_, _, _, _, _, by decide, rfl, rfl, rfl, rfl, rfl, rfl, rfl, by decide⟩

end PageState
