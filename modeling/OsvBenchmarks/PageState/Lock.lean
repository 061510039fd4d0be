import OsvBenchmarks.PageState.Exclusion

/-!
The lock of one page, with marking and the clean eviction path but without the
bookkeeping of dirty candidates.
-/
namespace PageState
open RwLock Runs
variable {T C : Type} [DecidableEq T]

def Sharing (s : State T C) (t : T) : Prop := s.owners t = .shared

/-- An exclusive section of the thread is open: a GuardX, a fault or an eviction. -/
def InExclusive (s : State T C) (t : T) : Prop := s.owners t = .exclusive

instance (s : State T C) (t : T) : Decidable (Sharing s t) :=
  inferInstanceAs (Decidable (_ = _))

instance (s : State T C) (t : T) : Decidable (InExclusive s t) :=
  inferInstanceAs (Decidable (_ = _))

/-- The routines other than the policy and what follows from its candidates. -/
def Listed (m : T × Act C) : Prop := m.2 ≠ .start .policy

instance [DecidableEq C] (m : T × Act C) : Decidable (Listed m) :=
  inferInstanceAs (Decidable (_ ≠ _))

def Ret.ofCandidate : Ret → Bool
  | .canLast _ => true
  | _ => false

def Pc.ofCandidate : Pc → Bool
  | .policy | .policyDirty _ | .policyShare _ | .policyAdd | .isDirty | .writeBack
  | .canBeEvicted | .canLock _ | .canDirty _ | .canClear _ | .canUpgrade _ | .canLast _
  | .evictable => true
  | .unlockX _ ret | .unlockXStore _ _ ret | .unlockS ret | .unlockSOnce _ ret => ret.ofCandidate
  | .idle | .crashed | .fixX | .fixXLock _ | .fixXFault | .fixS | .fixSLock _ | .fixSFault
  | .fixSShare _ | .init | .initClear _ | .initLock _ | .initFault | .check | .checkClear _
  | .guardX | .guardXLock _ | .guardXDirty | .guardS | .mark | .markOnce _ | .cleanEvict
  | .cleanEvictLock _ => false

theorem run_ofCandidate {s : State T C} {t : T} {pc : Pc} (here : (s.thread t).pc = pc)
    (out : pc.ofCandidate = false) :
    ((runPc s t pc).2.thread t).pc.ofCandidate = false := by
  cases pc with
  | unlockXStore v st ret =>
    cases ret <;> simp_all [runPc, Pc.ofCandidate, Ret.ofCandidate, Ret.pc]
  | unlockSOnce v ret =>
    simp only [runPc]
    split <;> cases ret <;> simp_all [Pc.ofCandidate, Ret.ofCandidate, Ret.pc]
  | _ =>
    simp only [runPc, State.invalid]
    (repeat' split) <;> simp_all [Pc.ofCandidate, State.throw, Ret.ofCandidate]

theorem start_ofCandidate {s s' : State T C} {t : T} {r : Routine} (listed : r ≠ .policy)
    (h : startRoutine s t r = some s') : (s'.thread t).pc.ofCandidate = false := by
  unfold startRoutine at h
  split at h <;> cases h <;> simp_all [Pc.ofCandidate, Ret.ofCandidate]

theorem next_ofCandidate {s s' : State T C} {m : T × Act C} (listed : Listed m)
    (out : ∀ t, (s.thread t).pc.ofCandidate = false) (step : next s m = some s') :
    (s'.thread m.1).pc.ofCandidate = false := by
  obtain ⟨t, a⟩ := m
  have mine := out t
  cases next_moved step with
  | run => exact run_ofCandidate rfl mine
  | start r _ idle h => exact start_ofCandidate (fun same => listed (by rw [same])) h
  | write c idle held => exact mine
  | flag _ b idle => simpa using mine
  | jump _ pc j =>
    cases j with
    | initAgain v here => simp [Pc.ofCandidate]
    | giveBack v here => simp [here, Pc.ofCandidate] at mine
    | taken here => simp [here, Pc.ofCandidate] at mine
    | refusedShare here held => simp [here, Pc.ofCandidate] at mine
    | refused here => simp [here, Pc.ofCandidate] at mine
  | invalid _ v version here =>
    simp only [State.invalid]
    split <;> simp [Pc.ofCandidate, State.throw]

omit [DecidableEq T] in
/-- Without candidates there is no vmcache_canBeEvicted to restrict. -/
theorem safe_ofCandidate {s : State T C} {m : T × Act C}
    (out : ∀ t, (s.thread t).pc.ofCandidate = false) : EvictionSafe s m := by
  intro _
  have mine := out m.1
  split
  · rename_i here; simp [here, Pc.ofCandidate] at mine
  · rename_i here; simp [here, Pc.ofCandidate] at mine
  · trivial

/-- As long as the version has not run over, it counts the exclusive sections and
    the word describes the owners. -/
structure Counted [Fintype T] (s : State T C) : Prop where
  describes : Describes s.owners (status s.word)
  count : version s.word = s.ended

theorem effect_version {s s' : State T C} {t : T} (e : Effect s s' t)
    (room : version s.word + 1 < 2 ^ 56) :
    version s'.word =
      version s.word + if InExclusive s t ∧ ¬ InExclusive s' t then 1 else 0 := by
  cases e with
  | quiet word owners => simp [word, InExclusive, owners]
  | recolor st color free word owners => simp [word, InExclusive, owners]
  | lockX free word owners => simp [word, InExclusive, owners]
  | unlockX st color held word owners =>
    simp [word, InExclusive, owners, held, version_nextVersion room]
  | lockS unheld word owners =>
    rw [(tryLockS_some word).2.1]
    simp [InExclusive, unheld]
  | unlockS held word owners =>
    rw [(unlockSOnce_some word).2.1]
    simp [InExclusive, held]
  | upgrade held one word owners => simp [word, InExclusive, owners]

theorem effect_ended {s s' : State T C} {t : T} (e : Effect s s' t) :
    s'.ended = s.ended + if InExclusive s t ∧ ¬ InExclusive s' t then 1 else 0 := by
  cases e with
  | quiet word owners ended => simp [InExclusive, owners, ended]
  | recolor st color free word owners ended => simp [InExclusive, owners, ended]
  | lockX free word owners ended => simp [InExclusive, owners, ended]
  | unlockX st color held word owners ended => simp [InExclusive, owners, held, ended]
  | lockS unheld word owners ended => simp [InExclusive, unheld, ended]
  | unlockS held word owners ended => simp [InExclusive, held, ended]
  | upgrade held one word owners ended => simp [InExclusive, owners, ended]

theorem counted_step [Fintype T] {s s' : State T C} {t : T} (counted : Counted s)
    (e : Effect s s' t) (room : s'.ended < 2 ^ 56) : Counted s' := by
  have count := counted.count
  have ended := effect_ended e
  by_cases fits : version s.word + 1 < 2 ^ 56
  · exact ⟨effect_describes e (Or.inr fits) counted.describes, by
      rw [effect_version e fits, ended, count]⟩
  · have same : s'.ended = s.ended := by split at ended <;> omega
    refine ⟨effect_describes e (Or.inl same) counted.describes, ?_⟩
    rw [same, ← count]
    cases e with
    | quiet word => rw [word]
    | recolor st color free word => rw [word, version_sameVersion]
    | lockX free word => rw [word, version_sameVersion]
    | unlockX st color held word owners more => omega
    | lockS unheld word => exact (tryLockS_some word).2.1
    | unlockS held word => exact (unlockSOnce_some word).2.1
    | upgrade held one word => rw [word, version_sameVersion]

omit [DecidableEq T] in
theorem counted_initial [Fintype T] (c : C) (b : Bool) : Counted (initial c b : State T C) :=
  ⟨initial_describes c b, version_sameVersion 0 Evicted⟩

structure ListedInv [Fintype T] (s : State T C) : Prop where
  out : ∀ t, (s.thread t).pc.ofCandidate = false
  inv : Inv s
  counted : s.ended < 2 ^ 56 → Counted s

theorem ListedInv.effect [Fintype T] {s s' : State T C} {m : T × Act C} (inv : ListedInv s)
    (step : next s m = some s') : Effect s s' m.1 :=
  (next_effect inv.inv.owned (inv.inv.code m.1) (safe_ofCandidate inv.out) step).1

theorem listed_step [Fintype T] {s s' : State T C} {m : T × Act C} (inv : ListedInv s)
    (listed : Listed m) (step : next s m = some s') : ListedInv s' := by
  refine ⟨fun t => ?_, inv_step inv.inv (safe_ofCandidate inv.out) step, fun room => ?_⟩
  · by_cases same : t = m.1
    · rw [same]; exact next_ofCandidate listed inv.out step
    · rw [next_frame step same]; exact inv.out t
  · have ended := effect_ended (inv.effect step)
    exact counted_step (inv.counted (by omega)) (inv.effect step) room

theorem listed_run [Fintype T] {s u : State T C} {ms : List (T × Act C)} (inv : ListedInv s)
    (listed : ∀ m ∈ ms, Listed m) (run : exec next s ms = some u) :
    ListedInv u ∧ s.ended ≤ u.ended := by
  refine exec_invariant (fun _ m => Listed m) (fun v => ListedInv v ∧ s.ended ≤ v.ended)
    (fun v m v' inv ok step => ?_) ⟨inv, Nat.le_refl _⟩
    (allowed_of_forall fun _ m mem => listed m mem) run
  have ended := effect_ended (inv.1.effect step)
  exact ⟨listed_step inv.1 ok step, by omega⟩

omit [DecidableEq T] in
theorem listed_initial [Fintype T] (c : C) (b : Bool) : ListedInv (initial c b : State T C) :=
  ⟨fun _ => rfl, inv_initial c b, fun _ => counted_initial c b⟩

/-- Who owns the page and what its state byte says. -/
def Exact [Fintype T] (s : State T C) : Prop :=
  (∃ t, InExclusive s t ∧ (∀ u, InExclusive s u → u = t) ∧ (∀ u, ¬ Sharing s u) ∧
    getState s.word = Locked) ∨
  (∃ k, 1 ≤ k ∧ k ≤ MaxShared.toNat ∧ (Finset.univ.filter (Sharing s)).card = k ∧
    (∀ u, ¬ InExclusive s u) ∧ (getState s.word).toNat = k) ∨
  ((∀ u, ¬ InExclusive s u ∧ ¬ Sharing s u) ∧
    (getState s.word = Unlocked ∨ getState s.word = Marked ∨ getState s.word = Evicted))

theorem describes_exact [Fintype T] {s : State T C}
    (desc : Describes s.owners (status s.word)) : Exact s := by
  cases hs : status s.word with
  | free =>
    rw [hs] at desc
    refine Or.inr (Or.inr ⟨fun u => ?_, ?_⟩)
    · simp [InExclusive, Sharing, describes_free desc u]
    · simpa [getState_eq_iff] using status_free_iff.mp hs
  | shared n =>
    rw [hs] at desc
    obtain ⟨pos, count, readers⟩ := describes_shared desc
    obtain ⟨bytes, _, bound⟩ := status_shared_iff.mp hs
    refine Or.inr (Or.inl ⟨n, pos, bound, count, readers, ?_⟩)
    rw [getState_toNat, bytes]
  | exclusive =>
    rw [hs] at desc
    obtain ⟨t, writer, alone⟩ := describes_exclusive desc
    refine Or.inl ⟨t, writer, fun u hu => ?_, fun u hu => ?_, ?_⟩
    · by_contra ne
      rw [InExclusive, alone u ne] at hu
      cases hu
    · by_cases same : u = t
      · subst same; rw [Sharing, writer] at hu; cases hu
      · rw [Sharing, alone u same] at hu; cases hu
    · exact getState_eq_iff.mpr (status_exclusive_iff.mp hs)

/-- The assertions of unlockX, unlockXEvicted and unlockS where the code has them. -/
def AssertsHold (s : State T C) : Prop :=
  (∀ t st ret, (s.thread t).pc = .unlockX st ret → getState s.word = Locked) ∧
  (∀ t v ret, (s.thread t).pc = .unlockSOnce v ret → 0 < getState v ∧ getState v ≤ MaxShared)

theorem inv_asserts [Fintype T] {s : State T C} (inv : Inv s) : AssertsHold s := by
  refine ⟨fun t st ret here => ?_, fun t v ret here => ?_⟩
  · have code := inv.code t
    simp only [PcOk, here] at code
    exact getState_eq_iff.mpr (exclusive_byte inv.owned code.2.1).1
  · have code := inv.code t
    simp only [PcOk, here] at code
    rw [BitVec.lt_def, BitVec.le_def, getState_toNat]
    exact code.2.2

/-- Any number of threads, any order of their atomic steps: the state byte says
    exactly who owns the page, and the version counts the exclusive sections. -/
theorem page_lock_mutual_exclusion [Fintype T] (c : C) (b : Bool) (ms : List (T × Act C)) (s : State T C)
    (listed : ∀ m ∈ ms, Listed m) (run : exec next (initial c b) ms = some s)
    (few : s.ended < 2 ^ 56 - 1) :
    Exact s ∧ AssertsHold s ∧ version s.word = s.ended ∧
      ∀ m s', Listed m → next s m = some s' →
        version s'.word =
          version s.word + if InExclusive s m.1 ∧ ¬ InExclusive s' m.1 then 1 else 0 := by
  have inv := (listed_run (listed_initial c b) listed run).1
  obtain ⟨describes, count⟩ := inv.counted (by omega)
  refine ⟨describes_exact describes, inv_asserts inv.inv, count, fun m s' _ step => ?_⟩
  exact effect_version (inv.effect step) (by omega)

/-- Two readers, a writer that waits for them, and a fault before. -/
def twoReaders : List (Fin 3 × Act ℕ) :=
  [(0, .start .fixS), (0, .run), (0, .run), (0, .run), (0, .run), (0, .run), (0, .run), (0, .run),
   (1, .start .fixS), (1, .run), (1, .run), (2, .start .fixX), (2, .run)]

theorem page_lock_mutual_exclusion_two_readers :
    ∃ s, exec next (initial 7 false) twoReaders = some s ∧ (getState s.word).toNat = 2 ∧ Exact s := by
  obtain ⟨s, run, seen⟩ := exec_observe next (initial 7 false) twoReaders
    (fun s => (s.ended, (getState s.word).toNat)) (1, 2) (by decide)
  obtain ⟨ended, readers⟩ := Prod.mk.inj seen
  exact ⟨s, run, readers,
    (page_lock_mutual_exclusion 7 false twoReaders s (by decide) run (by omega)).1⟩

end PageState
