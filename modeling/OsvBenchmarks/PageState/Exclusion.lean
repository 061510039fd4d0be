import OsvBenchmarks.PageState.Machine

/-!
Mutual exclusion on one page. Every atomic step has one of seven effects on
the word and its owners; each effect keeps the word an exact description of
the owners, so the whole machine does.
-/
namespace PageState
open RwLock Runs
variable {T C : Type} [DecidableEq T]

/-- What a word says about the owners of the page. -/
def status (w : Word) : Status :=
  if byte w = 253 then .exclusive
  else if 0 < byte w ∧ byte w ≤ 252 then .shared (byte w)
  else .free

def State.owners (s : State T C) (t : T) : Mode := (s.thread t).hold.mode

@[simp] theorem owners_put (s : State T C) (t : T) (th : Thread) :
    (s.put t th).owners = Function.update s.owners t th.hold.mode := by
  funext u
  by_cases same : u = t
  · subst u; simp [State.owners, State.put]
  · simp [State.owners, State.put, same]

@[simp] theorem owners_goto (s : State T C) (t : T) (pc : Pc) :
    (s.goto t pc).owners = s.owners := by
  rw [State.goto, owners_put]
  exact Function.update_eq_self t s.owners

@[simp] theorem owners_hold (s : State T C) (t : T) (h : Hold) (pc : Pc) :
    (s.hold t h pc).owners = Function.update s.owners t h.mode := by
  simp [State.hold]

omit [DecidableEq T] in
@[simp] theorem owners_setWord (s : State T C) (w : Word) : (s.setWord w).owners = s.owners := rfl

@[simp] theorem owners_throw (s : State T C) (t : T) : (s.throw t).owners = s.owners := by
  rw [State.throw, owners_put]
  exact Function.update_eq_self t s.owners

omit [DecidableEq T] in
@[simp] theorem fault_thread (s : State T C) : s.fault.thread = s.thread := rfl

omit [DecidableEq T] in
@[simp] theorem writeBack_thread (s : State T C) : s.writeBack.thread = s.thread := rfl

/-- The effects a step of thread `t` may have on the word and its owners. -/
inductive Effect (s s' : State T C) (t : T) : Prop where
  | quiet (word : s'.word = s.word) (owners : s'.owners = s.owners) (ended : s'.ended = s.ended)
  | recolor (st : Word) (color : st = Unlocked ∨ st = Marked)
      (free : byte s.word = 0 ∨ byte s.word = 254)
      (word : s'.word = sameVersion s.word st) (owners : s'.owners = s.owners)
      (ended : s'.ended = s.ended)
  | lockX (free : status s.word = .free) (word : s'.word = sameVersion s.word Locked)
      (owners : s'.owners = Function.update s.owners t .exclusive) (ended : s'.ended = s.ended)
  | unlockX (st : Word) (color : st = Unlocked ∨ st = Evicted) (held : s.owners t = .exclusive)
      (word : s'.word = nextVersion s.word st)
      (owners : s'.owners = Function.update s.owners t .free) (ended : s'.ended = s.ended + 1)
      (evicting : st = Evicted → (s.thread t).hold = .evicting)
  | lockS (unheld : s.owners t = .free) (word : tryLockS s.word s.word = some s'.word)
      (owners : s'.owners = Function.update s.owners t .shared) (ended : s'.ended = s.ended)
  | unlockS (held : s.owners t = .shared) (word : unlockSOnce s.word s.word = some s'.word)
      (owners : s'.owners = Function.update s.owners t .free) (ended : s'.ended = s.ended)
  | upgrade (held : s.owners t = .shared) (one : byte s.word = 1)
      (word : s'.word = sameVersion s.word Locked)
      (owners : s'.owners = Function.update s.owners t .exclusive) (ended : s'.ended = s.ended)

theorem tryLockX_some {word old w : Word} (h : tryLockX word old = some w) :
    word = old ∧ w = sameVersion word Locked := by
  unfold tryLockX at h
  split at h
  · rename_i same
    cases h
    exact ⟨same, by rw [same]⟩
  · cases h

theorem tryMark_some {word old w : Word} (h : tryMark word old = some w) :
    word = old ∧ w = sameVersion word Marked := by
  unfold tryMark at h
  split at h
  · rename_i same
    cases h
    exact ⟨same, by rw [same]⟩
  · cases h

theorem tryLockS_some {word old w : Word} (h : tryLockS word old = some w) :
    word = old ∧ version w = version word ∧
      ((byte word < 252 ∧ byte w = byte word + 1) ∨ (byte word = 254 ∧ byte w = 1)) := by
  have small : getState old < MaxShared ↔ byte old < 252 := by
    rw [BitVec.lt_def, getState_toNat]; rfl
  have marked : getState old = Marked ↔ byte old = 254 := getState_eq_iff
  simp only [tryLockS, small, marked] at h
  split at h
  · rename_i less
    split at h
    · rename_i same
      cases h
      subst same
      refine ⟨rfl, by simp, Or.inl ⟨less, ?_⟩⟩
      rw [byte_sameVersion, BitVec.toNat_add, getState_toNat]
      change (byte word + 1) % 2 ^ 64 % 256 = _
      omega
    · cases h
  · split at h
    · rename_i mark
      split at h
      · rename_i same
        cases h
        subst same
        exact ⟨rfl, by simp, Or.inr ⟨mark, by simp⟩⟩
      · cases h
    · cases h

theorem unlockSOnce_some {word old w : Word} (h : unlockSOnce word old = some w) :
    word = old ∧ version w = version word ∧ (0 < byte word → byte w = byte word - 1) := by
  unfold unlockSOnce at h
  split at h
  · rename_i same
    cases h
    subst same
    refine ⟨rfl, by simp, fun pos => ?_⟩
    have := byte_lt word
    rw [byte_sameVersion, BitVec.toNat_sub, getState_toNat]
    change (2 ^ 64 - 1 + byte word) % 2 ^ 64 % 256 = _
    omega
  · cases h

theorem status_free_iff {w : Word} :
    status w = .free ↔ byte w = 0 ∨ byte w = 254 ∨ byte w = 255 := by
  have := byte_lt w
  unfold status
  split
  · simp; omega
  · split
    · simp; omega
    · simp; omega

theorem status_exclusive_iff {w : Word} : status w = .exclusive ↔ byte w = 253 := by
  unfold status
  split
  · simpa
  · split <;> simpa

theorem status_shared_iff {w : Word} {n : ℕ} :
    status w = .shared n ↔ byte w = n ∧ 0 < n ∧ n ≤ 252 := by
  unfold status
  split
  · simp; omega
  · split
    · simp; omega
    · simp; omega

theorem effect_describes [Fintype T] {s s' : State T C} {t : T} (e : Effect s s' t)
    (room : s'.ended = s.ended ∨ version s.word + 1 < 2 ^ 56)
    (h : Describes s.owners (status s.word)) : Describes s'.owners (status s'.word) := by
  cases e with
  | quiet word owners => rwa [word, owners]
  | recolor st color free word owners ended =>
    have old : status s.word = .free := status_free_iff.mpr (by omega)
    have still : status s'.word = .free := by
      rw [status_free_iff, word, byte_sameVersion]
      rcases color with rfl | rfl
      · left; rfl
      · right; left; rfl
    rw [still, owners]
    exact old ▸ h
  | lockX free word owners ended =>
    have locked : status s'.word = .exclusive := by
      rw [status_exclusive_iff, word, byte_sameVersion]; rfl
    rw [locked, owners]
    exact acquire t (free ▸ h)
  | unlockX st color held word owners ended =>
    have room : version s.word + 1 < 2 ^ 56 := by omega
    have freed : status s'.word = .free := by
      rw [status_free_iff, word, byte_nextVersion room]
      rcases color with rfl | rfl
      · left; rfl
      · right; right; rfl
    rw [freed, owners]
    exact release h held
  | lockS unheld word owners ended =>
    obtain ⟨_, _, cases⟩ := tryLockS_some word
    rw [owners]
    rcases cases with ⟨less, more⟩ | ⟨marked, one⟩
    · by_cases first : byte s.word = 0
      · have free : status s.word = .free := status_free_iff.mpr (Or.inl first)
        have shared : status s'.word = .shared 1 := status_shared_iff.mpr (by omega)
        rw [shared]
        exact share_first t (free ▸ h)
      · have old : status s.word = .shared (byte s.word) := status_shared_iff.mpr (by omega)
        have new : status s'.word = .shared (byte s.word + 1) := status_shared_iff.mpr (by omega)
        rw [new]
        exact share_more (old ▸ h) unheld
    · have free : status s.word = .free := status_free_iff.mpr (Or.inr (Or.inl marked))
      have shared : status s'.word = .shared 1 := status_shared_iff.mpr (by omega)
      rw [shared]
      exact share_first t (free ▸ h)
  | unlockS held word owners ended =>
    obtain ⟨_, _, less⟩ := unlockSOnce_some word
    obtain ⟨old, pos, _⟩ := shared_status h held
    obtain ⟨bytes, pos, bound⟩ := status_shared_iff.mp old
    have fewer := unshare (old ▸ h) held
    have new : status s'.word =
        if sharers s.owners = 1 then .free else .shared (sharers s.owners - 1) := by
      split
      · exact status_free_iff.mpr (Or.inl (by omega))
      · exact status_shared_iff.mpr (by omega)
    rw [owners, new]
    exact fewer
  | upgrade held one word owners ended =>
    have old : status s.word = .shared 1 := status_shared_iff.mpr (by omega)
    have locked : status s'.word = .exclusive := by
      rw [status_exclusive_iff, word, byte_sameVersion]; rfl
    rw [locked, owners]
    exact RwLock.upgrade (old ▸ h) held

/-- Threads a routine returns to after unlockS hold nothing that is Locked. -/
def Ret.Ok : Ret → Prop
  | .canLast v => byte v ≠ 253
  | _ => True

def PcOk (word : Word) (th : Thread) : Prop :=
  match th.pc with
  | .idle | .crashed | .fixX | .init | .check | .guardX | .mark | .cleanEvict => True
  | .fixXLock v => byte v = 0 ∨ byte v = 254 ∨ byte v = 255
  | .guardXLock v => byte v = 0 ∨ byte v = 254
  | .fixXFault | .fixSFault | .initFault | .guardXDirty => th.hold = .fixed
  | .fixS | .fixSShare _ | .guardS | .policy => th.hold = .free
  | .fixSLock v => byte v = 255 ∧ th.hold = .free
  | .initLock v => byte v = 255
  | .unlockX st ret =>
    ret.Ok ∧ th.hold.mode = .exclusive ∧ st = if th.hold = .evicting then Evicted else Unlocked
  | .unlockXStore v st ret =>
    v = word ∧ ret.Ok ∧ th.hold.mode = .exclusive ∧
      st = if th.hold = .evicting then Evicted else Unlocked
  | .unlockS ret => ret.Ok ∧ th.hold = .shared
  | .unlockSOnce v ret => ret.Ok ∧ th.hold = .shared ∧ 0 < byte v ∧ byte v ≤ 252
  | .initClear v | .checkClear v | .canLock v | .cleanEvictLock v => byte v = 254
  | .markOnce v => byte v = 0
  | .policyDirty v | .policyShare v => byte v = 254 ∧ th.hold = .free
  | .policyAdd | .isDirty | .writeBack | .canBeEvicted => th.hold = .free ∨ th.hold = .shared
  | .canDirty v => byte v ≠ 253 ∧ (th.hold = .free ∨ th.hold = .shared)
  | .canClear v => byte v ≠ 253 ∧ th.hold = .shared
  | .canUpgrade v => byte v = 1 ∧ th.hold = .shared
  | .canLast v => byte v ≠ 253
  | .evictable => th.hold = .evicting

/-- vmcache_canBeEvicted runs on a page whose candidate took no share (a clean
    candidate) only while the page is not Locked, and past the Marked test only
    while the page is not dirty. -/
def EvictionSafe (s : State T C) (m : T × Act C) : Prop :=
  (s.thread m.1).hold = .free →
    match (s.thread m.1).pc with
    | .canBeEvicted => getState s.word ≠ Locked
    | .canDirty _ => s.dirty = false
    | _ => True

@[simp] theorem put_thread (s : State T C) (t : T) (th : Thread) : (s.put t th).thread t = th := by
  simp [State.put]

@[simp] theorem goto_thread (s : State T C) (t : T) (pc : Pc) :
    (s.goto t pc).thread t = { s.thread t with pc := pc } := by
  simp [State.goto]

@[simp] theorem hold_thread (s : State T C) (t : T) (h : Hold) (pc : Pc) :
    (s.hold t h pc).thread t = { s.thread t with hold := h, pc := pc } := by
  simp [State.hold]

theorem quiet_goto (s : State T C) (t : T) (pc : Pc) : Effect s (s.goto t pc) t :=
  .quiet rfl (owners_goto s t pc) rfl

theorem quiet_self (s : State T C) (t : T) : Effect s s t := .quiet rfl rfl rfl

theorem byte_of_getState {w : Word} {st : Word} (h : getState w = st) : byte w = st.toNat :=
  getState_eq_iff.mp h

/-- The word describes the owners, or the version has run over into the state byte
    and stands there as one share that nobody will ever give back. -/
inductive Owned [Fintype T] (s : State T C) : Prop where
  | exact (desc : Describes s.owners (status s.word))
  | overflow (readers : ∀ t, s.owners t ≠ .exclusive) (more : byte s.word = sharers s.owners + 1)
      (bound : byte s.word ≤ 252)

/-- A thread that owns a share sees neither Locked, Marked nor Evicted. -/
theorem shared_byte [Fintype T] {s : State T C} {t : T} (owned : Owned s)
    (held : (s.thread t).hold = .shared) : 0 < byte s.word ∧ byte s.word ≤ 252 := by
  have mode : s.owners t = .shared := by rw [State.owners, held]; rfl
  cases owned with
  | exact desc =>
    have := status_shared_iff.mp (shared_status desc mode).1
    omega
  | overflow readers more bound => omega

theorem exclusive_byte [Fintype T] {s : State T C} {t : T} (owned : Owned s)
    (held : s.owners t = .exclusive) : byte s.word = 253 ∧ ∀ u, u ≠ t → s.owners u = .free := by
  cases owned with
  | exact desc =>
    obtain ⟨locked, alone⟩ := exclusive_status desc held
    exact ⟨status_exclusive_iff.mp locked, alone⟩
  | overflow readers => exact absurd held (readers t)

omit [DecidableEq T] in
theorem overflow_owned [Fintype T] {s s' : State T C} {st : Word}
    (color : st = Unlocked ∨ st = Evicted) (full : version s.word + 1 = 2 ^ 56)
    (word : s'.word = nextVersion s.word st) (freed : Describes s'.owners .free) : Owned s' := by
  rw [nextVersion_overflow full] at word
  rcases color with rfl | rfl
  · have one : byte s'.word = 1 := by rw [word]; rfl
    have none : sharers s'.owners = 0 := by
      by_contra ne
      obtain ⟨u, hu⟩ := sharers_pos_iff.mp (Nat.pos_of_ne_zero ne)
      rw [describes_free freed u] at hu
      cases hu
    exact .overflow (fun u => by simp [describes_free freed u]) (by omega) (by omega)
  · have evicted : byte s'.word = 255 := by rw [word]; rfl
    have free : status s'.word = .free := status_free_iff.mpr (Or.inr (Or.inr evicted))
    exact .exact (free ▸ freed)

theorem effect_owned_exact [Fintype T] {s s' : State T C} {t : T} (e : Effect s s' t)
    (desc : Describes s.owners (status s.word)) : Owned s' := by
  by_cases room : s'.ended = s.ended ∨ version s.word + 1 < 2 ^ 56
  · exact .exact (effect_describes e room desc)
  · obtain ⟨ended, full⟩ := not_or.mp room
    have := version_lt s.word
    cases e with
    | unlockX st color held word owners =>
      exact overflow_owned color (by omega) word (owners ▸ release desc held)
    | quiet _ _ same => exact absurd same ended
    | recolor _ _ _ _ _ same => exact absurd same ended
    | lockX _ _ _ same => exact absurd same ended
    | lockS _ _ _ same => exact absurd same ended
    | unlockS _ _ _ same => exact absurd same ended
    | upgrade _ _ _ _ same => exact absurd same ended

theorem effect_owned [Fintype T] {s s' : State T C} {t : T} (e : Effect s s' t)
    (owned : Owned s) : Owned s' := by
  cases owned with
  | exact desc => exact effect_owned_exact e desc
  | overflow readers more bound =>
    cases e with
    | quiet word owners => exact .overflow (by rwa [owners]) (by rwa [word, owners]) (by rwa [word])
    | recolor st color free => omega
    | lockX free => have := status_free_iff.mp free; omega
    | unlockX st color held => exact absurd held (readers t)
    | lockS unheld word owners =>
      have bytes := (tryLockS_some word).2.2
      refine .overflow (fun u => ?_) ?_ (by omega)
      · rw [owners]
        by_cases same : u = t
        · simp [same]
        · simpa [same] using readers u
      · rw [owners, sharers_add (by simp [unheld])]
        omega
    | unlockS held word owners =>
      have bytes := (unlockSOnce_some word).2.2 (by omega)
      have fewer := sharers_remove (m := .free) held (by simp)
      refine .overflow (fun u => ?_) ?_ (by omega)
      · rw [owners]
        by_cases same : u = t
        · simp [same]
        · simpa [same] using readers u
      · rw [owners]
        omega
    | upgrade held one =>
      have := sharers_pos_iff.mpr ⟨t, held⟩
      omega

theorem lock_effect {s s' : State T C} {t : T} {v w : Word} (h : tryLockX s.word v = some w)
    (free : byte v = 0 ∨ byte v = 254 ∨ byte v = 255) (word : s'.word = w)
    (owners : s'.owners = Function.update s.owners t .exclusive) (ended : s'.ended = s.ended) :
    Effect s s' t := by
  obtain ⟨rfl, rfl⟩ := tryLockX_some h
  exact .lockX (status_free_iff.mpr free) word owners ended

theorem share_effect {s s' : State T C} {t : T} {v w : Word} (h : tryLockS s.word v = some w)
    (unheld : (s.thread t).hold = .free) (word : s'.word = w)
    (owners : s'.owners = Function.update s.owners t .shared) (ended : s'.ended = s.ended) :
    Effect s s' t := by
  obtain ⟨rfl, _⟩ := tryLockS_some h
  exact .lockS (by rw [State.owners, unheld]; rfl) (by rw [word]; exact h) owners ended

theorem recolor_effect {s s' : State T C} {t : T} {st : Word} (color : st = Unlocked ∨ st = Marked)
    (free : byte s.word = 0 ∨ byte s.word = 254) (word : s'.word = sameVersion s.word st)
    (owners : s'.owners = s.owners) (ended : s'.ended = s.ended) : Effect s s' t :=
  .recolor st color free word owners ended

theorem invalid_effect (s : State T C) (t : T) (v : Word) (w : Word) :
    Effect s (s.invalid t v).2 t ∧ PcOk w ((s.invalid t v).2.thread t) := by
  unfold State.invalid
  split
  · exact ⟨quiet_goto s t .idle, by simp [PcOk]⟩
  · exact ⟨.quiet rfl (owners_throw s t) rfl, by simp [State.throw, PcOk]⟩

/-- What the step at `pc` does to the lock is one of the effects, and it leaves the thread at a
place it may be at. -/
abbrev RunOk (s : State T C) (t : T) (pc : Pc) : Prop :=
  Effect s (runPc s t pc).2 t ∧ PcOk (runPc s t pc).2.word ((runPc s t pc).2.thread t)

theorem fixX_effect {s : State T C} {t : T} (ok : PcOk s.word (s.thread t)) :
    RunOk s t .fixX := by
  simp only [RunOk, runPc]
  split
  · rename_i h
    refine ⟨quiet_goto s t _, ?_⟩
    simp only [goto_thread, PcOk]
    rcases h with h | h | h
    · exact Or.inr (Or.inr (byte_of_getState h))
    · exact Or.inr (Or.inl (byte_of_getState h))
    · exact Or.inl (byte_of_getState h)
  · exact ⟨quiet_self s t, ok⟩

theorem fixXLock_effect {s : State T C} {t : T} {v : Word} (hpc : (s.thread t).pc = .fixXLock v)
    (ok : PcOk s.word (s.thread t)) : RunOk s t (.fixXLock v) := by
  simp only [PcOk, hpc] at ok
  simp only [RunOk, runPc]
  split
  · rename_i w h
    refine ⟨lock_effect h ok rfl (owners_hold _ _ _ _) rfl, ?_⟩
    simp only [hold_thread]
    split <;> simp [PcOk]
  · exact ⟨quiet_goto s t _, by simp [PcOk]⟩

theorem fixS_effect {s : State T C} {t : T} (hpc : (s.thread t).pc = .fixS)
    (ok : PcOk s.word (s.thread t)) : RunOk s t .fixS := by
  simp only [PcOk, hpc] at ok
  simp only [RunOk, runPc]
  split
  · exact ⟨quiet_self s t, by simp [PcOk, hpc, ok]⟩
  · split
    · rename_i h
      exact ⟨quiet_goto s t _, by simpa [PcOk, ok] using byte_of_getState h⟩
    · exact ⟨quiet_goto s t _, by simp [PcOk, ok]⟩

theorem fixSLock_effect {s : State T C} {t : T} {v : Word} (hpc : (s.thread t).pc = .fixSLock v)
    (ok : PcOk s.word (s.thread t)) : RunOk s t (.fixSLock v) := by
  simp only [PcOk, hpc] at ok
  simp only [RunOk, runPc]
  split
  · rename_i w h
    exact ⟨lock_effect h (by omega) rfl (owners_hold _ _ _ _) rfl, by simp [PcOk]⟩
  · exact ⟨quiet_goto s t _, by simp [PcOk, ok]⟩

theorem fixSShare_effect {s : State T C} {t : T} {v : Word} (hpc : (s.thread t).pc = .fixSShare v)
    (ok : PcOk s.word (s.thread t)) : RunOk s t (.fixSShare v) := by
  simp only [PcOk, hpc] at ok
  simp only [RunOk, runPc]
  split
  · rename_i w h
    exact ⟨share_effect h ok rfl (owners_hold _ _ _ _) rfl, by simp [PcOk]⟩
  · exact ⟨quiet_goto s t _, by simp [PcOk, ok]⟩

theorem unlockXStore_effect {s : State T C} {t : T} {v st : Word} {ret : Ret}
    (hpc : (s.thread t).pc = .unlockXStore v st ret) (ok : PcOk s.word (s.thread t)) :
    RunOk s t (.unlockXStore v st ret) := by
  simp only [PcOk, hpc] at ok
  obtain ⟨rfl, next, held, color⟩ := ok
  refine ⟨.unlockX st ?_ held rfl (owners_hold _ _ _ _) rfl ?_, ?_⟩
  · rw [color]
    split <;> simp
  · intro evicted
    by_contra other
    rw [if_neg other, evicted] at color
    cases color
  · cases ret <;> simp_all [runPc, PcOk, Ret.pc, Ret.Ok]

theorem unlockSOnce_effect {s : State T C} {t : T} {v : Word} {ret : Ret}
    (hpc : (s.thread t).pc = .unlockSOnce v ret) (ok : PcOk s.word (s.thread t)) :
    RunOk s t (.unlockSOnce v ret) := by
  simp only [PcOk, hpc] at ok
  simp only [RunOk, runPc]
  split
  · rename_i w h
    obtain ⟨rfl, _⟩ := unlockSOnce_some h
    refine ⟨.unlockS (by rw [State.owners, ok.2.1]; rfl) h (owners_hold _ _ _ _) rfl, ?_⟩
    cases ret <;> simp_all [PcOk, Ret.pc, Ret.Ok]
  · exact ⟨quiet_goto s t _, by simp [PcOk, ok.1, ok.2.1]⟩

theorem init_effect {s : State T C} {t : T} (ok : PcOk s.word (s.thread t)) :
    RunOk s t .init := by
  simp only [RunOk, runPc]
  split
  · rename_i h
    exact ⟨quiet_goto s t _, by simpa [PcOk] using byte_of_getState h⟩
  · split
    · exact ⟨quiet_self s t, ok⟩
    · split
      · rename_i h
        exact ⟨quiet_goto s t _, by simpa [PcOk] using byte_of_getState h⟩
      · exact ⟨.quiet rfl (by rw [owners_put]; exact Function.update_eq_self t s.owners) rfl,
          by simp [PcOk]⟩

theorem initClear_effect {s : State T C} {t : T} {v : Word} (hpc : (s.thread t).pc = .initClear v)
    (ok : PcOk s.word (s.thread t)) : RunOk s t (.initClear v) := by
  simp only [PcOk, hpc] at ok
  simp only [RunOk, runPc]
  split
  · rename_i h
    subst h
    refine ⟨recolor_effect (Or.inl rfl) (Or.inr ok) rfl ?_ rfl, by simp [PcOk]⟩
    rw [owners_put]
    exact Function.update_eq_self t s.owners
  · exact ⟨quiet_goto s t _, by simp [PcOk]⟩

theorem initLock_effect {s : State T C} {t : T} {v : Word} (hpc : (s.thread t).pc = .initLock v)
    (ok : PcOk s.word (s.thread t)) : RunOk s t (.initLock v) := by
  simp only [PcOk, hpc] at ok
  simp only [RunOk, runPc]
  split
  · rename_i w h
    exact ⟨lock_effect h (by omega) rfl (owners_hold _ _ _ _) rfl, by simp [PcOk]⟩
  · exact ⟨quiet_goto s t _, by simp [PcOk]⟩

theorem check_effect {s : State T C} {t : T} : RunOk s t .check := by
  simp only [RunOk, runPc]
  split
  · exact ⟨quiet_goto s t _, by simp [PcOk]⟩
  · rename_i version _
    split
    · exact ⟨quiet_goto s t _, by simp [PcOk]⟩
    · split
      · split
        · exact ⟨quiet_goto s t _, by simp [PcOk]⟩
        · split
          · rename_i h
            exact ⟨quiet_goto s t _, by simpa [PcOk] using byte_of_getState h⟩
          · exact invalid_effect s t version _
      · exact invalid_effect s t version _

theorem checkClear_effect {s : State T C} {t : T} {v : Word}
    (hpc : (s.thread t).pc = .checkClear v) (ok : PcOk s.word (s.thread t)) :
    RunOk s t (.checkClear v) := by
  simp only [PcOk, hpc] at ok
  simp only [RunOk, runPc]
  split
  · exact ⟨quiet_goto s t _, by simp [PcOk]⟩
  · rename_i version _
    split
    · rename_i h
      subst h
      exact ⟨recolor_effect (Or.inl rfl) (Or.inr ok) rfl (owners_goto _ t _) rfl, by simp [PcOk]⟩
    · exact invalid_effect s t version _

theorem guardX_effect {s : State T C} {t : T} (ok : PcOk s.word (s.thread t)) :
    RunOk s t .guardX := by
  simp only [RunOk, runPc]
  split
  · exact ⟨quiet_goto s t _, by simp [PcOk]⟩
  · split
    · exact ⟨.quiet rfl (owners_throw s t) rfl, by simp [State.throw, PcOk]⟩
    · split
      · rename_i h
        refine ⟨quiet_goto s t _, ?_⟩
        simp only [goto_thread, PcOk]
        exact h.imp byte_of_getState byte_of_getState
      · exact ⟨quiet_self s t, ok⟩

theorem guardXLock_effect {s : State T C} {t : T} {v : Word}
    (hpc : (s.thread t).pc = .guardXLock v) (ok : PcOk s.word (s.thread t)) :
    RunOk s t (.guardXLock v) := by
  simp only [PcOk, hpc] at ok
  simp only [RunOk, runPc]
  split
  · rename_i version w _ h
    exact ⟨lock_effect h (by omega) rfl (owners_put _ _ _) rfl, by simp [PcOk]⟩
  · exact ⟨quiet_goto s t _, by simp [PcOk]⟩

theorem guardXDirty_effect {s : State T C} {t : T} (hpc : (s.thread t).pc = .guardXDirty)
    (ok : PcOk s.word (s.thread t)) : RunOk s t .guardXDirty := by
  simp only [PcOk, hpc] at ok
  refine ⟨.quiet rfl ?_ rfl, by simp [runPc, PcOk]⟩
  have same : Hold.exclusive.mode = s.owners t := by rw [State.owners, ok]; rfl
  change State.owners (State.hold _ t .exclusive .idle) = _
  rw [owners_hold, same]
  exact Function.update_eq_self t s.owners

theorem guardS_effect {s : State T C} {t : T} (hpc : (s.thread t).pc = .guardS)
    (ok : PcOk s.word (s.thread t)) : RunOk s t .guardS := by
  simp only [PcOk, hpc] at ok
  simp only [RunOk, runPc]
  split
  · exact ⟨quiet_goto s t _, by simp [PcOk]⟩
  · split
    · rename_i w h
      exact ⟨share_effect h ok rfl (owners_put _ _ _) rfl, by simp [PcOk]⟩
    · exact ⟨.quiet rfl (owners_throw s t) rfl, by simp [State.throw, PcOk]⟩

theorem markOnce_effect {s : State T C} {t : T} {v : Word} (hpc : (s.thread t).pc = .markOnce v)
    (ok : PcOk s.word (s.thread t)) : RunOk s t (.markOnce v) := by
  simp only [PcOk, hpc] at ok
  simp only [RunOk, runPc]
  split
  · rename_i w h
    obtain ⟨rfl, rfl⟩ := tryMark_some h
    exact ⟨recolor_effect (Or.inr rfl) (Or.inl ok) rfl (owners_goto _ t _) rfl, by simp [PcOk]⟩
  · exact ⟨quiet_goto s t _, by simp [PcOk]⟩

theorem cleanEvictLock_effect {s : State T C} {t : T} {v : Word}
    (hpc : (s.thread t).pc = .cleanEvictLock v) (ok : PcOk s.word (s.thread t)) :
    RunOk s t (.cleanEvictLock v) := by
  simp only [PcOk, hpc] at ok
  simp only [RunOk, runPc]
  split
  · rename_i w h
    exact ⟨lock_effect h (by omega) rfl (owners_hold _ _ _ _) rfl,
      by simp [PcOk, Ret.Ok, Hold.mode]⟩
  · exact ⟨quiet_goto s t _, by simp [PcOk]⟩

theorem policy_effect {s : State T C} {t : T} (hpc : (s.thread t).pc = .policy)
    (ok : PcOk s.word (s.thread t)) : RunOk s t .policy := by
  simp only [PcOk, hpc] at ok
  simp only [RunOk, runPc]
  split
  · rename_i h
    exact ⟨quiet_goto s t _, by simpa [PcOk, ok] using byte_of_getState h⟩
  · split
    · rename_i h
      exact ⟨quiet_goto s t _, by simpa [PcOk] using byte_of_getState h⟩
    · exact ⟨quiet_goto s t _, by simp [PcOk]⟩

theorem policyShare_effect {s : State T C} {t : T} {v : Word}
    (hpc : (s.thread t).pc = .policyShare v) (ok : PcOk s.word (s.thread t)) :
    RunOk s t (.policyShare v) := by
  simp only [PcOk, hpc] at ok
  simp only [RunOk, runPc]
  split
  · rename_i w h
    exact ⟨share_effect h ok.2 rfl (owners_hold _ _ _ _) rfl, by simp [PcOk]⟩
  · exact ⟨quiet_goto s t _, by simp [PcOk]⟩

theorem canBeEvicted_effect [Fintype T] {s : State T C} {t : T} (owned : Owned s)
    (hpc : (s.thread t).pc = .canBeEvicted) (ok : PcOk s.word (s.thread t))
    (safe : EvictionSafe s (t, .run)) : RunOk s t .canBeEvicted := by
  simp only [PcOk, hpc] at ok
  simp only [RunOk, runPc]
  split
  · rename_i h
    exact ⟨quiet_goto s t _, by simpa [PcOk] using byte_of_getState h⟩
  · refine ⟨quiet_goto s t _, ?_⟩
    simp only [goto_thread, PcOk]
    refine ⟨?_, ok⟩
    rcases ok with free | shared
    · have notLocked : getState s.word ≠ Locked := by simpa [EvictionSafe, hpc, free] using safe
      exact fun h => notLocked (getState_eq_iff.mpr h)
    · have := shared_byte owned shared
      omega

theorem canLock_effect {s : State T C} {t : T} {v : Word} (hpc : (s.thread t).pc = .canLock v)
    (ok : PcOk s.word (s.thread t)) : RunOk s t (.canLock v) := by
  simp only [PcOk, hpc] at ok
  simp only [RunOk, runPc]
  split
  · rename_i w h
    exact ⟨lock_effect h (by omega) rfl (owners_hold _ _ _ _) rfl, by simp [PcOk]⟩
  · exact ⟨quiet_goto s t _, by simp [PcOk]⟩

theorem canDirty_effect {s : State T C} {t : T} {v : Word} (hpc : (s.thread t).pc = .canDirty v)
    (ok : PcOk s.word (s.thread t)) (safe : EvictionSafe s (t, .run)) :
    RunOk s t (.canDirty v) := by
  simp only [PcOk, hpc] at ok
  refine ⟨quiet_goto s t _, ?_⟩
  simp only [runPc, goto_thread]
  split
  · rename_i dirty
    rcases ok.2 with free | shared
    · have clean : s.dirty = false := by simpa [EvictionSafe, hpc, free] using safe
      rw [clean] at dirty
      cases dirty
    · exact ⟨ok.1, shared⟩
  · exact ok.1

theorem canClear_effect {s : State T C} {t : T} {v : Word} (hpc : (s.thread t).pc = .canClear v)
    (ok : PcOk s.word (s.thread t)) : RunOk s t (.canClear v) := by
  simp only [PcOk, hpc] at ok
  refine ⟨.quiet rfl (owners_goto _ t _) rfl, ?_⟩
  simp only [runPc, goto_thread]
  split
  · rename_i one
    exact ⟨byte_of_getState one, ok.2⟩
  · exact ok

theorem canUpgrade_effect [Fintype T] {s : State T C} {t : T} {v : Word} (owned : Owned s)
    (hpc : (s.thread t).pc = .canUpgrade v) (ok : PcOk s.word (s.thread t)) :
    RunOk s t (.canUpgrade v) := by
  simp only [PcOk, hpc] at ok
  simp only [RunOk, runPc]
  split
  · rename_i w h
    obtain ⟨rfl, rfl⟩ := tryLockX_some h
    exact ⟨.upgrade (by rw [State.owners, ok.2]; rfl) ok.1 rfl (owners_hold _ _ _ _) rfl,
      by simp [PcOk]⟩
  · have := shared_byte owned ok.2
    refine ⟨quiet_goto s t _, ?_⟩
    simp only [goto_thread, PcOk, Ret.Ok]
    exact ⟨by omega, ok.2⟩

theorem canLast_effect {s : State T C} {t : T} {v : Word} (hpc : (s.thread t).pc = .canLast v)
    (ok : PcOk s.word (s.thread t)) : RunOk s t (.canLast v) := by
  simp only [PcOk, hpc] at ok
  simp only [RunOk, runPc]
  split
  · rename_i h
    exact absurd (byte_of_getState h) ok
  · exact ⟨quiet_goto s t _, by simp [PcOk]⟩

theorem run_effect [Fintype T] {s : State T C} {t : T} (owned : Owned s)
    (ok : PcOk s.word (s.thread t)) (safe : EvictionSafe s (t, .run)) :
    RunOk s t (s.thread t).pc := by
  cases hpc : (s.thread t).pc with
  | idle =>
    rw [RunOk, runPc_idle]
    exact ⟨quiet_self s t, ok⟩
  | crashed => exact ⟨quiet_self s t, ok⟩
  | fixX => exact fixX_effect ok
  | fixXLock v => exact fixXLock_effect hpc ok
  | fixXFault => exact ⟨.quiet rfl (owners_goto _ t _) rfl, by simp [runPc, PcOk]⟩
  | fixS => exact fixS_effect hpc ok
  | fixSLock v => exact fixSLock_effect hpc ok
  | fixSFault =>
    simp only [PcOk, hpc] at ok
    exact ⟨.quiet rfl (owners_goto _ t _) rfl, by simp [runPc, PcOk, Ret.Ok, State.goto, ok, Hold.mode]⟩
  | fixSShare v => exact fixSShare_effect hpc ok
  | unlockX st ret =>
    simp only [PcOk, hpc] at ok
    exact ⟨quiet_goto s t _, by simpa [runPc, PcOk, State.goto, State.put] using ok⟩
  | unlockXStore v st ret => exact unlockXStore_effect hpc ok
  | unlockS ret =>
    simp only [PcOk, hpc] at ok
    have bytes := shared_byte owned ok.2
    exact ⟨quiet_goto s t _, by simpa [runPc, PcOk, bytes] using ok⟩
  | unlockSOnce v ret => exact unlockSOnce_effect hpc ok
  | init => exact init_effect ok
  | initClear v => exact initClear_effect hpc ok
  | initLock v => exact initLock_effect hpc ok
  | initFault =>
    simp only [PcOk, hpc] at ok
    exact ⟨.quiet rfl (owners_goto _ t _) rfl, by simp [runPc, PcOk, Ret.Ok, State.goto, ok, Hold.mode]⟩
  | check => exact check_effect
  | checkClear v => exact checkClear_effect hpc ok
  | guardX => exact guardX_effect ok
  | guardXLock v => exact guardXLock_effect hpc ok
  | guardXDirty => exact guardXDirty_effect hpc ok
  | guardS => exact guardS_effect hpc ok
  | mark =>
    simp only [RunOk, runPc]
    split
    · rename_i h
      exact ⟨quiet_goto s t _, by simpa [PcOk] using byte_of_getState h⟩
    · exact ⟨quiet_goto s t _, by simp [PcOk]⟩
  | markOnce v => exact markOnce_effect hpc ok
  | cleanEvict =>
    simp only [RunOk, runPc]
    split
    · rename_i h
      exact ⟨quiet_goto s t _, by simpa [PcOk] using byte_of_getState h⟩
    · exact ⟨quiet_goto s t _, by simp [PcOk]⟩
  | cleanEvictLock v => exact cleanEvictLock_effect hpc ok
  | policy => exact policy_effect hpc ok
  | policyDirty v =>
    simp only [PcOk, hpc] at ok
    simp only [RunOk, runPc]
    split
    · exact ⟨quiet_goto s t _, by simp [PcOk, ok]⟩
    · exact ⟨quiet_goto s t _, by simp [PcOk, ok]⟩
  | policyShare v => exact policyShare_effect hpc ok
  | policyAdd => exact ⟨quiet_self s t, ok⟩
  | isDirty =>
    simp only [PcOk, hpc] at ok
    refine ⟨quiet_goto s t _, ?_⟩
    simp only [runPc, goto_thread]
    split <;> simpa [PcOk] using ok
  | writeBack =>
    simp only [PcOk, hpc] at ok
    exact ⟨.quiet rfl (owners_goto _ t _) rfl, by simpa [runPc, PcOk] using ok⟩
  | canBeEvicted => exact canBeEvicted_effect owned hpc ok safe
  | canLock v => exact canLock_effect hpc ok
  | canDirty v => exact canDirty_effect hpc ok safe
  | canClear v => exact canClear_effect hpc ok
  | canUpgrade v => exact canUpgrade_effect owned hpc ok
  | canLast v => exact canLast_effect hpc ok
  | evictable =>
    simp only [PcOk, hpc] at ok
    exact ⟨quiet_goto s t _, by simp [runPc, PcOk, Ret.Ok, ok, Hold.mode]⟩

theorem put_thread_ne (s : State T C) {t u : T} (ne : u ≠ t) (th : Thread) :
    (s.put t th).thread u = s.thread u := by
  simp [State.put, ne]

theorem goto_thread_ne (s : State T C) {t u : T} (ne : u ≠ t) (pc : Pc) :
    (s.goto t pc).thread u = s.thread u := put_thread_ne s ne _

theorem hold_thread_ne (s : State T C) {t u : T} (ne : u ≠ t) (h : Hold) (pc : Pc) :
    (s.hold t h pc).thread u = s.thread u := put_thread_ne s ne _

theorem throw_thread_ne (s : State T C) {t u : T} (ne : u ≠ t) :
    (s.throw t).thread u = s.thread u := put_thread_ne s ne _

theorem invalid_thread_ne (s : State T C) {t u : T} (ne : u ≠ t) (v : Word) :
    (s.invalid t v).2.thread u = s.thread u := by
  unfold State.invalid
  split
  · exact goto_thread_ne s ne _
  · exact throw_thread_ne s ne

theorem run_frame (s : State T C) {t u : T} (ne : u ≠ t) (pc : Pc) :
    (runPc s t pc).2.thread u = s.thread u := by
  have put := fun s : State T C => put_thread_ne s ne
  have goto := fun s : State T C => goto_thread_ne s ne
  have hold := fun s : State T C => hold_thread_ne s ne
  have throw := fun s : State T C => throw_thread_ne s ne
  have invalid := fun s : State T C => invalid_thread_ne s ne
  cases pc <;> simp only [runPc] <;> (repeat' split) <;>
    simp [put, goto, hold, throw, invalid, State.setWord]

theorem start_quiet {s s' : State T C} {t : T} {r : Routine}
    (h : startRoutine s t r = some s') :
    Effect s s' t ∧ PcOk s'.word (s'.thread t) := by
  unfold startRoutine at h
  split at h <;> cases h <;> refine ⟨quiet_goto s t _, ?_⟩ <;>
    simp_all [PcOk, Ret.Ok, Hold.mode]

theorem flag_quiet (s : State T C) (t : T) (th : Thread) (hold : th.hold = (s.thread t).hold) :
    Effect s (s.put t th) t := by
  refine .quiet rfl ?_ rfl
  rw [owners_put, hold]
  exact Function.update_eq_self t s.owners

theorem jump_effect [Fintype T] {s : State T C} {t : T} {pc : Pc} (owned : Owned s) (ok : PcOk s.word (s.thread t))
    (j : Jump s t pc) :
    Effect s (s.goto t pc) t ∧ PcOk (s.goto t pc).word ((s.goto t pc).thread t) := by
  refine ⟨quiet_goto s t pc, ?_⟩
  cases j with
  | initAgain v here => simp [PcOk]
  | giveBack v here =>
    simp only [PcOk, here] at ok
    have bytes := shared_byte owned ok.2
    simp only [goto_thread, PcOk, Ret.Ok]
    exact ⟨by omega, ok.2⟩
  | taken here =>
    simp only [PcOk, here] at ok
    simpa [PcOk] using ok
  | refusedShare here held => simp [PcOk, Ret.Ok, held]
  | refused here => simp [PcOk]

theorem next_effect [Fintype T] {s s' : State T C} {m : T × Act C} (owned : Owned s) (ok : PcOk s.word (s.thread m.1))
    (safe : EvictionSafe s m) (step : next s m = some s') :
    Effect s s' m.1 ∧ PcOk s'.word (s'.thread m.1) := by
  obtain ⟨t, a⟩ := m
  cases next_moved step with
  | run => exact run_effect owned ok safe
  | start r _ idle h => exact start_quiet h
  | write c idle held => exact ⟨.quiet rfl rfl rfl, by simp [PcOk, idle]⟩
  | flag _ b idle => exact ⟨flag_quiet s t _ rfl, by simp [PcOk, idle]⟩
  | jump _ pc j => exact jump_effect owned ok j
  | invalid _ v version here => exact invalid_effect s t version _

theorem next_frame {s s' : State T C} {m : T × Act C} (step : next s m = some s') {u : T}
    (ne : u ≠ m.1) : s'.thread u = s.thread u := by
  obtain ⟨t, a⟩ := m
  cases next_moved step with
  | run => exact run_frame s ne _
  | start r _ idle h =>
    unfold startRoutine at h
    split at h <;> cases h <;> exact goto_thread_ne s ne _
  | write c idle held => rfl
  | flag _ b idle => exact put_thread_ne s ne _
  | jump _ pc j => exact goto_thread_ne s ne pc
  | invalid _ v version here => exact invalid_thread_ne s ne version

/-- No step of another thread changes the word under an exclusive owner. -/
theorem effect_word_stable [Fintype T] {s s' : State T C} {t u : T} (e : Effect s s' t)
    (owned : Owned s) (ne : u ≠ t) (held : s.owners u = .exclusive) : s'.word = s.word := by
  obtain ⟨locked, alone⟩ := exclusive_byte owned held
  have free := alone t ne.symm
  cases e with
  | quiet word => exact word
  | recolor st color idle => omega
  | lockX idle => have := status_free_iff.mp idle; omega
  | unlockX st color mine => rw [free] at mine; cases mine
  | lockS unheld word =>
    have := (tryLockS_some word).2.2
    omega
  | unlockS mine => rw [free] at mine; cases mine
  | upgrade mine => rw [free] at mine; cases mine

theorem code_word_stable {th : Thread} {w w' : Word} (ok : PcOk w th)
    (same : th.hold.mode = .exclusive → w' = w) : PcOk w' th := by
  unfold PcOk at ok ⊢
  split <;> simp_all

structure Inv [Fintype T] (s : State T C) : Prop where
  owned : Owned s
  code : ∀ t, PcOk s.word (s.thread t)

theorem inv_step [Fintype T] {s s' : State T C} {m : T × Act C} (inv : Inv s)
    (safe : EvictionSafe s m) (step : next s m = some s') : Inv s' := by
  obtain ⟨effect, mine⟩ := next_effect inv.owned (inv.code m.1) safe step
  refine ⟨effect_owned effect inv.owned, fun u => ?_⟩
  by_cases same : u = m.1
  · rw [same]; exact mine
  · rw [next_frame step same]
    exact code_word_stable (inv.code u) fun held => effect_word_stable effect inv.owned same held

omit [DecidableEq T] in
theorem initial_describes [Fintype T] (c : C) (b : Bool) :
    Describes (initial c b : State T C).owners (status (initial c b : State T C).word) := by
  have free : status (initial c b : State T C).word = .free :=
    status_free_iff.mpr (Or.inr (Or.inr (byte_sameVersion 0 Evicted)))
  rw [free]
  exact .free fun t => rfl

omit [DecidableEq T] in
theorem inv_initial [Fintype T] (c : C) (b : Bool) : Inv (initial c b : State T C) :=
  ⟨.exact (initial_describes c b), fun _ => trivial⟩

end PageState
