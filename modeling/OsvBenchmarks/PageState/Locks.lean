import OsvBenchmarks.Library.Optimistic
import OsvBenchmarks.PageState.Optimistic
import Mathlib.Logic.Relation

/-!
A page's lock as optimistic lock coupling takes it: who is in an exclusive section, and how
many have ended. Every step of the page's machine is a step of such locks, and what a guard
obtains, validates and locks is what it would on them.
-/
namespace PageState
open RwLock Runs Optimistic
variable {T C P : Type} [DecidableEq T]

/-- What the locks say of page `p` is what its state word and its owners do. -/
structure Shows (s : State T C) (l : Locks P T) (p : P) : Prop where
  holder : ∀ t, l.holder p = some t ↔ InExclusive s t
  version : l.version p = version s.word

/-- What a step of thread `t` may do to the lock of page `p`. -/
inductive LockStep [DecidableEq P] (p : P) (t : T) (l : Locks P T) : Locks P T → Prop where
  | still : LockStep p t l l
  | lockX (free : l.Free p) : LockStep p t l (l.lockX p t)
  | unlockX (held : l.holder p = some t) : LockStep p t l (l.unlockX p)

section Step
variable {s s' : State T C} {l : Locks P T} {p : P} {t : T}

omit [DecidableEq T] in
theorem Shows.free (shown : Shows s l p) (nobody : ∀ u, ¬ InExclusive s u) : l.Free p := by
  cases held : l.holder p with
  | none => exact held
  | some u => exact absurd ((shown.holder u).mp held) (nobody u)

omit [DecidableEq T] in
theorem Shows.still (shown : Shows s l p) (owners : ∀ u, InExclusive s' u ↔ InExclusive s u)
    (same : PageState.version s'.word = PageState.version s.word) : Shows s' l p where
  holder u := (shown.holder u).trans (owners u).symm
  version := shown.version.trans same.symm

variable [DecidableEq P]

theorem Shows.lockX (shown : Shows s l p) (nobody : ∀ u, ¬ InExclusive s u)
    (owners : s'.owners = Function.update s.owners t .exclusive)
    (same : PageState.version s'.word = PageState.version s.word) : Shows s' (l.lockX p t) p where
  holder u := by
    have others := nobody u
    rw [InExclusive] at others
    by_cases at_t : u = t
    · subst at_t
      simp [Locks.lockX, InExclusive, owners]
    · have differ : t ≠ u := fun h => at_t h.symm
      simp [Locks.lockX, InExclusive, owners, at_t, differ, others]
  version := shown.version.trans same.symm

theorem Shows.unlockX (shown : Shows s l p) (alone : ∀ u, u ≠ t → s.owners u = .free)
    (owners : s'.owners = Function.update s.owners t .free)
    (more : PageState.version s'.word = PageState.version s.word + 1) :
    Shows s' (l.unlockX p) p where
  holder u := by
    by_cases at_t : u = t
    · subst at_t
      simp [Locks.unlockX, InExclusive, owners]
    · simp [Locks.unlockX, InExclusive, owners, at_t, alone u at_t]
  version := by
    rw [more, ← shown.version]
    exact Function.update_self p _ _

theorem effect_shown [Fintype T] (e : Effect s s' t) (desc : Describes s.owners (status s.word))
    (room : version s.word + 1 < 2 ^ 56) (shown : Shows s l p) :
    ∃ l', LockStep p t l l' ∧ Shows s' l' p := by
  cases e with
  | quiet word owners =>
    exact ⟨l, .still, shown.still (by simp [InExclusive, owners]) (by rw [word])⟩
  | recolor st color free word owners =>
    exact ⟨l, .still, shown.still (by simp [InExclusive, owners])
      (by rw [word, version_sameVersion])⟩
  | lockX free word owners =>
    rw [free] at desc
    have nobody : ∀ u, ¬ InExclusive s u := fun u => by simp [InExclusive, describes_free desc u]
    exact ⟨_, .lockX (shown.free nobody),
      shown.lockX nobody owners (by rw [word, version_sameVersion])⟩
  | unlockX st color held word owners =>
    refine ⟨_, .unlockX ((shown.holder t).mpr held), shown.unlockX ?_ owners
      (by rw [word, version_nextVersion room])⟩
    exact (exclusive_status desc held).2
  | lockS unheld word owners =>
    refine ⟨l, .still, shown.still (fun u => ?_) (tryLockS_some word).2.1⟩
    by_cases at_t : u = t
    · subst at_t
      simp [InExclusive, owners, unheld]
    · simp [InExclusive, owners, at_t]
  | unlockS held word owners =>
    refine ⟨l, .still, shown.still (fun u => ?_) (unlockSOnce_some word).2.1⟩
    by_cases at_t : u = t
    · subst at_t
      simp [InExclusive, owners, held]
    · simp [InExclusive, owners, at_t]
  | upgrade held one word owners =>
    have nobody : ∀ u, ¬ InExclusive s u := (shared_status desc held).2.2
    exact ⟨_, .lockX (shown.free nobody),
      shown.lockX nobody owners (by rw [word, version_sameVersion])⟩

omit [DecidableEq P] in
theorem Shows.free_iff [Fintype T] (shown : Shows s l p) (desc : Describes s.owners (status s.word)) :
    l.Free p ↔ getState s.word ≠ Locked := by
  rw [ne_eq, getState_eq_iff]
  constructor
  · intro free locked
    rw [status_exclusive_iff.mpr locked] at desc
    obtain ⟨t, writer, _⟩ := describes_exclusive desc
    have held := (shown.holder t).mpr writer
    rw [show l.holder p = none from free] at held
    cases held
  · intro unlocked
    refine shown.free fun u held => unlocked ?_
    exact status_exclusive_iff.mp (exclusive_status desc held).1

end Step

/-- What a guard makes known holds of the locks. A check that fails is one of a page that was
locked or whose version is another, unless the page was marked or evicted. -/
structure Agrees [DecidableEq P] (s : State T C) (m : T × Act C) (p : P) (l l' : Locks P T) :
    Prop where
  obtained : ∀ w, event s m = some (.obtained w) → l'.Unchanged ⟨p, version w⟩
  validated : ∀ w, Validates s m w → l.Unchanged ⟨p, version w⟩
  lockedX : ∀ w, event s m = some (.lockedX w) → l' = l.lockX p m.1
  rejected : ∀ g, m.2 = .run → event s m = some .threw → (s.thread m.1).guard = some g →
    (s.thread m.1).pc = .guardX ∨ (s.thread m.1).pc = .check ∧ getState s.word ≠ Evicted →
    ¬ l.Unchanged ⟨p, version g⟩

section Run
variable [Fintype T] {s s' u : State T C} {l l' : Locks P T} {p : P} {m : T × Act C}

omit [DecidableEq T] [Fintype T] in
theorem Shows.unchanged {w : Word} (shown : Shows s l p)
    (same : PageState.version s.word = PageState.version w) (nobody : ∀ u, ¬ InExclusive s u) :
    l.Unchanged ⟨p, PageState.version w⟩ :=
  ⟨shown.free nobody, shown.version.trans same⟩

theorem ListedInv.nobody (inv : ListedInv s) (idle : ¬ Busy s.word) : ∀ u, ¬ InExclusive s u :=
  fun _ held => idle (exclusive_busy inv.inv.owned held)

omit [Fintype T] in
theorem lockedX_held {t : T} {w : Word}
    (h : runPc s t (s.thread t).pc = (.lockedX w, s')) : InExclusive s' t := by
  cases hpc : (s.thread t).pc with
  | guardXLock v =>
    simp only [runPc, hpc] at h
    split at h
    · cases h
      simp [InExclusive, Hold.mode]
    · cases h
  | _ =>
    simp only [runPc, State.invalid, hpc] at h
    (repeat' split at h) <;> cases h

theorem run_rejected {t : T} {g : Word} (shown : Shows s l p)
    (desc : Describes s.owners (status s.word)) (threw : (runPc s t (s.thread t).pc).1 = .threw)
    (guard : (s.thread t).guard = some g)
    (here : (s.thread t).pc = .guardX ∨ (s.thread t).pc = .check ∧ getState s.word ≠ Evicted) :
    ¬ l.Unchanged ⟨p, version g⟩ := by
  rintro ⟨free, same⟩
  have same : s.word <<< 8 = g <<< 8 := shift_eq_iff.mpr (shown.version.symm.trans same)
  have unlocked := (shown.free_iff desc).mp free
  rcases here with hpc | ⟨hpc, resident⟩
  · simp only [runPc, hpc, guard] at threw
    split at threw
    · rename_i differ
      exact differ same
    · split at threw <;> cases threw
  · simp only [runPc, hpc, guard] at threw
    split at threw
    · cases threw
    · split at threw
      · cases threw
      · rename_i above
        split at threw
        · cases threw
        · rename_i marked
          have readable := readable_byte marked unlocked resident
          rw [BitVec.le_def, getState_toNat] at above
          exact above readable

variable [DecidableEq P]

theorem next_shown (inv : ListedInv s) (guards : ∀ t, GuardOk (s.thread t)) (shown : Shows s l p)
    (listed : Listed m) (step : next s m = some s') (few : s'.ended < 2 ^ 56 - 1) :
    ∃ l', LockStep p m.1 l l' ∧ Shows s' l' p ∧ Agrees s m p l l' := by
  have ended := effect_ended (inv.effect step)
  obtain ⟨desc, count⟩ := inv.counted (by omega)
  have inv' := listed_step inv listed step
  obtain ⟨l', moved, shown'⟩ := effect_shown (inv.effect step) desc (by omega) shown
  refine ⟨l', moved, shown', ?_, ?_, ?_, ?_⟩
  · intro w seen
    obtain ⟨rfl, idle⟩ := next_obtained step seen
    exact shown'.unchanged rfl (inv'.nobody idle)
  · intro w valid
    obtain ⟨same, idle⟩ := next_validates (inv.inv.code m.1) (guards m.1) step valid
    exact shown.unchanged same (inv.nobody idle)
  · intro w seen
    obtain ⟨_, idle⟩ := next_validates (inv.inv.code m.1) (guards m.1) step (Or.inr (Or.inl seen))
    have held : InExclusive s' m.1 := by
      rcases act_loud (event_act step seen) (by simp) with h | ⟨v, h⟩
      · exact lockedX_held h
      · unfold State.invalid at h
        split at h <;> cases h
    cases moved with
    | still => exact absurd ((shown.holder _).mp ((shown'.holder _).mpr held)) (inv.nobody idle _)
    | lockX free => rfl
    | unlockX mine => exact absurd ((shown.holder _).mp mine) (inv.nobody idle _)
  · intro g run threw guard here
    obtain ⟨t, a⟩ := m
    cases run
    exact run_rejected shown desc (Option.some.inj threw) guard here

theorem run_shown {ms : List (T × Act C)} (inv : ListedInv s) (guards : ∀ t, GuardOk (s.thread t))
    (shown : Shows s l p) (listed : ∀ m ∈ ms, Listed m) (run : exec next s ms = some u)
    (few : u.ended < 2 ^ 56 - 1) :
    ∃ l', Relation.ReflTransGen (fun l l' => ∃ t, LockStep p t l l') l l' ∧ Shows u l' p := by
  induction ms generalizing s l with
  | nil =>
    cases run
    exact ⟨l, .refl, shown⟩
  | cons m ms ih =>
    obtain ⟨s', step, tail⟩ := exec_cons_iff.mp run
    have inv' := listed_step inv (listed m (by simp)) step
    have rest : ∀ n ∈ ms, Listed n := fun n mem => listed n (by simp [mem])
    have grows := (listed_run inv' rest tail).2
    obtain ⟨mid, moved, shown', _⟩ := next_shown inv guards shown (listed m (by simp)) step (by omega)
    obtain ⟨l', moves, there⟩ := ih inv' (guard_step guards step) shown' rest tail
    exact ⟨l', .head ⟨_, moved⟩ moves, there⟩

omit [DecidableEq T] [DecidableEq P] [Fintype T] in
theorem initial_shown (c : C) (b : Bool) :
    Shows (initial c b : State T C) (Locks.unlocked : Locks P T) p where
  holder t := by simp [Locks.unlocked, InExclusive, State.owners, initial, Hold.mode]
  version := (version_sameVersion 0 Evicted).symm

/-- Every run of the page's machine is a run of the locks that optimistic lock coupling takes, and
in the state it ends in every further step answers as they do. -/
theorem locks_shown (p : P) (c : C) (b : Bool) (ms : List (T × Act C)) (s : State T C)
    (listed : ∀ m ∈ ms, Listed m) (run : exec next (initial c b) ms = some s)
    (few : s.ended < 2 ^ 56 - 1) :
    ∃ l : Locks P T,
      Relation.ReflTransGen (fun l l' : Locks P T => ∃ t, LockStep p t l l') Locks.unlocked l ∧
      Shows s l p ∧
      (l.Free p ↔ getState s.word ≠ Locked) ∧
      ∀ m s', Listed m → next s m = some s' → s'.ended < 2 ^ 56 - 1 →
        ∃ l', LockStep p m.1 l l' ∧ Shows s' l' p ∧ Agrees s m p l l' := by
  have inv := (listed_run (listed_initial c b) listed run).1
  have none : ∀ t, GuardOk ((initial c b : State T C).thread t) := fun _ => guard_dropped rfl
  have guards := guard_run none run
  have start : Shows (initial c b : State T C) (Locks.unlocked : Locks P T) p := initial_shown c b
  obtain ⟨l, moves, shown⟩ := run_shown (listed_initial c b) none start listed run few
  refine ⟨l, moves, shown, shown.free_iff (inv.counted (by omega)).describes, ?_⟩
  intro m s' listed step few
  exact next_shown inv guards shown listed step few

end Run
end PageState
