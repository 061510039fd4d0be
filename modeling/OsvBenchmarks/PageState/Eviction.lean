import OsvBenchmarks.PageState.Lock

/-!
Eviction against the workers of a page. vmcache_canBeEvicted tells a clean
candidate from a dirty one by the word and the dirty flag alone; where the page
changed after its selection, the branch it takes is the wrong one.
-/
namespace PageState
open RwLock Runs
variable {T C : Type} [DecidableEq T]

/-- A page that may be evicted is locked by its evictor alone, and the share that
    vmcache_canBeEvicted gives back is one its own policy run took. -/
structure RespectsLocks (s : State T C) : Prop where
  alone : ∀ t, (s.thread t).pc = .evictable →
    (s.thread t).hold = .evicting ∧ getState s.word = Locked ∧
      ∀ u, u ≠ t → (s.thread u).hold = .free
  ownShare : ∀ t v, (s.thread t).pc = .unlockS (.canLast v) ∨
    (∃ w, (s.thread t).pc = .unlockSOnce w (.canLast v)) → (s.thread t).hold = .shared

theorem free_mode {h : Hold} (free : h.mode = .free) : h = .free := by
  cases h <;> simp_all [Hold.mode]

theorem inv_respects [Fintype T] {s : State T C} (inv : Inv s) : RespectsLocks s := by
  refine ⟨fun t here => ?_, fun t v here => ?_⟩
  · have code := inv.code t
    simp only [PcOk, here] at code
    have owner : s.owners t = .exclusive := by rw [State.owners, code]; rfl
    obtain ⟨locked, alone⟩ := exclusive_byte inv.owned owner
    exact ⟨code, getState_eq_iff.mpr locked, fun u ne => free_mode (alone u ne)⟩
  · have code := inv.code t
    rcases here with here | ⟨w, here⟩
    · simp only [PcOk, here] at code
      exact code.2
    · simp only [PcOk, here] at code
      exact code.2.1

theorem safe_run [Fintype T] {s u : State T C} {ms : List (T × Act C)} (inv : Inv s)
    (safe : Allowed next EvictionSafe s ms) (run : exec next s ms = some u) : Inv u :=
  exec_invariant EvictionSafe Inv (fun _ _ _ inv ok step => inv_step inv ok step) inv safe run

omit [DecidableEq T] in
instance (s : State T C) (m : T × Act C) : Decidable (EvictionSafe s m) := by
  unfold EvictionSafe
  split <;> infer_instance

inductive Party where
  | worker
  | evictor
  | rival
  deriving DecidableEq, Repr

instance : Fintype Party := ⟨{.worker, .evictor, .rival}, fun p => by cases p <;> decide⟩

def does (p : Party) (as : List (Act ℕ)) : List (Party × Act ℕ) := as.map fun a => (p, a)

/-- The worker faults the page in, the evictor marks it and accepts it as clean. -/
def cleanCandidate : List (Party × Act ℕ) :=
  does .worker [.start .fixX, .run, .run, .run, .start .unfixX, .run, .run] ++
  does .evictor [.start .policy, .run, .run, .start .policy, .run, .run, .accepted true, .run]

/-- As long as vmcache_canBeEvicted finds no clean candidate Locked or dirty, it
    evicts only pages that nobody holds and gives back only its own shares. -/
theorem eviction_respects_locks [Fintype T] (c : C) (b : Bool) (ms : List (T × Act C))
    (s : State T C) (safe : Allowed next EvictionSafe (initial c b) ms)
    (run : exec next (initial c b) ms = some s) : RespectsLocks s :=
  inv_respects (safe_run (inv_initial c b) safe run)

/-- The evictor is asked about the page it accepted, and nobody came between. -/
def askUndisturbed : List (Party × Act ℕ) := cleanCandidate ++ does .evictor [.run, .run]

theorem eviction_respects_locks_undisturbed :
    ∃ s, exec next (initial 7 false) askUndisturbed = some s ∧
      (s.thread .evictor).pc = .evictable ∧ RespectsLocks s := by
  obtain ⟨s, run, here⟩ := exec_observe next (initial 7 false) askUndisturbed
    (fun s => (s.thread .evictor).pc) .evictable (by decide)
  exact ⟨s, run, here, eviction_respects_locks 7 false askUndisturbed s (by decide) run⟩

/-- The worker locks the candidate before the evictor is asked about it. -/
def lockedUnder : List (Party × Act ℕ) :=
  cleanCandidate ++ does .worker [.start .fixX, .run, .run] ++
  does .evictor [.run, .run, .run]

/-- The evictor may evict the page that the worker has locked. -/
theorem locked_page_evictable :
    ∃ s, exec next (initial 7 false) lockedUnder = some s ∧
      (s.thread .worker).hold = .fixed ∧ (s.thread .evictor).pc = .evictable ∧
      ¬ RespectsLocks s := by
  obtain ⟨s, run, seen⟩ := exec_observe next (initial 7 false) lockedUnder
    (fun s => ((s.thread .worker).hold, (s.thread .evictor).pc)) (.fixed, .evictable) (by decide)
  obtain ⟨holds, here⟩ := Prod.mk.inj seen
  refine ⟨s, run, holds, here, fun respects => ?_⟩
  have alone := (respects.alone .evictor here).2.2 .worker (by decide)
  rw [holds] at alone
  cases alone

/-- A page whose word is Evicted has its last modification on disk, and so has a
    page that is being faulted in. -/
structure NothingLost (s : State T C) : Prop where
  evicted : getState s.word = Evicted → s.disk = s.last
  faulted : ∀ t, (s.thread t).pc = .fixXFault ∨ (s.thread t).pc = .fixSFault ∨
    (s.thread t).pc = .initFault → s.fault.mem = s.last

def Pc.faulting (pc : Pc) : Prop := pc = .fixXFault ∨ pc = .fixSFault ∨ pc = .initFault

/-- vmcache_canBeEvicted up to its upgrade. -/
def Pc.asking (pc : Pc) : Prop :=
  pc = .canBeEvicted ∨ (∃ v, pc = .canDirty v) ∨ (∃ v, pc = .canClear v) ∨ ∃ v, pc = .canUpgrade v

def Pc.cleaning (pc : Pc) : Prop := pc = .cleanEvict ∨ ∃ v, pc = .cleanEvictLock v

def Pc.plain (pc : Pc) : Prop := ¬ pc.faulting ∧ ¬ pc.asking ∧ ¬ pc.cleaning

/-- vmcache_canBeEvicted takes the branch of a clean candidate only while the page
    is clean. -/
def CleanCandidate (s : State T C) (m : T × Act C) : Prop :=
  match (s.thread m.1).pc with
  | .canLock v => s.word = v → s.dirty = false
  | _ => True

omit [DecidableEq T] in
instance (s : State T C) (m : T × Act C) : Decidable (CleanCandidate s m) := by
  unfold CleanCandidate
  split <;> infer_instance

/-- A step of a worker or an evictor that meets both conditions on clean candidates. -/
structure WriteBackSafe (s : State T C) (m : T × Act C) : Prop where
  evictor : m.2 ≠ .start .cleanEvict
  locks : EvictionSafe s m
  clean : CleanCandidate s m

omit [DecidableEq T] in
instance [DecidableEq C] (s : State T C) (m : T × Act C) : Decidable (WriteBackSafe s m) :=
  decidable_of_iff (m.2 ≠ .start .cleanEvict ∧ EvictionSafe s m ∧ CleanCandidate s m)
    ⟨fun h => ⟨h.1, h.2.1, h.2.2⟩, fun h => ⟨h.evictor, h.locks, h.clean⟩⟩

structure Saved (flushed : Prop) (dirty : Bool) (th : Thread) : Prop where
  evicting : th.hold = .evicting → flushed
  faulting : th.pc.faulting → flushed
  asking : th.hold = .shared → th.pc.asking → flushed
  modifying : th.hold = .exclusive → dirty = true
  policy : ¬ th.pc.cleaning

structure Backed (s : State T C) : Prop where
  current : s.mem = s.last
  clean : s.dirty = false → s.disk = s.last
  evicted : byte s.word = 255 → s.disk = s.last
  threads : ∀ t, Saved (s.disk = s.last) s.dirty (s.thread t)

/-- The effects a step of thread `t` may have on the content and the dirty flag. -/
inductive DataEffect (s s' : State T C) (t : T) : Prop where
  | quiet (mem : s'.mem = s.mem) (dirty : s'.dirty = s.dirty) (disk : s'.disk = s.disk)
      (last : s'.last = s.last)
  | fault (at_ : (s.thread t).pc.faulting) (mem : s'.mem = s.disk) (disk : s'.disk = s.disk)
      (last : s'.last = s.last)
  | soil (mem : s'.mem = s.mem) (dirty : s'.dirty = true) (disk : s'.disk = s.disk)
      (last : s'.last = s.last)
  | clear (v : Word) (at_ : (s.thread t).pc = .canClear v) (mem : s'.mem = s.mem)
      (disk : s'.disk = s.disk) (last : s'.last = s.last)
  | writeBack (mem : s'.mem = s.mem) (dirty : s'.dirty = s.dirty) (disk : s'.disk = s.mem)
      (last : s'.last = s.last)
  | write (held : (s.thread t).hold = .exclusive) (mem : s'.mem = s'.last)
      (dirty : s'.dirty = s.dirty)

theorem invalid_data (s : State T C) (t : T) (v : Word) : DataEffect s (s.invalid t v).2 t := by
  unfold State.invalid
  split <;> exact .quiet rfl rfl rfl rfl

theorem run_data (s : State T C) (t : T) : DataEffect s (runPc s t (s.thread t).pc).2 t := by
  cases hpc : (s.thread t).pc with
  | fixXFault => exact .fault (Or.inl hpc) rfl rfl rfl
  | fixSFault => exact .fault (Or.inr (Or.inl hpc)) rfl rfl rfl
  | initFault => exact .fault (Or.inr (Or.inr hpc)) rfl rfl rfl
  | guardXDirty => exact .soil rfl rfl rfl rfl
  | canClear v => exact .clear v hpc rfl rfl rfl
  | writeBack => exact .writeBack rfl rfl rfl rfl
  | _ =>
    simp only [runPc]
    repeat' split
    all_goals first | exact .quiet rfl rfl rfl rfl | exact invalid_data s t _

theorem next_data {s s' : State T C} {m : T × Act C} (step : next s m = some s') :
    DataEffect s s' m.1 := by
  obtain ⟨t, a⟩ := m
  cases next_moved step with
  | run => exact run_data s t
  | start r _ idle h =>
    unfold startRoutine at h
    split at h <;> cases h <;> exact .quiet rfl rfl rfl rfl
  | write c idle held => exact .write held rfl rfl
  | flag _ b idle => exact .quiet rfl rfl rfl rfl
  | jump _ pc j => exact .quiet rfl rfl rfl rfl
  | invalid _ v version here => exact invalid_data s t version

omit [DecidableEq T] in
theorem faulting_fixed [Fintype T] {s : State T C} (inv : Inv s) {t : T}
    (here : (s.thread t).pc.faulting) : (s.thread t).hold = .fixed := by
  have code := inv.code t
  rcases here with here | here | here <;> simpa only [PcOk, here] using code

theorem exclusive_alone [Fintype T] {s : State T C} (inv : Inv s) {t u : T} (ne : u ≠ t)
    (held : (s.thread t).hold.mode = .exclusive) : (s.thread u).hold = .free :=
  free_mode ((exclusive_byte inv.owned held).2 u ne)

omit [DecidableEq T] in
theorem free_saved [Fintype T] {s : State T C} (inv : Inv s) {t : T} {flushed : Prop} {dirty : Bool}
    (free : (s.thread t).hold = .free)
    (policy : ¬ (s.thread t).pc.cleaning) : Saved flushed dirty (s.thread t) := by
  refine ⟨fun h => ?_, fun h => ?_, fun h => ?_, fun h => ?_, policy⟩
  · rw [free] at h; cases h
  · have fixed := faulting_fixed inv h
    rw [free] at fixed; cases fixed
  · rw [free] at h; cases h
  · rw [free] at h; cases h

/-- Another thread's step leaves a thread what it knows about the disk. -/
theorem other_saved [Fintype T] {s s' : State T C} (inv : Inv s) (back : Backed s) {t u : T}
    (effect : DataEffect s s' t) (ne : u ≠ t) :
    Saved (s'.disk = s'.last) s'.dirty (s.thread u) := by
  have mine := back.threads u
  cases effect with
  | quiet mem dirty disk last => rwa [dirty, disk, last]
  | fault here mem disk last =>
    have fixed := faulting_fixed inv here
    exact free_saved inv (exclusive_alone inv ne (by rw [fixed]; rfl)) mine.policy
  | soil mem dirty disk last =>
    rw [dirty, disk, last]
    exact { mine with modifying := fun _ => rfl }
  | clear v here mem disk last =>
    rw [disk, last]
    refine { mine with modifying := fun writer => ?_ }
    have code := inv.code t
    simp only [PcOk, here] at code
    have shared := shared_byte inv.owned code.2
    have locked := (exclusive_byte (t := u) inv.owned (by rw [State.owners, writer]; rfl)).1
    omega
  | writeBack mem dirty disk last =>
    have flushed : s'.disk = s'.last := by rw [disk, last]; exact back.current
    rw [dirty]
    exact { mine with
      evicting := fun _ => flushed, faulting := fun _ => flushed, asking := fun _ _ => flushed }
  | write held mem dirty =>
    exact free_saved inv (exclusive_alone inv ne (by rw [held]; rfl)) mine.policy

section
attribute [local simp] Pc.plain Pc.faulting Pc.asking Pc.cleaning

theorem ret_plain (ret : Ret) : ret.pc.plain := by
  cases ret <;> simp [Ret.pc]

theorem plain_saved {flushed : Prop} {dirty : Bool} {th th' : Thread}
    (mine : Saved flushed dirty th) (plain : th'.pc.plain) (hold : th'.hold = th.hold) :
    Saved flushed dirty th' :=
  ⟨fun h => mine.evicting (hold ▸ h), fun h => absurd h plain.1, fun _ h => absurd h plain.2.1,
    fun h => mine.modifying (hold ▸ h), plain.2.2⟩

/-- A thread that neither evicts nor modifies assumes nothing at a plain program counter. -/
theorem idle_saved {flushed : Prop} {dirty : Bool} {th : Thread}
    (hold : th.hold ≠ .evicting ∧ th.hold ≠ .exclusive) (plain : th.pc.plain) :
    Saved flushed dirty th :=
  ⟨fun h => absurd h hold.1, fun h => absurd h plain.1, fun _ h => absurd h plain.2.1,
    fun h => absurd h hold.2, plain.2.2⟩

theorem flushed_saved {flushed : Prop} {dirty : Bool} {th : Thread} (disk : flushed)
    (reader : th.hold ≠ .exclusive) (policy : ¬ th.pc.cleaning) : Saved flushed dirty th :=
  ⟨fun _ => disk, fun _ => disk, fun _ _ => disk, fun h => absurd h reader, policy⟩

theorem invalid_saved {s : State T C} {t : T} (v : Word)
    (mine : Saved (s.disk = s.last) s.dirty (s.thread t)) :
    Saved ((s.invalid t v).2.disk = (s.invalid t v).2.last) (s.invalid t v).2.dirty
      ((s.invalid t v).2.thread t) := by
  unfold State.invalid
  split
  · rw [goto_thread]
    exact plain_saved mine (by simp) rfl
  · rw [State.throw, put_thread]
    exact plain_saved mine (by simp) rfl

/-- The thread that took the lock of an Evicted page reads the last copy written. -/
theorem fault_saved {s : State T C} {t : T} (back : Backed s) {pc : Pc} {v w : Word}
    (lock : tryLockX s.word v = some w) (gone : byte v = 255) (policy : ¬ pc.cleaning) :
    Saved (s.disk = s.last) s.dirty (((s.setWord w).hold t .fixed pc).thread t) := by
  obtain ⟨rfl, rfl⟩ := tryLockX_some lock
  rw [hold_thread]
  exact flushed_saved (back.evicted gone) (by simp) policy

/-- What is saved after the step at `pc`. -/
abbrev RunSaved (s : State T C) (t : T) (pc : Pc) : Prop :=
  Saved ((runPc s t pc).2.disk = (runPc s t pc).2.last) (runPc s t pc).2.dirty
    ((runPc s t pc).2.thread t)

theorem fixXLock_saved {s : State T C} {t : T} {v : Word} (back : Backed s) :
    RunSaved s t (.fixXLock v) := by
  have mine := back.threads t
  simp only [RunSaved, runPc]
  split
  · rename_i w lock
    by_cases gone : getState v = Evicted
    · rw [if_pos gone]
      exact fault_saved back lock (byte_of_getState gone) (by simp)
    · rw [if_neg gone, hold_thread]
      exact idle_saved (by simp) (by simp)
  · rw [goto_thread]
    exact plain_saved mine (by simp) rfl

theorem fixSLock_saved [Fintype T] {s : State T C} {t : T} {v : Word} (inv : Inv s)
    (back : Backed s) (hpc : (s.thread t).pc = .fixSLock v) : RunSaved s t (.fixSLock v) := by
  have mine := back.threads t
  have code := inv.code t
  simp only [PcOk, hpc] at code
  simp only [RunSaved, runPc]
  split
  · rename_i w lock
    exact fault_saved back lock code.1 (by simp)
  · rw [goto_thread]
    exact plain_saved mine (by simp) rfl

theorem initLock_saved [Fintype T] {s : State T C} {t : T} {v : Word} (inv : Inv s)
    (back : Backed s) (hpc : (s.thread t).pc = .initLock v) : RunSaved s t (.initLock v) := by
  have mine := back.threads t
  have code := inv.code t
  simp only [PcOk, hpc] at code
  simp only [RunSaved, runPc]
  split
  · rename_i w lock
    exact fault_saved back lock code (by simp)
  · rw [goto_thread]
    exact plain_saved mine (by simp) rfl

theorem isDirty_saved [Fintype T] {s : State T C} {t : T} (inv : Inv s) (back : Backed s)
    (hpc : (s.thread t).pc = .isDirty) : RunSaved s t .isDirty := by
  have mine := back.threads t
  have code := inv.code t
  simp only [PcOk, hpc] at code
  simp only [RunSaved, runPc, goto_thread]
  split
  · exact plain_saved mine (by simp) rfl
  · rename_i clean
    refine flushed_saved (back.clean (by simpa using clean)) ?_ (by simp)
    rcases code with free | shared
    · simp [free]
    · simp [shared]

theorem writeBack_saved [Fintype T] {s : State T C} {t : T} (inv : Inv s) (back : Backed s)
    (hpc : (s.thread t).pc = .writeBack) : RunSaved s t .writeBack := by
  have code := inv.code t
  simp only [PcOk, hpc] at code
  simp only [RunSaved, runPc, goto_thread, writeBack_thread]
  refine flushed_saved back.current ?_ (by simp)
  rcases code with free | shared
  · simp [free]
  · simp [shared]

theorem canBeEvicted_saved {s : State T C} {t : T} (back : Backed s)
    (hpc : (s.thread t).pc = .canBeEvicted) : RunSaved s t .canBeEvicted := by
  have mine := back.threads t
  simp only [RunSaved, runPc]
  split
  · rw [goto_thread]
    exact plain_saved mine (by simp) rfl
  · rw [goto_thread]
    exact ⟨mine.evicting, by simp, fun shared _ => mine.asking shared (by simp [hpc]),
      mine.modifying, by simp⟩

theorem canLock_saved {s : State T C} {t : T} {v : Word} (back : Backed s)
    (safe : WriteBackSafe s (t, .run)) (hpc : (s.thread t).pc = .canLock v) :
    RunSaved s t (.canLock v) := by
  have mine := back.threads t
  simp only [RunSaved, runPc]
  split
  · rename_i w lock
    obtain ⟨same, _⟩ := tryLockX_some lock
    rw [hold_thread]
    have clean : s.dirty = false := by simpa [CleanCandidate, hpc, same] using safe.clean
    exact flushed_saved (back.clean clean) (by simp) (by simp)
  · rw [goto_thread]
    exact plain_saved mine (by simp) rfl

theorem canDirty_saved {s : State T C} {t : T} {v : Word} (back : Backed s)
    (hpc : (s.thread t).pc = .canDirty v) : RunSaved s t (.canDirty v) := by
  have mine := back.threads t
  simp only [RunSaved, runPc]
  split
  · rw [goto_thread]
    exact ⟨mine.evicting, by simp, fun shared _ => mine.asking shared (by simp [hpc]),
      mine.modifying, by simp⟩
  · rw [goto_thread]
    exact plain_saved mine (by simp) rfl

theorem canClear_saved [Fintype T] {s : State T C} {t : T} {v : Word} (inv : Inv s)
    (back : Backed s) (hpc : (s.thread t).pc = .canClear v) : RunSaved s t (.canClear v) := by
  have mine := back.threads t
  have code := inv.code t
  simp only [PcOk, hpc] at code
  have flushed := mine.asking code.2 (by simp [hpc])
  simp only [RunSaved, runPc, goto_thread]
  exact flushed_saved flushed (by simp [code.2]) (by split <;> simp)

theorem canUpgrade_saved [Fintype T] {s : State T C} {t : T} {v : Word} (inv : Inv s)
    (back : Backed s) (hpc : (s.thread t).pc = .canUpgrade v) : RunSaved s t (.canUpgrade v) := by
  have mine := back.threads t
  have code := inv.code t
  simp only [PcOk, hpc] at code
  have flushed := mine.asking code.2 (by simp [hpc])
  simp only [RunSaved, runPc]
  split
  · rw [hold_thread]
    exact flushed_saved flushed (by simp) (by simp)
  · rw [goto_thread]
    exact plain_saved mine (by simp) rfl

theorem canLast_saved [Fintype T] {s : State T C} {t : T} {v : Word} (inv : Inv s)
    (back : Backed s) (hpc : (s.thread t).pc = .canLast v) : RunSaved s t (.canLast v) := by
  have mine := back.threads t
  have code := inv.code t
  simp only [PcOk, hpc] at code
  simp only [RunSaved, runPc]
  split
  · rename_i locked
    exact absurd (byte_of_getState locked) code
  · rw [goto_thread]
    exact plain_saved mine (by simp) rfl

theorem guardS_saved {s : State T C} {t : T} (back : Backed s) : RunSaved s t .guardS := by
  have mine := back.threads t
  simp only [RunSaved, runPc]
  split
  · rw [goto_thread]
    exact plain_saved mine (by simp) rfl
  · split
    · rw [put_thread]
      exact idle_saved (by simp) (by simp)
    · rw [State.throw, put_thread]
      exact plain_saved mine (by simp) rfl

/-- A thread's own step finds on disk what its next program counter assumes there. -/
theorem run_saved [Fintype T] {s : State T C} {t : T} (inv : Inv s) (back : Backed s)
    (safe : WriteBackSafe s (t, .run)) :
    RunSaved s t (s.thread t).pc := by
  have mine := back.threads t
  have code := inv.code t
  cases hpc : (s.thread t).pc with
  | idle => exact mine
  | crashed => exact mine
  | policyAdd => exact mine
  | fixXLock v => exact fixXLock_saved back
  | fixSLock v => exact fixSLock_saved inv back hpc
  | initLock v => exact initLock_saved inv back hpc
  | fixXFault =>
    simp only [PcOk, hpc] at code
    simp only [RunSaved, runPc, goto_thread, fault_thread]
    exact idle_saved (by simp [code]) (by simp)
  | fixSFault =>
    simp only [PcOk, hpc] at code
    simp only [RunSaved, runPc, goto_thread, fault_thread]
    exact idle_saved (by simp [code]) (by simp)
  | initFault =>
    simp only [PcOk, hpc] at code
    simp only [RunSaved, runPc, goto_thread, fault_thread]
    exact idle_saved (by simp [code]) (by simp)
  | guardXDirty =>
    simp only [RunSaved, runPc, hold_thread]
    exact ⟨by simp, by simp, by simp, fun _ => rfl, by simp⟩
  | unlockXStore v st ret =>
    simp only [RunSaved, runPc, hold_thread]
    exact idle_saved (by simp) (ret_plain ret)
  | unlockSOnce v ret =>
    simp only [RunSaved, runPc]
    split
    · rw [hold_thread]
      exact idle_saved (by simp) (ret_plain ret)
    · rw [goto_thread]
      exact plain_saved mine (by simp) rfl
  | isDirty => exact isDirty_saved inv back hpc
  | writeBack => exact writeBack_saved inv back hpc
  | canBeEvicted => exact canBeEvicted_saved back hpc
  | canLock v => exact canLock_saved back safe hpc
  | canDirty v => exact canDirty_saved back hpc
  | canClear v => exact canClear_saved inv back hpc
  | canUpgrade v => exact canUpgrade_saved inv back hpc
  | canLast v => exact canLast_saved inv back hpc
  | cleanEvict => exact absurd (by simp [hpc]) mine.policy
  | cleanEvictLock v => exact absurd (by simp [hpc]) mine.policy
  | guardXLock v =>
    simp only [RunSaved, runPc]
    split
    · rw [put_thread]
      exact idle_saved (by simp) (by simp)
    · rw [goto_thread]
      exact plain_saved mine (by simp) rfl
  | guardS => exact guardS_saved back
  | fixSShare v =>
    simp only [RunSaved, runPc]
    split
    · rw [hold_thread]
      exact idle_saved (by simp) (by simp)
    · rw [goto_thread]
      exact plain_saved mine (by simp) rfl
  | policyShare v =>
    simp only [RunSaved, runPc]
    split
    · rw [hold_thread]
      exact idle_saved (by simp) (by simp)
    · rw [goto_thread]
      exact plain_saved mine (by simp) rfl
  | _ =>
    -- the remaining steps leave the owner as it is
    simp only [RunSaved, runPc]
    repeat' split
    all_goals
      first
      | exact mine
      | exact invalid_saved _ mine
      | (simp only [goto_thread, put_thread, State.throw]
         exact plain_saved mine (by simp) rfl)

theorem next_saved [Fintype T] {s s' : State T C} {m : T × Act C} (inv : Inv s)
    (back : Backed s) (safe : WriteBackSafe s m) (step : next s m = some s') :
    Saved (s'.disk = s'.last) s'.dirty (s'.thread m.1) := by
  obtain ⟨t, a⟩ := m
  have mine := back.threads t
  cases next_moved step with
  | run => exact run_saved inv back safe
  | start r _ idle h =>
    have evictor : r ≠ .cleanEvict := fun h => safe.evictor (by rw [h])
    unfold startRoutine at h
    split at h <;> cases h <;> rw [goto_thread]
    all_goals first | exact absurd rfl evictor | exact plain_saved mine (by simp) rfl
  | write c idle held =>
    exact ⟨fun h => by simp [held] at h, by simp [idle], fun h => by simp [held] at h,
      mine.modifying, by simp [idle]⟩
  | flag _ b idle =>
    rw [put_thread]
    exact plain_saved mine (by simp [idle]) rfl
  | jump _ pc j =>
    rw [goto_thread]
    cases j <;> exact plain_saved mine (by simp) rfl
  | invalid _ v version here => exact invalid_saved _ mine

end

theorem evicted_step [Fintype T] {s s' : State T C} {t : T} (owned : Owned s)
    (effect : Effect s s' t) (gone : byte s'.word = 255) :
    byte s.word = 255 ∨ (s.thread t).hold = .evicting := by
  cases effect with
  | quiet word => exact Or.inl (word ▸ gone)
  | recolor st color free word =>
    rw [word, byte_sameVersion] at gone
    rcases color with rfl | rfl <;> cases gone
  | lockX free word =>
    rw [word, byte_sameVersion] at gone
    cases gone
  | unlockX st color held word owners ended evicting =>
    rcases color with rfl | rfl
    · exfalso
      by_cases room : version s.word + 1 < 2 ^ 56
      · rw [word, byte_nextVersion room] at gone
        cases gone
      · have := version_lt s.word
        rw [word, nextVersion_overflow (by omega)] at gone
        cases gone
    · exact Or.inr (evicting rfl)
  | lockS unheld word =>
    have := (tryLockS_some word).2.2
    omega
  | unlockS held word =>
    have hold : (s.thread t).hold = .shared := by
      cases h : (s.thread t).hold <;> simp_all [State.owners, Hold.mode]
    have := shared_byte owned hold
    have := (unlockSOnce_some word).2.2 this.1
    omega
  | upgrade held one word =>
    rw [word, byte_sameVersion] at gone
    cases gone

theorem backed_step [Fintype T] {s s' : State T C} {m : T × Act C} (inv : Inv s)
    (back : Backed s) (safe : WriteBackSafe s m) (step : next s m = some s') : Backed s' := by
  have effect := next_data step
  have saved := next_saved inv back safe step
  have locks := next_effect inv.owned (inv.code m.1) safe.locks step
  have mine := back.threads m.1
  refine ⟨?_, ?_, ?_, fun u => ?_⟩
  · cases effect with
    | quiet mem dirty disk last => rw [mem, last]; exact back.current
    | fault here mem disk last => rw [mem, last]; exact mine.faulting here
    | soil mem dirty disk last => rw [mem, last]; exact back.current
    | clear v here mem disk last => rw [mem, last]; exact back.current
    | writeBack mem dirty disk last => rw [mem, last]; exact back.current
    | write held mem dirty => exact mem
  · intro clean
    cases effect with
    | quiet mem dirty disk last => rw [disk, last]; exact back.clean (dirty ▸ clean)
    | fault here mem disk last => rw [disk, last]; exact mine.faulting here
    | soil mem dirty disk last => rw [dirty] at clean; cases clean
    | clear v here mem disk last =>
      have code := inv.code m.1
      simp only [PcOk, here] at code
      rw [disk, last]
      exact mine.asking code.2 (Or.inr (Or.inr (Or.inl ⟨v, here⟩)))
    | writeBack mem dirty disk last => rw [disk, last]; exact back.current
    | write held mem dirty =>
      rw [dirty, mine.modifying held] at clean
      cases clean
  · intro gone
    have copied : s.disk = s.last := by
      rcases evicted_step inv.owned locks.1 gone with still | evicting
      · exact back.evicted still
      · exact mine.evicting evicting
    cases effect with
    | quiet mem dirty disk last => rwa [disk, last]
    | fault here mem disk last => rwa [disk, last]
    | soil mem dirty disk last => rwa [disk, last]
    | clear v here mem disk last => rwa [disk, last]
    | writeBack mem dirty disk last => rw [disk, last]; exact back.current
    | write held mem dirty =>
      have writer : s.owners m.1 = .exclusive := by rw [State.owners, held]; rfl
      have locked := (exclusive_byte inv.owned writer).1
      rcases evicted_step inv.owned locks.1 gone with still | evicting
      · omega
      · rw [held] at evicting; cases evicting
  · by_cases same : u = m.1
    · rw [same]; exact saved
    · rw [next_frame step same]
      exact other_saved inv back effect same

omit [DecidableEq T] in
theorem backed_initial (c : C) (b : Bool) : Backed (initial c b : State T C) :=
  ⟨rfl, fun _ => rfl, fun _ => rfl, fun _ => idle_saved (by simp [initial])
    (by simp [initial, Pc.plain, Pc.faulting, Pc.asking, Pc.cleaning])⟩

theorem backed_run [Fintype T] {s u : State T C} {ms : List (T × Act C)} (inv : Inv s)
    (back : Backed s) (safe : Allowed next WriteBackSafe s ms) (run : exec next s ms = some u) :
    Inv u ∧ Backed u :=
  exec_invariant WriteBackSafe (fun s => Inv s ∧ Backed s)
    (fun _ _ _ both ok step => ⟨inv_step both.1 ok.locks step, backed_step both.1 both.2 ok step⟩)
    ⟨inv, back⟩ safe run

/-- The worker modifies the page; the evictor marks it, accepts it as dirty, has it written
    back and evicts it; the worker faults it in again. -/
def writtenBack : List (Party × Act ℕ) :=
  does .worker [.start .fixX, .run, .run, .run, .start .guardXPid, .run, .write 8] ++
  does .worker [.start .unfixX, .run, .run] ++
  does .evictor [.start .policy, .run, .run, .start .policy, .run, .run, .run, .accepted true] ++
  does .evictor [.run, .run, .run, .run, .run, .run, .run, .run, .run] ++
  does .worker [.start .fixX, .run, .run]

/-- As long as vmcache_canBeEvicted finds clean candidates clean and unlocked, a
    page is Evicted only with its last modification on disk. -/
theorem eviction_loses_nothing [Fintype T] (c : C) (b : Bool) (ms : List (T × Act C))
    (s : State T C) (safe : Allowed next WriteBackSafe (initial c b) ms)
    (run : exec next (initial c b) ms = some s) : NothingLost s := by
  obtain ⟨_, back⟩ := backed_run (inv_initial c b) (backed_initial c b) safe run
  exact ⟨fun gone => back.evicted (byte_of_getState gone),
    fun t here => (back.threads t).faulting here⟩

theorem eviction_loses_nothing_written_back :
    ∃ s, exec next (initial 7 false) writtenBack = some s ∧
      (s.thread .worker).pc = .fixXFault ∧ s.last = 8 ∧ NothingLost s := by
  obtain ⟨s, run, seen⟩ := exec_observe next (initial 7 false) writtenBack
    (fun s => ((s.thread .worker).pc, s.last)) (.fixXFault, 8) (by decide)
  obtain ⟨here, last⟩ := Prod.mk.inj seen
  exact ⟨s, run, here, last, eviction_loses_nothing 7 false writtenBack s (by decide) run⟩

/-- The worker modifies the clean candidate of the evictor after the policy and the write
    back; the rival marks it again before the evictor is asked about it. -/
def markedAgain : List (Party × Act ℕ) :=
  cleanCandidate ++
  does .worker [.start .fixX, .run, .run, .start .guardXPid, .run, .write 8] ++
  does .worker [.start .unfixX, .run, .run] ++
  does .rival [.start .policy, .run, .run] ++
  does .evictor [.run, .run, .run, .run, .run]

/-- The modification is on no disk when the page is Evicted. -/
theorem modification_lost :
    ∃ s, exec next (initial 7 false) markedAgain = some s ∧ getState s.word = Evicted ∧
      s.last = 8 ∧ s.disk = 7 ∧ ¬ NothingLost s := by
  obtain ⟨s, run, seen⟩ := exec_observe next (initial 7 false) markedAgain
    (fun s => (getState s.word, s.last, s.disk)) (Evicted, 8, 7) (by decide)
  obtain ⟨gone, rest⟩ := Prod.mk.inj seen
  obtain ⟨last, disk⟩ := Prod.mk.inj rest
  refine ⟨s, run, gone, last, disk, fun kept => ?_⟩
  have same := kept.evicted gone
  rw [last, disk] at same
  cases same

end PageState
