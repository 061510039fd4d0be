import OsvBenchmarks.PageState.Eviction

/-!
The dirty flag over any number of evictions and reloads. It is a byte of the page,
so it goes to disk and comes back with the content, and vmcache_clearDirty, which
is called around the write, leaves it as it is. `modified` tells whether a GuardX or
AllocGuard section has ended since the page was last loaded or written back; no
code reads it.
-/
namespace PageState
open RwLock Runs

/-- BufferManager::allocPage and the constructor of AllocGuard. -/
inductive AllocPc where
  | load
  | lock (v : Word)
  | fault
  | clear
  | construct
  deriving DecidableEq, Repr

/-- Past the exchange; whether it succeeded is asserted, and assertions are compiled out. -/
def AllocPc.inside : AllocPc → Bool
  | .load | .lock _ => false
  | .fault | .clear | .construct => true

/-- A page with its place in the cache: `resident` from a load to the end of its eviction. -/
structure Tracked (T C : Type) where
  page : State T C
  resident : Bool
  modified : Bool
  alloc : T → Option AllocPc

/-- `alloc c b` is the next step of an AllocGuard: `c` is the content that it finds or
    constructs, `b` the dirty byte of the new page before it is cleared. -/
inductive Move (C : Type) where
  | page (a : Act C)
  | allocPage
  | alloc (c : C) (b : Bool)
  deriving DecidableEq, Repr

def vmcache_isDirty {T C : Type} (s : State T C) : Bool := s.dirty

/-- fixX is called by GuardX alone, so every unfixX ends a GuardX. -/
def Act.guarded {C : Type} (hold : Hold) : Act C → Bool
  | .start .unfixX => hold = .exclusive
  | _ => true

namespace Tracked
variable {T C : Type} [DecidableEq T]

/-- What a step of the page's routines means for its place in the cache. -/
def follow (s : Tracked T C) (th : Thread) : Act C → Tracked T C
  | .run =>
    match th.pc with
    | .fixXFault | .fixSFault | .initFault => { s with resident := true, modified := false }
    | .writeBack => { s with modified := false }
    | .unlockXStore _ _ _ =>
      match th.hold with
      | .exclusive => { s with modified := true }
      -- vmcache_release_evicted
      | .evicting => { s with resident := false }
      | _ => s
    | _ => s
  | _ => s

def withPage (s : Tracked T C) (page : State T C) : Tracked T C := { s with page := page }

def allocAt (s : Tracked T C) (t : T) (pc : Option AllocPc) : Tracked T C :=
  { s with alloc := Function.update s.alloc t pc }

def runAlloc (s : Tracked T C) (t : T) (c : C) (b : Bool) : AllocPc → Tracked T C
  | .load => s.allocAt t (some (.lock s.page.word))
  | .lock v =>
    match tryLockX s.page.word v with
    | some w => (s.withPage ((s.page.setWord w).hold t .fixed .idle)).allocAt t (some .fault)
    | none => s.allocAt t (some .fault)
  | .fault =>
    ({ s.withPage { s.page with mem := c, dirty := b } with
      resident := true, modified := false } : Tracked T C).allocAt t (some .clear)
  | .clear => (s.withPage { s.page with dirty := false }).allocAt t (some .construct)
  | .construct =>
    let page := { s.page with mem := c, last := c, dirty := true }
    (s.withPage (page.hold t .exclusive .idle)).allocAt t none

def next (s : Tracked T C) (m : T × Move C) : Option (Tracked T C) :=
  let th := s.page.thread m.1
  match s.alloc m.1, m.2 with
  | none, .page a =>
    if a.guarded th.hold then
      (PageState.next s.page (m.1, a)).map (s.follow th a).withPage
    else none
  | none, .allocPage =>
    if th.pc = .idle ∧ th.hold = .free then some (s.allocAt m.1 (some .load)) else none
  | some pc, .alloc c b => some (s.runAlloc m.1 c b pc)
  | _, _ => none

def start (c : C) : Tracked T C := ⟨initial c false, false, false, fun _ => none⟩

end Tracked

/-- From the acceptance of the evict policy on, until vmcache_canBeEvicted has locked the
    page or cleared its flag. -/
def Pc.selected : Pc → Bool
  | .isDirty | .writeBack | .canBeEvicted | .canLock _ | .canDirty _ | .canClear _ => true
  | _ => false

namespace Tracked
variable {T C : Type} [DecidableEq T]

def Owns (s : Tracked T C) (t : T) : Prop :=
  (s.page.thread t).hold.mode = .exclusive ∨ (s.alloc t).any AllocPc.inside = true

/-- A cached page that nobody owns and nobody is about to evict is reported dirty only
    if a section on it has ended since it was loaded or written back. -/
def ReportsSections (s : Tracked T C) : Prop :=
  s.resident = true → (∀ t, ¬ s.Owns t ∧ (s.page.thread t).pc.selected = false) →
    vmcache_isDirty s.page = true → s.modified = true

/-- A load for reading finds the flag clear on disk, and vmcache_canBeEvicted does not fail
    to lock a marked page that was written back with nothing ended since. -/
def FlagSafe (s : Tracked T C) (m : T × Move C) : Prop :=
  match m.2, (s.page.thread m.1).pc with
  | .page .run, .fixSFault => s.page.diskDirty = false
  | .page .run, .initFault => s.page.diskDirty = false
  | .page .run, .canLock v => s.page.word ≠ v → s.page.dirty = true → s.modified = true
  | _, _ => True

end Tracked

def Pc.sharing : Pc → Bool
  | .fixS | .fixSLock _ | .fixSShare _ | .guardS | .unlockS _ | .unlockSOnce _ _ => true
  | .policy | .policyDirty _ | .policyShare _ | .policyAdd => true
  | .isDirty | .writeBack | .canBeEvicted | .canLock _ | .canDirty _ | .canClear _ => true
  | .canUpgrade _ | .canLast _ => true
  | _ => false

def Pc.releasing : Pc → Bool
  | .unlockX _ _ | .unlockXStore _ _ _ => true
  | _ => false

/-- What a thread owns at a program counter, whatever the others do to the word. -/
structure Shaped (th : Thread) : Prop where
  loading : th.pc = .fixXFault → th.hold = .fixed
  evicting : th.pc = .evictable → th.hold = .evicting
  sharing : th.pc.sharing = true → th.hold.mode ≠ .exclusive

/-- The thread will end a section, evict the page or clear its flag. Who loads the page
    for reading will not. -/
inductive Answers (th : Thread) : Prop where
  | section_ (held : th.hold = .exclusive)
  | evicts (held : th.hold = .evicting)
  | fixes (held : th.hold = .fixed) (stays : th.pc.releasing = false)
  | selected (at_ : th.pc.selected = true)

namespace Answers
variable {th th' : Thread}

theorem held (answers : Answers th) (unselected : th.pc.selected = false)
    (hold : th'.hold = th.hold) (stays : th'.pc.releasing = false) : Answers th' := by
  cases answers with
  | section_ held => exact .section_ (hold.trans held)
  | evicts held => exact .evicts (hold.trans held)
  | fixes held => exact .fixes (hold.trans held) stays
  | selected at_ => rw [unselected] at at_; cases at_

theorem not_sharing (shaped : Shaped th) (share : th.pc.sharing = true)
    (unselected : th.pc.selected = false) : ¬ Answers th := by
  have mode := shaped.sharing share
  intro answers
  cases answers with
  | section_ held => exact mode (by rw [held]; rfl)
  | evicts held => exact mode (by rw [held]; rfl)
  | fixes held => exact mode (by rw [held]; rfl)
  | selected at_ => rw [unselected] at at_; cases at_

end Answers

section Shape
variable {T C : Type} [DecidableEq T] {s : State T C} {t : T}

theorem shaped_of_plain {th : Thread} (loading : th.pc ≠ .fixXFault) (evicting : th.pc ≠ .evictable)
    (share : th.pc.sharing = false) : Shaped th :=
  ⟨fun h => absurd h loading, fun h => absurd h evicting, fun h => by rw [share] at h; cases h⟩

theorem shaped_of_free {th : Thread} (free : th.hold = .free) (loading : th.pc ≠ .fixXFault)
    (evicting : th.pc ≠ .evictable) : Shaped th :=
  ⟨fun h => absurd h loading, fun h => absurd h evicting, fun _ => by rw [free]; decide⟩

theorem Shaped.shares {th th' : Thread} (shaped : Shaped th) (share : th.pc.sharing = true)
    (hold : th'.hold = th.hold) (loading : th'.pc ≠ .fixXFault) (evicting : th'.pc ≠ .evictable) :
    Shaped th' :=
  ⟨fun h => absurd h loading, fun h => absurd h evicting, fun _ => by
    rw [hold]; exact shaped.sharing share⟩

theorem ret_free (ret : Ret) : ret.pc ≠ .fixXFault ∧ ret.pc ≠ .evictable := by
  cases ret <;> exact ⟨by rintro ⟨⟩, by rintro ⟨⟩⟩

theorem invalid_shaped (s : State T C) (t : T) (v : Word) : Shaped ((s.invalid t v).2.thread t) := by
  unfold State.invalid
  split
  · rw [goto_thread]
    exact shaped_of_plain (by rintro ⟨⟩) (by rintro ⟨⟩) rfl
  · rw [State.throw, put_thread]
    exact shaped_of_plain (by rintro ⟨⟩) (by rintro ⟨⟩) rfl

theorem run_shaped (shaped : Shaped (s.thread t)) :
    Shaped ((runPc s t (s.thread t).pc).2.thread t) := by
  cases hpc : (s.thread t).pc with
  | idle => exact shaped
  | crashed => exact shaped
  | policyAdd => exact shaped
  | fixXLock v =>
    simp only [runPc]
    split
    · rw [hold_thread]
      split
      · exact ⟨fun _ => rfl, by rintro ⟨⟩, by rintro ⟨⟩⟩
      · exact shaped_of_plain (by rintro ⟨⟩) (by rintro ⟨⟩) rfl
    · rw [goto_thread]
      exact shaped_of_plain (by rintro ⟨⟩) (by rintro ⟨⟩) rfl
  | unlockXStore v newState ret =>
    simp only [runPc, hold_thread]
    exact shaped_of_free rfl (ret_free ret).1 (ret_free ret).2
  | unlockSOnce v ret =>
    simp only [runPc]
    split
    · rw [hold_thread]
      exact shaped_of_free rfl (ret_free ret).1 (ret_free ret).2
    · rw [goto_thread]
      exact shaped.shares (by rw [hpc]; rfl) rfl (by rintro ⟨⟩) (by rintro ⟨⟩)
  | policyShare v =>
    simp only [runPc]
    split
    · rw [hold_thread]
      exact ⟨by rintro ⟨⟩, by rintro ⟨⟩, fun _ => by rintro ⟨⟩⟩
    · rw [goto_thread]
      exact shaped_of_plain (by rintro ⟨⟩) (by rintro ⟨⟩) rfl
  | canLock v =>
    simp only [runPc]
    split
    · rw [hold_thread]
      exact ⟨by rintro ⟨⟩, fun _ => rfl, by rintro ⟨⟩⟩
    · rw [goto_thread]
      exact shaped_of_plain (by rintro ⟨⟩) (by rintro ⟨⟩) rfl
  | canUpgrade v =>
    simp only [runPc]
    split
    · rw [hold_thread]
      exact ⟨by rintro ⟨⟩, fun _ => rfl, by rintro ⟨⟩⟩
    · rw [goto_thread]
      exact shaped.shares (by rw [hpc]; rfl) rfl (by rintro ⟨⟩) (by rintro ⟨⟩)
  | canLast v =>
    simp only [runPc]
    split
    · split
      · rw [goto_thread]
        exact shaped_of_plain (by rintro ⟨⟩) (by rintro ⟨⟩) rfl
      · rw [hold_thread]
        exact ⟨by rintro ⟨⟩, fun _ => rfl, by rintro ⟨⟩⟩
    · rw [goto_thread]
      exact shaped_of_plain (by rintro ⟨⟩) (by rintro ⟨⟩) rfl
  | _ =>
    -- the remaining steps keep to a share, or go where nothing is said of the owner
    simp only [runPc]
    repeat' split
    all_goals
      first
      | exact shaped
      | exact invalid_shaped s t _
      | (simp only [goto_thread, hold_thread, put_thread, State.throw, fault_thread,
          writeBack_thread]
         first
         | exact shaped_of_plain (by rintro ⟨⟩) (by rintro ⟨⟩) rfl
         | exact shaped.shares (by rw [hpc]; rfl) rfl (by rintro ⟨⟩) (by rintro ⟨⟩))

theorem next_shaped {s' : State T C} {m : T × Act C} (shaped : Shaped (s.thread m.1))
    (step : next s m = some s') : Shaped (s'.thread m.1) := by
  obtain ⟨t, a⟩ := m
  cases next_moved step with
  | run => exact run_shaped shaped
  | start r _ idle h =>
    unfold startRoutine at h
    split at h <;> cases h <;> rw [goto_thread]
    all_goals
      first
      | exact shaped_of_plain (by rintro ⟨⟩) (by rintro ⟨⟩) rfl
      | exact ⟨by rintro ⟨⟩, by rintro ⟨⟩, fun _ => by simp_all [Hold.mode]⟩
  | write c idle held => exact shaped
  | flag _ b idle =>
    rw [put_thread]
    exact shaped_of_plain (by simp [idle]) (by simp [idle]) (by rw [idle]; rfl)
  | jump _ pc j =>
    rw [goto_thread]
    cases j with
    | initAgain v here => exact shaped_of_plain (by rintro ⟨⟩) (by rintro ⟨⟩) rfl
    | giveBack v here => exact shaped.shares (by rw [here]; rfl) rfl (by rintro ⟨⟩) (by rintro ⟨⟩)
    | taken here => exact shaped.shares (by rw [here]; rfl) rfl (by rintro ⟨⟩) (by rintro ⟨⟩)
    | refusedShare here held => exact shaped.shares (by rw [here]; rfl) rfl (by rintro ⟨⟩) (by rintro ⟨⟩)
    | refused here => exact shaped_of_plain (by rintro ⟨⟩) (by rintro ⟨⟩) rfl
  | invalid _ v version here => exact invalid_shaped s t version

/-- The steps that change the place of the page in the cache, or end a section. -/
def Pc.placing : Pc → Bool
  | .fixXFault | .fixSFault | .initFault | .writeBack | .unlockXStore _ _ _ => true
  | _ => false

def Pc.flagging : Pc → Bool
  | .fixXFault | .fixSFault | .initFault | .guardXDirty | .canClear _ => true
  | _ => false

theorem run_dirty (s : State T C) (t : T) {pc : Pc} (quiet : pc.flagging = false) :
    (runPc s t pc).2.dirty = s.dirty := by
  have invalid : ∀ v, (s.invalid t v).2.dirty = s.dirty := by
    intro v
    unfold State.invalid
    split <;> rfl
  cases pc with
  | fixXFault => cases quiet
  | fixSFault => cases quiet
  | initFault => cases quiet
  | guardXDirty => cases quiet
  | canClear v => cases quiet
  | _ =>
    simp only [runPc]
    repeat' split
    all_goals first | rfl | exact invalid _

end Shape

namespace Tracked
variable {T C : Type} [DecidableEq T] {s : Tracked T C} {t : T}

structure Stale (s : Tracked T C) : Prop where
  resident : s.resident = true
  dirty : s.page.dirty = true
  unended : s.modified = false

omit [DecidableEq T] in
theorem follow_same {th : Thread} (a : Act C) (place : th.pc.placing = false) :
    s.follow th a = s := by
  unfold follow
  split
  · split
    all_goals first | rfl | simp_all [Pc.placing]
  · rfl

omit [DecidableEq T] in
theorem pass {th' : Thread} (before : s.Stale)
    (keep : Answers (s.page.thread t) → Answers th') :
    Answers th' ∨ s.Stale ∧ ¬ Answers (s.page.thread t) := by
  by_cases answers : Answers (s.page.thread t)
  · exact .inl (keep answers)
  · exact .inr ⟨before, answers⟩

/-- A step that leaves the page stale leaves a thread that answers for it, if the
    page was not stale before or this thread answered for it. -/
theorem run_stale (shaped : Shaped (s.page.thread t)) (safe : s.FlagSafe (t, .page .run))
    (stale : ((s.follow (s.page.thread t) .run).withPage
      (runPc s.page t (s.page.thread t).pc).2).Stale) :
    Answers ((runPc s.page t (s.page.thread t).pc).2.thread t) ∨
      s.Stale ∧ ¬ Answers (s.page.thread t) := by
  have quiet : (s.page.thread t).pc.flagging = false →
      (s.page.thread t).pc.placing = false → s.Stale := by
    intro quiet place
    rw [follow_same _ place] at stale
    refine ⟨stale.resident, ?_, stale.unended⟩
    rw [← run_dirty s.page t quiet]
    exact stale.dirty
  cases hpc : (s.page.thread t).pc with
  | fixXFault =>
    left
    simp only [runPc, goto_thread, fault_thread]
    exact .fixes (shaped.loading hpc) rfl
  | fixSFault =>
    have clear : s.page.diskDirty = false := by simpa only [FlagSafe, hpc] using safe
    have loaded : s.page.diskDirty = true := by
      rw [hpc] at stale
      exact stale.dirty
    rw [clear] at loaded
    cases loaded
  | initFault =>
    have clear : s.page.diskDirty = false := by simpa only [FlagSafe, hpc] using safe
    have loaded : s.page.diskDirty = true := by
      rw [hpc] at stale
      exact stale.dirty
    rw [clear] at loaded
    cases loaded
  | guardXDirty =>
    left
    simp only [runPc, hold_thread]
    exact .section_ rfl
  | canClear v =>
    rw [hpc] at stale
    cases stale.dirty
  | writeBack =>
    left
    simp only [runPc, goto_thread]
    exact .selected rfl
  | unlockXStore v newState ret =>
    simp only [follow, hpc] at stale
    right
    cases held : (s.page.thread t).hold with
    | exclusive =>
      simp only [held] at stale
      cases stale.unended
    | evicting =>
      simp only [held] at stale
      cases stale.resident
    | _ =>
      simp only [held] at stale
      refine ⟨⟨stale.resident, stale.dirty, stale.unended⟩, fun answers => ?_⟩
      cases answers with
      | section_ h => rw [held] at h; cases h
      | evicts h => rw [held] at h; cases h
      | fixes h stays => rw [hpc] at stays; cases stays
      | selected h => rw [hpc] at h; cases h
  | isDirty =>
    left
    simp only [runPc, goto_thread]
    split <;> exact .selected rfl
  | canBeEvicted =>
    left
    simp only [runPc]
    split <;> rw [goto_thread] <;> exact .selected rfl
  | canLock v =>
    have before : s.Stale := quiet (by rw [hpc]; rfl) (by rw [hpc]; rfl)
    left
    simp only [runPc]
    split
    · rw [hold_thread]
      exact .evicts rfl
    · rename_i failed
      have other : s.page.word ≠ v := by
        intro same
        simp [tryLockX, same] at failed
      have ended : s.page.word ≠ v → s.page.dirty = true → s.modified = true := by
        simpa only [FlagSafe, hpc] using safe
      have unended := before.unended
      rw [ended other before.dirty] at unended
      cases unended
  | canDirty v =>
    have before : s.Stale := quiet (by rw [hpc]; rfl) (by rw [hpc]; rfl)
    left
    simp only [runPc, before.dirty, goto_thread]
    exact .selected rfl
  | fixS | fixSLock v | fixSShare v | guardS | unlockS ret | unlockSOnce v ret | policy
  | policyDirty v | policyShare v | policyAdd | canUpgrade v | canLast v =>
    exact .inr ⟨quiet (by rw [hpc]; rfl) (by rw [hpc]; rfl),
      Answers.not_sharing shaped (by rw [hpc]; rfl) (by rw [hpc]; rfl)⟩
  | unlockX newState ret =>
    refine pass (quiet (by rw [hpc]; rfl) (by rw [hpc]; rfl)) fun answers => ?_
    simp only [runPc, goto_thread]
    cases answers with
    | section_ held => exact .section_ held
    | evicts held => exact .evicts held
    | fixes held stays => rw [hpc] at stays; cases stays
    | selected at_ => rw [hpc] at at_; cases at_
  | evictable =>
    left
    simp only [runPc, goto_thread]
    exact .evicts (shaped.evicting hpc)
  | _ =>
    -- whoever answers keeps what it owns, or takes the lock
    refine pass (quiet (by rw [hpc]; rfl) (by rw [hpc]; rfl)) fun answers => ?_
    have keep : ∀ {th' : Thread}, th'.hold = (s.page.thread t).hold → th'.pc.releasing = false →
        Answers th' := fun hold stays => answers.held (by rw [hpc]; rfl) hold stays
    simp only [runPc, State.invalid]
    repeat' split
    all_goals
      first
      | exact answers
      | (simp only [goto_thread, hold_thread, put_thread, State.throw]
         first
         | exact keep rfl rfl
         | exact .fixes rfl rfl
         | exact .evicts rfl)

theorem page_stale {a : Act C} {page' : State T C} (shaped : Shaped (s.page.thread t))
    (safe : s.FlagSafe (t, .page a)) (guarded : a.guarded (s.page.thread t).hold = true)
    (step : PageState.next s.page (t, a) = some page')
    (stale : ((s.follow (s.page.thread t) a).withPage page').Stale) :
    Answers (page'.thread t) ∨ s.Stale ∧ ¬ Answers (s.page.thread t) := by
  cases next_moved step with
  | run => exact run_stale shaped safe stale
  | start r _ idle h =>
    have before : s.Stale := by
      refine ⟨stale.resident, ?_, stale.unended⟩
      have dirty : page'.dirty = true := stale.dirty
      unfold startRoutine at h
      split at h <;> cases h <;> exact dirty
    refine pass before fun answers => ?_
    have keep : ∀ {th' : Thread}, th'.hold = (s.page.thread t).hold → th'.pc.releasing = false →
        Answers th' := fun hold stays => answers.held (by rw [idle]; rfl) hold stays
    unfold startRoutine at h
    split at h <;> cases h <;> dsimp only <;> rw [goto_thread]
    all_goals
      first
      | exact keep rfl rfl
      | exact .section_ (by simpa [Act.guarded] using guarded)
  | write c idle held => exact pass ⟨stale.resident, stale.dirty, stale.unended⟩ id
  | flag _ b idle =>
    rw [follow_same a (by rw [idle]; rfl)] at stale
    refine pass ⟨stale.resident, stale.dirty, stale.unended⟩ fun answers => ?_
    rw [put_thread]
    exact answers.held (by rw [idle]; rfl) rfl (by rw [idle]; rfl)
  | jump _ pc j =>
    have before : s.Stale := by
      have place : (s.page.thread t).pc.placing = false := by
        cases j with
        | initAgain v here => rw [here]; rfl
        | giveBack v here => rw [here]; rfl
        | taken here => rw [here]; rfl
        | refusedShare here held => rw [here]; rfl
        | refused here => rw [here]; rfl
      rw [follow_same a place] at stale
      exact ⟨stale.resident, stale.dirty, stale.unended⟩
    rw [goto_thread]
    cases j with
    | initAgain v here =>
      exact pass before fun answers => answers.held (by rw [here]; rfl) rfl rfl
    | giveBack v here =>
      exact .inr ⟨before, Answers.not_sharing shaped (by rw [here]; rfl) (by rw [here]; rfl)⟩
    | taken here => exact .inl (.selected rfl)
    | refusedShare here held =>
      exact .inr ⟨before, Answers.not_sharing shaped (by rw [here]; rfl) (by rw [here]; rfl)⟩
    | refused here =>
      exact .inr ⟨before, Answers.not_sharing shaped (by rw [here]; rfl) (by rw [here]; rfl)⟩
  | invalid _ v version here =>
    rw [follow_same a (by rw [here]; rfl)] at stale
    have keep : ∀ {th' : Thread}, th'.hold = (s.page.thread t).hold → th'.pc.releasing = false →
        Answers (s.page.thread t) → Answers th' :=
      fun hold stays answers => answers.held (by rw [here]; rfl) hold stays
    unfold State.invalid at stale ⊢
    split at stale
    · rename_i uncaught
      rw [if_pos uncaught, goto_thread]
      exact pass ⟨stale.resident, stale.dirty, stale.unended⟩ (keep rfl rfl)
    · rename_i caught
      rw [if_neg caught, State.throw, put_thread]
      exact pass ⟨stale.resident, stale.dirty, stale.unended⟩ (keep rfl rfl)

inductive Stepped (s : Tracked T C) (t : T) : Move C → Tracked T C → Prop where
  | page (a : Act C) (page' : State T C) (free : s.alloc t = none)
      (guarded : a.guarded (s.page.thread t).hold = true)
      (step : PageState.next s.page (t, a) = some page') :
      Stepped s t (.page a) ((s.follow (s.page.thread t) a).withPage page')
  | enter (free : s.alloc t = none) : Stepped s t .allocPage (s.allocAt t (some .load))
  | alloc (c : C) (b : Bool) (pc : AllocPc) (at_ : s.alloc t = some pc) :
      Stepped s t (.alloc c b) (s.runAlloc t c b pc)

theorem next_stepped {s' : Tracked T C} {m : T × Move C} (step : next s m = some s') :
    Stepped s m.1 m.2 s' := by
  obtain ⟨t, a⟩ := m
  unfold next at step
  dsimp only at step ⊢
  split at step
  · rename_i free
    split at step
    · rename_i guarded
      obtain ⟨page', moved, rfl⟩ := Option.map_eq_some_iff.mp step
      exact .page _ page' free guarded moved
    · cases step
  · rename_i free
    split at step
    · cases step
      exact .enter free
    · cases step
  · rename_i pc c b at_
    cases step
    exact .alloc c b pc at_
  · cases step

omit [DecidableEq T] in
theorem follow_alloc (th : Thread) (a : Act C) : (s.follow th a).alloc = s.alloc := by
  unfold follow
  repeat' split
  all_goals rfl

theorem stepped_frame {s' : Tracked T C} {a : Move C} (step : Stepped s t a s') {u : T}
    (ne : u ≠ t) : s'.page.thread u = s.page.thread u ∧ s'.alloc u = s.alloc u := by
  have other : ∀ (r : Tracked T C) pc, (r.allocAt t pc).alloc u = r.alloc u := fun r pc =>
    Function.update_of_ne ne _ _
  cases step with
  | page a page' free guarded step =>
    refine ⟨next_frame step ne, ?_⟩
    change (s.follow (s.page.thread t) a).alloc u = s.alloc u
    rw [follow_alloc]
  | enter free => exact ⟨rfl, other s _⟩
  | alloc c b pc at_ =>
    cases pc with
    | load => exact ⟨rfl, other s _⟩
    | lock v =>
      unfold runAlloc
      dsimp only
      split
      · exact ⟨hold_thread_ne _ ne _ _, other _ _⟩
      · exact ⟨rfl, other s _⟩
    | fault => exact ⟨rfl, other _ _⟩
    | clear => exact ⟨rfl, other _ _⟩
    | construct => exact ⟨hold_thread_ne _ ne _ _, other _ _⟩

def AnswersFor (s : Tracked T C) (t : T) : Prop :=
  Answers (s.page.thread t) ∨ (s.alloc t).any AllocPc.inside = true

/-- Where the flag is set and no section has ended, somebody is about to end one, to evict
    the page or to clear the flag. -/
structure Answered (s : Tracked T C) : Prop where
  shaped : ∀ t, Shaped (s.page.thread t)
  stale : s.Stale → ∃ t, s.AnswersFor t

theorem stepped_shaped {s' : Tracked T C} {a : Move C} (shaped : Shaped (s.page.thread t))
    (step : Stepped s t a s') : Shaped (s'.page.thread t) := by
  cases step with
  | page a page' free guarded step => exact next_shaped shaped step
  | enter free => exact shaped
  | alloc c b pc at_ =>
    cases pc with
    | load => exact shaped
    | lock v =>
      unfold runAlloc
      dsimp only
      split
      · change Shaped (((s.page.setWord _).hold t .fixed .idle).thread t)
        rw [hold_thread]
        exact shaped_of_plain (by rintro ⟨⟩) (by rintro ⟨⟩) rfl
      · exact shaped
    | fault => exact shaped
    | clear => exact shaped
    | construct =>
      change Shaped ((State.hold _ t .exclusive .idle).thread t)
      rw [hold_thread]
      exact shaped_of_plain (by rintro ⟨⟩) (by rintro ⟨⟩) rfl

theorem stepped_stale {s' : Tracked T C} {a : Move C} (shaped : Shaped (s.page.thread t))
    (safe : s.FlagSafe (t, a)) (step : Stepped s t a s') (stale : s'.Stale) :
    s'.AnswersFor t ∨ s.Stale ∧ ¬ s.AnswersFor t := by
  have allocating : ∀ (r : Tracked T C) pc, pc.inside = true → (r.allocAt t (some pc)).AnswersFor t :=
    fun r pc inside => .inr (by simp [allocAt, inside])
  cases step with
  | page a page' free guarded step =>
    rcases page_stale shaped safe guarded step stale with answers | ⟨before, silent⟩
    · exact .inl (.inl answers)
    · refine .inr ⟨before, ?_⟩
      rintro (answers | inside)
      · exact silent answers
      · rw [free] at inside; cases inside
  | enter free =>
    by_cases answers : s.AnswersFor t
    · rcases answers with answers | inside
      · exact .inl (.inl answers)
      · rw [free] at inside; cases inside
    · exact .inr ⟨⟨stale.resident, stale.dirty, stale.unended⟩, answers⟩
  | alloc c b pc at_ =>
    cases pc with
    | load =>
      by_cases answers : s.AnswersFor t
      · rcases answers with answers | inside
        · exact .inl (.inl answers)
        · rw [at_] at inside; cases inside
      · exact .inr ⟨⟨stale.resident, stale.dirty, stale.unended⟩, answers⟩
    | lock v =>
      left
      unfold runAlloc
      dsimp only
      split
      · exact allocating _ _ rfl
      · exact allocating _ _ rfl
    | fault => exact .inl (allocating _ _ rfl)
    | clear => cases stale.dirty
    | construct =>
      left; left
      change Answers ((State.hold _ t .exclusive .idle).thread t)
      rw [hold_thread]
      exact .section_ rfl

theorem answered_step {s' : Tracked T C} {m : T × Move C} (inv : s.Answered)
    (safe : s.FlagSafe m) (step : next s m = some s') : s'.Answered := by
  have step := next_stepped step
  refine ⟨fun u => ?_, fun stale => ?_⟩
  · by_cases same : u = m.1
    · rw [same]
      exact stepped_shaped (inv.shaped _) step
    · rw [(stepped_frame step same).1]
      exact inv.shaped u
  · rcases stepped_stale (inv.shaped _) safe step stale with mine | ⟨before, silent⟩
    · exact ⟨m.1, mine⟩
    · obtain ⟨u, answers⟩ := inv.stale before
      have other : u ≠ m.1 := fun same => silent (same ▸ answers)
      obtain ⟨thread, alloc⟩ := stepped_frame step other
      refine ⟨u, ?_⟩
      unfold AnswersFor
      rwa [thread, alloc]

omit [DecidableEq T] in
theorem answered_start (c : C) : (start c : Tracked T C).Answered :=
  ⟨fun _ => shaped_of_free rfl (by rintro ⟨⟩) (by rintro ⟨⟩), fun stale => by cases stale.resident⟩

omit [DecidableEq T] in
theorem Answered.reports (inv : s.Answered) : s.ReportsSections := by
  intro resident quiet dirty
  by_contra unended
  obtain ⟨t, answers⟩ := inv.stale ⟨resident, dirty, by simpa using unended⟩
  obtain ⟨unowned, unselected⟩ := quiet t
  rcases answers with answers | inside
  · cases answers with
    | section_ held => exact unowned (.inl (by rw [held]; rfl))
    | evicts held => exact unowned (.inl (by rw [held]; rfl))
    | fixes held stays => exact unowned (.inl (by rw [held]; rfl))
    | selected at_ => rw [unselected] at at_; cases at_
  · exact unowned (.inr inside)

/-- As long as every load for reading finds the flag clear on disk and vmcache_canBeEvicted
    locks the marked pages that it wrote back, a page that was only read is not reported dirty. -/
theorem only_read_not_dirty (c : C) (ms : List (T × Move C)) (s : Tracked T C)
    (safe : Allowed next FlagSafe (start c) ms) (run : exec next (start c) ms = some s) :
    s.ReportsSections :=
  (exec_invariant FlagSafe Answered (fun _ _ _ inv ok step => answered_step inv ok step)
    (answered_start c) safe run).reports

instance : Decidable (s.Owns t) := by
  unfold Owns
  infer_instance

instance (m : T × Move C) : Decidable (s.FlagSafe m) := by
  unfold FlagSafe
  split <;> infer_instance

def onPage (ms : List (Party × Act ℕ)) : List (Party × Move ℕ) := ms.map fun m => (m.1, .page m.2)

/-- The worker reads the page, which is faulted in for it, and modifies it then. -/
def readAndModified : List (Party × Move ℕ) :=
  onPage (does .worker [.start .fixS, .run, .run, .run, .run, .run, .run, .run, .start .unfixS]) ++
  onPage (does .worker [.run, .run, .start .fixX, .run, .run, .start .guardXPid, .run, .write 8]) ++
  onPage (does .worker [.start .unfixX, .run, .run])

theorem only_read_not_dirty_modified :
    ∃ s, exec next (start 7) readAndModified = some s ∧ s.resident = true ∧
      vmcache_isDirty s.page = true ∧ s.ReportsSections := by
  obtain ⟨s, run, seen⟩ := exec_observe next (start 7) readAndModified
    (fun s => (s.resident, vmcache_isDirty s.page)) (true, true) (by decide)
  obtain ⟨resident, dirty⟩ := Prod.mk.inj seen
  exact ⟨s, run, resident, dirty, only_read_not_dirty 7 readAndModified s (by decide) run⟩

/-- A page that the worker modified is written back and evicted; the worker reads it again. -/
def readAgain : List (Party × Move ℕ) :=
  onPage (does .worker [.start .fixX, .run, .run, .run, .start .guardXPid, .run, .write 8]) ++
  onPage (does .worker [.start .unfixX, .run, .run]) ++
  onPage (does .evictor [.start .policy, .run, .run, .start .policy, .run, .run, .run]) ++
  onPage (does .evictor [.accepted true, .run, .run, .run, .run, .run, .run, .run, .run, .run]) ++
  onPage (does .worker [.start .fixS, .run, .run, .run, .run, .run, .run, .run])

/-- The flag was set when the page was written, and it comes back with the page. -/
theorem read_reported_dirty :
    ∃ s, exec next (start 7) readAgain = some s ∧
      s.resident = true ∧ vmcache_isDirty s.page = true ∧ s.modified = false ∧
      ¬ s.ReportsSections := by
  obtain ⟨s, run, seen⟩ := exec_observe next (start 7) readAgain
    (fun s => (s.resident, vmcache_isDirty s.page, s.modified,
      decide (∀ t, ¬ s.Owns t ∧ (s.page.thread t).pc.selected = false)))
    (true, true, false, true) (by decide)
  obtain ⟨resident, rest⟩ := Prod.mk.inj seen
  obtain ⟨dirty, rest⟩ := Prod.mk.inj rest
  obtain ⟨unended, quiet⟩ := Prod.mk.inj rest
  refine ⟨s, run, resident, dirty, unended, fun reports => ?_⟩
  have ended := reports resident (of_decide_eq_true quiet) dirty
  rw [unended] at ended
  cases ended

end Tracked
end PageState
