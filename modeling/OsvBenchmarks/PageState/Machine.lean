import OsvBenchmarks.Library.Runs
import OsvBenchmarks.Library.RwLock
import OsvBenchmarks.PageState.Word

/-!
One page under any number of threads. A move is one atomic load, store or
compare-and-exchange of one thread on the page's word, its dirty flag or its
content; everything a routine does between two of them is local to the thread.
`mem` is the content in memory, `disk` the copy written last, and `last` the
content an exclusive section left last, which no code reads. The dirty flag is
the first byte of the page, so it is written and read back with the content.
-/
namespace PageState
open RwLock

/-- What a thread owns. `fixed` is the lock that fixX or a fault took,
    `exclusive` a GuardX (the page is marked dirty), `evicting` the lock
    behind a vmcache_canBeEvicted that returned true. -/
inductive Hold where
  | free
  | shared
  | fixed
  | exclusive
  | evicting
  deriving DecidableEq, Repr

def Hold.mode : Hold → Mode
  | .free => .free
  | .shared => .shared
  | .fixed | .exclusive | .evicting => .exclusive

/-- Where control goes after unlockX or unlockS. -/
inductive Ret where
  | done
  | fixS
  | init
  | canLast (v : Word)
  deriving DecidableEq, Repr

/-- Program counters: the routine, the atomic step it is at, the words loaded. -/
inductive Pc where
  | idle
  | crashed
  -- BufferManager::fixX
  | fixX
  | fixXLock (v : Word)
  | fixXFault
  -- BufferManager::fixS
  | fixS
  | fixSLock (v : Word)
  | fixSFault
  | fixSShare (v : Word)
  -- PageState::unlockX / unlockXEvicted and unlockS
  | unlockX (newState : Word) (ret : Ret)
  | unlockXStore (v newState : Word) (ret : Ret)
  | unlockS (ret : Ret)
  | unlockSOnce (v : Word) (ret : Ret)
  -- GuardO::init and checkVersionAndRestart
  | init
  | initClear (v : Word)
  | initLock (v : Word)
  | initFault
  | check
  | checkClear (v : Word)
  -- GuardX(GuardO&&) and GuardS(GuardO&&)
  | guardX
  | guardXLock (v : Word)
  | guardXDirty
  | guardS
  -- tryMark, and a clean candidate taken without the policy's bookkeeping
  | mark
  | markOnce (v : Word)
  | cleanEvict
  | cleanEvictLock (v : Word)
  -- vmcache_evict_policy
  | policy
  | policyDirty (v : Word)
  | policyShare (v : Word)
  | policyAdd
  -- between the policy and canBeEvicted
  | isDirty
  | writeBack
  -- vmcache_canBeEvicted
  | canBeEvicted
  | canLock (v : Word)
  | canDirty (v : Word)
  | canClear (v : Word)
  | canUpgrade (v : Word)
  | canLast (v : Word)
  | evictable
  deriving DecidableEq, Repr

def Ret.pc : Ret → Pc
  | .done => .idle
  | .fixS => .fixS
  | .init => .init
  | .canLast v => .canLast v

/-- `guard` is the version of the thread's GuardO on the page, if it has one;
    `uncaught` tells whether std::uncaught_exceptions() is not 0. -/
structure Thread where
  hold : Hold
  pc : Pc
  guard : Option Word
  uncaught : Bool
  deriving DecidableEq, Repr

/-- `ended` counts the exclusive sections that have ended. -/
structure State (T C : Type) where
  word : Word
  dirty : Bool
  mem : C
  disk : C
  diskDirty : Bool
  last : C
  ended : ℕ
  thread : T → Thread

inductive Routine where
  | fixX
  | guardXPid
  | unfixX
  | fixS
  | unfixS
  | init
  | check
  | guardX
  | guardS
  | mark
  | cleanEvict
  | policy
  deriving DecidableEq, Repr

/-- `spurious` lets a weak exchange fail although the words agree; `accepted`
    is the answer of addEvictionCandidate; `raise` is an exception thrown by
    a guard on another page. -/
inductive Act (C : Type) where
  | start (r : Routine)
  | run
  | spurious
  | accepted (yes : Bool)
  | write (c : C)
  | raise
  | handle
  deriving DecidableEq, Repr

inductive Event where
  | silent
  | obtained (v : Word)
  | returned (v : Word)
  | threw
  | lockedX (v : Word)
  | lockedS (v : Word)
  | evictable
  deriving DecidableEq, Repr

variable {T C : Type} [DecidableEq T]

def State.put (s : State T C) (t : T) (th : Thread) : State T C :=
  { s with thread := Function.update s.thread t th }

def State.goto (s : State T C) (t : T) (pc : Pc) : State T C :=
  s.put t { s.thread t with pc := pc }

def State.hold (s : State T C) (t : T) (h : Hold) (pc : Pc) : State T C :=
  s.put t { s.thread t with hold := h, pc := pc }

/-- uCache::handleFault reads the copy written last. -/
def State.fault (s : State T C) : State T C := { s with mem := s.disk, dirty := s.diskDirty }

def State.writeBack (s : State T C) : State T C := { s with disk := s.mem, diskDirty := s.dirty }

def State.setWord (s : State T C) (w : Word) : State T C := { s with word := w }

/-- An OLCRestartException leaves the routine. -/
def State.throw (s : State T C) (t : T) : State T C :=
  s.put t { s.thread t with pc := .idle, uncaught := true }

/-- The end of checkVersionAndRestart when validation failed. -/
def State.invalid (s : State T C) (t : T) (version : Word) : Event × State T C :=
  if (s.thread t).uncaught then (.returned version, s.goto t .idle) else (.threw, s.throw t)

/-- Entering a routine is local; the owner and the guard it needs are those
    the calling code has at that point. -/
def startRoutine (s : State T C) (t : T) (r : Routine) : Option (State T C) :=
  match r, (s.thread t).hold, (s.thread t).guard with
  | .fixX, _, _ => some (s.goto t .fixX)
  | .guardXPid, .fixed, _ => some (s.goto t .guardXDirty)
  | .unfixX, .fixed, _ => some (s.goto t (.unlockX Unlocked .done))
  | .unfixX, .exclusive, _ => some (s.goto t (.unlockX Unlocked .done))
  | .fixS, .free, _ => some (s.goto t .fixS)
  | .unfixS, .shared, _ => some (s.goto t (.unlockS .done))
  | .init, _, _ => some (s.goto t .init)
  | .check, _, some _ => some (s.goto t .check)
  | .guardX, _, some _ => some (s.goto t .guardX)
  | .guardS, .free, some _ => some (s.goto t .guardS)
  | .mark, _, _ => some (s.goto t .mark)
  | .cleanEvict, _, _ => some (s.goto t .cleanEvict)
  | .policy, .free, _ => some (s.goto t .policy)
  | _, _, _ => none

def runPc (s : State T C) (t : T) : Pc → Event × State T C
  | .idle => (.silent, s)
  | .crashed => (.silent, s)
  | .fixX =>
    let st := getState s.word
    if st = Evicted ∨ st = Marked ∨ st = Unlocked then (.silent, s.goto t (.fixXLock s.word))
    else (.silent, s)
  | .fixXLock v =>
    match tryLockX s.word v with
    | some w =>
      (.silent, (s.setWord w).hold t .fixed (if getState v = Evicted then .fixXFault else .idle))
    | none => (.silent, s.goto t .fixX)
  | .fixXFault => (.silent, s.fault.goto t .idle)
  | .fixS =>
    let st := getState s.word
    if st = Locked then (.silent, s)
    else if st = Evicted then (.silent, s.goto t (.fixSLock s.word))
    else (.silent, s.goto t (.fixSShare s.word))
  | .fixSLock v =>
    match tryLockX s.word v with
    | some w => (.silent, (s.setWord w).hold t .fixed .fixSFault)
    | none => (.silent, s.goto t .fixS)
  | .fixSFault => (.silent, s.fault.goto t (.unlockX Unlocked .fixS))
  | .fixSShare v =>
    match tryLockS s.word v with
    | some w => (.silent, (s.setWord w).hold t .shared .idle)
    | none => (.silent, s.goto t .fixS)
  | .unlockX newState ret => (.silent, s.goto t (.unlockXStore s.word newState ret))
  | .unlockXStore v newState ret =>
    (.silent,
      { s.setWord (nextVersion v newState) with ended := s.ended + 1 }.hold t .free ret.pc)
  | .unlockS ret => (.silent, s.goto t (.unlockSOnce s.word ret))
  | .unlockSOnce v ret =>
    match unlockSOnce s.word v with
    | some w => (.silent, (s.setWord w).hold t .free ret.pc)
    | none => (.silent, s.goto t (.unlockS ret))
  | .init =>
    let st := getState s.word
    if st = Marked then (.silent, s.goto t (.initClear s.word))
    else if st = Locked then (.silent, s)
    else if st = Evicted then (.silent, s.goto t (.initLock s.word))
    else (.obtained s.word, s.put t { s.thread t with pc := .idle, guard := some s.word })
  | .initClear v =>
    let newV := sameVersion v Unlocked
    if s.word = v then
      (.obtained newV,
        (s.setWord newV).put t { s.thread t with pc := .idle, guard := some newV })
    else (.silent, s.goto t .init)
  | .initLock v =>
    match tryLockX s.word v with
    | some w => (.silent, (s.setWord w).hold t .fixed .initFault)
    | none => (.silent, s.goto t .init)
  | .initFault => (.silent, s.fault.goto t (.unlockX Unlocked .init))
  | .check =>
    match (s.thread t).guard with
    | none => (.silent, s.goto t .idle)
    | some version =>
      if version = s.word then (.returned version, s.goto t .idle)
      else if s.word <<< 8 = version <<< 8 then
        if getState s.word ≤ MaxShared then (.returned version, s.goto t .idle)
        else if getState s.word = Marked then (.silent, s.goto t (.checkClear s.word))
        else s.invalid t version
      else s.invalid t version
  | .checkClear v =>
    match (s.thread t).guard with
    | none => (.silent, s.goto t .idle)
    | some version =>
      if s.word = v then
        (.returned version, (s.setWord (sameVersion v Unlocked)).goto t .idle)
      else s.invalid t version
  | .guardX =>
    match (s.thread t).guard with
    | none => (.silent, s.goto t .idle)
    | some version =>
      if s.word <<< 8 ≠ version <<< 8 then (.threw, s.throw t)
      else if getState s.word = Unlocked ∨ getState s.word = Marked then
        (.silent, s.goto t (.guardXLock s.word))
      else (.silent, s)
  | .guardXLock v =>
    match (s.thread t).guard, tryLockX s.word v with
    | some version, some w =>
      (.lockedX version, (s.setWord w).put t
        { s.thread t with hold := .fixed, pc := .guardXDirty, guard := none })
    | _, _ => (.silent, s.goto t .guardX)
  | .guardXDirty => (.silent, { s with dirty := true }.hold t .exclusive .idle)
  | .guardS =>
    match (s.thread t).guard with
    | none => (.silent, s.goto t .idle)
    | some version =>
      match tryLockS s.word version with
      | some w =>
        (.lockedS version, (s.setWord w).put t
          { s.thread t with hold := .shared, pc := .idle, guard := none })
      | none => (.threw, s.throw t)
  | .mark =>
    if getState s.word = Unlocked then (.silent, s.goto t (.markOnce s.word))
    else (.silent, s.goto t .idle)
  | .markOnce v =>
    match tryMark s.word v with
    | some w => (.silent, (s.setWord w).goto t .idle)
    | none => (.silent, s.goto t .idle)
  | .cleanEvict =>
    if getState s.word = Marked then (.silent, s.goto t (.cleanEvictLock s.word))
    else (.silent, s.goto t .idle)
  | .cleanEvictLock v =>
    match tryLockX s.word v with
    | some w => (.silent, (s.setWord w).hold t .evicting (.unlockX Evicted .done))
    | none => (.silent, s.goto t .idle)
  | .policy =>
    if getState s.word = Marked then (.silent, s.goto t (.policyDirty s.word))
    else if getState s.word = Unlocked then (.silent, s.goto t (.markOnce s.word))
    else (.silent, s.goto t .idle)
  | .policyDirty v =>
    if s.dirty then (.silent, s.goto t (.policyShare v)) else (.silent, s.goto t .policyAdd)
  | .policyShare v =>
    match tryLockS s.word v with
    | some w => (.silent, (s.setWord w).hold t .shared .policyAdd)
    | none => (.silent, s.goto t .idle)
  | .policyAdd => (.silent, s)
  | .isDirty => (.silent, s.goto t (if s.dirty then .writeBack else .canBeEvicted))
  | .writeBack => (.silent, s.writeBack.goto t .canBeEvicted)
  | .canBeEvicted =>
    if getState s.word = Marked then (.silent, s.goto t (.canLock s.word))
    else (.silent, s.goto t (.canDirty s.word))
  | .canLock v =>
    match tryLockX s.word v with
    | some w => (.evictable, (s.setWord w).hold t .evicting .evictable)
    | none => (.silent, s.goto t .idle)
  | .canDirty v => (.silent, s.goto t (if s.dirty then .canClear v else .canLast v))
  | .canClear v =>
    (.silent, { s with dirty := false }.goto t
      (if getState v = 1 then .canUpgrade v else .unlockS (.canLast v)))
  | .canUpgrade v =>
    match tryLockX s.word v with
    | some w => (.evictable, (s.setWord w).hold t .evicting .evictable)
    | none => (.silent, s.goto t (.unlockS (.canLast s.word)))
  | .canLast v =>
    if getState v = Locked then
      if s.dirty then (.silent, s.goto t .crashed)
      else (.evictable, s.hold t .evicting .evictable)
    else (.silent, s.goto t .idle)
  | .evictable => (.silent, s.goto t (.unlockX Evicted .done))

theorem runPc_idle (s : State T C) (t : T) : runPc s t .idle = (.silent, s) := by
  simp only [runPc]

def act (s : State T C) (m : T × Act C) : Option (Event × State T C) :=
  let t := m.1
  let th := s.thread t
  match m.2 with
  | .run => some (runPc s t th.pc)
  | .start r => if th.pc = .idle then (startRoutine s t r).map (.silent, ·) else none
  | .write c =>
    if th.pc = .idle ∧ th.hold = .exclusive then some (.silent, { s with mem := c, last := c })
    else none
  | .raise => if th.pc = .idle then some (.silent, s.put t { th with uncaught := true }) else none
  | .handle => if th.pc = .idle then some (.silent, s.put t { th with uncaught := false }) else none
  | .spurious =>
    match th.pc with
    | .initClear _ => some (.silent, s.goto t .init)
    | .checkClear _ => th.guard.map fun version => s.invalid t version
    | .canUpgrade _ => some (.silent, s.goto t (.unlockS (.canLast s.word)))
    | _ => none
  | .accepted yes =>
    match th.pc with
    | .policyAdd =>
      if yes then some (.silent, s.goto t .isDirty)
      else if th.hold = .shared then some (.silent, s.goto t (.unlockS .done))
      else some (.silent, s.goto t .idle)
    | _ => none

def next (s : State T C) (m : T × Act C) : Option (State T C) := (act s m).map Prod.snd

def event (s : State T C) (m : T × Act C) : Option Event := (act s m).map Prod.fst

/-- The local jumps that a spurious failure or an answer of addEvictionCandidate takes. -/
inductive Jump (s : State T C) (t : T) : Pc → Prop where
  | initAgain (v : Word) (at_ : (s.thread t).pc = .initClear v) : Jump s t .init
  | giveBack (v : Word) (at_ : (s.thread t).pc = .canUpgrade v) :
      Jump s t (.unlockS (.canLast s.word))
  | taken (at_ : (s.thread t).pc = .policyAdd) : Jump s t .isDirty
  | refusedShare (at_ : (s.thread t).pc = .policyAdd) (held : (s.thread t).hold = .shared) :
      Jump s t (.unlockS .done)
  | refused (at_ : (s.thread t).pc = .policyAdd) : Jump s t .idle

inductive Moved (s : State T C) (t : T) : Act C → State T C → Prop where
  | run : Moved s t .run (runPc s t (s.thread t).pc).2
  | start (r : Routine) (s' : State T C) (idle : (s.thread t).pc = .idle)
      (h : startRoutine s t r = some s') : Moved s t (.start r) s'
  | write (c : C) (idle : (s.thread t).pc = .idle) (held : (s.thread t).hold = .exclusive) :
      Moved s t (.write c) { s with mem := c, last := c }
  | flag (a : Act C) (b : Bool) (idle : (s.thread t).pc = .idle) :
      Moved s t a (s.put t { s.thread t with uncaught := b })
  | jump (a : Act C) (pc : Pc) (j : Jump s t pc) : Moved s t a (s.goto t pc)
  | invalid (a : Act C) (v version : Word) (at_ : (s.thread t).pc = .checkClear v) :
      Moved s t a (s.invalid t version).2

theorem next_moved {s s' : State T C} {m : T × Act C} (step : next s m = some s') :
    Moved s m.1 m.2 s' := by
  obtain ⟨t, a⟩ := m
  simp only [next, act, Option.map_eq_some_iff] at step
  obtain ⟨⟨ev, s''⟩, step, rfl⟩ := step
  dsimp only at step ⊢
  cases a with
  | run =>
    have same : (runPc s t (s.thread t).pc).2 = s'' := congrArg Prod.snd (Option.some.inj step)
    rw [← same]
    exact .run
  | start r =>
    dsimp only at step
    split at step
    · rename_i idle
      obtain ⟨s₁, start, same⟩ := Option.map_eq_some_iff.mp step
      cases same
      exact .start r _ idle start
    · cases step
  | write c =>
    dsimp only at step
    split at step
    · rename_i here
      cases step
      exact .write c here.1 here.2
    · cases step
  | raise =>
    dsimp only at step
    split at step
    · rename_i idle
      cases step
      exact .flag _ true idle
    · cases step
  | handle =>
    dsimp only at step
    split at step
    · rename_i idle
      cases step
      exact .flag _ false idle
    · cases step
  | spurious =>
    dsimp only at step
    split at step
    · rename_i v here
      cases step
      exact .jump _ _ (.initAgain v here)
    · rename_i v here
      obtain ⟨version, _, same⟩ := Option.map_eq_some_iff.mp step
      have same : (s.invalid t version).2 = s'' := congrArg Prod.snd same
      rw [← same]
      exact .invalid _ v version here
    · rename_i v here
      cases step
      exact .jump _ _ (.giveBack v here)
    · cases step
  | accepted yes =>
    dsimp only at step
    split at step
    · rename_i here
      split at step
      · cases step
        exact .jump _ _ (.taken here)
      · split at step
        · rename_i held
          cases step
          exact .jump _ _ (.refusedShare here held)
        · cases step
          exact .jump _ _ (.refused here)
    · cases step

/-- A page as PageState::init leaves it, with content `c` and dirty byte `b` in the file. -/
def initial (c : C) (b : Bool) : State T C :=
  { word := PageState.init, dirty := b, mem := c, disk := c, diskDirty := b, last := c, ended := 0,
    thread := fun _ => ⟨.free, .idle, none, false⟩ }

end PageState
