import OsvBenchmarks.Bfs.Run
import OsvBenchmarks.Driver.ParallelFor

/-!
The breadth-first searches of bfs_kernel.hpp.omp and bfs_kernel.hpp.threads: in each
level the threads sweep over all vertices, each over its part, and race on the level
array, the visited filter and the flag. Every access is a step of its own; a set_bit
reads its word and writes it back later, so it may undo the set_bit of another
thread. A thread that starts late is one whose first step comes late.
-/
namespace Bfs.Sweep
open Runs Layers

structure Parts (numVertices : ℕ) where
  parts : List (ℕ × ℕ)
  covers : ∀ v < numVertices, ∃ p ∈ parts, p.1 ≤ v ∧ v < p.2
  inside : ∀ p ∈ parts, p.2 ≤ numVertices

inductive Access
  /-- get_bit -/
  | filter
  | level
  | store
  /-- set_bit reads its word -/
  | load
  | write (word : ℕ)
  | flag
  deriving DecidableEq

inductive Worker
  | finished
  | scan (src stop : ℕ)
  | target (access : Access) (trg : ℕ) (todo : List ℕ) (src stop : ℕ)
  deriving DecidableEq

/-- On to the next target, or to the vertex `src`. -/
def Worker.go (src stop : ℕ) : List ℕ → Worker
  | [] => scan src stop
  | trg :: todo => target .filter trg todo src stop

inductive Main
  | fork
  | join
  | returned
  deriving DecidableEq

structure State where
  level : ℕ → ℕ
  visitedFilter : ℕ → ℕ
  currentLevel : ℕ
  visitedNewVertex : Bool
  workers : ℕ → Worker
  main : Main

inductive Event
  | main
  | worker (i : ℕ)

def getBit (bitmap : ℕ → ℕ) (pos : ℕ) : Bool := (bitmap (pos / 64)).testBit (pos % 64)

def bitmapSize (size : ℕ) : ℕ := if size = 0 then 0 else (size - 1) / 64 + 1

/-- init_bfs and find_bfs_root -/
def start (g : Graph) (level visitedFilter : ℕ → ℕ) (root : ℕ) : State where
  level := set (initBfs g.numVertices level) root 0
  visitedFilter := fun i => if i < bitmapSize g.numVertices then 0 else visitedFilter i
  currentLevel := 0
  visitedNewVertex := false
  workers := fun _ => .finished
  main := .fork

/-- The level a worker stores. -/
def State.nextLevel (s : State) : ℕ := (s.currentLevel + 1) % 2 ^ 16

section Step
variable (g : Graph) (parts : Parts g.numVertices)

def begin_ (i : ℕ) : Worker :=
  match parts.parts[i]? with
  | some p => .scan p.1 p.2
  | none => .finished

def mainStep (s : State) : Option State :=
  match s.main with
  | .fork => some { s with workers := begin_ g parts, main := .join }
  | .join =>
    if ∀ i < parts.parts.length, s.workers i = .finished then
      if !s.visitedNewVertex then some { s with main := .returned }
      else some { s with currentLevel := s.nextLevel, visitedNewVertex := false, main := .fork }
    else none
  | .returned => none

def State.turn (s : State) (i : ℕ) (w : Worker) : State := { s with workers := set s.workers i w }

def workerStep (s : State) (i : ℕ) : Option State :=
  match s.workers i with
  | .finished => none
  | .scan src stop =>
    if src < stop then
      if s.level src ≠ s.currentLevel then some (s.turn i (.scan (src + 1) stop))
      else some (s.turn i (.go (src + 1) stop (g.targets src)))
    else some (s.turn i .finished)
  | .target access trg todo src stop =>
    match access with
    | .filter =>
      if !getBit s.visitedFilter trg then some (s.turn i (.target .level trg todo src stop))
      else some (s.turn i (.go src stop todo))
    | .level =>
      if s.level trg = infiniteLevel then some (s.turn i (.target .store trg todo src stop))
      else some (s.turn i (.go src stop todo))
    | .store =>
      some { s.turn i (.target .load trg todo src stop) with level := set s.level trg s.nextLevel }
    | .load => some (s.turn i (.target (.write (s.visitedFilter (trg / 64))) trg todo src stop))
    | .write word =>
      some { s.turn i (.target .flag trg todo src stop) with
        visitedFilter := set s.visitedFilter (trg / 64) (word ||| 2 ^ (trg % 64)) }
    | .flag => some { s.turn i (.go src stop todo) with visitedNewVertex := true }

def next (s : State) : Event → Option State
  | .main => mainStep g parts s
  | .worker i => workerStep g s i

end Step

/-- The thread has still to look at the edge from `u` to `v`. -/
def Worker.Owes (u v : ℕ) : Worker → Prop
  | finished => False
  | scan src stop => src ≤ u ∧ u < stop
  | target access trg todo src stop => (src ≤ u ∧ u < stop) ∨ v ∈ todo ∨
      v = trg ∧ (access = .filter ∨ access = .level ∨ access = .store)

def Worker.Storing : Worker → Prop
  | finished => False
  | scan _ _ => False
  | target access _ _ _ _ => ¬ (access = .filter ∨ access = .level ∨ access = .store)

variable {g : Graph} {root : ℕ}

/-- What a thread has seen still holds: nothing that has a level loses it. -/
def Access.Sound (g : Graph) (root : ℕ) (s : State) (trg : ℕ) : Access → Prop
  | filter => True
  | level => True
  | store => Distance g.Edge root (s.currentLevel + 1) trg
  | load => Distance g.Edge root (s.currentLevel + 1) trg ∧ s.level trg ≠ infiniteLevel
  | write word => (Distance g.Edge root (s.currentLevel + 1) trg ∧ s.level trg ≠ infiniteLevel) ∧
      ∀ v < g.numVertices, v / 64 = trg / 64 → word.testBit (v % 64) = true →
        s.level v ≠ infiniteLevel
  | flag => Distance g.Edge root (s.currentLevel + 1) trg ∧ s.level trg ≠ infiniteLevel

def Worker.Sound (g : Graph) (root : ℕ) (s : State) : Worker → Prop
  | finished => True
  | scan _ stop => stop ≤ g.numVertices
  | target access trg todo _ stop => stop ≤ g.numVertices ∧ access.Sound g root s trg ∧
      ∀ v ∈ trg :: todo, ∃ u, Distance g.Edge root s.currentLevel u ∧ g.Edge u v

/-- The levels up to the current one are known, and no vertex beyond the next has one. -/
structure Known (g : Graph) (root : ℕ) (s : State) : Prop where
  near : ∀ v d, d ≤ s.currentLevel → Distance g.Edge root d v → s.level v = d
  far : ∀ v, Beyond g root s.currentLevel v → s.level v = infiniteLevel ∨
    Distance g.Edge root (s.currentLevel + 1) v ∧ s.level v = s.currentLevel + 1
  bits : ∀ v < g.numVertices, getBit s.visitedFilter v = true → s.level v ≠ infiniteLevel
  inhabited : ∃ v, Distance g.Edge root s.currentLevel v

structure Sweeping (g : Graph) (root : ℕ) (s : State) : Prop extends Known g root s where
  sound : ∀ i, (s.workers i).Sound g root s
  owed : ∀ u v, Distance g.Edge root s.currentLevel u → g.Edge u v → s.level v = infiniteLevel →
    ∃ i, (s.workers i).Owes u v
  flagged : ∀ v, Distance g.Edge root (s.currentLevel + 1) v → s.level v ≠ infiniteLevel →
    s.visitedNewVertex = true ∨ ∃ i, (s.workers i).Storing
  fresh : s.visitedNewVertex = true → ∃ v, Distance g.Edge root (s.currentLevel + 1) v

structure Correct (g : Graph) (root : ℕ) (s : State) : Prop where
  reached : ∀ v d, Distance g.Edge root d v → s.level v = d
  unreached : ∀ v < g.numVertices, (∀ d, ¬ Distance g.Edge root d v) → s.level v = infiniteLevel
  attained : ∃ v, Distance g.Edge root s.currentLevel v
  largest : ∀ v d, Distance g.Edge root d v → d ≤ s.currentLevel

def Inv (g : Graph) (root : ℕ) (parts : Parts g.numVertices) (s : State) : Prop :=
  match s.main with
  | .fork => (∀ i, s.workers i = .finished) ∧ Known g root s ∧ s.visitedNewVertex = false ∧
      ∀ v, Beyond g root s.currentLevel v → s.level v = infiniteLevel
  | .join => (∀ i, parts.parts.length ≤ i → s.workers i = .finished) ∧ Sweeping g root s
  | .returned => (∀ i, s.workers i = .finished) ∧ Correct g root s

/-- What a step of thread `i` may do. -/
structure Advance (g : Graph) (root i : ℕ) (s s' : State) : Prop where
  main : s'.main = s.main
  current : s'.currentLevel = s.currentLevel
  other : ∀ j, j ≠ i → s'.workers j = s.workers j
  level : ∀ v, s'.level v = s.level v ∨
    Distance g.Edge root (s.currentLevel + 1) v ∧ s'.level v = s.currentLevel + 1
  bits : ∀ v < g.numVertices, getBit s'.visitedFilter v = true →
    getBit s.visitedFilter v = true ∨ s.level v ≠ infiniteLevel
  sound : (s'.workers i).Sound g root s'
  owed : ∀ u v, Distance g.Edge root s.currentLevel u → g.Edge u v → s'.level v = infiniteLevel →
    (s.workers i).Owes u v → (s'.workers i).Owes u v
  raised : s.visitedNewVertex = true → s'.visitedNewVertex = true
  storing : (s.workers i).Storing → s'.visitedNewVertex = true ∨ (s'.workers i).Storing
  stored : ∀ v, s'.level v ≠ s.level v → (s'.workers i).Storing
  fresh : s'.visitedNewVertex = true → s.visitedNewVertex = true ∨
    ∃ v, Distance g.Edge root (s.currentLevel + 1) v

section Advance
variable {i : ℕ} {s s' : State}

def Finite (g : Graph) (root : ℕ) : Prop := ∀ d v, Distance g.Edge root d v → d < infiniteLevel

theorem Advance.seen (advance : Advance g root i s s') (finite : Finite g root)
    {v : ℕ} (seen : s.level v ≠ infiniteLevel) : s'.level v ≠ infiniteLevel := by
  rcases advance.level v with same | ⟨next, stored⟩
  · rwa [same]
  · rw [stored]
    exact Nat.ne_of_lt (finite _ v next)

theorem Worker.Sound.keep {w : Worker} (sound : w.Sound g root s) (current : s'.currentLevel = s.currentLevel)
    (seen : ∀ v, s.level v ≠ infiniteLevel → s'.level v ≠ infiniteLevel) : w.Sound g root s' := by
  cases w with
  | finished => trivial
  | scan src stop => exact sound
  | target access trg todo src stop =>
    obtain ⟨range, accessed, sources⟩ := sound
    refine ⟨range, ?_, by simpa only [current] using sources⟩
    cases access with
    | filter => trivial
    | level => trivial
    | store => simpa only [Access.Sound, current] using accessed
    | load => exact ⟨current ▸ accessed.1, seen _ accessed.2⟩
    | write word =>
      refine ⟨⟨current ▸ accessed.1.1, seen _ accessed.1.2⟩, ?_⟩
      intro v inside same bit
      exact seen v (accessed.2 v inside same bit)
    | flag => exact ⟨current ▸ accessed.1, seen _ accessed.2⟩

theorem Sweeping.advance (sweeping : Sweeping g root s) (finite : Finite g root)
    (advance : Advance g root i s s') : Sweeping g root s' := by
  have seen : ∀ v, s.level v ≠ infiniteLevel → s'.level v ≠ infiniteLevel :=
    fun v h => advance.seen finite h
  have current := advance.current
  constructor
  · constructor
    · intro v d le distance
      rw [current] at le
      rcases advance.level v with same | ⟨next, _⟩
      · rw [same]
        exact sweeping.near v d le distance
      · have := distance.unique next
        omega
    · intro v beyond
      rw [current] at beyond ⊢
      rcases advance.level v with same | stored
      · rw [same]
        exact sweeping.far v beyond
      · exact Or.inr stored
    · intro v inside bit
      rcases advance.bits v inside bit with before | known
      · exact seen v (sweeping.bits v inside before)
      · exact seen v known
    · rw [current]
      exact sweeping.inhabited
  · intro j
    by_cases same : j = i
    · rw [same]
      exact advance.sound
    · rw [advance.other j same]
      exact (sweeping.sound j).keep current seen
  · intro u v source edge unseen
    rw [current] at source
    have before : s.level v = infiniteLevel := by
      by_contra known
      exact seen v known unseen
    obtain ⟨j, owes⟩ := sweeping.owed u v source edge before
    refine ⟨j, ?_⟩
    by_cases same : j = i
    · subst same
      exact advance.owed u v source edge unseen owes
    · rwa [advance.other j same]
  · intro v distance known
    rw [current] at distance
    by_cases changed : s'.level v = s.level v
    · rw [changed] at known
      rcases sweeping.flagged v distance known with flag | ⟨j, storing⟩
      · exact Or.inl (advance.raised flag)
      · by_cases same : j = i
        · subst same
          exact (advance.storing storing).imp_right fun h => ⟨j, h⟩
        · exact Or.inr ⟨j, by rwa [advance.other j same]⟩
    · exact Or.inr ⟨i, advance.stored v changed⟩
  · intro flag
    rw [current]
    exact (advance.fresh flag).elim sweeping.fresh id

theorem Worker.go_sound {src stop : ℕ} {todo : List ℕ} (range : stop ≤ g.numVertices)
    (sources : ∀ v ∈ todo, ∃ u, Distance g.Edge root s.currentLevel u ∧ g.Edge u v) :
    (Worker.go src stop todo).Sound g root s := by
  cases todo with
  | nil => exact range
  | cons trg todo => exact ⟨range, trivial, sources⟩

theorem Worker.go_owes {src stop u v : ℕ} {todo : List ℕ} :
    (Worker.go src stop todo).Owes u v ↔ (src ≤ u ∧ u < stop) ∨ v ∈ todo := by
  cases todo with
  | nil => simp [go, Owes]
  | cons trg todo =>
    simp only [go, Owes, List.mem_cons, true_or, and_true]
    tauto

theorem turn_advance {w : Worker} (sound : w.Sound g root s)
    (owed : ∀ u v, Distance g.Edge root s.currentLevel u → g.Edge u v → s.level v = infiniteLevel →
      (s.workers i).Owes u v → w.Owes u v)
    (storing : (s.workers i).Storing → w.Storing) : Advance g root i s (s.turn i w) := by
  have here : (s.turn i w).workers i = w := set_same _ i w
  constructor
  · rfl
  · rfl
  · exact fun j differ => set_other _ _ differ
  · exact fun v => Or.inl rfl
  · exact fun v _ bit => Or.inl bit
  · rw [here]
    exact sound.keep rfl fun _ known => known
  · rw [here]
    exact owed
  · exact id
  · rw [here]
    exact fun h => Or.inr (storing h)
  · exact fun v changed => absurd rfl changed
  · exact Or.inl

theorem Known.layer (known : Known g root s) (finite : Finite g root) {v : ℕ}
    (inside : v < g.numVertices) (level : s.level v = s.currentLevel) :
    Distance g.Edge root s.currentLevel v := by
  obtain ⟨_, reached⟩ := known.inhabited
  have short := finite _ _ reached
  by_cases near : ∃ d, d ≤ s.currentLevel ∧ Distance g.Edge root d v
  · obtain ⟨d, le, distance⟩ := near
    have same := known.near v d le distance
    rw [level] at same
    rwa [same]
  · have beyond : Beyond g root s.currentLevel v :=
      ⟨inside, fun e le distance => near ⟨e, le, distance⟩⟩
    rcases known.far v beyond with unseen | ⟨_, next⟩
    · omega
    · omega

theorem Known.unseen (known : Known g root s) (finite : Finite g root) {u v : ℕ}
    (source : Distance g.Edge root s.currentLevel u) (edge : g.Edge u v)
    (unseen : s.level v = infiniteLevel) : Distance g.Edge root (s.currentLevel + 1) v := by
  obtain ⟨e, le, distance⟩ := source.edge_le edge
  rcases Nat.lt_or_ge s.currentLevel e with above | below
  · obtain rfl : e = s.currentLevel + 1 := by omega
    exact distance
  · have seen := known.near v e below distance
    have short := finite e v distance
    omega

theorem getBit_set (bitmap : ℕ → ℕ) (trg word v : ℕ) :
    getBit (set bitmap (trg / 64) (word ||| 2 ^ (trg % 64))) v = true ↔
      if v / 64 = trg / 64 then word.testBit (v % 64) = true ∨ v = trg else getBit bitmap v = true := by
  by_cases same : v / 64 = trg / 64
  · have place : trg % 64 = v % 64 ↔ v = trg := by omega
    simp [getBit, same, Nat.testBit_or, Nat.testBit_two_pow, place]
  · simp [getBit, same, set_other]

theorem store_advance (finite : Finite g root) {trg src stop : ℕ} {todo : List ℕ}
    (here : s.workers i = .target .store trg todo src stop) (sound : (s.workers i).Sound g root s) :
    Advance g root i s { s.turn i (.target .load trg todo src stop) with
      level := set s.level trg s.nextLevel } := by
  rw [here] at sound
  obtain ⟨range, next, sources⟩ := sound
  have short := finite _ trg next
  rw [infiniteLevel] at short
  have stored : s.nextLevel = s.currentLevel + 1 := by
    rw [State.nextLevel]
    omega
  have now : set s.level trg s.nextLevel trg = s.nextLevel := set_same _ trg _
  have level : ∀ v, v ≠ trg → set s.level trg s.nextLevel v = s.level v :=
    fun v differ => set_other _ _ differ
  constructor
  · rfl
  · rfl
  · exact fun j differ => set_other _ _ differ
  · intro v
    by_cases same : v = trg
    · subst same
      exact Or.inr ⟨next, now.trans stored⟩
    · exact Or.inl (level v same)
  · exact fun v _ bit => Or.inl bit
  · simp only [State.turn, set_same]
    refine ⟨range, ⟨next, ?_⟩, sources⟩
    simp only [set_same, stored, infiniteLevel]
    omega
  · intro u v _ _ unseen owes
    have differ : v ≠ trg := by
      rintro rfl
      have none := now.symm.trans unseen
      rw [stored, infiniteLevel] at none
      omega
    rw [here] at owes
    simp only [State.turn, set_same, Worker.Owes] at owes ⊢
    rcases owes with ahead | later | ⟨same, _⟩
    · exact Or.inl ahead
    · exact Or.inr (Or.inl later)
    · exact absurd same differ
  · exact id
  · intro _
    right
    simp [State.turn, Worker.Storing]
  · intro v _
    simp [State.turn, Worker.Storing]
  · exact Or.inl

theorem write_advance {trg src stop word : ℕ} {todo : List ℕ}
    (here : s.workers i = .target (.write word) trg todo src stop)
    (sound : (s.workers i).Sound g root s) :
    Advance g root i s { s.turn i (.target .flag trg todo src stop) with
      visitedFilter := set s.visitedFilter (trg / 64) (word ||| 2 ^ (trg % 64)) } := by
  rw [here] at sound
  obtain ⟨range, ⟨stored, read⟩, sources⟩ := sound
  constructor
  · rfl
  · rfl
  · exact fun j differ => set_other _ _ differ
  · exact fun v => Or.inl rfl
  · intro v inside bit
    rw [getBit_set] at bit
    split at bit
    · rename_i word_
      rcases bit with old | rfl
      · exact Or.inr (read v inside word_ old)
      · exact Or.inr stored.2
    · exact Or.inl bit
  · simp only [State.turn, set_same]
    exact ⟨range, stored, sources⟩
  · intro u v _ _ _ owes
    rw [here] at owes
    simpa [State.turn, Worker.Owes] using owes
  · exact id
  · intro _
    right
    simp [State.turn, Worker.Storing]
  · exact fun v changed => absurd rfl changed
  · exact Or.inl

theorem flag_advance {trg src stop : ℕ} {todo : List ℕ}
    (here : s.workers i = .target .flag trg todo src stop) (sound : (s.workers i).Sound g root s) :
    Advance g root i s { s.turn i (.go src stop todo) with visitedNewVertex := true } := by
  rw [here] at sound
  obtain ⟨range, stored, sources⟩ := sound
  constructor
  · rfl
  · rfl
  · exact fun j differ => set_other _ _ differ
  · exact fun v => Or.inl rfl
  · exact fun v _ bit => Or.inl bit
  · simp only [State.turn, set_same]
    have rest : ∀ v ∈ todo, ∃ u, Distance g.Edge root s.currentLevel u ∧ g.Edge u v :=
      fun v member => sources v (List.mem_cons_of_mem _ member)
    exact (Worker.go_sound range rest).keep rfl fun _ known => known
  · intro u v _ _ _ owes
    rw [here] at owes
    simp only [State.turn, set_same, Worker.go_owes]
    simpa [Worker.Owes] using owes
  · exact fun _ => rfl
  · exact fun _ => Or.inl rfl
  · exact fun v changed => absurd rfl changed
  · exact fun _ => Or.inr ⟨trg, stored.1⟩

theorem workerStep_advance (sweeping : Sweeping g root s) (finite : Finite g root)
    (step : workerStep g s i = some s') : Advance g root i s s' := by
  have sound := sweeping.sound i
  unfold workerStep at step
  split at step
  · cases step
  · rename_i src stop here
    have range : stop ≤ g.numVertices := by
      rwa [here] at sound
    have idle : ¬ (s.workers i).Storing := by
      rw [here]
      exact id
    split at step
    · rename_i more
      split at step
      · rename_i other
        cases step
        refine turn_advance range (fun u v source _ _ owes => ?_) fun h => absurd h idle
        rw [here] at owes
        obtain ⟨low, high⟩ := owes
        have differ : u ≠ src := by
          rintro rfl
          exact other (sweeping.near u _ (Nat.le_refl _) source)
        exact ⟨by omega, high⟩
      · rename_i current
        cases step
        have layer := sweeping.layer finite (by omega) (not_not.mp current)
        refine turn_advance (Worker.go_sound range ?_) (fun u v source edge _ owes => ?_)
          fun h => absurd h idle
        · exact fun v member => ⟨src, layer, by omega, member⟩
        · rw [here] at owes
          obtain ⟨low, high⟩ := owes
          rw [Worker.go_owes]
          by_cases same : u = src
          · exact Or.inr (same ▸ edge.2)
          · exact Or.inl ⟨by omega, high⟩
    · rename_i last
      cases step
      refine turn_advance trivial (fun u v _ _ _ owes => ?_) fun h => absurd h idle
      rw [here] at owes
      obtain ⟨low, high⟩ := owes
      omega
  · rename_i access trg todo src stop here
    have parts := sound
    rw [here] at parts
    obtain ⟨range, accessed, sources⟩ := parts
    have rest : ∀ v ∈ todo, ∃ u, Distance g.Edge root s.currentLevel u ∧ g.Edge u v :=
      fun v member => sources v (List.mem_cons_of_mem _ member)
    split at step
    · have idle : ¬ (s.workers i).Storing := by
        rw [here]
        simp [Worker.Storing]
      split at step
      · cases step
        refine turn_advance ⟨range, trivial, sources⟩ (fun u v _ _ _ owes => ?_) fun h => absurd h idle
        rw [here] at owes
        simpa [Worker.Owes] using owes
      · rename_i set_
        cases step
        refine turn_advance (Worker.go_sound range rest) (fun u v _ edge unseen owes => ?_)
          fun h => absurd h idle
        rw [here] at owes
        rw [Worker.go_owes]
        rcases owes with ahead | later | ⟨rfl, _⟩
        · exact Or.inl ahead
        · exact Or.inr later
        · exact absurd unseen (sweeping.bits v edge.inside (by simpa using set_))
    · have idle : ¬ (s.workers i).Storing := by
        rw [here]
        simp [Worker.Storing]
      split at step
      · rename_i unseen
        cases step
        obtain ⟨u, source, edge⟩ := sources trg List.mem_cons_self
        have next := sweeping.unseen finite source edge unseen
        refine turn_advance ⟨range, next, sources⟩ (fun u v _ _ _ owes => ?_) fun h => absurd h idle
        rw [here] at owes
        simpa [Worker.Owes] using owes
      · rename_i seen
        cases step
        refine turn_advance (Worker.go_sound range rest) (fun u v _ _ unseen owes => ?_)
          fun h => absurd h idle
        rw [here] at owes
        rw [Worker.go_owes]
        rcases owes with ahead | later | ⟨rfl, _⟩
        · exact Or.inl ahead
        · exact Or.inr later
        · exact absurd unseen seen
    · cases step
      exact store_advance finite here sound
    · cases step
      refine turn_advance ⟨range, ⟨accessed, ?_⟩, sources⟩ (fun u v _ _ _ owes => ?_) fun _ => ?_
      · intro v inside same bit
        apply sweeping.bits v inside
        rwa [getBit, same]
      · rw [here] at owes
        simpa [Worker.Owes] using owes
      · simp [Worker.Storing]
    · cases step
      exact write_advance here sound
    · cases step
      exact flag_advance here sound

end Advance

section Main
variable {parts : Parts g.numVertices} {s s' : State}

theorem begin_absent {i : ℕ} (none : parts.parts.length ≤ i) : begin_ g parts i = .finished := by
  rw [begin_, List.getElem?_eq_none none]

theorem fork_sweeping (known : Known g root s) (lowered : s.visitedNewVertex = false)
    (fresh : ∀ v, Beyond g root s.currentLevel v → s.level v = infiniteLevel)
    (inside : root < g.numVertices) :
    Sweeping g root { s with workers := begin_ g parts, main := .join } := by
  refine ⟨⟨known.near, known.far, known.bits, known.inhabited⟩, ?_, ?_, ?_, ?_⟩
  · intro i
    simp only [begin_]
    split
    · rename_i p here
      exact parts.inside p (List.mem_of_getElem? here)
    · trivial
  · intro u v source _ _
    obtain ⟨p, member, low, high⟩ := parts.covers u (Graph.distance_inside inside source)
    obtain ⟨i, here⟩ := List.mem_iff_getElem?.mp member
    refine ⟨i, ?_⟩
    simp only [begin_, here]
    exact ⟨low, high⟩
  · intro v distance seen
    refine absurd (fresh v ⟨Graph.distance_inside inside distance, ?_⟩) seen
    intro e le closer
    have same : e = s.currentLevel + 1 := closer.unique distance
    omega
  · intro raised
    rw [lowered] at raised
    cases raised

theorem Sweeping.layer_done (sweeping : Sweeping g root s) (idle : ∀ i, s.workers i = .finished) {v : ℕ}
    (distance : Distance g.Edge root (s.currentLevel + 1) v) : s.level v ≠ infiniteLevel := by
  intro unseen
  obtain ⟨⟨u, source, edge⟩, _⟩ := distance_succ_iff.mp distance
  obtain ⟨i, owes⟩ := sweeping.owed u v source edge unseen
  rw [idle i] at owes
  exact owes

theorem Sweeping.returns (sweeping : Sweeping g root s) (idle : ∀ i, s.workers i = .finished)
    (lowered : s.visitedNewVertex = false) : Correct g root { s with main := .returned } := by
  have empty : ∀ v, ¬ Distance g.Edge root (s.currentLevel + 1) v := by
    intro v distance
    rcases sweeping.flagged v distance (sweeping.layer_done idle distance) with raised | ⟨i, storing⟩
    · rw [lowered] at raised
      cases raised
    · rw [idle i] at storing
      exact storing
  have bound : ∀ v d, Distance g.Edge root d v → d ≤ s.currentLevel := by
    intro v d distance
    by_contra more
    exact empty_after empty (by omega) v distance
  constructor
  · exact fun v d distance => sweeping.near v d (bound v d distance) distance
  · intro v inside unreached
    rcases sweeping.far v ⟨inside, fun e _ => unreached e⟩ with unseen | ⟨next, _⟩
    · exact unseen
    · exact absurd next (unreached _)
  · exact sweeping.inhabited
  · exact bound

theorem Sweeping.deeper (sweeping : Sweeping g root s) (idle : ∀ i, s.workers i = .finished)
    (inside : root < g.numVertices) (raised : s.visitedNewVertex = true)
    (next : s.nextLevel = s.currentLevel + 1) :
    Known g root { s with currentLevel := s.nextLevel, visitedNewVertex := false, main := .fork } ∧
      ∀ v, Beyond g root s.nextLevel v → s.level v = infiniteLevel := by
  have beyond : ∀ v, Beyond g root (s.currentLevel + 1) v → s.level v = infiniteLevel := by
    intro v beyond
    rcases sweeping.far v ⟨beyond.1, fun e le => beyond.2 e (by omega)⟩ with unseen | ⟨distance, _⟩
    · exact unseen
    · exact absurd distance (beyond.2 _ (Nat.le_refl _))
  rw [next]
  refine ⟨⟨?_, ?_, ?_, ?_⟩, beyond⟩
  · intro v d le distance
    rcases Nat.lt_or_ge s.currentLevel d with above | below
    · obtain rfl : d = s.currentLevel + 1 := Nat.le_antisymm le above
      have fresh : Beyond g root s.currentLevel v := by
        refine ⟨Graph.distance_inside inside distance, fun e low closer => ?_⟩
        have := closer.unique distance
        omega
      rcases sweeping.far v fresh with unseen | ⟨_, level⟩
      · exact absurd unseen (sweeping.layer_done idle distance)
      · exact level
    · exact sweeping.near v d below distance
  · exact fun v h => Or.inl (beyond v h)
  · exact sweeping.bits
  · exact sweeping.fresh raised

theorem State.nextLevel_eq (short : s.currentLevel + 1 < infiniteLevel) :
    s.nextLevel = s.currentLevel + 1 := by
  rw [infiniteLevel] at short
  rw [State.nextLevel]
  omega

theorem mainStep_inv (inv : Inv g root parts s) (inside : root < g.numVertices)
    (finite : Finite g root) (step : mainStep g parts s = some s') : Inv g root parts s' := by
  unfold mainStep at step
  split at step
  · rename_i fork
    simp only [Inv, fork] at inv
    obtain ⟨_, known, lowered, fresh⟩ := inv
    cases step
    exact ⟨fun i none => begin_absent none, fork_sweeping known lowered fresh inside⟩
  · rename_i join
    simp only [Inv, join] at inv
    obtain ⟨absent, sweeping⟩ := inv
    split at step
    · rename_i through
      have idle : ∀ i, s.workers i = .finished := by
        intro i
        rcases Nat.lt_or_ge i parts.parts.length with there | none
        · exact through i there
        · exact absent i none
      split at step
      · rename_i lowered
        cases step
        exact ⟨idle, sweeping.returns idle (by simpa using lowered)⟩
      · rename_i raised
        cases step
        have raised : s.visitedNewVertex = true := by simpa using raised
        obtain ⟨v, distance⟩ := sweeping.fresh raised
        have deeper := sweeping.deeper idle inside raised (State.nextLevel_eq (finite _ v distance))
        exact ⟨idle, deeper.1, rfl, deeper.2⟩
    · cases step
  · cases step

theorem Inv.sweeping (inv : Inv g root parts s) {i : ℕ} (busy : s.workers i ≠ .finished) :
    s.main = .join ∧ (∀ i, parts.parts.length ≤ i → s.workers i = .finished) ∧ Sweeping g root s := by
  unfold Inv at inv
  split at inv
  · exact absurd (inv.1 i) busy
  · rename_i join
    exact ⟨join, inv⟩
  · exact absurd (inv.1 i) busy

theorem workerStep_busy {i : ℕ} (step : workerStep g s i = some s') : s.workers i ≠ .finished := by
  intro through
  rw [workerStep, through] at step
  cases step

theorem workerStep_inv {i : ℕ} (inv : Inv g root parts s) (finite : Finite g root)
    (step : workerStep g s i = some s') : Inv g root parts s' := by
  have busy := workerStep_busy step
  obtain ⟨join, absent, sweeping⟩ := inv.sweeping busy
  have advance := workerStep_advance sweeping finite step
  have main := advance.main
  rw [join] at main
  simp only [Inv, main]
  refine ⟨fun j none => ?_, sweeping.advance finite advance⟩
  have differ : j ≠ i := by
    rintro rfl
    exact busy (absent j none)
  rw [advance.other j differ]
  exact absent j none

theorem next_inv {e : Event} (inv : Inv g root parts s) (inside : root < g.numVertices)
    (finite : Finite g root) (step : next g parts s e = some s') : Inv g root parts s' := by
  cases e with
  | main => exact mainStep_inv inv inside finite step
  | worker i => exact workerStep_inv inv finite step

theorem start_inv (level visitedFilter : ℕ → ℕ) (inside : root < g.numVertices) :
    Inv g root parts (start g level visitedFilter root) := by
  have fresh : ∀ v, Beyond g root 0 v → (start g level visitedFilter root).level v = infiniteLevel := by
    intro v beyond
    have differ : v ≠ root := fun same => beyond.2 0 (Nat.le_refl _) (distance_zero_iff.mpr same)
    have level0 : (start g level visitedFilter root).level v = initBfs g.numVertices level v :=
      set_other _ _ differ
    rw [level0, initBfs, if_pos beyond.1]
  refine ⟨fun _ => rfl, ⟨?_, fun v beyond => Or.inl (fresh v beyond), ?_, ?_⟩, rfl, fresh⟩
  · intro v d le distance
    obtain rfl : d = 0 := Nat.le_zero.mp le
    obtain rfl := distance_zero_iff.mp distance
    exact set_same _ v 0
  · intro v inside bit
    have word : v / 64 < bitmapSize g.numVertices := by
      rw [bitmapSize, if_neg (by omega)]
      omega
    simp [start, getBit, word] at bit
  · exact ⟨root, distance_zero_iff.mpr rfl⟩

theorem stuck_returned (stuck : ∀ e, next g parts s e = none) :
    s.main = .returned := by
  have main : mainStep g parts s = none := stuck .main
  unfold mainStep at main
  split at main
  · cases main
  · split at main
    · split at main <;> cases main
    · rename_i waits
      refine absurd (fun i _ => ?_) waits
      by_contra busy
      have step : workerStep g s i = none := stuck (.worker i)
      unfold workerStep at step
      split at step
      · contradiction
      · split at step
        · split at step <;> cases step
        · cases step
      · split at step
        · split at step <;> cases step
        · split at step <;> cases step
        · cases step
        · cases step
        · cases step
        · cases step
  · assumption

end Main

section Ends
variable {parts : Parts g.numVertices} {s s' : State}

def Access.left : Access → ℕ
  | filter => 6
  | level => 5
  | store => 4
  | load => 3
  | write _ => 2
  | flag => 1

/-- The steps a thread takes over the vertices from `src` on. -/
def scanLeft (g : Graph) (src stop : ℕ) : ℕ :=
  ((List.range' src (stop - src)).map fun u => 6 * (g.targets u).length + 1).sum + 1

def Worker.left (g : Graph) : Worker → ℕ
  | finished => 0
  | scan src stop => scanLeft g src stop
  | target access _ todo src stop => access.left + 6 * todo.length + scanLeft g src stop

theorem scanLeft_step {src stop : ℕ} (more : src < stop) :
    scanLeft g src stop = 6 * (g.targets src).length + 1 + scanLeft g (src + 1) stop := by
  obtain ⟨k, rfl⟩ := Nat.exists_eq_add_of_lt more
  have first : src + k + 1 - src = (src + k + 1 - (src + 1)) + 1 := by omega
  rw [scanLeft, scanLeft, first, List.range'_succ, List.map_cons, List.sum_cons]
  omega

theorem Worker.go_left (src stop : ℕ) (todo : List ℕ) :
    (Worker.go src stop todo).left g = 6 * todo.length + scanLeft g src stop := by
  cases todo with
  | nil => simp [go, left]
  | cons trg todo =>
    simp only [go, left, Access.left, List.length_cons]
    omega

theorem State.turn_left {i : ℕ} {w : Worker} : ((s.turn i w).workers i).left g = w.left g := by
  simp only [State.turn, set_same]

theorem workerStep_left {i : ℕ} (step : workerStep g s i = some s') :
    (s'.workers i).left g < (s.workers i).left g := by
  unfold workerStep at step
  split at step
  · cases step
  · rename_i src stop here
    have now : (s.workers i).left g = scanLeft g src stop := by rw [here, Worker.left]
    rw [now]
    split at step
    · rename_i more
      have split := scanLeft_step (g := g) more
      split at step
      · cases step
        rw [State.turn_left, Worker.left]
        omega
      · cases step
        rw [State.turn_left, Worker.go_left]
        omega
    · cases step
      rw [State.turn_left, Worker.left, scanLeft]
      omega
  · rename_i access trg todo src stop here
    have now : (s.workers i).left g = access.left + 6 * todo.length + scanLeft g src stop := by
      rw [here, Worker.left]
    have go := Worker.go_left (g := g) src stop todo
    rw [now]
    split at step
    · split at step
      · cases step
        rw [State.turn_left, Worker.left, Access.left, Access.left]
        omega
      · cases step
        rw [State.turn_left, go, Access.left]
        omega
    · split at step
      · cases step
        rw [State.turn_left, Worker.left, Access.left, Access.left]
        omega
      · cases step
        rw [State.turn_left, go, Access.left]
        omega
    · cases step
      change ((s.turn i _).workers i).left g < _
      rw [State.turn_left, Worker.left, Access.left, Access.left]
      omega
    · cases step
      rw [State.turn_left, Worker.left, Access.left, Access.left]
      omega
    · cases step
      change ((s.turn i _).workers i).left g < _
      rw [State.turn_left, Worker.left, Access.left, Access.left]
      omega
    · cases step
      change ((s.turn i _).workers i).left g < _
      rw [State.turn_left, go, Access.left]
      omega

def State.left (g : Graph) (parts : Parts g.numVertices) (s : State) : ℕ :=
  match s.main with
  | .fork => 2 + ∑ i ∈ Finset.range parts.parts.length, (begin_ g parts i).left g
  | .join => 1 + ∑ i ∈ Finset.range parts.parts.length, (s.workers i).left g
  | .returned => 0

def State.measure (g : Graph) (parts : Parts g.numVertices) (s : State) : ℕ × ℕ :=
  (infiniteLevel - s.currentLevel, s.left g parts)

theorem mainStep_lower (inv : Inv g root parts s) (finite : Finite g root)
    (step : mainStep g parts s = some s') : Lower (s'.measure g parts) (s.measure g parts) := by
  unfold mainStep at step
  split at step
  · rename_i fork
    cases step
    apply Prod.Lex.right
    simp only [State.left, fork]
    omega
  · rename_i join
    simp only [Inv, join] at inv
    obtain ⟨_, sweeping⟩ := inv
    split at step
    · split at step
      · cases step
        apply Prod.Lex.right
        simp only [State.left, join]
        omega
      · rename_i raised
        cases step
        obtain ⟨v, distance⟩ := sweeping.fresh (by simpa using raised)
        have short := finite _ v distance
        apply Prod.Lex.left
        dsimp only
        rw [State.nextLevel_eq short]
        omega
    · cases step
  · cases step

theorem workerStep_lower {i : ℕ} (inv : Inv g root parts s) (finite : Finite g root)
    (step : workerStep g s i = some s') : Lower (s'.measure g parts) (s.measure g parts) := by
  have busy := workerStep_busy step
  obtain ⟨join, absent, sweeping⟩ := inv.sweeping busy
  have advance := workerStep_advance sweeping finite step
  have less := workerStep_left step
  have there : i < parts.parts.length := by
    by_contra none
    exact busy (absent i (not_lt.mp none))
  have each : ∀ j ∈ Finset.range parts.parts.length,
      (s'.workers j).left g ≤ (s.workers j).left g := by
    intro j _
    by_cases same : j = i
    · rw [same]
      exact less.le
    · rw [advance.other j same]
  have sum := Finset.sum_lt_sum each ⟨i, Finset.mem_range.mpr there, less⟩
  have main := advance.main
  rw [join] at main
  rw [State.measure, State.measure, advance.current]
  apply Prod.Lex.right
  simp only [State.left, main, join]
  omega

theorem next_lower {e : Event} (inv : Inv g root parts s) (finite : Finite g root)
    (step : next g parts s e = some s') : Lower (s'.measure g parts) (s.measure g parts) := by
  cases e with
  | main => exact mainStep_lower inv finite step
  | worker i => exact workerStep_lower inv finite step

end Ends

/-- However the threads race, and whichever set_bit is lost, every run ends, only the return
ends it, and then the levels are the distances and the level returned is the largest. -/
theorem sweeps_distances (g : Graph) (root : ℕ) (parts : Parts g.numVertices)
    (level visitedFilter : ℕ → ℕ) (inside : root < g.numVertices)
    (reach : ∀ d v, Distance g.Edge root d v → d ≤ 65534) :
    (∀ run : ℕ → State, run 0 = start g level visitedFilter root →
      ¬ ∀ k, ∃ e, next g parts (run k) e = some (run (k + 1))) ∧
    ∀ events s, exec (next g parts) (start g level visitedFilter root) events = some s →
      ((∀ e, next g parts s e = none) → s.main = .returned) ∧
      (s.main = .returned → Correct g root s) := by
  have finite : Finite g root := fun d v distance => Nat.lt_succ_of_le (reach d v distance)
  have begin' : Inv g root parts (start g level visitedFilter root) :=
    start_inv level visitedFilter inside
  have keep : ∀ s e s', Inv g root parts s → next g parts s e = some s' → Inv g root parts s' :=
    fun s e s' inv step => next_inv inv inside finite step
  constructor
  · intro run first
    apply no_infinite_run lower_wf (State.measure g parts) (Inv g root parts)
    · intro s e s' inv step
      exact ⟨keep s e s' inv step, next_lower inv finite step⟩
    · rw [first]
      exact begin'
  · intro events s run
    have inv := exec_preserves _ keep begin' run
    refine ⟨stuck_returned, ?_⟩
    intro returned
    simp only [Inv, returned] at inv
    exact inv.2

theorem parallel_for_parts {numVertices threads : ℕ} (some : 0 < numVertices)
    (small : numVertices < 2 ^ 64) (one : 1 ≤ threads) (word : threads < 2 ^ 32) :
    ∃ turns calls, ParallelFor.parallel_for turns 0 numVertices threads = .returns calls ∧
      ∃ parts : Parts numVertices, parts.parts = calls.map fun c => (c.b, c.e) := by
  have size : (numVertices + 2 ^ 64 - 0) % 2 ^ 64 = numVertices := by omega
  have lowered : (if numVertices < threads then numVertices else threads) =
      min numVertices threads := by
    split <;> omega
  have least : 0 < min numVertices threads := by omega
  have room : numVertices / min numVertices threads * min numVertices threads + 0 ≤ numVertices :=
    Nat.div_mul_le_self _ _
  have share : 0 < numVertices / min numVertices threads :=
    Nat.div_pos (Nat.min_le_left _ _) least
  obtain ⟨calls, run, tiles, _⟩ := ParallelFor.spawn_tiles share small room (by omega)
    (Nat.zero_add (min numVertices threads))
  have origin : ParallelFor.bound 0 numVertices (min numVertices threads)
      (numVertices / min numVertices threads) 0 = 0 := by
    rw [ParallelFor.bound, if_neg (by omega), Nat.mul_zero]
  rw [origin] at tiles
  refine ⟨min numVertices threads + 1, calls, ?_, ⟨_, ?_, ?_⟩, rfl⟩
  · simp only [ParallelFor.parallel_for, size, lowered]
    rw [if_neg (by omega), run]
  · intro v inside
    obtain ⟨c, member, range⟩ := (tiles.covers v).mpr ⟨Nat.zero_le v, inside⟩
    exact ⟨(c.b, c.e), List.mem_map_of_mem member, range⟩
  · intro p member
    obtain ⟨c, here, rfl⟩ := List.mem_map.mp member
    obtain ⟨_, _, nonempty⟩ := tiles.within here
    have last := (tiles.covers (c.e - 1)).mp ⟨c, here, by omega, by omega⟩
    dsimp only
    omega

def branching : Graph where
  numVertices := 5
  index := fun v => min (v + min v 1) 4
  edges := fun j => j + 1
  monotone := by
    intro v _
    omega
  inside := by
    intro j bound
    omega

def branchingParts : Parts 5 where
  parts := [(0, 2), (2, 5)]
  covers := by
    intro v inside
    rcases Nat.lt_or_ge v 2 with low | high
    · exact ⟨(0, 2), List.mem_cons_self, Nat.zero_le v, low⟩
    · exact ⟨(2, 5), List.mem_cons_of_mem _ List.mem_cons_self, high, inside⟩
  inside := by
    intro p member
    rcases List.mem_cons.mp member with rfl | last
    · exact Nat.le_add_right 2 3
    · rw [List.mem_singleton.mp last]

/-- In the second level the two threads access in turn, and the filter loses vertex 3. -/
def branchingEvents : List Event :=
  [.main] ++ List.replicate 15 (.worker 0) ++ List.replicate 4 (.worker 1) ++ [.main, .main] ++
    [.worker 0, .worker 0] ++ (List.replicate 7 [.worker 1, .worker 0]).flatten ++
    List.replicate 3 (.worker 1) ++ [.main, .main] ++ List.replicate 3 (.worker 0) ++
    List.replicate 4 (.worker 1) ++ [.main]

theorem sweeps_distances_lost : ∃ s,
    exec (next branching branchingParts) (start branching (fun _ => 0) (fun _ => 0) 0)
      branchingEvents = some s ∧
      s.main = .returned ∧ getBit s.visitedFilter 3 = false ∧ Correct branching 0 s := by
  have small : ∀ d v, Distance branching.Edge 0 d v → d ≤ 65534 := by
    intro d v distance
    have bound := distance_lt_numVertices (g := branching) (by decide) distance
    have : branching.numVertices = 5 := rfl
    omega
  obtain ⟨s, run, observed⟩ := exec_observe (next branching branchingParts)
    (start branching (fun _ => 0) (fun _ => 0) 0) branchingEvents
    (fun s => (s.main, getBit s.visitedFilter 3)) (.returned, false) (by decide)
  have returned : s.main = .returned := congrArg Prod.fst observed
  exact ⟨s, run, returned, congrArg Prod.snd observed,
    ((sweeps_distances branching 0 branchingParts _ _ (by decide) small).2 _ s run).2 returned⟩

end Bfs.Sweep
