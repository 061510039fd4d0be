import OsvBenchmarks.Bfs.Kernel
import Mathlib.Data.List.GetD
import Mathlib.Data.List.Nodup

/-!
While a level is searched, what the next frontier and the workers' local ones
hold is exactly what has been claimed of the next layer, each vertex once, and
every vertex not yet claimed is still ahead of some worker. At the last join
nothing is ahead, so the frontiers are the layers.
-/
namespace Bfs
open Runs Layers

variable {g : Graph} {root numThreads : ℕ}

namespace Graph

theorem index_mono {u v : ℕ} (le : u ≤ v) (bound : v ≤ g.numVertices) :
    g.index u ≤ g.index v := by
  induction v with
  | zero =>
    obtain rfl : u = 0 := by omega
    exact Nat.le_refl _
  | succ v ih =>
    rcases Nat.lt_or_ge v u with above | below
    · obtain rfl : u = v + 1 := by omega
      exact Nat.le_refl _
    · exact Nat.le_trans (ih below (by omega)) (g.monotone v bound)

theorem Edge.inside {u v : ℕ} (edge : g.Edge u v) : v < g.numVertices := by
  obtain ⟨source, member⟩ := edge
  rw [targets, List.mem_map] at member
  obtain ⟨j, range, rfl⟩ := member
  rw [List.mem_range'_1] at range
  have last := index_mono (g := g) (u := u + 1) source (Nat.le_refl _)
  exact g.inside j (by omega)

theorem distance_inside (start : root < g.numVertices) {d v : ℕ}
    (distance : Distance g.Edge root d v) : v < g.numVertices := by
  cases d with
  | zero => exact distance_zero_iff.mp distance ▸ start
  | succ d =>
    obtain ⟨⟨u, _, edge⟩, _⟩ := distance_succ_iff.mp distance
    exact edge.inside

theorem mem_scan {frontier : List ℕ} {start stop v : ℕ} :
    v ∈ g.scan frontier start stop ↔
      ∃ p, start ≤ p ∧ p < stop ∧ v ∈ g.targets (frontier.getD p 0) := by
  simp only [scan, List.mem_flatMap, List.mem_range'_1]
  constructor
  · rintro ⟨p, ⟨low, high⟩, member⟩
    exact ⟨p, low, by omega, member⟩
  · rintro ⟨p, low, high, member⟩
    exact ⟨p, ⟨low, by omega⟩, member⟩

end Graph

@[simp] theorem set_same {B : Type*} (f : ℕ → B) (a : ℕ) (b : B) : set f a b a = b := by
  simp [set]

theorem set_other {B : Type*} (f : ℕ → B) {a x : ℕ} (b : B) (differ : x ≠ a) :
    set f a b x = f x := by
  simp [set, differ]

/-- A thread is started exactly for a chunk that begins inside the frontier: this is
also the condition under which it is joined. -/
theorem State.started_iff {s : State} (one : 1 ≤ numThreads) {i : ℕ} :
    i * s.chunkSize numThreads < s.stop numThreads i ↔
      i * s.chunkSize numThreads < s.frontier.length := by
  have ceiling := Nat.div_add_mod (s.frontier.length + numThreads - 1) numThreads
  have rest := Nat.mod_lt (s.frontier.length + numThreads - 1) one
  have whole : 0 < s.frontier.length → 1 ≤ s.chunkSize numThreads := by
    intro some
    rw [State.chunkSize, Nat.le_div_iff_mul_le one]
    omega
  rw [State.stop, Nat.lt_min]
  omega

theorem State.chunk_covers {s : State} (one : 1 ≤ numThreads) {p : ℕ}
    (inside : p < s.frontier.length) :
    ∃ i, i < numThreads ∧ i * s.chunkSize numThreads ≤ p ∧ p < s.stop numThreads i := by
  obtain ⟨c, size⟩ : ∃ c, c = s.chunkSize numThreads := ⟨_, rfl⟩
  have positive : 0 < c := by
    rw [size, State.chunkSize]
    exact Nat.div_pos (by omega) one
  have enough : s.frontier.length ≤ numThreads * c := by
    have ceiling := Nat.div_add_mod (s.frontier.length + numThreads - 1) numThreads
    have rest := Nat.mod_lt (s.frontier.length + numThreads - 1) one
    rw [← State.chunkSize, ← size] at ceiling
    omega
  have split := Nat.div_add_mod p c
  have rest := Nat.mod_lt p positive
  refine ⟨p / c, ?_, ?_, ?_⟩
  · rw [Nat.div_lt_iff_lt_mul positive]
    omega
  · rw [← size, Nat.mul_comm]
    omega
  · rw [State.stop, ← size, Nat.mul_comm]
    omega

theorem State.mem_chunk {s : State} {i v : ℕ} (member : v ∈ s.chunk g numThreads i) :
    ∃ u ∈ s.frontier, v ∈ g.targets u := by
  obtain ⟨p, _, high, target⟩ := Graph.mem_scan.mp member
  have inside : p < s.frontier.length := by
    rw [State.stop] at high
    omega
  rw [List.getD_eq_getElem _ _ inside] at target
  exact ⟨_, List.getElem_mem inside, target⟩

theorem State.chunk_complete {s : State} (one : 1 ≤ numThreads) {u v : ℕ}
    (member : u ∈ s.frontier) (target : v ∈ g.targets u) :
    ∃ i, i < numThreads ∧ v ∈ s.chunk g numThreads i := by
  obtain ⟨p, inside, rfl⟩ := List.getElem_of_mem member
  obtain ⟨i, thread, low, high⟩ := s.chunk_covers one inside
  refine ⟨i, thread, Graph.mem_scan.mpr ⟨p, low, high, ?_⟩⟩
  rwa [List.getD_eq_getElem _ _ inside]

theorem State.chunk_nil {s : State} {i : ℕ}
    (empty : s.stop numThreads i ≤ i * s.chunkSize numThreads) : s.chunk g numThreads i = [] := by
  rw [List.eq_nil_iff_forall_not_mem]
  intro v member
  obtain ⟨p, low, high, _⟩ := Graph.mem_scan.mp member
  omega

def Worker.todo : Worker → List ℕ
  | .running todo _ => todo
  | .absent => []
  | .finished => []

def Worker.found : Worker → List ℕ
  | .running _ found => found
  | .absent => []
  | .finished => []

/-- The loop that starts the threads has still to come to thread `i`. -/
def State.Waiting (s : State) (numThreads i : ℕ) : Prop :=
  match s.main with
  | .check => i < numThreads
  | .create k => k ≤ i ∧ i < numThreads
  | .join _ => False
  | .returned => False
  | .crashed => False

instance (s : State) (numThreads i : ℕ) : Decidable (s.Waiting numThreads i) := by
  unfold State.Waiting
  split <;> infer_instance

/-- The vertex that a step appends to a frontier: its compare-and-swap succeeds. -/
def claim (s : State) : Event → Option ℕ
  | .main => none
  | .worker i =>
    match s.workers i with
    | .running (trg :: _) _ => if s.level trg = infiniteLevel then some trg else none
    | _ => none

/-- What is still ahead of thread `i` in this level. -/
def State.ahead (s : State) (g : Graph) (numThreads i : ℕ) : List ℕ :=
  if s.Waiting numThreads i then s.chunk g numThreads i else (s.workers i).todo

/-- Where claimed vertices are kept: the shared frontier or a worker's own. -/
def State.bag (s : State) : Option ℕ → List ℕ
  | none => s.nextFrontier
  | some i => (s.workers i).found

structure Once (bag : Option ℕ → List ℕ) : Prop where
  nodup : ∀ b, (bag b).Nodup
  single : ∀ b c v, v ∈ bag b → v ∈ bag c → b = c

namespace Once
variable {bag bag' : Option ℕ → List ℕ} {b c : Option ℕ} {v : ℕ}

theorem push (once : Once bag) (fresh : ∀ c, v ∉ bag c) (here : bag' b = bag b ++ [v])
    (rest : ∀ c, c ≠ b → bag' c = bag c) : Once bag' := by
  constructor
  · intro c
    by_cases same : c = b
    · subst same
      rw [here]
      exact List.Nodup.append (once.nodup c) (List.nodup_singleton v)
        (List.disjoint_singleton.mpr (fresh c))
    · rw [rest c same]
      exact once.nodup c
  · have old : ∀ c w, w ∈ bag' c → w ∈ bag c ∨ c = b ∧ w = v := by
      intro c w member
      by_cases same : c = b
      · subst same
        rw [here, List.mem_append, List.mem_singleton] at member
        exact member.imp_right fun h => ⟨rfl, h⟩
      · rw [rest c same] at member
        exact Or.inl member
    intro c d w inC inD
    rcases old c w inC with c0 | ⟨rfl, rfl⟩
    · rcases old d w inD with d0 | ⟨rfl, rfl⟩
      · exact once.single c d w c0 d0
      · exact absurd c0 (fresh c)
    · rcases old d w inD with d0 | ⟨rfl, _⟩
      · exact absurd d0 (fresh d)
      · rfl

theorem move (once : Once bag) (differ : b ≠ c) (empty : bag' b = [])
    (here : bag' c = bag c ++ bag b) (rest : ∀ d, d ≠ b → d ≠ c → bag' d = bag d) :
    Once bag' := by
  have old : ∀ d w, w ∈ bag' d → w ∈ bag d ∨ d = c ∧ w ∈ bag b := by
    intro d w member
    by_cases atB : d = b
    · subst atB
      rw [empty] at member
      cases member
    · by_cases atC : d = c
      · subst atC
        rw [here, List.mem_append] at member
        exact member.imp_right fun h => ⟨rfl, h⟩
      · rw [rest d atB atC] at member
        exact Or.inl member
  constructor
  · intro d
    by_cases atB : d = b
    · subst atB
      rw [empty]
      exact List.nodup_nil
    · by_cases atC : d = c
      · subst atC
        rw [here]
        exact List.Nodup.append (once.nodup d) (once.nodup b)
          fun w inD inB => atB (once.single d b w inD inB)
      · rw [rest d atB atC]
        exact once.nodup d
  · have emptied : ∀ d w, w ∈ bag' d → d ≠ b := by
      rintro d w member rfl
      rw [empty] at member
      cases member
    intro d e w inD inE
    rcases old d w inD with d0 | ⟨rfl, d0⟩
    · rcases old e w inE with e0 | ⟨rfl, e0⟩
      · exact once.single d e w d0 e0
      · exact absurd (once.single d b w d0 e0) (emptied d w inD)
    · rcases old e w inE with e0 | ⟨rfl, e0⟩
      · exact absurd (once.single e b w e0 d0) (emptied e w inE)
      · rfl

end Once

/-- The frontier is the layer of the current level, and the levels up to it are known. -/
structure Layer (g : Graph) (root : ℕ) (s : State) : Prop where
  nodup : s.frontier.Nodup
  exact : ∀ v, v ∈ s.frontier ↔ Distance g.Edge root s.currentLevel v
  inhabited : s.frontier ≠ []
  near : ∀ v d, d ≤ s.currentLevel → Distance g.Edge root d v → s.level v = d

/-- Beyond the levels up to `d`. -/
def Beyond (g : Graph) (root d v : ℕ) : Prop :=
  v < g.numVertices ∧ ∀ e, e ≤ d → ¬ Distance g.Edge root e v

structure Searching (g : Graph) (root numThreads : ℕ) (s : State) : Prop
    extends Layer g root s where
  far : ∀ v, Beyond g root s.currentLevel v → s.level v = infiniteLevel ∨
    Distance g.Edge root (s.currentLevel + 1) v ∧ s.level v = s.currentLevel + 1
  once : Once s.bag
  kept : ∀ v, (∃ b, v ∈ s.bag b) ↔
    Distance g.Edge root (s.currentLevel + 1) v ∧ s.level v ≠ infiniteLevel
  ahead_edge : ∀ i, ∀ v ∈ s.ahead g numThreads i,
    ∃ u, Distance g.Edge root s.currentLevel u ∧ g.Edge u v
  covered : ∀ u v, Distance g.Edge root s.currentLevel u → g.Edge u v →
    s.level v = infiniteLevel → ∃ i, v ∈ s.ahead g numThreads i

/-- What run_bfs promises when it returns. -/
structure Correct (g : Graph) (root : ℕ) (s : State) : Prop where
  reached : ∀ v d, Distance g.Edge root d v → s.level v = d
  unreached : ∀ v < g.numVertices, (∀ d, ¬ Distance g.Edge root d v) → s.level v = infiniteLevel
  attained : ∃ v, Distance g.Edge root s.currentLevel v
  largest : ∀ v d, Distance g.Edge root d v → d ≤ s.currentLevel

def Inv (g : Graph) (root numThreads : ℕ) (s : State) : Prop :=
  match s.main with
  | .check => Layer g root s ∧ (∀ v, Beyond g root s.currentLevel v → s.level v = infiniteLevel) ∧
      ∀ i, s.workers i = .absent
  | .create k => k ≤ numThreads ∧ Searching g root numThreads s ∧ ∀ i, s.workers i = .absent ↔
      ¬ (i < k ∧ i * s.chunkSize numThreads < s.frontier.length)
  | .join k => k ≤ numThreads ∧ Searching g root numThreads s ∧ ∀ i, s.workers i = .absent ↔
      ¬ (k ≤ i ∧ i < numThreads ∧ i * s.chunkSize numThreads < s.frontier.length)
  | .returned => Correct g root s ∧ ∀ i, s.workers i = .absent
  | .crashed => False

theorem Layer.congr {s s' : State} (layer : Layer g root s) (level : s'.level = s.level)
    (frontier : s'.frontier = s.frontier) (current : s'.currentLevel = s.currentLevel) :
    Layer g root s' := by
  obtain ⟨nodup, exact, inhabited, near⟩ := layer
  constructor <;> simpa only [level, frontier, current]

/-- A step that claims nothing may move what is kept and drop what is already claimed. -/
theorem Searching.keep {s s' : State} (searching : Searching g root numThreads s)
    (level : s'.level = s.level) (frontier : s'.frontier = s.frontier)
    (current : s'.currentLevel = s.currentLevel) (once : Once s'.bag)
    (bags : ∀ v, (∃ b, v ∈ s'.bag b) ↔ ∃ b, v ∈ s.bag b)
    (subset : ∀ i, ∀ v ∈ s'.ahead g numThreads i, v ∈ s.ahead g numThreads i)
    (cover : ∀ i, ∀ v ∈ s.ahead g numThreads i, s.level v = infiniteLevel →
      v ∈ s'.ahead g numThreads i) :
    Searching g root numThreads s' := by
  constructor
  · exact searching.toLayer.congr level frontier current
  · simpa only [level, current] using searching.far
  · exact once
  · simpa only [bags, level, current] using searching.kept
  · intro i v member
    rw [current]
    exact searching.ahead_edge i v (subset i v member)
  · intro u v source edge unseen
    rw [current] at source
    rw [level] at unseen
    obtain ⟨i, member⟩ := searching.covered u v source edge unseen
    exact ⟨i, cover i v member unseen⟩

theorem Searching.congr {s s' : State} (searching : Searching g root numThreads s)
    (level : s'.level = s.level) (frontier : s'.frontier = s.frontier)
    (current : s'.currentLevel = s.currentLevel) (bag : s'.bag = s.bag)
    (ahead : ∀ i, s'.ahead g numThreads i = s.ahead g numThreads i) :
    Searching g root numThreads s' := by
  apply searching.keep level frontier current
  · rw [bag]
    exact searching.once
  · simp [bag]
  · simp [ahead]
  · intro i v member _
    rwa [ahead]

theorem State.ahead_started {s : State} {i : ℕ} (started : ¬ s.Waiting numThreads i) :
    s.ahead g numThreads i = (s.workers i).todo := by
  rw [State.ahead, if_neg started]

section Step

/-- A target whose compare-and-swap succeeds lies in the next layer. -/
theorem Searching.claimed {s : State} (searching : Searching g root numThreads s)
    (short : s.currentLevel < infiniteLevel) {i trg : ℕ}
    (member : trg ∈ s.ahead g numThreads i) (unseen : s.level trg = infiniteLevel) :
    Distance g.Edge root (s.currentLevel + 1) trg := by
  obtain ⟨u, source, edge⟩ := searching.ahead_edge i trg member
  obtain ⟨e, le, distance⟩ := source.edge_le edge
  rcases Nat.lt_or_ge s.currentLevel e with above | below
  · obtain rfl : e = s.currentLevel + 1 := by omega
    exact distance
  · have known := searching.near trg e below distance
    rw [unseen] at known
    omega

theorem State.nextLevel_eq {s : State} (short : s.currentLevel < infiniteLevel) :
    s.nextLevel = s.currentLevel + 1 := by
  rw [infiniteLevel] at short
  rw [State.nextLevel]
  omega

/-- What a successful compare-and-swap of worker `i` on `trg` does. -/
structure Claims (g : Graph) (numThreads i trg : ℕ) (s s' : State) : Prop where
  frontier : s'.frontier = s.frontier
  current : s'.currentLevel = s.currentLevel
  other : ∀ v, v ≠ trg → s'.level v = s.level v
  level : s'.level trg = s.nextLevel
  bag : s'.bag (some i) = s.bag (some i) ++ [trg]
  bag_other : ∀ c, c ≠ some i → s'.bag c = s.bag c
  ahead : s.ahead g numThreads i = trg :: s'.ahead g numThreads i
  ahead_other : ∀ j, j ≠ i → s'.ahead g numThreads j = s.ahead g numThreads j

theorem claims {s : State} {i trg : ℕ} {todo found : List ℕ}
    (running : s.workers i = .running (trg :: todo) found) (started : ¬ s.Waiting numThreads i) :
    Claims g numThreads i trg s { s with
      level := set s.level trg s.nextLevel
      workers := set s.workers i (.running todo (found ++ [trg])) } := by
  constructor
  · rfl
  · rfl
  · intro v differ
    exact set_other s.level _ differ
  · exact set_same s.level trg _
  · simp [State.bag, Worker.found, running]
  · intro c differ
    cases c with
    | none => rfl
    | some j =>
      have : j ≠ i := fun h => differ (by rw [h])
      simp [State.bag, set_other _ _ this]
  · rw [State.ahead_started started, State.ahead_started (by exact started), running]
    simp [Worker.todo]
  · intro j differ
    simp [State.ahead, State.Waiting, State.chunk, State.stop, State.chunkSize, set_other _ _ differ]

theorem Searching.claim {s s' : State} (searching : Searching g root numThreads s)
    (short : s.currentLevel < infiniteLevel) (stores : s.nextLevel ≠ infiniteLevel) {i trg : ℕ}
    (unseen : s.level trg = infiniteLevel) (claims : Claims g numThreads i trg s s') :
    Searching g root numThreads s' := by
  have claimed := searching.claimed short (i := i) (by simp [claims.ahead]) unseen
  have level : s'.level trg = s.currentLevel + 1 := by
    rw [claims.level, State.nextLevel_eq short]
  have seen : s'.level trg ≠ infiniteLevel := by
    rwa [claims.level]
  have fresh : ∀ c, trg ∉ s.bag c := by
    intro c member
    exact ((searching.kept trg).mp ⟨c, member⟩).2 unseen
  have bags : ∀ v, v ≠ trg → ((∃ b, v ∈ s'.bag b) ↔ ∃ b, v ∈ s.bag b) := by
    intro v differ
    have same : ∀ b, v ∈ s'.bag b ↔ v ∈ s.bag b := by
      intro b
      by_cases here : b = some i
      · rw [here, claims.bag]
        simp [differ]
      · rw [claims.bag_other b here]
    simp only [same]
  have subset : ∀ j, ∀ v ∈ s'.ahead g numThreads j, v ∈ s.ahead g numThreads j := by
    intro j v member
    by_cases same : j = i
    · subst same
      rw [claims.ahead]
      exact List.mem_cons_of_mem _ member
    · rwa [← claims.ahead_other j same]
  constructor
  · constructor
    · rw [claims.frontier]
      exact searching.nodup
    · rw [claims.frontier, claims.current]
      exact searching.exact
    · rw [claims.frontier]
      exact searching.inhabited
    · intro v d le distance
      rw [claims.current] at le
      have differ : v ≠ trg := by
        rintro rfl
        have := distance.unique claimed
        omega
      rw [claims.other v differ]
      exact searching.near v d le distance
  · intro v beyond
    rw [claims.current] at beyond ⊢
    by_cases same : v = trg
    · subst same
      exact Or.inr ⟨claimed, level⟩
    · rw [claims.other v same]
      exact searching.far v beyond
  · exact searching.once.push fresh claims.bag claims.bag_other
  · intro v
    rw [claims.current]
    by_cases same : v = trg
    · subst same
      exact iff_of_true ⟨some i, by simp [claims.bag]⟩ ⟨claimed, seen⟩
    · rw [bags v same, claims.other v same]
      exact searching.kept v
  · intro j v member
    rw [claims.current]
    exact searching.ahead_edge j v (subset j v member)
  · intro u v source edge still
    rw [claims.current] at source
    have differ : v ≠ trg := by
      intro same
      exact seen (same ▸ still)
    rw [claims.other v differ] at still
    obtain ⟨j, member⟩ := searching.covered u v source edge still
    refine ⟨j, ?_⟩
    by_cases same : j = i
    · subst same
      rw [claims.ahead] at member
      exact (List.mem_cons.mp member).resolve_left differ
    · rwa [claims.ahead_other j same]

/-- A compare-and-swap that fails met a vertex another one has claimed. -/
theorem Searching.skip {s : State} (searching : Searching g root numThreads s) {i trg : ℕ}
    {todo found : List ℕ} (running : s.workers i = .running (trg :: todo) found)
    (started : ¬ s.Waiting numThreads i) (seen : s.level trg ≠ infiniteLevel) :
    Searching g root numThreads { s with workers := set s.workers i (.running todo found) } := by
  obtain ⟨s', new⟩ : ∃ s' : State, s' = { s with
    workers := set s.workers i (.running todo found) } := ⟨_, rfl⟩
  have ahead : s.ahead g numThreads i = trg :: s'.ahead g numThreads i := by
    rw [State.ahead_started started, State.ahead_started (by rw [new]; exact started), running, new]
    simp [Worker.todo]
  have other : ∀ j, j ≠ i → s'.ahead g numThreads j = s.ahead g numThreads j := by
    intro j differ
    rw [new]
    simp [State.ahead, State.Waiting, State.chunk, State.stop, State.chunkSize, set_other _ _ differ]
  have bag : s'.bag = s.bag := by
    funext b
    cases b with
    | none => rw [new]; rfl
    | some j =>
      rw [new]
      by_cases same : j = i
      · simp [State.bag, same, running, Worker.found]
      · simp [State.bag, set_other _ _ same]
  rw [← new]
  apply searching.keep (by rw [new]) (by rw [new]) (by rw [new])
  · rw [bag]
    exact searching.once
  · simp [bag]
  · intro j v member
    by_cases same : j = i
    · subst same
      rw [ahead]
      exact List.mem_cons_of_mem _ member
    · rwa [← other j same]
  · intro j v member unseen
    by_cases same : j = i
    · subst same
      rw [ahead] at member
      have differ : v ≠ trg := by
        rintro rfl
        exact seen unseen
      exact (List.mem_cons.mp member).resolve_left differ
    · rwa [other j same]

theorem Searching.merge {s : State} (searching : Searching g root numThreads s) {i : ℕ}
    {found : List ℕ} (running : s.workers i = .running [] found)
    (started : ¬ s.Waiting numThreads i) :
    Searching g root numThreads { s with
      nextFrontier := s.nextFrontier ++ found
      workers := set s.workers i .finished } := by
  obtain ⟨s', new⟩ : ∃ s' : State, s' = { s with
      nextFrontier := s.nextFrontier ++ found
      workers := set s.workers i .finished } := ⟨_, rfl⟩
  have ahead : ∀ j, s'.ahead g numThreads j = s.ahead g numThreads j := by
    intro j
    by_cases same : j = i
    · subst same
      rw [State.ahead_started started, State.ahead_started (by rw [new]; exact started), running,
        new]
      simp [Worker.todo]
    · rw [new]
      simp [State.ahead, State.Waiting, State.chunk, State.stop, State.chunkSize,
        set_other _ _ same]
  have local' : s.bag (some i) = found := by rw [State.bag, running, Worker.found]
  have empty : s'.bag (some i) = [] := by
    rw [new]
    simp [State.bag, Worker.found]
  have shared : s'.bag none = s.bag none ++ s.bag (some i) := by
    rw [new, local']
    rfl
  have rest : ∀ b, b ≠ some i → b ≠ none → s'.bag b = s.bag b := by
    intro b differ some
    cases b with
    | none => exact absurd rfl some
    | some j =>
      have : j ≠ i := fun h => differ (by rw [h])
      rw [new]
      simp [State.bag, set_other _ _ this]
  have bags : ∀ v, (∃ b, v ∈ s'.bag b) ↔ ∃ b, v ∈ s.bag b := by
    intro v
    constructor
    · rintro ⟨b, member⟩
      by_cases atI : b = some i
      · rw [atI, empty] at member
        cases member
      · by_cases atNone : b = none
        · rw [atNone, shared, List.mem_append] at member
          rcases member with member | member
          · exact ⟨none, member⟩
          · exact ⟨some i, member⟩
        · rw [rest b atI atNone] at member
          exact ⟨b, member⟩
    · rintro ⟨b, member⟩
      by_cases atI : b = some i
      · exact ⟨none, by rw [shared, ← atI]; exact List.mem_append_right _ member⟩
      · by_cases atNone : b = none
        · exact ⟨none, by rw [shared, ← atNone]; exact List.mem_append_left _ member⟩
        · exact ⟨b, by rwa [rest b atI atNone]⟩
  rw [← new]
  apply searching.keep (by rw [new]) (by rw [new]) (by rw [new])
  · exact searching.once.move (by simp) empty shared rest
  · exact bags
  · simp [ahead]
  · intro j v member _
    rwa [ahead]

end Step

end Bfs
