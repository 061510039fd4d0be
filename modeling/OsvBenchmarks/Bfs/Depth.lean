import OsvBenchmarks.Bfs.Run

/-!
How deep a graph the levels can hold. 65535 is both the level of the vertices at
that distance and the mark of an unvisited vertex, so a graph is searched properly
exactly when it is not that deep. count_level prints what run_bfs left.
-/
namespace Bfs
open Runs Layers

/-- The vertices that a run appends to a frontier, the root apart, in their order. -/
def appended (g : Graph) (numThreads : ℕ) : State → List Event → List ℕ
  | _, [] => []
  | s, e :: events =>
    (claim s e).toList ++ ((next g numThreads s e).map fun s' =>
      appended g numThreads s' events).getD []

inductive Counted
  | invalid
  | spins
  | printed (lines : List (ℕ × ℕ))
  deriving DecidableEq

/-- The counting loop of count_level over the vertices that are left. -/
def countVertices (max_level : ℕ) (level : ℕ → ℕ) : List ℕ → (ℕ → ℕ) → Option (ℕ → ℕ)
  | [], cnt => some cnt
  | i :: vertices, cnt =>
    if level i = infiniteLevel then countVertices max_level level vertices cnt
    else if level i > max_level then none
    else countVertices max_level level vertices (set cnt (level i) (cnt (level i) + 1))

/-- The printing loop of count_level; `i` is a uint16_t, `turns` bounds the turns. -/
def printLevels (max_level : ℕ) (cnt : ℕ → ℕ) : ℕ → ℕ → Option (List (ℕ × ℕ))
  | 0, _ => none
  | turns + 1, i =>
    if i ≤ max_level then
      (printLevels max_level cnt turns ((i + 1) % 2 ^ 16)).map ((i, cnt i) :: ·)
    else some []

def count_level (turns num_vertices max_level : ℕ) (level : ℕ → ℕ) : Counted :=
  match countVertices max_level level (List.range num_vertices) fun _ => 0 with
  | none => .invalid
  | some cnt =>
    match printLevels max_level cnt turns 0 with
    | none => .spins
    | some lines => .printed lines

/-- What is expected of run_bfs, in every run: it ends by returning; no vertex is appended
    twice; a vertex that was appended has a level and keeps it; the level returned is a
    level, and count_level prints up to it and ends. -/
structure Proper (g : Graph) (root numThreads : ℕ) (level : ℕ → ℕ) : Prop where
  ends : ∀ run : ℕ → State, run 0 = start g level root →
    ¬ ∀ k, ∃ e, next g numThreads (run k) e = some (run (k + 1))
  returns : ∀ events s, exec (next g numThreads) (start g level root) events = some s →
    (∀ e, next g numThreads s e = none) → s.main = .returned
  once : ∀ events s, exec (next g numThreads) (start g level root) events = some s →
    (root :: appended g numThreads (start g level root) events).Nodup
  kept : ∀ events s, exec (next g numThreads) (start g level root) events = some s →
    ∀ more s', exec (next g numThreads) s more = some s' →
    ∀ v ∈ root :: appended g numThreads (start g level root) events,
      s.level v ≠ infiniteLevel ∧ s'.level v = s.level v
  below : ∀ events s, exec (next g numThreads) (start g level root) events = some s →
    s.main = .returned → s.currentLevel < infiniteLevel ∧
      ∃ turns lines, count_level turns g.numVertices s.currentLevel s.level = .printed lines

variable {g : Graph} {root numThreads : ℕ}

section CountLevel
variable {max_level : ℕ} {level : ℕ → ℕ}

/-- The counting loop runs to its end where every level is at most the one returned. -/
theorem countVertices_counts (vertices : List ℕ)
    (bound : ∀ v ∈ vertices, level v = infiniteLevel ∨ level v ≤ max_level) (cnt : ℕ → ℕ) :
    ∃ cnt', countVertices max_level level vertices cnt = some cnt' := by
  induction vertices generalizing cnt with
  | nil => exact ⟨cnt, rfl⟩
  | cons v vertices ih =>
    have rest := ih fun w member => bound w (List.mem_cons_of_mem v member)
    unfold countVertices
    split
    · exact rest cnt
    · rename_i seen
      have le := (bound v List.mem_cons_self).resolve_left seen
      rw [if_neg (not_lt.mpr le)]
      exact rest _

/-- The printing loop ends if a uint16_t can hold the level after the last. -/
theorem printLevels_ends (short : max_level < infiniteLevel) (cnt : ℕ → ℕ) (left i : ℕ)
    (place : i + left = max_level + 1) :
    ∃ lines, printLevels max_level cnt (left + 1) i = some lines := by
  rw [infiniteLevel] at short
  induction left generalizing i with
  | zero =>
    unfold printLevels
    rw [if_neg (by omega)]
    exact ⟨[], rfl⟩
  | succ left ih =>
    obtain ⟨lines, rest⟩ := ih (i + 1) (by omega)
    unfold printLevels
    rw [if_pos (by omega), Nat.mod_eq_of_lt (by omega), rest]
    exact ⟨(i, cnt i) :: lines, rfl⟩

theorem count_level_prints (short : max_level < infiniteLevel) {num_vertices : ℕ}
    (bound : ∀ v < num_vertices, level v = infiniteLevel ∨ level v ≤ max_level) :
    ∃ turns lines, count_level turns num_vertices max_level level = .printed lines := by
  obtain ⟨cnt, counted⟩ := countVertices_counts (List.range num_vertices)
    (fun v member => bound v (List.mem_range.mp member)) fun _ => 0
  obtain ⟨lines, printed⟩ := printLevels_ends short cnt (max_level + 1) 0 (by omega)
  refine ⟨max_level + 1 + 1, lines, ?_⟩
  unfold count_level
  rw [counted]
  dsimp only
  rw [printed]

end CountLevel

/-- A step changes the level of the vertex that it appends, and no other. -/
theorem claim_level {s s' : State} {e : Event} (step : next g numThreads s e = some s') :
    (claim s e = none → s'.level = s.level) ∧ ∀ trg, claim s e = some trg →
      s.level trg = infiniteLevel ∧ s'.level = set s.level trg s.nextLevel := by
  cases e with
  | main =>
    refine ⟨fun _ => ?_, nofun⟩
    cases mainStep_cases step <;> rfl
  | worker i =>
    simp only [next, workerStep] at step
    simp only [claim]
    split at step
    · rename_i trg todo found running
      split at step
      · rename_i unseen
        cases step
        refine ⟨fun none => by simp [running, unseen] at none, fun trg' claimed => ?_⟩
        simp only [running, unseen, if_true, Option.some.injEq] at claimed
        subst claimed
        exact ⟨unseen, rfl⟩
      · rename_i seen
        cases step
        exact ⟨fun _ => rfl, fun trg' claimed => by simp [running, seen] at claimed⟩
    · rename_i found running
      cases step
      exact ⟨fun _ => rfl, fun trg' claimed => by simp [running] at claimed⟩
    · cases step
    · cases step

theorem appended_cons {s s' : State} {e : Event} (step : next g numThreads s e = some s')
    (events : List Event) : appended g numThreads s (e :: events) =
      (claim s e).toList ++ appended g numThreads s' events := by
  simp [appended, step]

theorem claim_appended {s u : State} {events : List Event} {e : Event} {trg : ℕ}
    (run : exec (next g numThreads) s events = some u) (claimed : claim u e = some trg) :
    trg ∈ appended g numThreads s (events ++ [e]) := by
  induction events generalizing s with
  | nil =>
    cases run
    simp [appended, claimed]
  | cons first events ih =>
    obtain ⟨s', step, rest⟩ := exec_cons_iff.mp run
    rw [List.cons_append, appended_cons step]
    exact List.mem_append_right _ (ih rest)

section Shallow
variable (inside : root < g.numVertices) (one : 1 ≤ numThreads)
  (reach : ∀ d v, Distance g.Edge root d v → d ≤ 65534)
include inside one reach

/-- A run appends only unvisited vertices, and it changes the level of no visited one. -/
theorem run_appends {s u : State} {events : List Event} (sound : Sound g root numThreads s)
    (run : exec (next g numThreads) s events = some u) (seen : List ℕ) (nodup : seen.Nodup)
    (visited : ∀ v ∈ seen, s.level v ≠ infiniteLevel) :
    (seen ++ appended g numThreads s events).Nodup ∧
      (∀ v ∈ seen ++ appended g numThreads s events, u.level v ≠ infiniteLevel) ∧
      ∀ v ∈ seen, u.level v = s.level v := by
  induction events generalizing s seen with
  | nil =>
    cases run
    rw [appended, List.append_nil]
    exact ⟨nodup, visited, fun _ _ => rfl⟩
  | cons e events ih =>
    obtain ⟨s', step, rest⟩ := exec_cons_iff.mp run
    have stores := sound.stores reach e
    have sound := sound.step inside one stores step
    obtain ⟨same, marks⟩ := claim_level step
    rw [appended_cons step]
    cases claimed : claim s e with
    | none =>
      have same := same claimed
      obtain ⟨nodup, visited, kept⟩ := ih sound rest seen nodup (same.symm ▸ visited)
      exact ⟨nodup, visited, same ▸ kept⟩
    | some trg =>
      obtain ⟨unseen, level⟩ := marks trg claimed
      have fresh : trg ∉ seen := fun member => visited trg member unseen
      have other : ∀ v ∈ seen, s'.level v = s.level v := by
        intro v member
        rw [level]
        exact set_other _ _ fun same => fresh (same ▸ member)
      have marked : s'.level trg ≠ infiniteLevel := by
        rw [level, set_same]
        exact stores (by rw [claimed]; exact nofun)
      obtain ⟨nodup, visited, kept⟩ := ih sound rest (seen ++ [trg])
        (List.Nodup.append nodup (List.nodup_singleton trg) (List.disjoint_singleton.mpr fresh))
        (by
          intro v member
          rcases List.mem_append.mp member with old | new
          · rw [other v old]
            exact visited v old
          · rw [List.mem_singleton.mp new]
            exact marked)
      rw [List.append_assoc] at nodup visited
      refine ⟨nodup, visited, fun v member => ?_⟩
      rw [kept v (List.mem_append_left _ member), other v member]

theorem shallow_proper (level : ℕ → ℕ) : Proper g root numThreads level := by
  have begin' : Sound g root numThreads (start g level root) := start_sound inside level
  have ends := runs_end g root numThreads level inside one reach
  have inv := fun {events s} (run : exec (next g numThreads) (start g level root) events = some s) =>
    exec_inv g root numThreads level inside one reach run
  have first : ∀ v ∈ [root], (start g level root).level v ≠ infiniteLevel := by
    intro v member
    rw [List.mem_singleton.mp member]
    change set _ root 0 root ≠ infiniteLevel
    rw [set_same]
    decide
  have keep : ∀ s e s', Sound g root numThreads s → next g numThreads s e = some s' →
      Sound g root numThreads s' :=
    fun s e s' sound step => sound.step inside one (sound.stores reach e) step
  have alone := fun {events s} (run : exec (next g numThreads) (start g level root) events = some s) =>
    run_appends inside one reach begin' run [root] (List.nodup_singleton root) first
  refine ⟨ends, fun events s run => stuck_returned (inv run), fun events s run => (alone run).1, ?_, ?_⟩
  · intro events s run more s' go v member
    obtain ⟨nodup, visited, _⟩ := alone run
    have sound := exec_preserves _ keep begin' run
    exact ⟨visited v member, (run_appends inside one reach sound go _ nodup visited).2.2 v member⟩
  · intro events s run returned
    have correct := (inv run).correct returned
    obtain ⟨w, distance⟩ := correct.attained
    have short : s.currentLevel < infiniteLevel := by
      have := reach _ w distance
      rw [infiniteLevel]
      omega
    refine ⟨short, count_level_prints short fun v bound => ?_⟩
    by_cases reached : ∃ d, Distance g.Edge root d v
    · obtain ⟨d, distance⟩ := reached
      right
      rw [correct.reached v d distance]
      exact correct.largest v d distance
    · exact .inl (correct.unreached v bound fun d distance => reached ⟨d, distance⟩)

end Shallow

/-- A proper search has reached every vertex at a level below the unvisited marker. -/
theorem proper_shallow (inside : root < g.numVertices) (one : 1 ≤ numThreads) {level : ℕ → ℕ}
    (proper : Proper g root numThreads level) (d v : ℕ) (distance : Distance g.Edge root d v) :
    d ≤ 65534 := by
  have begin' : Sound g root numThreads (start g level root) := start_sound inside level
  let Found (s : State) : Prop := Sound g root numThreads s ∧
    ∃ events, exec (next g numThreads) (start g level root) events = some s
  have keep : ∀ s e s', Found s → next g numThreads s e = some s' →
      Found s' ∧ Lower (s'.measure g numThreads) (s.measure g numThreads) := by
    rintro s e s' ⟨sound, events, run⟩ step
    have whole : exec (next g numThreads) (start g level root) (events ++ [e]) = some s' :=
      exec_snoc_iff.mpr ⟨s, run, step⟩
    have stores : Stores s e := by
      intro claims
      obtain ⟨trg, claimed⟩ := Option.ne_none_iff_exists'.mp claims
      have member := List.mem_cons_of_mem root (claim_appended run claimed)
      obtain ⟨seen, _⟩ := proper.kept _ s' whole [] s' rfl trg member
      rwa [((claim_level step).2 trg claimed).2, set_same] at seen
    exact ⟨⟨sound.step inside one stores step, _, whole⟩, sound.lower inside step⟩
  obtain ⟨_, s, _, ⟨sound, events, run⟩, stuck⟩ := exec_stuck lower_wf (State.measure g numThreads)
    Found keep ⟨begin', [], rfl⟩
  have correct : Correct g root s := by
    have inv := sound.inv
    simp only [Inv, stuck_returned sound.inv stuck] at inv
    exact inv.1
  have short := sound.short
  have le := correct.largest v d distance
  rw [infiniteLevel] at short
  omega

/-- run_bfs and count_level do what is expected of them exactly where no vertex lies
    65535 levels from the root. -/
theorem bfs_proper_iff (g : Graph) (root numThreads : ℕ) (level : ℕ → ℕ)
    (inside : root < g.numVertices) (one : 1 ≤ numThreads) :
    Proper g root numThreads level ↔ ¬ ∃ v, Distance g.Edge root 65535 v := by
  constructor
  · rintro proper ⟨v, distance⟩
    have := proper_shallow inside one proper 65535 v distance
    omega
  · intro none
    refine shallow_proper inside one (fun d v distance => ?_) level
    by_contra deep
    exact empty_after (fun w far => none ⟨w, far⟩) (by omega) v distance

theorem bfs_proper_iff_diamond : Proper diamond 0 2 fun _ => 0 := by
  refine (bfs_proper_iff diamond 0 2 (fun _ => 0) (by decide) (by decide)).mpr ?_
  rintro ⟨v, distance⟩
  have bound := distance_lt_numVertices (g := diamond) (by decide) distance
  have : diamond.numVertices = 4 := rfl
  omega

def chain (length : ℕ) : Graph where
  numVertices := length + 1
  index := fun v => min v length
  edges := fun j => j + 1
  monotone := by
    intro v _
    omega
  inside := by
    intro j bound
    omega

theorem chain_edge_iff {length u v : ℕ} : (chain length).Edge u v ↔ u < length ∧ v = u + 1 := by
  simp only [Graph.Edge, Graph.targets, chain, List.mem_map, List.mem_range'_1]
  constructor
  · rintro ⟨_, j, range, rfl⟩
    omega
  · rintro ⟨less, rfl⟩
    exact ⟨by omega, u, by omega, rfl⟩

theorem chain_walk {length k v : ℕ} (walk : Walk (chain length).Edge 0 k v) : v = k := by
  induction walk with
  | start => rfl
  | next _ edge ih =>
    obtain ⟨_, rfl⟩ := chain_edge_iff.mp edge
    rw [ih]

theorem chain_distance {length k : ℕ} (le : k ≤ length) : Distance (chain length).Edge 0 k k := by
  constructor
  · induction k with
    | zero => exact .start
    | succ k ih => exact .next (ih (by omega)) (chain_edge_iff.mpr ⟨le, rfl⟩)
  · intro j less walk
    have := chain_walk walk
    omega

/-- The last of 65536 vertices in a row is appended with the mark of an unvisited vertex. -/
theorem long_chain_improper : ¬ Proper (chain 65535) 0 4 fun _ => 0 := by
  intro proper
  have short := proper_shallow (Nat.succ_pos 65535) (by decide) proper 65535 65535
    (chain_distance (Nat.le_refl 65535))
  omega

end Bfs
