import OsvBenchmarks.Bfs.Distances
import Mathlib.Algebra.Order.BigOperators.Group.Finset

/-!
Every run of run_bfs, whatever the order of the workers' steps, ends and leaves
the distances from the root.
-/
namespace Bfs
open Runs Layers

variable {g : Graph} {root numThreads : ℕ}

theorem start_inv (inside : root < g.numVertices) (level : ℕ → ℕ) :
    Inv g root numThreads (start g level root) := by
  refine ⟨?_, ?_, fun _ => rfl⟩
  · constructor
    · exact List.nodup_singleton root
    · intro v
      simp only [start, List.mem_singleton]
      exact distance_zero_iff.symm
    · exact List.cons_ne_nil root []
    · intro v d le distance
      obtain rfl : d = 0 := by simpa [start] using le
      obtain rfl := distance_zero_iff.mp distance
      exact set_same _ v 0
  · intro v beyond
    have differ : v ≠ root := fun same => beyond.2 0 (Nat.zero_le _) (distance_zero_iff.mpr same)
    have level0 : (start g level root).level v = initBfs g.numVertices level v :=
      set_other _ _ differ
    rw [level0, initBfs, if_pos beyond.1]

/-- A thread that is there was started in this level and has not been joined. -/
theorem Inv.started {s : State} (inv : Inv g root numThreads s) {i : ℕ}
    (here : s.workers i ≠ .absent) : ¬ s.Waiting numThreads i ∧ i < numThreads := by
  unfold Inv at inv
  unfold State.Waiting
  split at inv
  · exact absurd (inv.2.2 i) here
  · rename_i k phase
    have started := not_not.mp (mt (inv.2.2 i).mpr here)
    have bound := inv.1
    omega
  · rename_i k phase
    have started := not_not.mp (mt (inv.2.2 i).mpr here)
    simp [started.2.1]
  · exact absurd (inv.2 i) here
  · exact inv.elim

theorem workerStep_inv {s s' : State} {i : ℕ} (inv : Inv g root numThreads s)
    (short : s.currentLevel < infiniteLevel)
    (stores : claim s (.worker i) ≠ none → s.nextLevel ≠ infiniteLevel)
    (step : workerStep s i = some s') :
    Inv g root numThreads s' := by
  have here : s.workers i ≠ .absent := by
    intro absent
    simp [workerStep, absent] at step
  have started := (inv.started here).1
  have searching : Searching g root numThreads s → Searching g root numThreads s' := by
    intro searching
    unfold workerStep at step
    split at step
    · rename_i trg todo found running
      split at step
      · rename_i unseen
        cases step
        have stores := stores (by simp [claim, running, unseen])
        exact searching.claim short stores unseen (claims running started)
      · rename_i seen
        cases step
        exact searching.skip running started seen
    · rename_i found running
      cases step
      exact searching.merge running started
    · cases step
    · cases step
  have frame : s'.main = s.main ∧ s'.frontier = s.frontier ∧
      ∀ j, s'.workers j = .absent ↔ s.workers j = .absent := by
    have same : ∀ w : Worker, w ≠ .absent → ∀ j,
        (set s.workers i w j = .absent ↔ s.workers j = .absent) := by
      intro w alive j
      by_cases at_i : j = i
      · subst at_i
        simp [alive, here]
      · rw [set_other _ _ at_i]
    unfold workerStep at step
    split at step
    · split at step
      · cases step
        exact ⟨rfl, rfl, same _ (by simp)⟩
      · cases step
        exact ⟨rfl, rfl, same _ (by simp)⟩
    · cases step
      exact ⟨rfl, rfl, same _ (by simp)⟩
    · cases step
    · cases step
  obtain ⟨main, frontier, absent⟩ := frame
  have chunk : s'.chunkSize numThreads = s.chunkSize numThreads := by
    rw [State.chunkSize, frontier, State.chunkSize]
  unfold Inv at inv ⊢
  rw [main]
  split at inv
  · exact absurd (inv.2.2 i) here
  · rename_i k phase
    obtain ⟨bound, search, slots⟩ := inv
    simp only [absent, chunk, frontier]
    exact ⟨bound, searching search, slots⟩
  · rename_i k phase
    obtain ⟨bound, search, slots⟩ := inv
    simp only [absent, chunk, frontier]
    exact ⟨bound, searching search, slots⟩
  · exact absurd (inv.2 i) here
  · exact inv

/-- The head of the loop: a new level begins with every target ahead. -/
theorem check_searching {s s' : State} (layer : Layer g root s)
    (fresh : ∀ v, Beyond g root s.currentLevel v → s.level v = infiniteLevel)
    (idle : ∀ i, s.workers i = .absent) (inside : root < g.numVertices) (one : 1 ≤ numThreads)
    (new : s' = { s with nextFrontier := [], main := .create 0 }) :
    Searching g root numThreads s' := by
  have empty : ∀ b, s'.bag b = [] := by
    intro b
    cases b with
    | none => rw [new]; rfl
    | some i => rw [new]; simp [State.bag, idle, Worker.found]
  have ahead : ∀ i, s'.ahead g numThreads i =
      if i < numThreads then s.chunk g numThreads i else [] := by
    intro i
    rw [new]
    simp [State.ahead, State.Waiting, idle, Worker.todo, State.chunk, State.stop, State.chunkSize]
  have level : s'.level = s.level := by rw [new]
  have current : s'.currentLevel = s.currentLevel := by rw [new]
  constructor
  · exact layer.congr level (by rw [new]) current
  · intro v beyond
    rw [current] at beyond
    rw [level]
    exact Or.inl (fresh v beyond)
  · constructor
    · intro b
      rw [empty]
      exact List.nodup_nil
    · intro b c v member
      rw [empty] at member
      cases member
  · intro v
    rw [current, level]
    constructor
    · rintro ⟨b, member⟩
      rw [empty] at member
      cases member
    · rintro ⟨distance, seen⟩
      refine absurd (fresh v ⟨Graph.distance_inside inside distance, ?_⟩) seen
      intro e le closer
      have := closer.unique distance
      omega
  · intro i v member
    rw [ahead] at member
    split at member
    · obtain ⟨u, source, target⟩ := State.mem_chunk member
      have distance := (layer.exact u).mp source
      exact ⟨u, by rwa [current], Graph.distance_inside inside distance, target⟩
    · cases member
  · intro u v source edge _
    rw [current] at source
    obtain ⟨i, thread, member⟩ := State.chunk_complete (g := g) one ((layer.exact u).mpr source)
      edge.2
    exact ⟨i, by rwa [ahead, if_pos thread]⟩

/-- Once nothing is ahead, the next layer is what has been merged. -/
theorem Searching.merged {s : State} (searching : Searching g root numThreads s)
    (done : ∀ i, s.ahead g numThreads i = []) (idle : ∀ i, s.workers i = .absent) (v : ℕ) :
    v ∈ s.nextFrontier ↔ Distance g.Edge root (s.currentLevel + 1) v := by
  constructor
  · intro member
    exact ((searching.kept v).mp ⟨none, member⟩).1
  · intro distance
    obtain ⟨⟨u, source, edge⟩, _⟩ := distance_succ_iff.mp distance
    have seen : s.level v ≠ infiniteLevel := by
      intro unseen
      obtain ⟨i, member⟩ := searching.covered u v source edge unseen
      rw [done] at member
      cases member
    obtain ⟨b, member⟩ := (searching.kept v).mpr ⟨distance, seen⟩
    cases b with
    | none => exact member
    | some i => simp [State.bag, idle, Worker.found] at member

theorem Searching.beyond {s : State} (searching : Searching g root numThreads s) {v : ℕ}
    (beyond : Beyond g root (s.currentLevel + 1) v) : s.level v = infiniteLevel := by
  rcases searching.far v ⟨beyond.1, fun e le => beyond.2 e (by omega)⟩ with unseen | ⟨next, _⟩
  · exact unseen
  · exact absurd next (beyond.2 _ (Nat.le_refl _))

theorem Searching.last {s s' : State} (searching : Searching g root numThreads s)
    (empty : ∀ v, ¬ Distance g.Edge root (s.currentLevel + 1) v)
    (new : s' = { s with main := .returned }) : Correct g root s' := by
  have bound : ∀ v d, Distance g.Edge root d v → d ≤ s.currentLevel := by
    intro v d distance
    by_contra more
    exact empty_after empty (by omega) v distance
  rw [new]
  constructor
  · intro v d distance
    exact searching.near v d (bound v d distance) distance
  · intro v inside unreachable
    exact searching.beyond ⟨inside, fun e _ => unreachable e⟩
  · obtain ⟨u, member⟩ := List.exists_mem_of_ne_nil _ searching.inhabited
    exact ⟨u, (searching.exact u).mp member⟩
  · exact bound

/-- What has been merged lies in the next layer and is marked with its level. -/
theorem Searching.merged_level {s : State} (searching : Searching g root numThreads s)
    (inside : root < g.numVertices)
    (merged : ∀ v, v ∈ s.nextFrontier ↔ Distance g.Edge root (s.currentLevel + 1) v) {v : ℕ}
    (distance : Distance g.Edge root (s.currentLevel + 1) v) :
    s.level v = s.currentLevel + 1 ∧ s.level v ≠ infiniteLevel := by
  have seen := ((searching.kept v).mp ⟨none, (merged v).mpr distance⟩).2
  have nearer : ∀ e, e ≤ s.currentLevel → ¬ Distance g.Edge root e v := by
    intro e low other
    have := other.unique distance
    omega
  rcases searching.far v ⟨Graph.distance_inside inside distance, nearer⟩ with unseen | ⟨_, known⟩
  · exact absurd unseen seen
  · exact ⟨known, seen⟩

theorem Searching.swap {s s' : State} (searching : Searching g root numThreads s)
    (inside : root < g.numVertices) (short : s.currentLevel < infiniteLevel)
    (merged : ∀ v, v ∈ s.nextFrontier ↔ Distance g.Edge root (s.currentLevel + 1) v)
    (some : s.nextFrontier ≠ [])
    (new : s' = { s with
      frontier := s.nextFrontier
      nextFrontier := s.frontier
      currentLevel := s.nextLevel
      main := .check }) :
    Layer g root s' ∧ (∀ v, Beyond g root s'.currentLevel v → s'.level v = infiniteLevel) ∧
      s'.currentLevel = s.currentLevel + 1 ∧ s'.currentLevel < infiniteLevel := by
  have current : s'.currentLevel = s.currentLevel + 1 := by
    rw [new, ← State.nextLevel_eq short]
  have below : s'.currentLevel < infiniteLevel := by
    obtain ⟨w, member⟩ := List.exists_mem_of_ne_nil _ some
    obtain ⟨known, seen⟩ := searching.merged_level inside merged ((merged w).mp member)
    rw [known] at seen
    omega
  refine ⟨?_, ?_, current, below⟩
  · constructor
    · rw [new]
      exact searching.once.nodup none
    · rw [current, new]
      exact merged
    · rw [new]
      exact some
    · intro v d le distance
      rw [current] at le
      rcases Nat.lt_or_ge s.currentLevel d with above | below
      · obtain rfl : d = s.currentLevel + 1 := by omega
        rw [new]
        exact (searching.merged_level inside merged distance).1
      · rw [new]
        exact searching.near v d below distance
  · intro v beyond
    rw [current] at beyond
    rw [new]
    exact searching.beyond beyond

inductive MainMove (g : Graph) (numThreads : ℕ) (s : State) : State → Prop
  | empty : s.main = .check → s.frontier = [] →
      MainMove g numThreads s { s with main := .returned }
  | enter : s.main = .check → s.frontier ≠ [] →
      MainMove g numThreads s { s with nextFrontier := [], main := .create 0 }
  | pass (k : ℕ) : s.main = .create k → k < numThreads →
      ¬ k * s.chunkSize numThreads < s.stop numThreads k →
      MainMove g numThreads s { s with main := .create (k + 1) }
  | create (k : ℕ) : s.main = .create k → k < numThreads →
      k * s.chunkSize numThreads < s.stop numThreads k →
      MainMove g numThreads s { s with
        workers := set s.workers k (.running (s.chunk g numThreads k) [])
        main := .create (k + 1) }
  | created (k : ℕ) : s.main = .create k → ¬ k < numThreads →
      MainMove g numThreads s { s with main := .join 0 }
  | crash (k : ℕ) : s.main = .join k → k < numThreads →
      k * s.chunkSize numThreads < s.frontier.length → s.workers k = .absent →
      MainMove g numThreads s { s with main := .crashed }
  | join (k : ℕ) : s.main = .join k → k < numThreads →
      k * s.chunkSize numThreads < s.frontier.length → s.workers k = .finished →
      MainMove g numThreads s { s with workers := set s.workers k .absent, main := .join (k + 1) }
  | miss (k : ℕ) : s.main = .join k → k < numThreads →
      ¬ k * s.chunkSize numThreads < s.frontier.length →
      MainMove g numThreads s { s with main := .join (k + 1) }
  | last (k : ℕ) : s.main = .join k → ¬ k < numThreads → s.nextFrontier = [] →
      MainMove g numThreads s { s with main := .returned }
  | swap (k : ℕ) : s.main = .join k → ¬ k < numThreads → s.nextFrontier ≠ [] →
      MainMove g numThreads s { s with
        frontier := s.nextFrontier
        nextFrontier := s.frontier
        currentLevel := s.nextLevel
        main := .check }

theorem mainStep_cases {s s' : State} (step : mainStep g numThreads s = some s') :
    MainMove g numThreads s s' := by
  unfold mainStep at step
  split at step
  · rename_i phase
    split at step
    · rename_i empty
      cases step
      exact .empty phase empty
    · rename_i some
      cases step
      exact .enter phase some
  · rename_i k phase
    split at step
    · rename_i thread
      split at step
      · rename_i stop
        cases step
        exact .pass k phase thread (by omega)
      · rename_i more
        cases step
        exact .create k phase thread (by omega)
    · rename_i all
      cases step
      exact .created k phase all
  · rename_i k phase
    split at step
    · rename_i thread
      split at step
      · rename_i started
        split at step
        · rename_i absent
          cases step
          exact .crash k phase thread started absent
        · cases step
        · rename_i finished
          cases step
          exact .join k phase thread started finished
      · rename_i none
        cases step
        exact .miss k phase thread none
    · rename_i all
      split at step
      · rename_i empty
        cases step
        exact .last k phase all empty
      · rename_i some
        cases step
        exact .swap k phase all some
  · cases step
  · cases step

theorem State.ahead_create {s : State} {k : ℕ} (phase : s.main = .create k) (i : ℕ) :
    s.ahead g numThreads i =
      if k ≤ i ∧ i < numThreads then s.chunk g numThreads i else (s.workers i).todo := by
  simp [State.ahead, State.Waiting, phase]

theorem State.ahead_join {s : State} {k : ℕ} (phase : s.main = .join k) (i : ℕ) :
    s.ahead g numThreads i = (s.workers i).todo := by
  simp [State.ahead, State.Waiting, phase]

/-- The threads started so far and not yet joined, by the loop that starts them. -/
theorem pass_searching {s s' : State} {k : ℕ} (searching : Searching g root numThreads s)
    (phase : s.main = .create k) (idle : s.workers k = .absent)
    (none : ¬ k * s.chunkSize numThreads < s.stop numThreads k)
    (new : s' = { s with main := .create (k + 1) }) : Searching g root numThreads s' := by
  have same : ∀ i, s'.ahead g numThreads i = s.ahead g numThreads i := by
    intro i
    rw [State.ahead_create phase, State.ahead_create (k := k + 1) (by rw [new])]
    by_cases at_k : i = k
    · subst at_k
      have chunk : s.chunk g numThreads i = [] := State.chunk_nil (by omega)
      simp [new, idle, Worker.todo, chunk]
    · have shift : (k + 1 ≤ i ∧ i < numThreads) ↔ k ≤ i ∧ i < numThreads := by omega
      rw [if_congr shift rfl rfl]
      simp [new, State.chunk, State.stop, State.chunkSize]
  exact searching.congr (by rw [new]) (by rw [new]) (by rw [new])
    (by rw [new]; funext b; cases b <;> rfl) same

theorem create_searching {s s' : State} {k : ℕ} (searching : Searching g root numThreads s)
    (phase : s.main = .create k) (thread : k < numThreads) (idle : s.workers k = .absent)
    (new : s' = { s with
      workers := set s.workers k (.running (s.chunk g numThreads k) [])
      main := .create (k + 1) }) : Searching g root numThreads s' := by
  have same : ∀ i, s'.ahead g numThreads i = s.ahead g numThreads i := by
    intro i
    rw [State.ahead_create phase, State.ahead_create (k := k + 1) (by rw [new])]
    by_cases at_k : i = k
    · subst at_k
      have before : i ≤ i ∧ i < numThreads := by omega
      simp [new, before, Worker.todo]
    · have shift : (k + 1 ≤ i ∧ i < numThreads) ↔ k ≤ i ∧ i < numThreads := by omega
      rw [if_congr shift rfl rfl]
      simp [new, State.chunk, State.stop, State.chunkSize, set_other _ _ at_k]
  have bag : s'.bag = s.bag := by
    funext b
    cases b with
    | none => rw [new]; rfl
    | some i =>
      by_cases at_k : i = k
      · simp [new, State.bag, at_k, idle, Worker.found]
      · simp [new, State.bag, set_other _ _ at_k]
  exact searching.congr (by rw [new]) (by rw [new]) (by rw [new]) bag same

theorem join_searching {s s' : State} {k : ℕ} (searching : Searching g root numThreads s)
    (phase : s.main = .join k) (finished : s.workers k = .finished)
    (new : s' = { s with workers := set s.workers k .absent, main := .join (k + 1) }) :
    Searching g root numThreads s' := by
  have same : ∀ i, s'.ahead g numThreads i = s.ahead g numThreads i := by
    intro i
    rw [State.ahead_join phase, State.ahead_join (k := k + 1) (by rw [new])]
    by_cases at_k : i = k
    · simp [new, at_k, finished, Worker.todo]
    · simp [new, set_other _ _ at_k]
  have bag : s'.bag = s.bag := by
    funext b
    cases b with
    | none => rw [new]; rfl
    | some i =>
      by_cases at_k : i = k
      · simp [new, State.bag, at_k, finished, Worker.found]
      · simp [new, State.bag, set_other _ _ at_k]
  exact searching.congr (by rw [new]) (by rw [new]) (by rw [new]) bag same

theorem joined {s : State} {k : ℕ} (inv : Inv g root numThreads s) (phase : s.main = .join k)
    (all : ¬ k < numThreads) : Searching g root numThreads s ∧ (∀ i, s.workers i = .absent) ∧
      ∀ v, v ∈ s.nextFrontier ↔ Distance g.Edge root (s.currentLevel + 1) v := by
  simp only [Inv, phase] at inv
  obtain ⟨_, searching, slots⟩ := inv
  have idle : ∀ i, s.workers i = .absent := fun i => (slots i).mpr (by omega)
  have done : ∀ i, s.ahead g numThreads i = [] := by
    intro i
    rw [State.ahead_join phase, idle, Worker.todo]
  exact ⟨searching, idle, searching.merged done idle⟩

theorem mainStep_inv {s s' : State} (inv : Inv g root numThreads s)
    (inside : root < g.numVertices) (one : 1 ≤ numThreads) (short : s.currentLevel < infiniteLevel)
    (step : mainStep g numThreads s = some s') : Inv g root numThreads s' := by
  have whole := inv
  unfold Inv at inv
  cases mainStep_cases step with
  | empty phase empty =>
    simp only [phase] at inv
    exact absurd empty inv.1.inhabited
  | enter phase _ =>
    simp only [phase] at inv
    obtain ⟨layer, fresh, idle⟩ := inv
    refine ⟨Nat.zero_le _, check_searching layer fresh idle inside one rfl, ?_⟩
    intro i
    simp [idle]
  | pass k phase thread none =>
    simp only [phase] at inv
    obtain ⟨_, searching, slots⟩ := inv
    have idle := (slots k).mpr (by omega)
    refine ⟨thread, pass_searching searching phase idle none rfl, ?_⟩
    rw [State.started_iff one] at none
    intro i
    have slot := slots i
    by_cases at_k : i = k
    · subst at_k
      exact iff_of_true idle fun h => none h.2
    · have shift : i < k + 1 ↔ i < k := by omega
      rw [shift]
      exact slot
  | create k phase thread more =>
    simp only [phase] at inv
    obtain ⟨_, searching, slots⟩ := inv
    have idle := (slots k).mpr (by omega)
    refine ⟨thread, create_searching searching phase thread idle rfl, ?_⟩
    rw [State.started_iff one] at more
    intro i
    by_cases at_k : i = k
    · subst at_k
      refine iff_of_false ?_ (not_not_intro ⟨Nat.lt_succ_self i, more⟩)
      simp
    · have shift : i < k + 1 ↔ i < k := by omega
      have other : set s.workers k (.running (s.chunk g numThreads k) []) i = s.workers i :=
        set_other _ _ at_k
      rw [shift]
      exact (iff_of_eq (congrArg (· = Worker.absent) other)).trans (slots i)
  | created k phase all =>
    simp only [phase] at inv
    obtain ⟨bound, searching, slots⟩ := inv
    obtain rfl : k = numThreads := by omega
    refine ⟨Nat.zero_le _, searching.congr rfl rfl rfl ?_ ?_, ?_⟩
    · funext b
      cases b <;> rfl
    · intro i
      rw [State.ahead_create phase, State.ahead_join (k := 0) rfl]
      have none : ¬ (k ≤ i ∧ i < k) := by omega
      rw [if_neg none]
    · intro i
      have slot := slots i
      simp only [Nat.zero_le, true_and]
      exact slot
  | crash k phase thread started absent =>
    simp only [phase] at inv
    have slot := (inv.2.2 k).mp absent
    exact slot ⟨Nat.le_refl k, thread, started⟩
  | join k phase thread started finished =>
    simp only [phase] at inv
    obtain ⟨_, searching, slots⟩ := inv
    refine ⟨thread, join_searching searching phase finished rfl, ?_⟩
    intro i
    by_cases at_k : i = k
    · subst at_k
      refine iff_of_true (set_same s.workers i .absent) ?_
      omega
    · have shift : k + 1 ≤ i ↔ k ≤ i := by omega
      have other : set s.workers k .absent i = s.workers i := set_other _ _ at_k
      rw [shift]
      exact (iff_of_eq (congrArg (· = Worker.absent) other)).trans (slots i)
  | miss k phase thread none =>
    simp only [phase] at inv
    obtain ⟨_, searching, slots⟩ := inv
    refine ⟨thread, searching.congr rfl rfl rfl ?_ ?_, ?_⟩
    · funext b
      cases b <;> rfl
    · intro i
      rw [State.ahead_join phase, State.ahead_join (k := k + 1) rfl]
    · intro i
      have slot := slots i
      by_cases at_k : i = k
      · subst at_k
        exact iff_of_true (slot.mpr fun h => none h.2.2) (by omega)
      · have shift : k + 1 ≤ i ↔ k ≤ i := by omega
        rw [shift]
        exact slot
  | last k phase all empty =>
    obtain ⟨searching, idle, merged⟩ := joined whole phase all
    refine ⟨searching.last ?_ rfl, idle⟩
    intro v distance
    have := (merged v).mpr distance
    rw [empty] at this
    cases this
  | swap k phase all some =>
    obtain ⟨searching, idle, merged⟩ := joined whole phase all
    obtain ⟨layer, fresh, _⟩ := searching.swap inside short merged some rfl
    exact ⟨layer, fresh, idle⟩

theorem mainStep_short {s s' : State} (inv : Inv g root numThreads s)
    (inside : root < g.numVertices) (short : s.currentLevel < infiniteLevel)
    (step : mainStep g numThreads s = some s') : s'.currentLevel < infiniteLevel := by
  cases mainStep_cases step with
  | swap k phase all some =>
    obtain ⟨searching, idle, merged⟩ := joined inv phase all
    exact (searching.swap inside short merged some rfl).2.2.2
  | _ => exact short

theorem workerStep_current {s s' : State} {i : ℕ} (step : workerStep s i = some s') :
    s'.currentLevel = s.currentLevel := by
  unfold workerStep at step
  split at step
  · split at step <;> cases step <;> rfl
  · cases step
    rfl
  · cases step
  · cases step

/-- The levels of the running search stay below the unvisited marker. -/
structure Sound (g : Graph) (root numThreads : ℕ) (s : State) : Prop where
  inv : Inv g root numThreads s
  short : s.currentLevel < infiniteLevel

/-- No vertex is appended with the unvisited marker as its level. -/
def Stores (s : State) (e : Event) : Prop := claim s e ≠ none → s.nextLevel ≠ infiniteLevel

theorem Sound.step {s s' : State} {e : Event} (sound : Sound g root numThreads s)
    (inside : root < g.numVertices) (one : 1 ≤ numThreads) (stores : Stores s e)
    (step : next g numThreads s e = some s') : Sound g root numThreads s' := by
  cases e with
  | main =>
    exact ⟨mainStep_inv sound.inv inside one sound.short step,
      mainStep_short sound.inv inside sound.short step⟩
  | worker i =>
    refine ⟨workerStep_inv sound.inv sound.short stores step, ?_⟩
    rw [workerStep_current step]
    exact sound.short

theorem Sound.claimed {s : State} {e : Event} {trg : ℕ} (sound : Sound g root numThreads s)
    (claimed : claim s e = some trg) : Distance g.Edge root (s.currentLevel + 1) trg := by
  cases e with
  | main => cases claimed
  | worker i =>
    simp only [claim] at claimed
    split at claimed
    · rename_i trg' todo found running
      split at claimed
      · rename_i unseen
        cases claimed
        obtain ⟨started, _⟩ := sound.inv.started (i := i) (by rw [running]; exact nofun)
        have member : trg ∈ s.ahead g numThreads i := by
          rw [State.ahead_started started, running]
          exact List.mem_cons_self
        have searching : Searching g root numThreads s := by
          have inv := sound.inv
          unfold Inv at inv
          split at inv
          · rw [inv.2.2 i] at running
            cases running
          · exact inv.2.1
          · exact inv.2.1
          · rw [inv.2 i] at running
            cases running
          · exact inv.elim
        exact searching.claimed sound.short member unseen
      · cases claimed
    · cases claimed

theorem Sound.stores {s : State} (sound : Sound g root numThreads s)
    (reach : ∀ d v, Distance g.Edge root d v → d ≤ 65534) (e : Event) : Stores s e := by
  intro claims
  obtain ⟨trg, claimed⟩ := Option.ne_none_iff_exists'.mp claims
  have bound := reach _ _ (sound.claimed claimed)
  rw [State.nextLevel_eq sound.short, infiniteLevel]
  omega

theorem stuck_returned {s : State} (inv : Inv g root numThreads s)
    (stuck : ∀ e, next g numThreads s e = none) : s.main = .returned := by
  have main := stuck .main
  simp only [next, mainStep] at main
  unfold Inv at inv
  split at main
  · split at main <;> cases main
  · split at main
    · split at main <;> cases main
    · cases main
  · rename_i k phase
    split at main
    · split at main
      · split at main
        · cases main
        · rename_i todo found running
          have worker := stuck (.worker k)
          simp only [next, workerStep, running] at worker
          split at worker
          · split at worker <;> cases worker
          · cases worker
          · rename_i absent
            cases absent
          · rename_i finished
            cases finished
        · cases main
      · cases main
    · split at main <;> cases main
  · assumption
  · rename_i phase
    simp only [phase] at inv

def Worker.left : Worker → ℕ
  | .running todo _ => todo.length + 1
  | .absent => 0
  | .finished => 0

/-- The steps thread `i` has still to take in this level. -/
def State.work (s : State) (g : Graph) (numThreads i : ℕ) : ℕ :=
  if s.Waiting numThreads i then (s.chunk g numThreads i).length + 1 else (s.workers i).left

def Main.rank (numThreads : ℕ) : Main → ℕ
  | .check => 2 * numThreads + 3
  | .create k => 2 * numThreads + 2 - k
  | .join k => numThreads + 1 - k
  | .returned => 0
  | .crashed => 0

/-- The levels still possible, then the steps left in this one. -/
def State.measure (g : Graph) (numThreads : ℕ) (s : State) : ℕ × ℕ :=
  (65535 - s.currentLevel,
    s.main.rank numThreads + ∑ i ∈ Finset.range numThreads, s.work g numThreads i)

def Lower : ℕ × ℕ → ℕ × ℕ → Prop := Prod.Lex (· < ·) (· < ·)

theorem lower_of_rank {s s' : State} (current : s'.currentLevel = s.currentLevel)
    (work : ∀ i, s'.work g numThreads i ≤ s.work g numThreads i)
    (rank : s'.main.rank numThreads < s.main.rank numThreads) :
    Lower (s'.measure g numThreads) (s.measure g numThreads) := by
  have sum := Finset.sum_le_sum fun i (_ : i ∈ Finset.range numThreads) => work i
  rw [State.measure, State.measure, current]
  apply Prod.Lex.right
  omega

theorem lower_of_work {s s' : State} (current : s'.currentLevel = s.currentLevel)
    (main : s'.main = s.main) {i : ℕ} (thread : i < numThreads)
    (work : ∀ j, j ≠ i → s'.work g numThreads j = s.work g numThreads j)
    (less : s'.work g numThreads i < s.work g numThreads i) :
    Lower (s'.measure g numThreads) (s.measure g numThreads) := by
  have each : ∀ j ∈ Finset.range numThreads,
      s'.work g numThreads j ≤ s.work g numThreads j := by
    intro j _
    by_cases same : j = i
    · subst same
      omega
    · rw [work j same]
  have sum := Finset.sum_lt_sum each ⟨i, Finset.mem_range.mpr thread, less⟩
  rw [State.measure, State.measure, current, main]
  apply Prod.Lex.right
  omega

theorem State.work_create {s : State} {k : ℕ} (phase : s.main = .create k) (i : ℕ) :
    s.work g numThreads i = if k ≤ i ∧ i < numThreads then (s.chunk g numThreads i).length + 1
      else (s.workers i).left := by
  simp [State.work, State.Waiting, phase]

theorem State.work_join {s : State} {k : ℕ} (phase : s.main = .join k) (i : ℕ) :
    s.work g numThreads i = (s.workers i).left := by
  simp [State.work, State.Waiting, phase]

theorem mainStep_lower {s s' : State} (inv : Inv g root numThreads s)
    (inside : root < g.numVertices) (short : s.currentLevel < infiniteLevel)
    (step : mainStep g numThreads s = some s') :
    Lower (s'.measure g numThreads) (s.measure g numThreads) := by
  have whole := inv
  unfold Inv at inv
  cases mainStep_cases step with
  | empty phase empty =>
    simp only [phase] at inv
    exact absurd empty inv.1.inhabited
  | enter phase _ =>
    apply lower_of_rank
    · rfl
    · intro i
      rw [State.work_create (k := 0) rfl, State.work]
      simp [State.Waiting, phase, State.chunk, State.stop, State.chunkSize]
    · simp only [phase, Main.rank]
      omega
  | pass k phase thread none =>
    simp only [phase] at inv
    have idle := (inv.2.2 k).mpr (by omega)
    apply lower_of_rank
    · rfl
    · intro i
      rw [State.work_create phase, State.work_create (k := k + 1) rfl]
      by_cases at_k : i = k
      · subst at_k
        simp [idle, Worker.left]
      · have shift : (k + 1 ≤ i ∧ i < numThreads) ↔ k ≤ i ∧ i < numThreads := by omega
        rw [if_congr shift rfl rfl]
        simp [State.chunk, State.stop, State.chunkSize]
    · simp only [phase, Main.rank]
      omega
  | create k phase thread more =>
    apply lower_of_rank
    · rfl
    · intro i
      rw [State.work_create phase, State.work_create (k := k + 1) rfl]
      by_cases at_k : i = k
      · subst at_k
        simp [thread, Worker.left]
      · have shift : (k + 1 ≤ i ∧ i < numThreads) ↔ k ≤ i ∧ i < numThreads := by omega
        rw [if_congr shift rfl rfl]
        simp [State.chunk, State.stop, State.chunkSize, set_other _ _ at_k]
    · simp only [phase, Main.rank]
      omega
  | created k phase all =>
    simp only [phase] at inv
    obtain rfl : k = numThreads := by omega
    apply lower_of_rank
    · rfl
    · intro i
      have none : ¬ (k ≤ i ∧ i < k) := by omega
      rw [State.work_create phase, State.work_join (k := 0) rfl, if_neg none]
    · simp only [phase, Main.rank]
      omega
  | crash k phase thread started absent =>
    simp only [phase] at inv
    exact absurd ⟨Nat.le_refl k, thread, started⟩ ((inv.2.2 k).mp absent)
  | join k phase thread started finished =>
    apply lower_of_rank
    · rfl
    · intro i
      rw [State.work_join phase, State.work_join (k := k + 1) rfl]
      by_cases at_k : i = k
      · subst at_k
        simp [Worker.left]
      · simp [set_other _ _ at_k]
    · simp only [phase, Main.rank]
      omega
  | miss k phase thread none =>
    apply lower_of_rank
    · rfl
    · intro i
      rw [State.work_join phase, State.work_join (k := k + 1) rfl]
    · simp only [phase, Main.rank]
      omega
  | last k phase all empty =>
    simp only [phase] at inv
    apply lower_of_rank
    · rfl
    · intro i
      rw [State.work_join phase, State.work]
      simp [State.Waiting]
    · simp only [phase, Main.rank]
      omega
  | swap k phase all some =>
    obtain ⟨searching, idle, merged⟩ := joined whole phase all
    obtain ⟨_, _, current, below⟩ := searching.swap inside short merged some rfl
    rw [infiniteLevel] at below
    rw [State.measure, State.measure, current]
    apply Prod.Lex.left
    omega

theorem workerStep_lower {s s' : State} {i : ℕ} (inv : Inv g root numThreads s)
    (step : workerStep s i = some s') :
    Lower (s'.measure g numThreads) (s.measure g numThreads) := by
  have here : s.workers i ≠ .absent := by
    intro absent
    simp [workerStep, absent] at step
  obtain ⟨started, thread⟩ := inv.started here
  have frame : s'.currentLevel = s.currentLevel ∧ s'.main = s.main ∧ s'.frontier = s.frontier ∧
      ∃ w : Worker, s'.workers = set s.workers i w ∧ w.left < (s.workers i).left := by
    unfold workerStep at step
    split at step
    · rename_i trg todo found running
      split at step
      · cases step
        exact ⟨rfl, rfl, rfl, _, rfl, by simp [running, Worker.left]⟩
      · cases step
        exact ⟨rfl, rfl, rfl, _, rfl, by simp [running, Worker.left]⟩
    · rename_i found running
      cases step
      exact ⟨rfl, rfl, rfl, _, rfl, by simp [running, Worker.left]⟩
    · cases step
    · cases step
  obtain ⟨current, main, frontier, w, workers, less⟩ := frame
  have waiting : ∀ j, s'.Waiting numThreads j ↔ s.Waiting numThreads j := by
    intro j
    simp only [State.Waiting, main]
  have chunk : ∀ j, s'.chunk g numThreads j = s.chunk g numThreads j := by
    intro j
    simp only [State.chunk, State.stop, State.chunkSize, frontier]
  apply lower_of_work current main thread
  · intro j differ
    simp only [State.work, waiting, chunk, workers, set_other _ _ differ]
  · simp only [State.work, waiting, started, workers, set_same, if_false]
    exact less

theorem Sound.lower {s s' : State} {e : Event} (sound : Sound g root numThreads s)
    (inside : root < g.numVertices) (step : next g numThreads s e = some s') :
    Lower (s'.measure g numThreads) (s.measure g numThreads) := by
  cases e with
  | main => exact mainStep_lower sound.inv inside sound.short step
  | worker i => exact workerStep_lower sound.inv step

theorem start_sound (inside : root < g.numVertices) (level : ℕ → ℕ) :
    Sound g root numThreads (start g level root) := by
  refine ⟨start_inv inside level, ?_⟩
  change 0 < infiniteLevel
  decide

theorem lower_wf : WellFounded Lower := (Prod.lex Nat.lt_wfRel Nat.lt_wfRel).wf

/-- Every run ends. -/
theorem runs_end (g : Graph) (root numThreads : ℕ) (level : ℕ → ℕ)
    (inside : root < g.numVertices) (one : 1 ≤ numThreads)
    (reach : ∀ d v, Distance g.Edge root d v → d ≤ 65534) (run : ℕ → State)
    (first : run 0 = start g level root) :
    ¬ ∀ k, ∃ e, next g numThreads (run k) e = some (run (k + 1)) := by
  apply no_infinite_run lower_wf (State.measure g numThreads) (Sound g root numThreads)
  · intro s e s' sound step
    exact ⟨sound.step inside one (sound.stores reach e) step, sound.lower inside step⟩
  · rw [first]
    exact start_sound inside level

theorem exec_inv (g : Graph) (root numThreads : ℕ) (level : ℕ → ℕ)
    (inside : root < g.numVertices) (one : 1 ≤ numThreads)
    (reach : ∀ d v, Distance g.Edge root d v → d ≤ 65534) {events : List Event} {s : State}
    (run : exec (next g numThreads) (start g level root) events = some s) : Inv g root numThreads s := by
  have keep : ∀ s e s', Sound g root numThreads s → next g numThreads s e = some s' →
      Sound g root numThreads s' :=
    fun s e s' sound step => sound.step inside one (sound.stores reach e) step
  exact (exec_preserves _ keep (start_sound inside level) run).inv

theorem Inv.correct {g : Graph} {root numThreads : ℕ} {s : State} (inv : Inv g root numThreads s)
    (returned : s.main = .returned) : Correct g root s := by
  simp only [Inv, returned] at inv
  exact inv.1

/-- Every run ends, only the return ends it, and then the levels are the distances and
the level returned is the largest. -/
theorem run_bfs_distances (g : Graph) (root numThreads : ℕ) (level : ℕ → ℕ)
    (inside : root < g.numVertices) (one : 1 ≤ numThreads)
    (reach : ∀ d v, Distance g.Edge root d v → d ≤ 65534) :
    (∀ run : ℕ → State, run 0 = start g level root →
      ¬ ∀ k, ∃ e, next g numThreads (run k) e = some (run (k + 1))) ∧
    ∀ events s, exec (next g numThreads) (start g level root) events = some s →
      ((∀ e, next g numThreads s e = none) → s.main = .returned) ∧
      (s.main = .returned → Correct g root s) := by
  refine ⟨runs_end g root numThreads level inside one reach, fun events s run => ?_⟩
  have inv := exec_inv g root numThreads level inside one reach run
  exact ⟨stuck_returned inv, inv.correct⟩

theorem distance_lt_numVertices (inside : root < g.numVertices) {d v : ℕ}
    (distance : Distance g.Edge root d v) : d < g.numVertices := by
  have between : ∀ k, ∃ u, k ≤ d → Distance g.Edge root k u := by
    intro k
    by_cases le : k ≤ d
    · by_contra none
      refine empty_after (d := k) ?_ le v distance
      intro u closer
      exact none ⟨u, fun _ => closer⟩
    · exact ⟨0, fun h => absurd h le⟩
  choose f hf using between
  have maps : ∀ k ∈ Finset.range (d + 1), f k ∈ Finset.range g.numVertices := by
    intro k member
    rw [Finset.mem_range] at member ⊢
    exact Graph.distance_inside inside (hf k (by omega))
  have injective : Set.InjOn f (Finset.range (d + 1)) := by
    intro j hj k hk same
    simp only [Finset.coe_range, Set.mem_Iio] at hj hk
    have first := hf j (by omega)
    rw [same] at first
    exact first.unique (hf k (by omega))
  have card := Finset.card_le_card_of_injOn f maps injective
  rw [Finset.card_range, Finset.card_range] at card
  exact card

/-- Two ways 0 → 1 → 3 and 0 → 2 → 3. -/
def diamond : Graph where
  numVertices := 4
  index := fun v => min (v + min v 1) 4
  edges := fun j => min (j + 1) 3
  monotone := by
    intro v _
    omega
  inside := by
    intro j bound
    omega

/-- In the second level the workers meet at vertex 3. -/
def diamondEvents : List Event :=
  List.replicate 4 .main ++ List.replicate 3 (.worker 0) ++ List.replicate 7 .main ++
    [.worker 1, .worker 0, .worker 1, .worker 0] ++ List.replicate 7 .main ++ [.worker 0] ++
    List.replicate 3 .main

theorem run_bfs_distances_diamond : ∃ s,
    exec (next diamond 2) (start diamond (fun _ => 0) 0) diamondEvents = some s ∧
      s.main = .returned ∧ Correct diamond 0 s := by
  have small : ∀ d v, Distance diamond.Edge 0 d v → d ≤ 65534 := by
    intro d v distance
    have bound := distance_lt_numVertices (g := diamond) (by decide) distance
    have : diamond.numVertices = 4 := rfl
    omega
  obtain ⟨s, run, returned⟩ := exec_observe (next diamond 2) (start diamond (fun _ => 0) 0)
    diamondEvents State.main .returned (by decide)
  exact ⟨s, run, returned,
    ((run_bfs_distances diamond 0 2 _ (by decide) (by decide) small).2 _ s run).2 returned⟩

end Bfs
