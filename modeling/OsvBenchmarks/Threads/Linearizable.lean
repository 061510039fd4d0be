import OsvBenchmarks.Threads.Coupled

/-!
Any threads on one tree, their actions interleaved in any order: the tree is that
of a finite map that the calls change one by one, each once, between its begin and
its end, and every answer is the map's at such a moment.
-/
namespace BTree.Threads
open BTree FenceTree BTreeNode Blocks Optimistic Runs

section
variable {t : Tree} {w : ℕ} {ops : ℕ → Call}

theorem code_holds (ordered : t.splitOrdered = false)
    (acceptable : ∀ i key payload, ops i = .insert key payload → Acceptable w key payload) (i : ℕ)
    (label : Label) : (outline t w ops).Holds i ((outline t w ops).label i label) (code t i (ops i) label) := by
  cases label with
  | start => exact start_holds
  | descend goal => exact descend_holds goal
  | alone node => exact alone_holds node fun n outer => plainLeaf_holds node outer rfl
  | both goal parent node pos =>
    exact both_holds goal parent node pos fun n short stops =>
      coupledLeaf_holds ordered rfl (acceptable i) short stops

/-- Threads that run their calls on a tree, none of which has begun. -/
def begin (s : Store) : Pool ℕ Shared Sight Tag Label Result :=
  ⟨⟨s, .unlocked, []⟩, fun _ => .goto .start⟩

theorem begin_sound {s : Store} (represents : Represents t w s ∅) : (outline t w ops).Sound (begin s) := by
  refine ⟨⟨represents, fun p _ => rfl, List.nodup_nil, fun i c mem => ?_⟩,
    fun i => ⟨fun e mem => ?_, fun p => ?_⟩⟩
  · cases mem
  · cases mem
  · exact iff_of_false (fun held => by cases held) (Finset.notMem_empty p)

/-- What holds whenever threads run their calls on one tree: the tree is that of the history, where
each call's change stands once and after its begin; answers are the map's; no assertion has failed;
and a change is about to be made where it belongs. -/
structure Linear (t : Tree) (w : ℕ) (ops : ℕ → Call) (pool : Pool ℕ Shared Sight Tag Label Result) : Prop where
  tree : Represents t w pool.shared.store (mapOf pool.shared.history)
  once : (pool.shared.history.filterMap Event.changer).Nodup
  own : ∀ i c, .changed i c ∈ pool.shared.history →
    c = ops i ∧ [.began i, .changed i c].Sublist pool.shared.history
  answers : ∀ i a, pool.thread i = .stop (.answered a) → Answered i (ops i) a pool.shared.history
  asserts : ∀ i, pool.thread i ≠ .stop .crashed
  changes : ∀ i node slot, .changes node slot ∈ (pool.thread i).tag →
    pool.shared.locks.holder node = some i ∧ (∃ depth, t.At pool.shared.store depth node) ∧
      (pool.shared.store.page node).isLeaf = true ∧
      (pool.shared.store.view node).fences.Has (callKey (ops i)) ∧
      ∀ k ∈ slot, (pool.shared.store.page node).lowerBound (callKey (ops i)) = (k, true)

/-- A page at the bottom is a leaf that the descent from the root comes to. -/
theorem OnLevel.leaf {s : Store} {p : ℕ} (on : OnLevel t w s p 0) :
    (∃ depth, t.At s depth p) ∧ (s.page p).isLeaf = true := by
  obtain ⟨live, level, wf, hp, bottom⟩ := on
  exact ⟨⟨_, wf.live_at hp (by rw [bottom, Nat.zero_add])⟩, (wf.rooted.leaf hp).mpr bottom⟩

theorem sound_linear {pool : Pool ℕ Shared Sight Tag Label Result} (sound : (outline t w ops).Sound pool) :
    Linear t w ops pool where
  tree := sound.1.tree
  once := sound.1.once
  own := sound.1.own
  answers _ _ ended := sound.stopped ended
  asserts _ ended := sound.stopped ended
  changes i node slot here := by
    obtain ⟨held, on, has, search⟩ := sound.owed lawful here
    obtain ⟨there, leaf⟩ := OnLevel.leaf on
    exact ⟨held, there, leaf, has, search⟩

end

theorem runs_sound {slotId w : ℕ} {s s' : Store} {t : Tree} (pos : metadataPageId < s.allocCount)
    (space : s.allocCount < s.virtCount) (small : s.virtCount ≤ noNeighbour)
    (fresh : Tree.create slotId s = .done (t, s')) {ops : ℕ → Call}
    (acceptable : ∀ i key payload, ops i = .insert key payload → Acceptable w key payload)
    {ms : List (ℕ × Sight)} {pool : Pool ℕ Shared Sight Tag Label Result}
    (granted : Allowed (next fun i => code t i (ops i)) (Meets (Grants ops)) (begin s') ms)
    (run : exec (next fun i => code t i (ops i)) (begin s') ms = some pool) :
    (outline t w ops).Sound pool := by
  obtain ⟨s'', eq, represents⟩ := create_represents slotId w pos space small
  rw [fresh] at eq
  cases eq
  exact (begin_sound represents).exec lawful (code_holds rfl acceptable) granted run

/-- In every run on a fresh tree the calls take effect one by one. -/
theorem runs_linear {slotId w : ℕ} {s s' : Store} {t : Tree} (pos : metadataPageId < s.allocCount)
    (space : s.allocCount < s.virtCount) (small : s.virtCount ≤ noNeighbour)
    (fresh : Tree.create slotId s = .done (t, s')) {ops : ℕ → Call}
    (acceptable : ∀ i key payload, ops i = .insert key payload → Acceptable w key payload)
    {ms : List (ℕ × Sight)} {pool : Pool ℕ Shared Sight Tag Label Result}
    (granted : Allowed (next fun i => code t i (ops i)) (Meets (Grants ops)) (begin s') ms)
    (run : exec (next fun i => code t i (ops i)) (begin s') ms = some pool) : Linear t w ops pool :=
  sound_linear (runs_sound pos space small fresh acceptable granted run)

def oneLeaf : Store := (({ blankStore with allocCount := 2 } : Store).put 1 (.new true)).setRoot 0 1

def twoCalls (i : ℕ) : Call := if i = 0 then .insert [5] [7] else .lookup [5]

theorem twoCalls_acceptable (i : ℕ) (key : Key) (payload : Payload) (same : twoCalls i = .insert key payload) :
    Acceptable 1 key payload := by
  unfold twoCalls at same
  split at same
  · cases same
    exact ⟨by decide, by decide, by decide, rfl⟩
  · cases same

/-- The insert, all of it between the moment when the lookup reads the leaf and its check. -/
def overtaking : List (ℕ × Sight) :=
  List.replicate 10 (1, ⟨.new true, 0⟩) ++ List.replicate 13 (0, ⟨.new true, 0⟩) ++
    List.replicate 10 (1, ⟨.new true, 0⟩)

theorem runs_linear_two :
    ∃ pool, exec (next fun i => code ⟨0, false⟩ i (twoCalls i)) (begin oneLeaf) overtaking = some pool ∧
      Linear ⟨0, false⟩ 1 twoCalls pool ∧ pool.thread 1 = .stop (.answered (.payload (some [7]))) := by
  have fresh : Tree.create 0 blankStore = .done (⟨0, false⟩, oneLeaf) := rfl
  obtain ⟨pool, run, last⟩ := Option.bind_eq_some_iff.mp (by decide +kernel :
    (exec (next fun i => code ⟨0, false⟩ i (twoCalls i)) (begin oneLeaf) overtaking).bind
      (fun pool => (pool.thread 1).result) = some (.answered (.payload (some [7]))))
  exact ⟨pool, run, runs_linear (by decide) (by decide) (by decide) fresh twoCalls_acceptable (by decide +kernel) run,
    Block.result_eq_some.mp last⟩

end BTree.Threads
