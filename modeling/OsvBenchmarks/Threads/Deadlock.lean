import Mathlib.Data.Finset.Max
import OsvBenchmarks.Threads.Linearizable

/-!
Threads do not wait for each other in a circle: a page that a thread may wait for
comes after those that it holds, in an order that all threads see at that moment.
-/
namespace BTree.Threads
open BTree FenceTree BTreeNode Blocks Optimistic Runs

section
variable {t : Tree} {w : ℕ} {ops : ℕ → Call} {pool : Pool ℕ Shared Sight Tag Label Result}

/-- A thread that has ended, can move, or waits for a thread that is none of these. -/
def Loose (t : Tree) (ops : ℕ → Call) (pool : Pool ℕ Shared Sight Tag Label Result) (threads : Finset ℕ)
    (i : ℕ) : Prop :=
  (∃ r, pool.thread i = .stop r) ∨ (∀ e, (next (fun i => code t i (ops i)) pool (i, e)).isSome) ∨
    ∃ page j, .waits page ∈ (pool.thread i).tag ∧ pool.shared.locks.holder page = some j ∧ j ∉ threads

theorem waits_inside (sound : (outline t w ops).Sound pool) {threads : Finset ℕ} {i : ℕ}
    (bound : ¬ Loose t ops pool threads i) : ∃ page, .waits page ∈ (pool.thread i).tag ∧
      ∃ j ∈ threads, pool.shared.locks.holder page = some j := by
  obtain ⟨running, bound⟩ := not_or.mp bound
  obtain ⟨moves, outside⟩ := not_or.mp bound
  obtain ⟨e, stuck⟩ := not_forall.mp moves
  rcases sound.stuck lawful (Option.not_isSome_iff_eq_none.mp stuck) with ⟨r, ended⟩ | ⟨tag, here, waits⟩
  · exact absurd ⟨r, ended⟩ running
  · cases tag with
    | quiet => cases waits
    | changes node slot => cases waits
    | waits page =>
      obtain ⟨j, holds⟩ := waits
      refine ⟨page, here, j, ?_, holds⟩
      by_contra away
      exact outside ⟨page, j, here, holds, away⟩

theorem sound_loose (sound : (outline t w ops).Sound pool) {threads : Finset ℕ} (any : threads.Nonempty) :
    ∃ i ∈ threads, Loose t ops pool threads i := by
  by_contra none
  have waits : ∀ i ∈ threads, ∃ page, .waits page ∈ (pool.thread i).tag ∧
      ∃ j ∈ threads, pool.shared.locks.holder page = some j :=
    fun i mem => waits_inside sound fun loose => none ⟨i, mem, loose⟩
  choose! page here holder inside holds using waits
  obtain ⟨live, level, wf, _⟩ := sound.1.tree
  -- of the pages that they wait for, the last: its holder waits for one that comes after it
  obtain ⟨i, mem, last⟩ := threads.exists_max_image (fun i => rank t pool.shared.store level (page i)) any
  have after := sound.owed lawful (here (holder i) (inside i mem)) (page i) (holds i mem) live level wf
  exact absurd (last (holder i) (inside i mem)) (not_le.mpr after)

end

/-- In no run do threads come to wait for each other. -/
theorem runs_deadlock_free {slotId w : ℕ} {s s' : Store} {t : Tree} (pos : metadataPageId < s.allocCount)
    (space : s.allocCount < s.virtCount) (small : s.virtCount ≤ noNeighbour)
    (fresh : Tree.create slotId s = .done (t, s')) {ops : ℕ → Call}
    (acceptable : ∀ i key payload, ops i = .insert key payload → Acceptable w key payload)
    {ms : List (ℕ × Sight)} {pool : Pool ℕ Shared Sight Tag Label Result}
    (granted : Allowed (next fun i => code t i (ops i)) (Meets (Grants ops)) (begin s') ms)
    (run : exec (next fun i => code t i (ops i)) (begin s') ms = some pool) {threads : Finset ℕ}
    (any : threads.Nonempty) : ∃ i ∈ threads, Loose t ops pool threads i :=
  sound_loose (runs_sound pos space small fresh acceptable granted run) any

/-- The insert has locked the leaf, and the lookup is about to take a guard on it. -/
def meeting : List (ℕ × Sight) :=
  List.replicate 10 (0, ⟨.new true, 0⟩) ++ List.replicate 6 (1, ⟨.new true, 0⟩)

theorem runs_deadlock_free_two :
    ∃ pool, exec (next fun i => code ⟨0, false⟩ i (twoCalls i)) (begin oneLeaf) meeting = some pool ∧
      pool.shared.locks.holder 1 = some 0 ∧ ∃ i ∈ ({0, 1} : Finset ℕ), Loose ⟨0, false⟩ twoCalls pool {0, 1} i := by
  have fresh : Tree.create 0 blankStore = .done (⟨0, false⟩, oneLeaf) := rfl
  obtain ⟨pool, run, held⟩ := Option.map_eq_some_iff.mp (by decide +kernel :
    (exec (next fun i => code ⟨0, false⟩ i (twoCalls i)) (begin oneLeaf) meeting).map
      (fun pool => pool.shared.locks.holder 1) = some (some 0))
  exact ⟨pool, run, held, runs_deadlock_free (by decide) (by decide) (by decide) fresh twoCalls_acceptable
    (by decide +kernel) run (Finset.insert_nonempty 0 {1})⟩

end BTree.Threads
