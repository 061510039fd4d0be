import Mathlib.Data.Prod.Lex
import OsvBenchmarks.Threads.Program
import OsvBenchmarks.Tree.Structure

/-!
What a change of the tree leaves alone: a page stays if its content is the same
and it is where it was in the tree. A leaf's rewriting leaves all other pages, a
new root leaves all but the meta data page, a split all but the page and its
parent, a merge all but these and the right neighbour.
-/
namespace BTree
open FenceTree BTreeNode

def OnLevel (t : Tree) (w : ℕ) (s : Store) (p l : ℕ) : Prop :=
  ∃ live level, WellFormed t w s live level ∧ p ∈ live ∧ level p = l

structure Stays (t : Tree) (w : ℕ) (s s' : Store) (p : ℕ) : Prop where
  page : s'.page p = s.page p
  level : ∀ l, OnLevel t w s p l → OnLevel t w s' p l
  root : p = metadataPageId → s'.roots t.slotId = s.roots t.slotId

/-- The place of a page in the order of locks: down the tree, and along the leaves. -/
def rank (t : Tree) (s : Store) (level : ℕ → ℕ) (p : ℕ) : Lex (ℕ × Key) :=
  toLex (if p = metadataPageId then 0 else level (s.roots t.slotId) + 1 - level p, (s.page p).getLowerFence)

/-- The second page may be locked by a thread that holds the first. -/
def Before (t : Tree) (w : ℕ) (s : Store) (p q : ℕ) : Prop :=
  ∀ live level, WellFormed t w s live level → rank t s level p < rank t s level q

section
variable {t : Tree} {w : ℕ} {s s' s'' : Store} {live live' : Finset ℕ} {level level' : ℕ → ℕ} {p : ℕ}

theorem Stays.refl : Stays t w s s p := ⟨rfl, fun _ h => h, fun _ => rfl⟩

theorem Stays.trans (first : Stays t w s s' p) (second : Stays t w s' s'' p) : Stays t w s s'' p :=
  ⟨second.page.trans first.page, fun l h => second.level l (first.level l h),
    fun top => (second.root top).trans (first.root top)⟩

theorem WellFormed.height_le (wf : WellFormed t w s live level) (wf' : WellFormed t w s live' level') :
    level' (s.roots t.slotId) ≤ level (s.roots t.slotId) := by
  obtain ⟨q, hq, bottom, _⟩ := wf'.rooted.page_at (Nat.zero_le _) []
  obtain ⟨_, sum⟩ := wf.at_live (wf'.live_at hq (by rw [bottom, Nat.zero_add]))
  omega

theorem WellFormed.onLevel_iff (wf : WellFormed t w s live level) {l : ℕ} :
    OnLevel t w s p l ↔ p ∈ live ∧ level p = l := by
  constructor
  · rintro ⟨live', level', wf', hp, rfl⟩
    have low := wf'.shape.below p hp
    obtain ⟨here, sum⟩ := wf.at_live (wf'.live_at hp (Nat.add_sub_of_le low))
    have same := le_antisymm (wf'.height_le wf) (wf.height_le wf')
    exact ⟨here, by omega⟩
  · rintro ⟨hp, rfl⟩
    exact ⟨live, level, wf, hp, rfl⟩

theorem WellFormed.stays (wf : WellFormed t w s live level) (wf' : WellFormed t w s' live' level')
    (page : s'.page p = s.page p) (there : p ∈ live → p ∈ live' ∧ level' p = level p)
    (root : p = metadataPageId → s'.roots t.slotId = s.roots t.slotId) : Stays t w s s' p := by
  refine ⟨page, fun l on => ?_, root⟩
  obtain ⟨hp, rfl⟩ := wf.onLevel_iff.mp on
  exact wf'.onLevel_iff.mpr (there hp)

theorem WellFormed.put_stays {n : BTreeNode} {q : ℕ} (wf : WellFormed t w s live level)
    (wf' : WellFormed t w (s.put q n) live level) (other : p ≠ q) : Stays t w s (s.put q n) p :=
  wf.stays wf' (Store.put_page_ne s n other) (fun hp => ⟨hp, rfl⟩) fun _ => rfl

theorem WellFormed.grow_stays (wf : WellFormed t w s live level) (space : s.allocCount < s.virtCount)
    (below : p ≠ metadataPageId) (other : p ≠ s.allocCount) : Stays t w s (t.newRoot s) p := by
  obtain ⟨wf', _, _⟩ := wf.grow space
  refine wf.stays wf' (Store.put_page_ne _ _ other) (fun hp => ?_) fun top => absurd top below
  exact ⟨Finset.mem_insert_of_mem hp, Function.update_of_ne other _ _⟩

theorem SplitsAt.stays {q r : ℕ} (splits : SplitsAt t w s (s.splitInto p q) live level p q)
    (wf : WellFormed t w s live level) (lower : level p + 1 = level q) (rp : r ≠ p) (rq : r ≠ q)
    (new : r ≠ s.allocCount) : Stays t w s (s.splitInto p q) r := by
  have hp := splits.split.page_live
  have hq := splits.split.parent_live
  have fresh := wf.rooted.fresh
  have pages := @puts_pages { s with allocCount := s.allocCount + 1 } p q s.allocCount
    (s.splitPages p q).1 (s.splitPages p q).2.2 (s.splitPages p q).2.1
    (fun same => by rw [same] at lower; omega) (fun same => fresh (same ▸ hp))
    (fun same => fresh (same ▸ hq))
  refine wf.stays splits.wf (pages.2.2.2 r rp rq new) (fun hr => ?_) fun _ => rfl
  exact ⟨Finset.mem_insert_of_mem hr, Function.update_of_ne new _ _⟩

end
end BTree
