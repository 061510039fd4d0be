import OsvBenchmarks.BTree.Budget
import OsvBenchmarks.BTree.Compare

/-!
splitNode in the tree. The halves divide the page whatever the parent does; the
separator finds its place in the parent where custom_memcmp is not left to the
bytes behind it.
-/
namespace BTree
namespace BTreeNode
variable {n : BTreeNode} {splitOrdered : Bool}

/-- A leaf is parted behind a slot, an inner page at its middle key. -/
def Parts (n : BTreeNode) (splitOrdered : Bool) (sep : Key) : Prop :=
  (n.isLeaf = true ∧ ∃ slot, SplitsAt n splitOrdered slot ∧
    sep = Prefix.parting (n.fullKey slot) (n.fullKey (slot + 1))) ∨
  (n.isLeaf = false ∧ sep = n.fullKey (n.count / 2))

theorem parts_iff (some : 2 ≤ n.count) {sep : Key} :
    n.Parts splitOrdered sep ↔ sep = n.getSep (n.findSeparator splitOrdered) := by
  cases leaf : n.isLeaf with
  | true =>
    have made := (getSep_leaf leaf splitOrdered (bestSlot_inside splitOrdered some)).2.2
    constructor
    · rintro (⟨_, slot, at_, parting⟩ | ⟨inner, _⟩)
      · rw [made, parting, at_.unique bestSlot_splitsAt]
      · exact absurd (leaf.symm.trans inner) (by decide)
    · intro same
      exact Or.inl ⟨leaf, _, bestSlot_splitsAt, same.trans made⟩
  | false =>
    have made := (findSeparator_inner splitOrdered leaf).2.2
    constructor
    · rintro (⟨other, _⟩ | ⟨_, middle⟩)
      · exact absurd (leaf.symm.trans other) (by decide)
      · exact middle.trans made.symm
    · intro same
      exact Or.inr ⟨leaf, same.trans made⟩

def deepLeaf (k : Key) : BTreeNode :=
  (((new true).setFences k []).insertInPage (k ++ [0]) []).insertInPage (k ++ [1]) []

def deepSlot (k : Key) : BTreeNode := ((new false).setFences [] []).insertInPage k (pidBytes 5)

def deepParent (k : Key) : BTreeNode := { deepSlot k with link := 6 }

structure Deep (k : Key) : Prop where
  leaf : Formed (deepLeaf k)
  parent : Formed (deepParent k)
  routes : Routes (deepParent k) (deepLeaf k) 6 1

def deepChecks (k : Key) : Prop :=
  (Admits ((new true).setFences k []) (k ++ [0]) [] ∧
    Admits (((new true).setFences k []).insertInPage (k ++ [0]) []) (k ++ [1]) [] ∧
    Admits ((new false).setFences [] []) k (pidBytes 5)) ∧
  ((deepLeaf k).isLeaf = true ∧ (deepLeaf k).entries.Pairwise (fun a b => a.1 < b.1) ∧
    ∀ e ∈ (deepLeaf k).entries,
      Between (deepLeaf k).isLeaf (deepLeaf k).getLowerFence (deepLeaf k).getUpperFence e.1) ∧
  ((deepSlot k).entries.Pairwise (fun a b => a.1 < b.1) ∧
    ∀ e ∈ (deepSlot k).entries, Between (deepSlot k).isLeaf (deepSlot k).getLowerFence
      (deepSlot k).getUpperFence e.1 ∧ e.2.length = pidSize) ∧
  (1 = (deepParent k).count ∧ (deepLeaf k).getLowerFence = (deepParent k).fullKey 0 ∧
    (deepLeaf k).getUpperFence = (deepParent k).getUpperFence)

instance (k : Key) : Decidable (deepChecks k) := inferInstanceAs (Decidable (_ ∧ _))

theorem link_formed {link : ℕ} (valid : n.Valid) (sorted : n.entries.Pairwise fun a b => a.1 < b.1)
    (between : ∀ e ∈ n.entries,
      Between n.isLeaf n.getLowerFence n.getUpperFence e.1 ∧ e.2.length = pidSize) :
    Formed { n with link := link } where
  valid := (link_repointed valid fun e mem => (between e mem).2).valid
  sorted := sorted
  between := fun e mem => (between e mem).1
  wide := fun _ e mem => (between e mem).2

theorem deep_of_checks {k : Key} (short : headerSize + k.length ≤ pageSize) (checks : deepChecks k) :
    Deep k := by
  obtain ⟨⟨first, second, separator⟩, ⟨leaf, sorted, between⟩, ⟨sorted', between'⟩, count, lower,
    upper⟩ := checks
  obtain ⟨valid, _⟩ := second.keeps
    (first.keeps ⟨setFences_valid true k [] (by rw [List.length_nil]; omega), List.Pairwise.nil⟩)
  obtain ⟨valid', _⟩ := separator.keeps ⟨setFences_valid false [] [] (by decide), List.Pairwise.nil⟩
  refine ⟨⟨valid, sorted, between, fun inner => ?_⟩, link_formed valid' sorted' between', ?_⟩
  · exact absurd (leaf.symm.trans inner) (by decide)
  · exact ⟨le_of_eq count, by rw [if_pos count]; rfl, by rw [if_neg (by decide)]; exact lower,
      by rw [if_pos count]; exact upper⟩

end BTreeNode
end BTree
