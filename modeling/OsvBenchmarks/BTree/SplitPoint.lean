import OsvBenchmarks.BTree.Halves

/-!
Where a page can be split: behind its first entry, as findSeparator and splitNode
assert. A leaf with two entries and an inner page with one have their middle at
slot 0.
-/
namespace BTree
namespace BTreeNode
variable {n : BTreeNode} {splitOrdered : Bool}

/-- Two entries, and a slot between the first and the end. -/
def SplitPoint (n : BTreeNode) (splitOrdered : Bool) : Prop :=
  2 ≤ n.count ∧ 0 < (n.findSeparator splitOrdered).slot ∧ (n.findSeparator splitOrdered).slot < n.count

/-- A leaf with two entries, an inner page with one. -/
def Tight (n : BTreeNode) : Prop := n.count = if n.isLeaf then 2 else 1

instance (n : BTreeNode) (splitOrdered : Bool) : Decidable (n.SplitPoint splitOrdered) :=
  inferInstanceAs (Decidable (_ ∧ _))

instance (n : BTreeNode) : Decidable n.Tight := inferInstanceAs (Decidable (_ = _))

theorem bestSlot_pos (some : 2 ≤ n.count) : 0 < n.bestSlot splitOrdered ↔ 3 ≤ n.count := by
  cases splitOrdered with
  | true =>
    unfold bestSlot
    rw [if_pos rfl]
    omega
  | false =>
    have balanced := bestSlot_balanced some
    have few := balanced.few
    have many := balanced.many
    omega

theorem splitPoint_iff : n.SplitPoint splitOrdered ↔
    (n.isLeaf = true → 3 ≤ n.count) ∧ (n.isLeaf = false → 2 ≤ n.count) := by
  unfold SplitPoint
  cases leaf : n.isLeaf with
  | true =>
    have best : 2 ≤ n.count → (n.findSeparator splitOrdered).slot = n.bestSlot splitOrdered :=
      fun some => (getSep_leaf leaf splitOrdered (bestSlot_inside splitOrdered some)).1
    constructor
    · rintro ⟨some, pos, _⟩
      rw [best some, bestSlot_pos some] at pos
      exact ⟨fun _ => pos, fun no => absurd no (by decide)⟩
    · rintro ⟨three, _⟩
      have three := three rfl
      have some : 2 ≤ n.count := by omega
      have inside := bestSlot_inside splitOrdered some
      rw [best some, bestSlot_pos some]
      exact ⟨some, three, by omega⟩
  | false =>
    rw [(findSeparator_inner splitOrdered leaf).1]
    constructor
    · rintro ⟨some, _, _⟩
      exact ⟨fun no => absurd no (by decide), fun _ => some⟩
    · rintro ⟨_, two⟩
      have two := two rfl
      exact ⟨two, by omega, by omega⟩

/-- A separator strictly between the fences of a page, at one of its slots. -/
structure Cuts (n : BTreeNode) (slot : ℕ) (sep : Key) : Prop where
  inside : slot < n.count
  some : sep ≠ []
  above : n.getLowerFence < sep ∨ n.getLowerFence = []
  below : n.getUpperFence = [] ∨ sep < n.getUpperFence

theorem Formed.cuts (formed : Formed n) (point : n.SplitPoint splitOrdered) :
    Cuts n (n.findSeparator splitOrdered).slot (n.getSep (n.findSeparator splitOrdered)) := by
  obtain ⟨some, pos, inside⟩ := point
  cases leaf : n.isLeaf with
  | true =>
    have next := bestSlot_inside splitOrdered some
    have separates := getSep_separates leaf splitOrdered some formed.ascending
    have slot := (getSep_leaf leaf splitOrdered next).1
    rw [← slot] at next separates
    have less := formed.less pos inside
    have distinct := formed.less (Nat.lt_succ_self _) next
    have high := separates.apart (ne_of_lt distinct)
    have first := (formed.between _ (fullKey_mem inside)).1
    have second := (formed.between _ (fullKey_mem next)).weak.2
    refine ⟨inside, ?_, ?_, ?_⟩
    · -- the first key is below the one at the slot, so that one is not empty
      intro none
      have low := separates.low
      rw [none] at low
      exact absurd (lt_of_lt_of_le less low) (List.not_lt_nil _)
    · exact first.imp (fun h => lt_of_lt_of_le h separates.low) fun h => h.2
    · exact second.imp id fun h => lt_of_lt_of_le high h
  | false =>
    obtain ⟨slot, _, sep⟩ := findSeparator_inner splitOrdered leaf
    rw [← slot] at sep
    obtain ⟨low, high⟩ := formed.separator leaf inside
    rw [sep]
    refine ⟨inside, fun none => ?_, Or.inl low, high⟩
    rw [none] at low
    exact absurd low (List.not_lt_nil _)

theorem getSep_length (splitOrdered : Bool) (some : 2 ≤ n.count) :
    (n.getSep (n.findSeparator splitOrdered)).length = (n.findSeparator splitOrdered).len := by
  cases leaf : n.isLeaf with
  | true => exact (getSep_leaf leaf splitOrdered (bestSlot_inside splitOrdered some)).2.1
  | false => exact (findSeparator_inner splitOrdered leaf).2.1

end BTreeNode
end BTree
