import OsvBenchmarks.BTree.Halves

/-!
Two neighbouring leaves under one parent: mergeNodes leaves them alone, or makes
one leaf of both that has room at every turn of the copying, and the parent
forgets what was between them.
-/
namespace BTree
namespace BTreeNode
variable {n right parent : BTreeNode} {pid rightPID pos : ℕ}

theorem Routes.neighbours (formed : Formed parent) (inner : parent.isLeaf = false)
    (inside : pos + 1 < parent.count) (here : Routes parent n pid pos)
    (there : Routes parent right rightPID (pos + 1)) : Neighbours n right (parent.fullKey pos) := by
  have upper := here.upper
  have lower := there.lower
  have some : parent.getLowerFence < parent.fullKey pos := by
    have := (formed.between _ (fullKey_mem (show pos < parent.count by omega))).1
    rw [inner] at this
    exact this.resolve_right fun h => Bool.false_ne_true h.1
  rw [if_neg (by omega)] at upper lower
  refine ⟨upper, lower, fun none => ?_, ?_, Or.inr ?_⟩
  · rw [none] at some
    exact absurd some (List.not_lt_nil _)
  · rw [here.lower]
    split
    · exact le_of_lt some
    · exact le_of_lt (formed.less (by omega) (by omega))
  · rw [there.upper, if_neg (by omega)]
    exact le_of_lt (formed.less (by omega) inside)

/-- The merged leaf while it is filled: nothing on the page overlaps at any turn. -/
structure Filled (n right : BTreeNode) : Prop where
  left : ∀ k ≤ n.count, (n.copyKeyValueRange ((new n.isLeaf).setFences n.getLowerFence
    right.getUpperFence) 0 0 k).Layout
  right : ∀ k ≤ right.count, (right.copyKeyValueRange (n.copyKeyValueRange
    ((new n.isLeaf).setFences n.getLowerFence right.getUpperFence) 0 0 n.count) n.count 0 k).Layout

structure Rejoins (n right parent l p : BTreeNode) (pid pos : ℕ) : Prop where
  filled : Filled n right
  leaf : Holds l n.isLeaf n.getLowerFence right.getUpperFence (n.entries ++ right.entries)
  link : l.link = right.link
  parent : Joined parent p pid pos

/-- The entries of neighbours are in order, and between their outer fences. -/
theorem Neighbours.holds {m : Key} {l : BTreeNode} (near : Neighbours n right m)
    (formed : Formed n) (formed' : Formed right) (leaf : n.isLeaf = true)
    (leaf' : right.isLeaf = true) (merged : Merged n right l) :
    Holds l n.isLeaf n.getLowerFence right.getUpperFence (n.entries ++ right.entries) := by
  have low : ∀ e ∈ n.entries, e.1 ≤ m := by
    intro e mem
    have := formed.within.below_of_mem mem
    rw [near.upper] at this
    exact this.resolve_left near.some
  have high : ∀ e ∈ right.entries, m < e.1 := by
    intro e mem
    have := (formed'.between e mem).1
    rw [near.lower] at this
    exact this.resolve_right fun h => near.some h.2
  exact {
    formed := {
      valid := merged.valid
      sorted := by
        rw [merged.packed.entries, List.pairwise_append]
        exact ⟨formed.sorted, formed'.sorted, fun a left b right =>
          lt_of_le_of_lt (low a left) (high b right)⟩
      between := by
        rw [merged.packed.entries, merged.packed.isLeaf, merged.packed.lower, merged.packed.upper]
        intro e mem
        rcases List.mem_append.mp mem with mem | mem
        · refine ⟨(formed.between e mem).1, near.below.imp id fun below => ?_⟩
          exact (lt_or_eq_of_le (le_trans (low e mem) below)).imp id fun same => ⟨leaf, same⟩
        · have between := formed'.between e mem
          rw [leaf', ← leaf] at between
          exact ⟨Or.inl (lt_of_le_of_lt near.above (high e mem)), between.2⟩
      wide := fun inner => absurd (leaf.symm.trans (merged.packed.isLeaf.symm.trans inner))
        (by decide) }
    isLeaf := merged.packed.isLeaf
    lower := merged.packed.lower
    upper := merged.packed.upper
    entries := merged.packed.entries }

theorem mergeNodes_refuses (leaf : n.isLeaf = true) (more : spaceUpperBound n right > pageSize) :
    n.mergeNodes pid pos parent right = (false, n, parent) := by
  rw [mergeNodes_leaf_eq leaf, if_pos more]

/-- Two neighbouring leaves of one parent that fit on one page. -/
theorem mergeNodes_joins (formed : Formed n) (formed' : Formed right) (leaf : n.isLeaf = true)
    (leaf' : right.isLeaf = true) (above : Formed parent) (inner : parent.isLeaf = false)
    (inside : pos + 1 < parent.count) (here : Routes parent n pid pos)
    (there : Routes parent right rightPID (pos + 1)) (old : pid < 2 ^ 64)
    (room : ¬ spaceUpperBound n right > pageSize) : ∃ l p,
      n.mergeNodes pid pos parent right = (true, l, p) ∧ Rejoins n right parent l p pid pos := by
  have near := Routes.neighbours above inner inside here there
  have room := not_lt.mp room
  obtain ⟨l, eq, merged⟩ := mergeNodes_leaf near leaf formed.valid formed'.valid formed.within
    formed'.within pid pos parent room
  obtain ⟨first, second⟩ := merge_copies near formed.valid formed'.valid formed.within
    formed'.within room
  exact ⟨l, _, eq, {
    filled := ⟨fun k le => (first k le).layout, fun k le => (second k le).layout⟩
    leaf := near.holds formed formed' leaf leaf' merged
    link := merged.link
    parent := join_joined above.valid (above.wide inner) inside old }⟩

/-- mergeNodes on two neighbouring leaves of one parent. -/
theorem mergeNodes_rejoins (formed : Formed n) (formed' : Formed right) (leaf : n.isLeaf = true)
    (leaf' : right.isLeaf = true) (above : Formed parent) (inner : parent.isLeaf = false)
    (inside : pos + 1 < parent.count) (here : Routes parent n pid pos)
    (there : Routes parent right rightPID (pos + 1)) (old : pid < 2 ^ 64)
    (short : n.getLowerFence.length ≤ maxKVSize ∧ right.getUpperFence.length ≤ maxKVSize) :
    ((new n.isLeaf).setFences n.getLowerFence right.getUpperFence).Layout ∧
    (spaceUpperBound n right > pageSize →
      n.mergeNodes pid pos parent right = (false, n, parent)) ∧
    (¬ spaceUpperBound n right > pageSize → ∃ l p,
      n.mergeNodes pid pos parent right = (true, l, p) ∧ Rejoins n right parent l p pid pos) := by
  refine ⟨?_, mergeNodes_refuses leaf,
    mergeNodes_joins formed formed' leaf leaf' above inner inside here there old⟩
  refine (fences_packed n.isLeaf n.getLowerFence right.getUpperFence ?_).layout
  simp only [maxKVSize, pageSize, headerSize, slotSize] at short ⊢
  omega

theorem mergeNodes_rejoins_two :
    let n := ((new true).setFences [] [5]).insertInPage [3] []
    let right := ((new true).setFences [5] [9]).insertInPage [6] [1]
    let parent := (((new false).setFences [] []).insertInPage [5] (pidBytes 7)).insertInPage [9]
      (pidBytes 8)
    ∃ l p, n.mergeNodes 7 0 parent right = (true, l, p) ∧ Rejoins n right parent l p 7 0 := by
  intro n right parent
  have low : Admits ((new true).setFences [] [5]) [3] [] := by decide +kernel
  have high : Admits ((new true).setFences [5] [9]) [6] [1] := by decide +kernel
  have first : Admits ((new false).setFences [] []) [5] (pidBytes 7) := by decide +kernel
  have second : Admits (((new false).setFences [] []).insertInPage [5] (pidBytes 7)) [9]
    (pidBytes 8) := by decide +kernel
  have formed : Formed n := {
    valid := (low.keeps ⟨setFences_valid true [] [5] (by decide), List.Pairwise.nil⟩).1
    sorted := by decide +kernel
    between := by decide +kernel
    wide := fun inner => absurd inner (by decide +kernel) }
  have formed' : Formed right := {
    valid := (high.keeps ⟨setFences_valid true [5] [9] (by decide), List.Pairwise.nil⟩).1
    sorted := by decide +kernel
    between := by decide +kernel
    wide := fun inner => absurd inner (by decide +kernel) }
  have above : Formed parent := {
    valid := (second.keeps
      (first.keeps ⟨setFences_valid false [] [] (by decide), List.Pairwise.nil⟩)).1
    sorted := by decide +kernel
    between := by decide +kernel
    wide := fun _ => by
      unfold Wide
      decide +kernel }
  have here : Routes parent n 7 0 :=
    ⟨by decide, by decide +kernel, by decide +kernel, by decide +kernel⟩
  have there : Routes parent right 8 1 :=
    ⟨by decide +kernel, by decide +kernel, by decide +kernel, by decide +kernel⟩
  exact (mergeNodes_rejoins formed formed' (by decide +kernel) (by decide +kernel) above
    (by decide +kernel) (by decide +kernel) here there (by decide) (by decide +kernel)).2.2
    (by decide +kernel)

end BTreeNode
end BTree
