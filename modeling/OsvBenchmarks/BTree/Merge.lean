import OsvBenchmarks.BTree.Inner

/-!
Two neighbouring leaves merged into the left one. The bound that the source
computes covers the entries under the shorter prefix; the parent forgets the
separator between the leaves and points to the left one in the right one's place.
-/
namespace BTree

/-- A shorter prefix takes as much more room as the source allows for. -/
theorem need_grow {p q : ℕ} (le : p ≤ q) (es : List (Key × Payload)) :
    need p es ≤ need q es + (q - p) * es.length := by
  induction es with
  | nil => simp
  | cons e es ih =>
    rw [need_cons, need_cons, List.length_cons, Nat.mul_succ, List.length_drop, List.length_drop]
    omega

namespace BTreeNode
variable {n right : BTreeNode}

structure Merged (n right l : BTreeNode) : Prop where
  packed : Packed l n.isLeaf n.getLowerFence right.getUpperFence (n.entries ++ right.entries)
  valid : l.Valid
  link : l.link = right.link

/-- The parent without the separator at `i`; its right neighbour's child is now `pid`. -/
structure Joined (n r : BTreeNode) (pid i : ℕ) : Prop where
  valid : r.Valid
  wide : r.Wide pidSize
  isLeaf : r.isLeaf = n.isLeaf
  lower : r.getLowerFence = n.getLowerFence
  upper : r.getUpperFence = n.getUpperFence
  children : r.children = (n.children.set (i + 1) (n.fullKey (i + 1), pid)).eraseIdx i
  link : r.link = n.link

theorem join_joined {parent : BTreeNode} {pid i : ℕ} (valid : parent.Valid)
    (wide : parent.Wide pidSize) (inside : i + 1 < parent.count) (small : pid < 2 ^ 64) :
    Joined parent ((parent.setPayload (i + 1) (pidBytes pid)).removeSlot i) pid i := by
  have step : Repointed parent (parent.setPayload (i + 1) (pidBytes pid)) (i + 1) pid :=
    setPayload_repointed valid wide inside
  obtain ⟨entries, link⟩ := step.inside inside
  have removed := removeSlot_removed step.valid (i := i) (by rw [step.count]; omega)
  have fewer : ∀ e ∈ ((parent.setPayload (i + 1) (pidBytes pid)).removeSlot i).entries,
      e ∈ (parent.setPayload (i + 1) (pidBytes pid)).entries := by
    intro e mem
    rw [removed.entries] at mem
    exact List.mem_of_mem_eraseIdx mem
  exact {
    valid := removed.valid
    wide := fun e mem => step.wide e (fewer e mem)
    isLeaf := removed.isLeaf.trans step.isLeaf
    lower := removed.lower.trans step.lower
    upper := removed.upper.trans step.upper
    children := by
      rw [BTreeNode.children, removed.entries, entries, ← List.eraseIdx_map, List.map_set,
        loadPID_pidBytes small]
      rfl
    link := removed.link.trans link }

section Merge
variable {m : Key}

/-- Neighbours: what lies between their fences. -/
structure Neighbours (n right : BTreeNode) (m : Key) : Prop where
  upper : n.getUpperFence = m
  lower : right.getLowerFence = m
  some : m ≠ []
  above : n.getLowerFence ≤ m
  below : right.getUpperFence = [] ∨ m ≤ right.getUpperFence

theorem Neighbours.prefix_left (near : Neighbours n right m) (valid : n.Valid) :
    Prefix.common n.getLowerFence right.getUpperFence ≤ n.prefixLen := by
  rw [valid.toCoded.prefixLen, near.upper]
  exact common_grows_left near.above near.below

theorem Neighbours.prefix_right (near : Neighbours n right m) (valid : right.Valid) :
    Prefix.common n.getLowerFence right.getUpperFence ≤ right.prefixLen := by
  rw [valid.toCoded.prefixLen, near.lower]
  exact common_grows_right near.above near.below

theorem prefixLen_small (valid : n.Valid) : n.prefixLen ≤ 4096 := by
  have le := valid.toCoded.prefix_le
  have small := valid.toLayout.small
  unfold BTreeNode.used at small
  omega

/-- The sum that mergeNodes compares with the page does not wrap, and it is enough. -/
theorem merge_room (near : Neighbours n right m) (valid : n.Valid) (valid' : right.Valid)
    {p : ℕ} (same : p = Prefix.common n.getLowerFence right.getUpperFence)
    (room : (n.spaceUsed + right.spaceUsed + (headerSize + slotSize * (n.count + right.count)) +
      sub32 n.prefixLen p * n.count + sub32 right.prefixLen p * right.count) % 2 ^ 32 ≤ pageSize) :
    headerSize + (n.getLowerFence.length + right.getUpperFence.length) +
      need p (n.entries ++ right.entries) ≤ pageSize := by
  have left := near.prefix_left valid
  have right_ := near.prefix_right valid'
  rw [← same] at left right_
  have pn := prefixLen_small valid
  have pr := prefixLen_small valid'
  have small := valid.toLayout.small
  have small' := valid'.toLayout.small
  rw [sub32_eq left (by omega), sub32_eq right_ (by omega)] at room
  have counts : n.count ≤ 410 ∧ right.count ≤ 410 := by
    simp only [slotSize, headerSize] at small small'
    omega
  have grow : (n.prefixLen - p) * n.count ≤ 4096 * 410 := Nat.mul_le_mul (by omega) counts.1
  have grow' : (right.prefixLen - p) * right.count ≤ 4096 * 410 :=
    Nat.mul_le_mul (by omega) counts.2
  have whole : slotSize * (n.count + right.count) ≤ 10 * 820 :=
    Nat.mul_le_mul (Nat.le_refl _) (by omega)
  have head : headerSize = 104 := rfl
  rw [Nat.mod_eq_of_lt (by omega)] at room
  have entries := need_grow left n.entries
  have entries' := need_grow right_ right.entries
  have bytes := bytes_used n
  have bytes' := bytes_used right
  have used := valid.toLayout.used
  have used' := valid'.toLayout.used
  rw [entries_length] at entries entries'
  rw [need_append]
  unfold slotEnd at bytes bytes'
  rw [Nat.mul_add] at room
  omega

/-- The sum that mergeNodes compares with the page. -/
def spaceUpperBound (n right : BTreeNode) : ℕ :=
  let p := ((new n.isLeaf).setFences n.getLowerFence right.getUpperFence).prefixLen
  (n.spaceUsed + right.spaceUsed + (headerSize + slotSize * (n.count + right.count)) +
    sub32 n.prefixLen p * n.count + sub32 right.prefixLen p * right.count) % 2 ^ 32

theorem mergeNodes_leaf_eq (leaf : n.isLeaf = true) (pid i : ℕ) (parent : BTreeNode) :
    n.mergeNodes pid i parent right =
      if spaceUpperBound n right > pageSize then (false, n, parent)
      else (true, { (right.copyKeyValueRange (n.copyKeyValueRange ((new n.isLeaf).setFences
          n.getLowerFence right.getUpperFence) 0 0 n.count) n.count 0 right.count).makeHint with
          link := right.link }, (parent.setPayload (i + 1) (pidBytes pid)).removeSlot i) := by
  unfold mergeNodes
  rw [if_neg (by simp [leaf])]
  rfl

theorem need_sublist {p : ℕ} {es fs : List (Key × Payload)} (sub : es.Sublist fs) :
    need p es ≤ need p fs :=
  List.Sublist.sum_le_sum (sub.map _) fun _ _ => Nat.zero_le _

/-- Every turn of the first copy, and then every turn of the second. -/
theorem merge_copies (near : Neighbours n right m) (valid : n.Valid) (valid' : right.Valid)
    (within : Within n) (within' : Within right) (room : spaceUpperBound n right ≤ pageSize) :
    let blank := (new n.isLeaf).setFences n.getLowerFence right.getUpperFence
    (∀ k ≤ n.count, Packed (n.copyKeyValueRange blank 0 0 k) n.isLeaf n.getLowerFence
      right.getUpperFence (n.entries.take k)) ∧
    ∀ k ≤ right.count, Packed (right.copyKeyValueRange (n.copyKeyValueRange blank 0 0 n.count)
      n.count 0 k) n.isLeaf n.getLowerFence right.getUpperFence
      (n.entries ++ right.entries.take k) := by
  intro blank
  have room := merge_room near valid valid' rfl room
  have packed : Packed blank n.isLeaf n.getLowerFence right.getUpperFence [] :=
    fences_packed n.isLeaf n.getLowerFence right.getUpperFence (by omega)
  have left_fits : ∀ e ∈ n.entries, e.1.take (Prefix.common n.getLowerFence right.getUpperFence) =
      n.getLowerFence.take (Prefix.common n.getLowerFence right.getUpperFence) := by
    intro e mem
    refine within_fits (within.above e mem) (near.below.imp id fun below => ?_)
    rcases within.below_of_mem mem with none | low
    · exact absurd (near.upper.symm.trans none) near.some
    · rw [near.upper] at low
      exact le_trans low below
  have right_fits : ∀ e ∈ right.entries,
      e.1.take (Prefix.common n.getLowerFence right.getUpperFence) =
        n.getLowerFence.take (Prefix.common n.getLowerFence right.getUpperFence) := by
    intro e mem
    refine within_fits ?_ (within'.below_of_mem mem)
    have := within'.above e mem
    rw [near.lower] at this
    exact le_trans near.above this
  have first : ∀ k ≤ n.count, Packed (n.copyKeyValueRange blank 0 0 k) n.isLeaf n.getLowerFence
      right.getUpperFence (n.entries.take k) := by
    intro k le
    have less := @need_sublist (Prefix.common n.getLowerFence right.getUpperFence) _ _
      ((List.take_sublist k n.entries).trans (List.sublist_append_left _ right.entries))
    refine packed.copy valid.toLayout 0 k (by omega) (fun e mem => left_fits e ?_) ?_
    · exact List.mem_of_mem_take mem
    · rw [List.nil_append, List.drop_zero]
      omega
  have whole := first n.count (le_refl _)
  rw [List.take_of_length_le (by simp)] at whole
  refine ⟨first, fun k le => ?_⟩
  have less := @need_sublist (Prefix.common n.getLowerFence right.getUpperFence) _ _
    ((List.Sublist.refl n.entries).append (List.take_sublist k right.entries))
  have second := whole.copy valid'.toLayout 0 k (by omega)
    (fun e mem => right_fits e (List.mem_of_mem_take mem)) (by
      rw [List.drop_zero]
      omega)
  rwa [entries_length] at second

/-- mergeNodes on leaves: they stay as they are, or the left one holds all. -/
theorem mergeNodes_leaf (near : Neighbours n right m) (leaf : n.isLeaf = true) (valid : n.Valid)
    (valid' : right.Valid) (within : Within n) (within' : Within right) (pid i : ℕ)
    (parent : BTreeNode) (room : spaceUpperBound n right ≤ pageSize) :
    ∃ l, n.mergeNodes pid i parent right =
      (true, l, (parent.setPayload (i + 1) (pidBytes pid)).removeSlot i) ∧ Merged n right l := by
  have all := (merge_copies near valid valid' within within' room).2 right.count (le_refl _)
  rw [List.take_of_length_le (by simp)] at all
  rw [mergeNodes_leaf_eq leaf, if_neg (not_lt.mpr room)]
  exact ⟨_, rfl, (all.withLink right.link).hinted, (all.withLink right.link).valid, rfl⟩

end Merge
end BTreeNode
end BTree
