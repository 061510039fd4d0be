import OsvBenchmarks.BTree.FullPage
import OsvBenchmarks.BTree.Rejoin

/-!
Pages that lose entries or payloads: a slot removed, a payload overwritten, the
parent of two leaves that are now one. What is left is as well-formed as it was.
-/
namespace BTree
namespace BTreeNode
variable {n r : BTreeNode} {w i : ℕ}

/-- A page whose keys are among those of the other, between the same fences. -/
structure Thins (n r : BTreeNode) : Prop where
  valid : r.Valid
  isLeaf : r.isLeaf = n.isLeaf
  lower : r.getLowerFence = n.getLowerFence
  upper : r.getUpperFence = n.getUpperFence
  keys : (r.entries.map Prod.fst).Sublist (n.entries.map Prod.fst)

theorem Thins.mem (thins : Thins n r) {e : Key × Payload} (mem : e ∈ r.entries) :
    ∃ e' ∈ n.entries, e'.1 = e.1 := List.mem_map.mp (thins.keys.subset (List.mem_map_of_mem mem))

theorem Thins.formed (thins : Thins n r) (formed : Formed n)
    (wide : r.isLeaf = false → r.Wide pidSize) : Formed r where
  valid := thins.valid
  sorted := by
    have old : (n.entries.map Prod.fst).Pairwise (· < ·) := List.pairwise_map.mpr formed.sorted
    exact List.pairwise_map.mp (old.sublist thins.keys)
  between e mem := by
    obtain ⟨e', old, same⟩ := thins.mem mem
    rw [thins.isLeaf, thins.lower, thins.upper, ← same]
    exact formed.between e' old
  wide := wide

theorem Thins.bounded (thins : Thins n r) (bounded : Bounded n w) (wide : r.Wide w) : Bounded r w where
  lower := thins.lower ▸ bounded.lower
  upper := thins.upper ▸ bounded.upper
  keys e mem := by
    obtain ⟨e', old, same⟩ := thins.mem mem
    rw [← same]
    exact bounded.keys e' old
  payloads := wide

theorem Removed.thins (step : Removed n r i) : Thins n r where
  valid := step.valid
  isLeaf := step.isLeaf
  lower := step.lower
  upper := step.upper
  keys := by
    rw [step.entries]
    exact (List.eraseIdx_sublist n.entries i).map Prod.fst

theorem Removed.wide (step : Removed n r i) (wide : n.Wide w) : r.Wide w := by
  intro e mem
  rw [step.entries] at mem
  exact wide e (List.mem_of_mem_eraseIdx mem)

theorem Formed.beside (formed : Formed n) (inside : i < n.count) {e : Key × Payload} :
    e ∈ n.entries.take i ∨ e ∈ n.entries.drop (i + 1) ↔ e ∈ n.entries ∧ e.1 ≠ n.fullKey i := by
  have here : i < n.entries.length := by rwa [entries_length]
  have same := fullKey_eq inside
  rw [List.getElem?_eq_getElem here] at same
  have split := List.drop_eq_getElem_cons here
  rw [Option.some.inj same] at split
  have before : e ∈ n.entries.take i → e.1 ≠ n.fullKey i := by
    intro mem
    obtain ⟨j, less, _, rfl⟩ := take_entries mem
    exact ne_of_lt (formed.less less inside)
  have behind : e ∈ n.entries.drop (i + 1) → e.1 ≠ n.fullKey i := by
    intro mem
    obtain ⟨j, more, there, rfl⟩ := drop_entries mem
    exact ne_of_gt (formed.less (by omega) there)
  conv_rhs => rw [← List.take_append_drop i n.entries, split, List.mem_append, List.mem_cons]
  constructor
  · rintro (mem | mem)
    · exact ⟨Or.inl mem, before mem⟩
    · exact ⟨Or.inr (Or.inr mem), behind mem⟩
  · rintro ⟨mem | rfl | mem, other⟩
    · exact Or.inl mem
    · exact absurd rfl other
    · exact Or.inr mem

theorem Removed.mem (step : Removed n r i) (formed : Formed n) (inside : i < n.count) {e : Key × Payload} :
    e ∈ r.entries ↔ e ∈ n.entries ∧ e.1 ≠ n.fullKey i := by
  rw [step.entries, List.eraseIdx_eq_take_drop_succ, List.mem_append, formed.beside inside]

theorem Overwritten.mem {data : Payload} (step : Overwritten n r i data) (formed : Formed n)
    (inside : i < n.count) {e : Key × Payload} :
    e ∈ r.entries ↔ e = (n.fullKey i, data) ∨ e ∈ n.entries ∧ e.1 ≠ n.fullKey i := by
  rw [step.entries, List.set_eq_take_append_cons_drop, if_pos (by rwa [entries_length]), List.mem_append,
    List.mem_cons, ← formed.beside inside]
  exact or_left_comm

theorem Overwritten.thins {data : Payload} (step : Overwritten n r i data) (inside : i < n.count) :
    Thins n r where
  valid := step.valid
  isLeaf := step.isLeaf
  lower := step.lower
  upper := step.upper
  keys := by
    rw [step.entries, List.map_set, keys_set inside]

theorem Joined.thins {pid : ℕ} (joined : Joined n r pid i) (inside : i + 1 < n.count) : Thins n r where
  valid := joined.valid
  isLeaf := joined.isLeaf
  lower := joined.lower
  upper := joined.upper
  keys := by
    rw [← children_keys r, joined.children, ← List.eraseIdx_map, List.map_set, children_keys,
      keys_set inside]
    exact List.eraseIdx_sublist _ i

theorem mergeNodes_stays {right parent l p : BTreeNode} {pid pos : ℕ} (leaf : n.isLeaf = true)
    (eq : n.mergeNodes pid pos parent right = (false, l, p)) : l = n ∧ p = parent := by
  rw [mergeNodes_leaf_eq leaf] at eq
  split at eq
  · cases eq
    exact ⟨rfl, rfl⟩
  · cases eq

theorem Rejoins.bounded {right parent l p : BTreeNode} {pid pos : ℕ}
    (rejoins : Rejoins n right parent l p pid pos) (bounded : Bounded n w) (bounded' : Bounded right w) :
    Bounded l w where
  lower := rejoins.leaf.lower ▸ bounded.lower
  upper := rejoins.leaf.upper ▸ bounded'.upper
  keys e mem := by
    rw [rejoins.leaf.entries, List.mem_append] at mem
    exact mem.elim (bounded.keys e) (bounded'.keys e)
  payloads e mem := by
    rw [rejoins.leaf.entries, List.mem_append] at mem
    exact mem.elim (bounded.payloads e) (bounded'.payloads e)

end BTreeNode
end BTree
