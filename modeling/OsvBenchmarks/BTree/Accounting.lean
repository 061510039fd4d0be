import OsvBenchmarks.BTree.Page
import OsvBenchmarks.Library.Runs

/-!
The space of a page under any sequence of insertions and removals: spaceUsed is
what the fences and entries take, their ranges lie apart above the slot array,
and compaction gives back all that removals have left unused.
-/
namespace BTree
open Runs

inductive PageOp where
  | insertInPage (key : Key) (payload : Payload)
  | removeSlot (slotId : ℕ)

namespace BTreeNode

def Covers (n : BTreeNode) (key : Key) : Prop :=
  n.getLowerFence ≤ key ∧ (n.getUpperFence = [] ∨ key ≤ n.getUpperFence)

instance (n : BTreeNode) (key : Key) : Decidable (n.Covers key) :=
  inferInstanceAs (Decidable (_ ∧ _))

/-- An insertion that the callers of insertInPage make; spaceNeeded is unsigned. -/
def Admits (n : BTreeNode) (key : Key) (payload : Payload) : Prop :=
  n.Covers key ∧ slotSize + key.length + payload.length < 2 ^ 32 ∧
    n.hasSpaceFor key.length payload.length = true

instance (n : BTreeNode) (key : Key) (payload : Payload) : Decidable (n.Admits key payload) :=
  inferInstanceAs (Decidable (_ ∧ _))

def perform (n : BTreeNode) : PageOp → Option BTreeNode
  | .insertInPage key payload =>
    if n.Admits key payload then some (n.insertInPage key payload) else none
  | .removeSlot slotId => if slotId < n.count then some (n.removeSlot slotId) else none

/-- What the byte counts of a page say, and that no subtraction in them wraps. -/
structure Exact (n : BTreeNode) : Prop where
  spaceUsed : n.spaceUsed = n.lowerFence.len + n.upperFence.len +
    (n.slot.map fun s => s.keyLen + s.payloadLen).sum
  inside : ∀ r ∈ n.ranges, r.2 = 0 ∨ n.dataOffset ≤ r.1 ∧ r.1 + r.2 ≤ pageSize
  apart : n.ranges.Pairwise Apart
  slots : n.slotEnd ≤ n.dataOffset
  free : n.freeSpace + n.slotEnd = n.dataOffset
  compacted : n.freeSpaceAfterCompaction + n.slotEnd + n.spaceUsed = pageSize

/-- compactify leaves everything readable as it was and frees what was unused. -/
structure Compacts (n : BTreeNode) : Prop where
  exact : n.compactify.Exact
  lower : n.compactify.getLowerFence = n.getLowerFence
  upper : n.compactify.getUpperFence = n.getUpperFence
  link : n.compactify.link = n.link
  entries : n.compactify.entries = n.entries
  free : n.compactify.freeSpace = n.freeSpaceAfterCompaction

/-- An insertion that leaves every other entry, the slots and the header alone. -/
structure Inserts (n r : BTreeNode) (key : Key) (payload : Payload) : Prop where
  exact : r.Exact
  lower : r.getLowerFence = n.getLowerFence
  upper : r.getUpperFence = n.getUpperFence
  link : r.link = n.link
  entries : ∃ i ≤ n.count, r.entries = n.entries.take i ++ (key, payload) :: n.entries.drop i

variable {n : BTreeNode}

theorem Valid.exact (valid : n.Valid) : n.Exact := by
  have small := valid.toLayout.small
  have used := valid.toLayout.used
  have room := valid.toLayout.room
  have free := freeSpace_eq valid.toLayout
  have compacted := freeSpaceAfterCompaction_eq valid.toLayout
  have page : pageSize = 4096 := rfl
  have slots : n.slotEnd = headerSize + slotSize * n.count := rfl
  exact {
    spaceUsed := used
    inside := valid.toLayout.inside
    apart := valid.toLayout.apart
    slots := room
    free := by omega
    compacted := by omega }

theorem Covers.fits (valid : n.Valid) {key : Key} (covers : n.Covers key) :
    key.take n.prefixLen = n.getPrefix := by
  rw [getPrefix_eq valid.toCoded, valid.toCoded.prefixLen]
  obtain ⟨above, below⟩ := covers
  rcases below with none | below
  · rw [none, Prefix.common_nil_right]
    rfl
  · exact (Prefix.take_between above below).1

theorem Valid.compacts (valid : n.Valid) : n.Compacts := by
  obtain ⟨ok, packed, link, used⟩ := compactify_compacted valid
  have free := freeSpace_eq ok.toLayout
  have before := freeSpaceAfterCompaction_eq valid.toLayout
  have tight := packed.tight
  have count : n.compactify.slotEnd = n.slotEnd := by
    rw [slotEnd, packed.count, entries_length]
    rfl
  exact {
    exact := ok.exact
    lower := packed.lower
    upper := packed.upper
    link := link
    entries := packed.entries
    free := by omega }

theorem place_sorted {es : List (Key × Payload)} {k : Key} {v : Payload} {i : ℕ}
    (sorted : es.Pairwise fun a b => a.1 ≤ b.1) (place : Place es k i) :
    (es.take i ++ (k, v) :: es.drop i).Pairwise fun a b => a.1 ≤ b.1 := by
  have whole := sorted
  rw [← List.take_append_drop i es, List.pairwise_append] at whole
  obtain ⟨left, right, across⟩ := whole
  rw [List.pairwise_append]
  refine ⟨left, List.pairwise_cons.mpr ⟨place.high, right⟩, ?_⟩
  intro a low b high
  rcases List.mem_cons.mp high with rfl | high
  · exact place.low a low
  · exact across a low b high

theorem Admits.inserted (valid : n.Valid) (sorted : n.entries.Pairwise fun a b => a.1 ≤ b.1)
    {key : Key} {payload : Payload} (admits : n.Admits key payload) :
    ∃ i, Inserted n (n.insertInPage key payload) key payload i := by
  obtain ⟨covers, small, space⟩ := admits
  exact insertInPage_inserted valid sorted (covers.fits valid) (by omega) space

theorem Admits.inserts (valid : n.Valid) (sorted : n.entries.Pairwise fun a b => a.1 ≤ b.1)
    {key : Key} {payload : Payload} (admits : n.Admits key payload) :
    Inserts n (n.insertInPage key payload) key payload := by
  obtain ⟨i, step⟩ := admits.inserted valid sorted
  have le := step.place.le
  rw [entries_length] at le
  exact ⟨step.valid.exact, step.lower, step.upper, step.link, i, le, step.entries⟩

theorem Admits.keeps (before : n.Valid ∧ n.entries.Pairwise fun a b => a.1 ≤ b.1)
    {key : Key} {payload : Payload} (admits : n.Admits key payload) :
    (n.insertInPage key payload).Valid ∧
      (n.insertInPage key payload).entries.Pairwise fun a b => a.1 ≤ b.1 := by
  obtain ⟨i, inserted⟩ := admits.inserted before.1 before.2
  refine ⟨inserted.valid, ?_⟩
  rw [inserted.entries]
  exact place_sorted before.2 inserted.place

theorem perform_keeps {op : PageOp} {r : BTreeNode}
    (before : n.Valid ∧ n.entries.Pairwise fun a b => a.1 ≤ b.1) (step : n.perform op = some r) :
    r.Valid ∧ r.entries.Pairwise fun a b => a.1 ≤ b.1 := by
  cases op with
  | insertInPage key payload =>
    simp only [perform, Option.ite_none_right_eq_some, Option.some.injEq] at step
    obtain ⟨admits, rfl⟩ := step
    exact admits.keeps before
  | removeSlot slotId =>
    obtain ⟨valid, sorted⟩ := before
    simp only [perform, Option.ite_none_right_eq_some, Option.some.injEq] at step
    obtain ⟨inside, rfl⟩ := step
    have removed := removeSlot_removed valid inside
    refine ⟨removed.valid, ?_⟩
    rw [removed.entries]
    exact sorted.sublist (List.eraseIdx_sublist _ _)

theorem setFences_valid (isLeaf : Bool) (lower upper : Key)
    (room : headerSize + lower.length + upper.length ≤ pageSize) :
    ((new isLeaf).setFences lower upper).Valid where
  toLayout := (fences_packed isLeaf lower upper room).layout
  toCoded := (fences_packed isLeaf lower upper room).coded
  hint := fun many => by simp [count, setFences, new] at many

theorem new_valid (isLeaf : Bool) : (new isLeaf).Valid where
  used := rfl
  fits := Nat.le_refl pageSize
  room := by
    change 104 ≤ 4096
    decide
  inside := by
    change ∀ r ∈ [((0 : ℕ), (0 : ℕ)), (0, 0)], r.2 = 0 ∨ 4096 ≤ r.1 ∧ r.1 + r.2 ≤ 4096
    decide
  apart := List.pairwise_pair.mpr (Or.inl rfl)
  prefixLen := rfl
  heads := fun _ none => absurd none List.not_mem_nil
  hint := fun many => absurd many (Nat.not_lt_zero _)

/-- Along every sequence of changes the space accounting of a page stays exact, compaction
loses nothing, and an insertion for which there is space meets nothing else on the page. -/
theorem page_space_exact {n r : BTreeNode} {ops : List PageOp} (valid : n.Valid)
    (sorted : n.entries.Pairwise fun a b => a.1 ≤ b.1) (run : exec perform n ops = some r) :
    r.Exact ∧ r.Compacts ∧
      ∀ key payload, r.Admits key payload → Inserts r (r.insertInPage key payload) key payload := by
  obtain ⟨valid', sorted'⟩ := exec_preserves
    (fun n : BTreeNode => n.Valid ∧ n.entries.Pairwise fun a b => a.1 ≤ b.1)
    (fun _ _ _ => perform_keeps) ⟨valid, sorted⟩ run
  exact ⟨valid'.exact, valid'.compacts, fun _ _ admits => admits.inserts valid' sorted'⟩

theorem page_space_exact_three : ∃ r, exec perform ((new true).setFences [1] [5])
    [.insertInPage [2] [7], .insertInPage [3, 0] [], .removeSlot 0] = some r ∧ r.Exact := by
  obtain ⟨r, run, _⟩ := exec_observe perform ((new true).setFences [1] [5])
    [.insertInPage [2] [7], .insertInPage [3, 0] [], .removeSlot 0] count 1 (by decide +kernel)
  have start := setFences_valid true [1] [5] (by decide)
  exact ⟨r, run, (page_space_exact start List.Pairwise.nil run).1⟩

end BTreeNode
end BTree
