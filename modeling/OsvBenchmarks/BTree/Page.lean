import OsvBenchmarks.BTree.Build
import Mathlib.Data.List.InsertIdx

/-!
The functions that change a page in place, each with what it leaves: hints that
stay those of makeHint, an entry inserted where the search puts its key, an
entry removed, a payload overwritten.
-/
namespace BTree

theorem fullKey_eq {n : BTreeNode} {i : ℕ} (h : i < n.count) :
    n.entries[i]? = some (n.fullKey i, n.getPayload i) := BTreeNode.entries_getElem? i h

theorem keys_set {n : BTreeNode} {i : ℕ} (h : i < n.count) :
    (n.entries.map Prod.fst).set i (n.fullKey i) = n.entries.map Prod.fst := by
  have here := congrArg (Option.map Prod.fst) (fullKey_eq h)
  rw [← List.getElem?_map, Option.map_some, List.getElem?_eq_some_iff] at here
  obtain ⟨inside, same⟩ := here
  have self := List.set_getElem_self inside
  rwa [same] at self

/-- `es` has `k` at, or would have it at, place `i`. -/
structure Place (es : List (Key × Payload)) (k : Key) (i : ℕ) : Prop where
  le : i ≤ es.length
  low : ∀ e ∈ es.take i, e.1 ≤ k
  high : ∀ e ∈ es.drop i, k ≤ e.1

namespace BTreeNode
variable {n : BTreeNode}

theorem take_entries {i : ℕ} {e : Key × Payload} (mem : e ∈ n.entries.take i) :
    ∃ j < i, j < n.count ∧ e = (n.fullKey j, n.getPayload j) := by
  obtain ⟨j, hj, rfl⟩ := List.mem_take_iff_getElem.mp mem
  rw [entries_length] at hj
  refine ⟨j, by omega, by omega, ?_⟩
  have := fullKey_eq (n := n) (i := j) (by omega)
  rw [List.getElem?_eq_getElem (by rw [entries_length]; omega)] at this
  exact Option.some.inj this

theorem drop_entries {i : ℕ} {e : Key × Payload} (mem : e ∈ n.entries.drop i) :
    ∃ j, i ≤ j ∧ j < n.count ∧ e = (n.fullKey j, n.getPayload j) := by
  obtain ⟨j, hj, rfl⟩ := List.mem_drop_iff_getElem.mp mem
  rw [entries_length] at hj
  refine ⟨i + j, by omega, by omega, ?_⟩
  have := fullKey_eq (n := n) (i := i + j) (by omega)
  rw [List.getElem?_eq_getElem (by rw [entries_length]; omega)] at this
  exact Option.some.inj this

theorem ascending_iff : n.Ascending ↔ n.entries.Pairwise fun a b => a.1 ≤ b.1 := by
  constructor
  · intro sorted
    rw [List.pairwise_iff_getElem]
    intro i j hi hj less
    rw [entries_length] at hi hj
    have first := fullKey_eq (n := n) hi
    have second := fullKey_eq (n := n) hj
    rw [List.getElem?_eq_getElem (by rwa [entries_length])] at first second
    rw [Option.some.inj first, Option.some.inj second]
    exact sorted i j (le_of_lt less) hj
  · intro sorted i j le hj
    rcases Nat.eq_or_lt_of_le le with rfl | less
    · exact le_refl _
    · rw [List.pairwise_iff_getElem] at sorted
      have step := sorted i j (by rw [entries_length]; omega) (by rwa [entries_length]) less
      have first := fullKey_eq (n := n) (i := i) (by omega)
      have second := fullKey_eq (n := n) hj
      rw [List.getElem?_eq_getElem (by rw [entries_length]; omega)] at first second
      rwa [Option.some.inj first, Option.some.inj second] at step

theorem Valid.searchable (valid : n.Valid) : n.Searchable where
  heads _ h := valid.toCoded.heads _ (slotAt_mem h)
  hint := valid.hint

theorem lowerBound_place (valid : n.Valid) (sorted : n.entries.Pairwise fun a b => a.1 ≤ b.1)
    (key : Key) : Place n.entries key (n.lowerBound key).1 := by
  have ascend := ascending_iff.mpr sorted
  have found := lowerBound_located valid.searchable ascend key
  refine ⟨by rw [entries_length]; exact found.le, fun e mem => ?_, fun e mem => ?_⟩
  · obtain ⟨j, less, hj, rfl⟩ := take_entries mem
    cases exact_ : (n.lowerBound key).2 with
    | true =>
      obtain ⟨inside, same⟩ := found.here exact_
      rw [← same]
      exact ascend j _ (le_of_lt less) inside
    | false => exact le_of_lt ((found.absent exact_).1 j less)
  · obtain ⟨j, more, hj, rfl⟩ := drop_entries mem
    cases exact_ : (n.lowerBound key).2 with
    | true =>
      obtain ⟨inside, same⟩ := found.here exact_
      rw [← same]
      exact ascend _ j more hj
    | false => exact le_of_lt ((found.absent exact_).2 j more hj)

/-- The search reports a key as found exactly when the page has it. -/
theorem lowerBound_found (valid : n.Valid) (sorted : n.entries.Pairwise fun a b => a.1 ≤ b.1)
    (key : Key) : (n.lowerBound key).2 = true ↔ ∃ v, (key, v) ∈ n.entries := by
  have found := lowerBound_located valid.searchable (ascending_iff.mpr sorted) key
  constructor
  · intro exact_
    obtain ⟨inside, same⟩ := found.here exact_
    refine ⟨n.getPayload (n.lowerBound key).1, ?_⟩
    have := List.mem_of_getElem? (fullKey_eq inside)
    rwa [same] at this
  · rintro ⟨v, mem⟩
    by_contra missing
    obtain ⟨low, high⟩ := found.absent (by simpa using missing)
    obtain ⟨j, _, hj, same⟩ := drop_entries (i := 0) (by simpa using mem)
    have same : key = n.fullKey j := congrArg Prod.fst same
    rcases Nat.lt_or_ge j (n.lowerBound key).1 with less | more
    · exact lt_irrefl key (same ▸ low j less)
    · exact lt_irrefl key (same ▸ high j more hj)

theorem lowerBound_slot (valid : n.Valid) (sorted : n.entries.Pairwise fun a b => a.1 ≤ b.1)
    {key : Key} (exact_ : (n.lowerBound key).2 = true) :
    (n.lowerBound key).1 < n.count ∧
      n.entries[(n.lowerBound key).1]? = some (key, n.getPayload (n.lowerBound key).1) := by
  have found := lowerBound_located valid.searchable (ascending_iff.mpr sorted) key
  obtain ⟨inside, same⟩ := found.here exact_
  refine ⟨inside, ?_⟩
  have := fullKey_eq (n := n) inside
  rwa [same] at this

/-- Hints kept up by updateHint are those that makeHint would write. -/
theorem updateHint_eq {slotId : ℕ} {old : List Slot} {s : Slot}
    (slots : n.slot = old.take slotId ++ s :: old.drop slotId) (inside : slotId ≤ old.length)
    (hint : hintCount * 2 < old.length →
      n.hint = ({ n with slot := old } : BTreeNode).makeHint.hint) :
    (n.updateHint slotId).hint = n.makeHint.hint := by
  have count : n.count = old.length + 1 := by
    have := congrArg List.length (List.take_append_drop slotId old)
    simp only [List.length_append] at this
    simp only [BTreeNode.count, slots, List.length_append, List.length_cons]
    omega
  simp only [updateHint, makeHint]
  refine List.map_congr_left fun i mem => ?_
  have small := List.mem_range.mp mem
  split
  · rename_i keep
    obtain ⟨many, level, away⟩ := keep
    split
    · rfl
    · rename_i before
      -- the hint lies in front of the insertion, where no slot has moved
      have dist : old.length / (hintCount + 1) = n.count / (hintCount + 1) := by
        rw [count] at level ⊢
        simpa using level
      have kept := hint (by simp only [hintCount] at many ⊢; omega)
      rw [kept]
      generalize n.count / (hintCount + 1) = d at *
      have here : d * (i + 1) < slotId := by
        have bound : d * (slotId / d) ≤ slotId := Nat.mul_div_le _ _
        have less : i + 1 < slotId / d := by omega
        have pos : 0 < d := by
          rcases Nat.eq_zero_or_pos d with rfl | pos
          · simp at away
          · exact pos
        calc d * (i + 1) < d * (slotId / d) := Nat.mul_lt_mul_of_pos_left less pos
          _ ≤ slotId := bound
      have same : n.slotAt (d * (i + 1)) = old.getD (d * (i + 1)) default := by
        rw [slotAt, slots, List.getD_append _ _ _ _ (by rw [List.length_take]; omega),
          List.getD_eq_getElem?_getD, List.getElem?_take_of_lt here, List.getD_eq_getElem?_getD]
      rw [same, List.getD_eq_getElem?_getD, makeHint]
      simp only [List.getElem?_map, List.getElem?_range small, Option.map_some, Option.getD_some,
        BTreeNode.count, dist, slotAt]
  · rfl

theorem Layout.withHint (layout : n.Layout) (hint : List ℕ) : ({ n with hint := hint }).Layout :=
  ⟨layout.used, layout.fits, layout.room, layout.inside, layout.apart⟩

theorem Coded.withHint (coded : n.Coded) (hint : List ℕ) : ({ n with hint := hint }).Coded :=
  ⟨coded.prefixLen, coded.heads⟩

structure Kept (n r : BTreeNode) : Prop where
  valid : r.Valid
  isLeaf : r.isLeaf = n.isLeaf
  link : r.link = n.link
  lower : r.getLowerFence = n.getLowerFence
  upper : r.getUpperFence = n.getUpperFence
  prefixLen : r.prefixLen = n.prefixLen

/-- insertInPage where hasSpaceFor held: the entry is at its place, and spaceUsed
    has grown by exactly its bytes. -/
structure Inserted (n r : BTreeNode) (key : Key) (payload : Payload) (i : ℕ) : Prop
    extends Kept n r where
  place : Place n.entries key i
  entries : r.entries = n.entries.take i ++ (key, payload) :: n.entries.drop i
  used : r.used = n.used + ((key.drop n.prefixLen).length + payload.length)

theorem Inserted.mem {r : BTreeNode} {key : Key} {payload : Payload} {i : ℕ}
    (step : Inserted n r key payload i) {e : Key × Payload} (mem : e ∈ r.entries) :
    e ∈ n.entries ∨ e = (key, payload) := by
  rw [step.entries, List.mem_append, List.mem_cons] at mem
  rcases mem with mem | same | mem
  · exact Or.inl (List.mem_of_mem_take mem)
  · exact Or.inr same
  · exact Or.inl (List.mem_of_mem_drop mem)

theorem spaceNeeded_eq {key : Key} (payloadLen : ℕ) (long : n.prefixLen ≤ key.length)
    (small : key.length < 2 ^ 32) :
    n.spaceNeeded key.length payloadLen =
      slotSize + (key.drop n.prefixLen).length + payloadLen := by
  rw [spaceNeeded, sub32_eq long small, List.length_drop]

theorem freeSpace_eq (layout : n.Layout) : n.freeSpace = n.dataOffset - n.slotEnd := by
  have small := layout.small
  unfold freeSpace
  rw [sub32_eq layout.room (by omega)]

theorem freeSpaceAfterCompaction_eq (layout : n.Layout) :
    n.freeSpaceAfterCompaction = pageSize - (n.slotEnd + n.used) := by
  have fits := layout.fits
  have room := layout.room
  have page : pageSize = 4096 := rfl
  unfold freeSpaceAfterCompaction
  rw [layout.used, sub32_eq (by omega) (by omega)]

theorem hasSpaceFor_iff (layout : n.Layout) {key : Key} (payloadLen : ℕ)
    (long : n.prefixLen ≤ key.length) (small : key.length < 2 ^ 32) :
    n.hasSpaceFor key.length payloadLen = true ↔
      n.slotEnd + n.used + (slotSize + (key.drop n.prefixLen).length + payloadLen) ≤ pageSize := by
  have fits := layout.fits
  have room := layout.room
  rw [hasSpaceFor, spaceNeeded_eq payloadLen long small, freeSpaceAfterCompaction_eq layout,
    decide_eq_true_iff]
  simp only [slotSize]
  omega

/-- The node that insertInPage stores into: this one, or its compaction. -/
theorem insertInPage_room (valid : n.Valid) {key : Key} {payload : Payload}
    (long : n.prefixLen ≤ key.length) (small : key.length < 2 ^ 32)
    (space : n.hasSpaceFor key.length payload.length = true) :
    ∃ m : BTreeNode, Kept n m ∧ m.entries = n.entries ∧ m.used = n.used ∧ m.RoomFor key payload ∧
      n.insertInPage key payload =
        (({ m with slot := shiftUp m.slot (m.lowerBound key).1 } : BTreeNode).storeKeyValue
          (m.lowerBound key).1 key payload).updateHint (m.lowerBound key).1 := by
  have space := (hasSpaceFor_iff valid.toLayout payload.length long small).mp space
  have need := spaceNeeded_eq payload.length long small
  have free := freeSpace_eq valid.toLayout
  by_cases tight : n.spaceNeeded key.length payload.length > n.freeSpace
  · obtain ⟨ok, packed, link, used⟩ := compactify_compacted valid
    have pre : n.compactify.prefixLen = n.prefixLen := by
      rw [packed.prefixLen, valid.toCoded.prefixLen]
    have count : n.compactify.count = n.count := by rw [packed.count, entries_length]
    have offset := packed.tight
    refine ⟨n.compactify, ⟨ok, packed.isLeaf, link, packed.lower, packed.upper, pre⟩,
      packed.entries, used, ?_, ?_⟩
    · unfold RoomFor
      rw [slotEnd, count, pre]
      rw [slotEnd] at space
      omega
    · unfold insertInPage
      rw [if_pos tight]
  · have room := valid.toLayout.room
    refine ⟨n, ⟨valid, rfl, rfl, rfl, rfl, rfl⟩, rfl, rfl, ?_, ?_⟩
    · unfold RoomFor
      omega
    · unfold insertInPage
      rw [if_neg tight]

theorem put_hint {i : ℕ} {key : Key} {payload : Payload} (le : i ≤ n.count)
    (hint : hintCount * 2 < n.count → n.hint = n.makeHint.hint) :
    ((n.put i key payload).updateHint i).hint = (n.put i key payload).makeHint.hint := by
  have slots : (n.put i key payload).slot = n.slot.take i ++
      ⟨n.dataOffset - ((key.drop n.prefixLen).length + payload.length),
        (key.drop n.prefixLen).length, payload.length, head (key.drop n.prefixLen)⟩ ::
      n.slot.drop i := rfl
  exact updateHint_eq slots le hint

theorem insertInPage_inserted (valid : n.Valid)
    (sorted : n.entries.Pairwise fun a b => a.1 ≤ b.1) {key : Key} {payload : Payload}
    (fits : key.take n.prefixLen = n.getPrefix) (small : key.length < 2 ^ 32)
    (space : n.hasSpaceFor key.length payload.length = true) :
    ∃ i, Inserted n (n.insertInPage key payload) key payload i := by
  have long : n.prefixLen ≤ key.length := by
    have := congrArg List.length fits
    rw [List.length_take, getPrefix_length] at this
    omega
  obtain ⟨m, kept, entries, used, room, eq⟩ := insertInPage_room valid long small space
  have place := lowerBound_place kept.valid (entries ▸ sorted) key
  have le : (m.lowerBound key).1 ≤ m.count := by
    have := place.le
    rwa [entries_length] at this
  have prefix_ : m.getPrefix = n.getPrefix := by
    rw [getPrefix_eq kept.valid.toCoded, getPrefix_eq valid.toCoded, kept.lower, kept.prefixLen]
  have fits : key.take m.prefixLen = m.getPrefix := by rw [kept.prefixLen, prefix_, fits]
  have layout := kept.valid.toLayout
  have coded := kept.valid.toCoded
  generalize (m.lowerBound key).1 = i at *
  have same := put_sameRead layout room coded (i := i)
  refine ⟨i, ?_⟩
  rw [eq, store_shifted layout le room]
  have hint : ((m.put i key payload).updateHint i).hint = (m.put i key payload).makeHint.hint :=
    put_hint le kept.valid.hint
  have more : (m.put i key payload).used = _ := put_used
  have whole := put_entries layout coded room fits (i := i)
  rw [used, kept.prefixLen] at more
  rw [entries] at place whole
  exact {
    valid := {
      toLayout := (put_layout layout room).withHint _
      toCoded := (put_coded layout coded room).withHint _
      hint := fun _ => hint }
    isLeaf := kept.isLeaf
    link := kept.link
    lower := same.lower.trans kept.lower
    upper := same.upper.trans kept.upper
    prefixLen := kept.prefixLen
    place := place
    entries := whole
    used := more }

section Remove

theorem slot_split {i : ℕ} (h : i < n.count) :
    n.slot = n.slot.take i ++ n.slotAt i :: n.slot.drop (i + 1) := by
  have h : i < n.slot.length := h
  unfold slotAt
  rw [List.getD_eq_getElem _ _ h, List.getElem_cons_drop, List.take_append_drop]

theorem space_split {i : ℕ} (h : i < n.count) : (n.slot.map Slot.space).sum =
    (n.slotAt i).space + ((n.slot.eraseIdx i).map Slot.space).sum := by
  rw [List.eraseIdx_eq_take_drop_succ]
  conv_lhs => rw [slot_split h]
  simp only [List.map_append, List.map_cons, List.sum_append, List.sum_cons]
  omega

/-- removeSlot: the entry is gone, and so are its bytes from spaceUsed. -/
structure Removed (n r : BTreeNode) (i : ℕ) : Prop extends Kept n r where
  entries : r.entries = n.entries.eraseIdx i
  used : r.used + (n.slotAt i).space = n.used

theorem removeSlot_removed (valid : n.Valid) {i : ℕ} (h : i < n.count) :
    Removed n (n.removeSlot i) i := by
  have small := valid.toLayout.small
  have split := space_split h
  have spaceUsed := valid.toLayout.used
  have lies : n.used = n.lowerFence.len + n.upperFence.len + (n.slot.map Slot.space).sum := rfl
  have count : (n.removeSlot i).count + 1 = n.count := by
    simp only [BTreeNode.count, removeSlot, makeHint, List.length_eraseIdx] at h ⊢
    rw [if_pos h]
    omega
  have used : (n.removeSlot i).used + (n.slotAt i).space = n.used := by
    change n.lowerFence.len + n.upperFence.len + ((n.slot.eraseIdx i).map Slot.space).sum + _ = _
    omega
  have left : sub16 (sub16 n.spaceUsed (n.slotAt i).keyLen) (n.slotAt i).payloadLen =
      n.spaceUsed - (n.slotAt i).space := by
    have bytes : (n.slotAt i).keyLen + (n.slotAt i).payloadLen ≤ n.spaceUsed := by
      change (n.slotAt i).space ≤ _
      omega
    have key : sub16 n.spaceUsed (n.slotAt i).keyLen = n.spaceUsed - (n.slotAt i).keyLen :=
      sub16_eq (by omega) (by omega)
    unfold Slot.space
    rw [key, sub16_eq (by omega) (by omega), Nat.sub_sub]
  have fewer : (n.removeSlot i).ranges.Sublist n.ranges :=
    (((List.eraseIdx_sublist n.slot i).map _).cons_cons _).cons_cons _
  refine { valid := ?_, isLeaf := rfl, link := rfl, lower := rfl, upper := rfl, prefixLen := rfl,
           entries := (List.eraseIdx_map _ _ _).symm, used := used }
  refine { used := ?_, fits := ?_, room := ?_, inside := ?_, apart := ?_, prefixLen := ?_,
           heads := ?_, hint := fun _ => rfl }
  · change sub16 (sub16 n.spaceUsed (n.slotAt i).keyLen) (n.slotAt i).payloadLen = _
    omega
  · have := valid.toLayout.fits
    change n.dataOffset + _ ≤ _
    omega
  · have := valid.toLayout.room
    change headerSize + slotSize * _ ≤ n.dataOffset
    unfold slotEnd at this
    have : slotSize * (n.removeSlot i).count ≤ slotSize * n.count := Nat.mul_le_mul_left _ (by omega)
    omega
  · exact fun r mem => valid.toLayout.inside r (fewer.subset mem)
  · exact valid.toLayout.apart.sublist fewer
  · exact valid.toCoded.prefixLen
  · exact fun s mem => valid.toCoded.heads s (List.mem_of_mem_eraseIdx mem)

end Remove

section Overwrite

theorem Apart.symm {a b : ℕ × ℕ} (h : Apart a b) : Apart b a := by
  unfold Apart at h ⊢
  omega

theorem Layout.slots_apart (layout : n.Layout) {i j : ℕ} (hi : i < n.count) (hj : j < n.count)
    (ne : i ≠ j) : Apart ((n.slotAt i).offset, (n.slotAt i).space)
      ((n.slotAt j).offset, (n.slotAt j).space) := by
  have slots := (List.pairwise_cons.mp (List.pairwise_cons.mp layout.apart).2).2
  rw [List.pairwise_map, List.pairwise_iff_getElem] at slots
  unfold slotAt
  rw [List.getD_eq_getElem _ _ hi, List.getD_eq_getElem _ _ hj]
  rcases Nat.lt_or_gt_of_ne ne with less | more
  · exact slots i j hi hj less
  · exact Apart.symm (slots j i hj hi more)

theorem Layout.fences_apart (layout : n.Layout) {s : Slot} (mem : s ∈ n.slot) :
    Apart (s.offset, s.space) (n.lowerFence.offset, n.lowerFence.len) ∧
      Apart (s.offset, s.space) (n.upperFence.offset, n.upperFence.len) := by
  have lower := (List.pairwise_cons.mp layout.apart).1 (s.offset, s.space)
    (List.mem_cons_of_mem _ (List.mem_map.mpr ⟨s, mem, rfl⟩))
  have upper := (List.pairwise_cons.mp (List.pairwise_cons.mp layout.apart).2).1 (s.offset, s.space)
    (List.mem_map.mpr ⟨s, mem, rfl⟩)
  exact ⟨Apart.symm lower, Apart.symm upper⟩

structure Overwritten (n r : BTreeNode) (i : ℕ) (data : Payload) : Prop extends Kept n r where
  entries : r.entries = n.entries.set i (n.fullKey i, data)
  used : r.used = n.used
  slot : r.slot = n.slot

theorem setPayload_overwritten (valid : n.Valid) {i : ℕ} (h : i < n.count) {data : Payload}
    (len : data.length = (n.slotAt i).payloadLen) : Overwritten n (n.setPayload i data) i data := by
  have layout := valid.toLayout
  have coded := valid.toCoded
  have inside : ∀ r, Apart ((n.slotAt i).offset, (n.slotAt i).space) r →
      Apart ((n.slotAt i).offset + (n.slotAt i).keyLen, data.length) r := by
    intro r apart
    unfold Apart Slot.space at *
    simp only at *
    omega
  have fences := layout.fences_apart (slotAt_mem h)
  have same := sameRead_of_apart coded (inside _ fences.1) (inside _ fences.2)
  have prefix_ : (n.setPayload i data).getPrefix = n.getPrefix := same.prefix_
  have keys : ∀ j < n.count, (n.setPayload i data).keyOf (n.slotAt j) = n.keyOf (n.slotAt j) := by
    intro j hj
    by_cases here : i = j
    · subst here
      exact bytes_write_frame (Or.inl (le_refl _))
    · exact read_frame (inside _ (layout.slots_apart h hj here)) (le_refl _) (by simp [Slot.space])
  refine { valid := ?_, isLeaf := rfl, link := rfl, lower := same.lower, upper := same.upper,
           prefixLen := rfl, entries := ?_, used := rfl, slot := rfl }
  · refine { used := layout.used, fits := layout.fits, room := layout.room,
             inside := layout.inside, apart := layout.apart, prefixLen := ?_, heads := ?_,
             hint := valid.hint }
    · have lower : (n.setPayload i data).getLowerFence = n.getLowerFence := same.lower
      have upper : (n.setPayload i data).getUpperFence = n.getUpperFence := same.upper
      rw [lower, upper]
      exact coded.prefixLen
    · intro s mem
      obtain ⟨j, hj, rfl⟩ := List.getElem_of_mem mem
      have slot : n.slot[j] = n.slotAt j := (List.getD_eq_getElem _ _ hj).symm
      change n.slot[j].head = head ((n.setPayload i data).keyOf n.slot[j])
      rw [slot, keys j hj]
      exact coded.heads _ (slotAt_mem hj)
  · refine List.ext_getElem? fun j => ?_
    by_cases hj : j < n.count
    · rw [entries_getElem? (n := n.setPayload i data) j hj, List.getElem?_set]
      have slot : (n.setPayload i data).slotAt j = n.slotAt j := rfl
      rw [slot, entry, prefix_, keys j hj]
      by_cases here : i = j
      · subst here
        rw [if_pos rfl, if_pos (by rwa [entries_length])]
        have written : (n.setPayload i data).payloadOf (n.slotAt i) = data := by
          change bytes (write _ _ data) _ _ = data
          rw [← len, bytes_write]
        rw [written]
        rfl
      · rw [if_neg here, fullKey_eq hj]
        have kept : (n.setPayload i data).payloadOf (n.slotAt j) = n.payloadOf (n.slotAt j) :=
          read_frame (inside _ (layout.slots_apart h hj here)) (Nat.le_add_right _ _)
            (by simp [Slot.space, Nat.add_assoc])
        rw [kept]
        rfl
    · have long : (n.setPayload i data).entries.length ≤ j := by
        rw [entries_length]
        exact not_lt.mp hj
      rw [List.getElem?_eq_none long, List.getElem?_eq_none]
      rw [List.length_set, entries_length]
      exact not_lt.mp hj

end Overwrite

end BTreeNode
end BTree
