import OsvBenchmarks.BTree.Layout
import Mathlib.Algebra.Order.BigOperators.Group.List

/-!
Pages built anew: fences set on an empty page, entries copied over one by one,
under a longer or a shorter prefix. Compaction is such a copy.
-/
namespace BTree

/-- The bytes that entries take under a prefix of length `p`, slots included. -/
def need (p : ℕ) (es : List (Key × Payload)) : ℕ :=
  (es.map fun e => slotSize + ((e.1.drop p).length + e.2.length)).sum

@[simp] theorem need_nil (p : ℕ) : need p [] = 0 := rfl

theorem need_cons (p : ℕ) (e : Key × Payload) (es : List (Key × Payload)) :
    need p (e :: es) = slotSize + ((e.1.drop p).length + e.2.length) + need p es := by
  simp [need]

theorem need_append (p : ℕ) (es fs : List (Key × Payload)) :
    need p (es ++ fs) = need p es + need p fs := by
  simp [need]

theorem need_antitone {p q : ℕ} (le : p ≤ q) (es : List (Key × Payload)) : need q es ≤ need p es := by
  refine List.sum_le_sum fun e _ => ?_
  simp only [List.length_drop]
  omega

namespace BTreeNode
variable {n : BTreeNode}

/-- The entries `es` added behind those of `n`, everything else as in `n`. -/
structure Extends (n r : BTreeNode) (es : List (Key × Payload)) : Prop where
  layout : r.Layout
  coded : r.Coded
  entries : r.entries = n.entries ++ es
  lower : r.getLowerFence = n.getLowerFence
  upper : r.getUpperFence = n.getUpperFence
  prefix_ : r.getPrefix = n.getPrefix
  prefixLen : r.prefixLen = n.prefixLen
  isLeaf : r.isLeaf = n.isLeaf
  link : r.link = n.link
  fences : r.lowerFence.len = n.lowerFence.len ∧ r.upperFence.len = n.upperFence.len
  offset : r.dataOffset + need n.prefixLen es = n.dataOffset + slotSize * es.length
  used : r.used + slotSize * es.length = n.used + need n.prefixLen es

theorem Extends.refl (layout : n.Layout) (coded : n.Coded) : Extends n n [] where
  layout := layout
  coded := coded
  entries := (List.append_nil _).symm
  lower := rfl
  upper := rfl
  prefix_ := rfl
  prefixLen := rfl
  isLeaf := rfl
  link := rfl
  fences := ⟨rfl, rfl⟩
  offset := rfl
  used := rfl

theorem Extends.count {r : BTreeNode} {es : List (Key × Payload)} (h : Extends n r es) :
    r.count = n.count + es.length := by
  have := congrArg List.length h.entries
  simpa using this

theorem Extends.store {r : BTreeNode} {es : List (Key × Payload)} (h : Extends n r es)
    {skey : Key} {payload : Payload} (fits : skey.take n.prefixLen = n.getPrefix)
    (room : n.slotEnd + need n.prefixLen (es ++ [(skey, payload)]) ≤ n.dataOffset) :
    Extends n (r.storeKeyValue r.count skey payload) (es ++ [(skey, payload)]) := by
  have count := h.count
  have offset := h.offset
  have used := h.used
  rw [need_append, need_cons, need_nil] at room
  dsimp only at room
  have here : r.RoomFor skey payload := by
    unfold RoomFor slotEnd
    rw [h.prefixLen, count, Nat.mul_add]
    unfold slotEnd at room
    omega
  rw [store_append h.layout here]
  have fits' : skey.take r.prefixLen = r.getPrefix := by rw [h.prefixLen, h.prefix_, fits]
  have same := put_sameRead h.layout here h.coded (i := r.count)
  have bound := here
  unfold RoomFor at bound
  refine ⟨put_layout h.layout here, put_coded h.layout h.coded here, ?_, ?_, ?_, ?_, h.prefixLen,
    h.isLeaf, h.link, h.fences, ?_, ?_⟩
  · rw [put_entries h.layout h.coded here fits', List.take_of_length_le (by simp),
      List.drop_of_length_le (by simp), h.entries, List.append_assoc]
  · exact same.lower.trans h.lower
  · exact same.upper.trans h.upper
  · exact same.prefix_.trans h.prefix_
  · change r.dataOffset - _ + _ = _
    rw [need_append, need_cons, need_nil, List.length_append, Nat.mul_add, ← h.prefixLen]
    rw [h.prefixLen] at bound ⊢
    simp only [List.length_cons, List.length_nil]
    omega
  · rw [put_used, need_append, need_cons, need_nil, List.length_append, Nat.mul_add, h.prefixLen]
    simp only [List.length_cons, List.length_nil]
    omega

theorem entries_getElem? (i : ℕ) (h : i < n.count) : n.entries[i]? = some (n.entry (n.slotAt i)) := by
  rw [entries, List.getElem?_map, List.getElem?_eq_getElem h, slotAt, List.getD_eq_getElem _ _ h]
  rfl

theorem slot_small (layout : n.Layout) {s : Slot} (mem : s ∈ n.slot) : s.space ≤ 4096 := by
  have small := layout.small
  have := List.single_le_sum (l := n.slot.map Slot.space) (by simp) s.space (by simp; exact ⟨s, mem, rfl⟩)
  unfold used at small
  omega

/-- Copying under a prefix at least as long stores the reconstructed key. -/
theorem copyTail_eq (layout : n.Layout) {j : ℕ} (inside : j < n.count) {d : BTreeNode} {i : ℕ}
    (grows : n.prefixLen ≤ d.prefixLen)
    (long : d.prefixLen ≤ (n.entry (n.slotAt j)).1.length) :
    n.copyTail (d.prefixLen - n.prefixLen) j d i =
      d.storeKeyValue i (n.entry (n.slotAt j)).1 (n.entry (n.slotAt j)).2 := by
  have small := slot_small layout (slotAt_mem inside)
  have keyLen : (n.keyOf (n.slotAt j)).length = (n.slotAt j).keyLen := bytes_length _ _ _
  have plen : n.getPrefix.length = n.prefixLen := getPrefix_length
  simp only [entry, List.length_append, keyLen, plen] at long
  unfold Slot.space at small
  have sub : sub32 (n.slotAt j).keyLen (d.prefixLen - n.prefixLen) =
      (n.slotAt j).keyLen - (d.prefixLen - n.prefixLen) := sub32_eq (by omega) (by omega)
  have key : (n.getPrefix ++ n.keyOf (n.slotAt j)).drop d.prefixLen =
      bytes n.heap ((n.slotAt j).offset + (d.prefixLen - n.prefixLen))
        ((n.slotAt j).keyLen - (d.prefixLen - n.prefixLen)) := by
    rw [List.drop_append, List.drop_of_length_le (by omega), plen, List.nil_append, keyOf,
      bytes_drop _ _ (by omega)]
  have data : bytes n.heap ((n.slotAt j).offset + (d.prefixLen - n.prefixLen))
      ((n.slotAt j).keyLen - (d.prefixLen - n.prefixLen) + (n.slotAt j).payloadLen) =
      (n.getPrefix ++ n.keyOf (n.slotAt j)).drop d.prefixLen ++ n.payloadOf (n.slotAt j) := by
    rw [bytes_add, key, payloadOf]
    congr 2
    omega
  have len : ((n.getPrefix ++ n.keyOf (n.slotAt j)).drop d.prefixLen).length =
      (n.slotAt j).keyLen - (d.prefixLen - n.prefixLen) := by rw [key, bytes_length]
  have plen' : (n.payloadOf (n.slotAt j)).length = (n.slotAt j).payloadLen := bytes_length _ _ _
  have cut : ((n.getPrefix ++ n.keyOf (n.slotAt j)).drop d.prefixLen ++
      n.payloadOf (n.slotAt j)).take ((n.slotAt j).keyLen - (d.prefixLen - n.prefixLen)) =
      (n.getPrefix ++ n.keyOf (n.slotAt j)).drop d.prefixLen := by
    rw [← len, List.take_left']
    rfl
  simp only [copyTail, storeKeyValue, entry, sub, data, len, plen', cut, write_append]

/-- The loop of copyKeyValueRange appends the reconstructed entries. -/
theorem copy_extends (layout : n.Layout) {dst : BTreeNode} (dl : dst.Layout) (dc : dst.Coded)
    {src cnt : ℕ} (inside : src + cnt ≤ n.count)
    (fits : ∀ e ∈ (n.entries.drop src).take cnt, e.1.take dst.prefixLen = dst.getPrefix)
    (room : dst.slotEnd + need dst.prefixLen ((n.entries.drop src).take cnt) ≤ dst.dataOffset) :
    Extends dst (n.copyKeyValueRange dst dst.count src cnt) ((n.entries.drop src).take cnt) := by
  induction cnt with
  | zero => simpa [copyKeyValueRange] using Extends.refl dl dc
  | succ cnt ih =>
    have next : (n.entries.drop src).take (cnt + 1) =
        (n.entries.drop src).take cnt ++ [n.entry (n.slotAt (src + cnt))] := by
      rw [List.take_add_one, List.getElem?_drop, entries_getElem? _ (by omega)]
      rfl
    rw [next] at fits room ⊢
    have rest := ih (by omega) (fun e mem => fits e (List.mem_append_left _ mem)) (by
      rw [need_append] at room
      omega)
    have here := fits (n.entry (n.slotAt (src + cnt))) (by simp)
    have count : (n.copyKeyValueRange dst dst.count src cnt).count = dst.count + cnt := by
      rw [rest.count, List.length_take, List.length_drop, entries_length]
      omega
    have stored := rest.store here room
    rw [count] at stored
    have step : n.copyKeyValueRange dst dst.count src (cnt + 1) =
        (n.copyKeyValueRange dst dst.count src cnt).storeKeyValue (dst.count + cnt)
          (n.entry (n.slotAt (src + cnt))).1 (n.entry (n.slotAt (src + cnt))).2 := by
      unfold copyKeyValueRange at rest ⊢
      rw [List.range_succ, List.foldl_append]
      simp only [List.foldl_cons, List.foldl_nil]
      split
      · rename_i grows
        refine copyTail_eq layout (by omega) grows ?_
        have len := congrArg List.length here
        rw [List.length_take, getPrefix_length] at len
        rw [rest.prefixLen]
        omega
      · rfl
    rw [step]
    exact stored

theorem entry_fits {e : Key × Payload} (mem : e ∈ n.entries) :
    e.1.take n.prefixLen = n.getPrefix := by
  obtain ⟨s, _, rfl⟩ := List.mem_map.mp mem
  rw [entry, List.take_append_of_le_length (by rw [getPrefix_length]),
    List.take_of_length_le (by rw [getPrefix_length])]

theorem need_own : need n.prefixLen n.entries = slotSize * n.count + (n.slot.map Slot.space).sum := by
  have each : ∀ s : Slot, slotSize + (((n.entry s).1.drop n.prefixLen).length + (n.entry s).2.length) =
      slotSize + s.space := fun s => by
    have plen : n.getPrefix.length = n.prefixLen := getPrefix_length
    rw [entry, List.drop_append, List.drop_of_length_le (by omega), plen, Nat.sub_self]
    simp [keyOf, payloadOf, Slot.space]
  have all : ∀ slots : List Slot, need n.prefixLen (slots.map n.entry) =
      slotSize * slots.length + (slots.map Slot.space).sum := fun slots => by
    induction slots with
    | nil => rfl
    | cons s slots ih =>
      rw [List.map_cons, need_cons, ih, each s]
      simp only [List.length_cons, List.map_cons, List.sum_cons, Nat.mul_succ]
      omega
  exact all n.slot

/-- A page whose heap holds nothing but its fences and entries. -/
structure Packed (r : BTreeNode) (leaf : Bool) (lo up : Key) (es : List (Key × Payload)) : Prop where
  layout : r.Layout
  coded : r.Coded
  isLeaf : r.isLeaf = leaf
  lower : r.getLowerFence = lo
  upper : r.getUpperFence = up
  entries : r.entries = es
  tight : r.dataOffset + r.used = pageSize
  used : r.used + slotSize * es.length = lo.length + up.length + need (Prefix.common lo up) es

theorem fences_packed (leaf : Bool) (lower upper : Key)
    (room : headerSize + lower.length + upper.length ≤ pageSize) :
    Packed ((new leaf).setFences lower upper) leaf lower upper [] := by
  have page : pageSize = 4096 := rfl
  have lo : sub16 pageSize lower.length = pageSize - lower.length :=
    sub16_eq (by omega) (by omega)
  have up : sub16 (pageSize - lower.length) upper.length = pageSize - lower.length - upper.length :=
    sub16_eq (by omega) (by omega)
  have us : add16 (add16 0 lower.length) upper.length = lower.length + upper.length := by
    have first : add16 0 lower.length = lower.length := by
      rw [add16_eq (by omega), Nat.zero_add]
    rw [first, add16_eq (by omega)]
  have lf : ((new leaf).setFences lower upper).getLowerFence = lower := by
    simp only [getLowerFence, setFences, new, lo, up]
    rw [bytes_write_frame (by omega), bytes_write]
  have uf : ((new leaf).setFences lower upper).getUpperFence = upper := by
    simp only [getUpperFence, setFences, new, lo, up]
    rw [bytes_write]
  have used : ((new leaf).setFences lower upper).used = lower.length + upper.length := by
    simp [BTreeNode.used, setFences, new]
  have offset : ((new leaf).setFences lower upper).dataOffset =
      pageSize - lower.length - upper.length := by
    simp only [setFences, new, lo, up]
  refine ⟨⟨?_, by omega, ?_, ?_, ?_⟩, ⟨?_, ?_⟩, rfl, lf, uf, rfl, by omega, ?_⟩
  · rw [used]
    exact us
  · rw [offset]
    simp only [slotEnd, BTreeNode.count, setFences, new, List.length_nil]
    omega
  · intro r mem
    rw [offset]
    simp only [ranges, setFences, new, lo, up, List.map_nil, List.mem_cons, List.not_mem_nil,
      or_false] at mem
    rcases mem with rfl | rfl
    · exact Or.inr ⟨by simp only; omega, by simp only; omega⟩
    · exact Or.inr ⟨by simp only; omega, by simp only; omega⟩
  · simp only [ranges, setFences, new, lo, up, List.map_nil]
    refine List.pairwise_pair.mpr (Or.inr (Or.inr (Or.inr ?_)))
    simp only
    omega
  · rw [lf, uf]
    rfl
  · simp [setFences, new]
  · rw [used]
    rfl

section Packed
variable {r : BTreeNode} {leaf : Bool} {lower upper : Key} {es : List (Key × Payload)}
  (packed : Packed r leaf lower upper es)
include packed

theorem Packed.prefixLen : r.prefixLen = Prefix.common lower upper := by
  rw [packed.coded.prefixLen, packed.lower, packed.upper]

theorem Packed.prefix_ : r.getPrefix = lower.take (Prefix.common lower upper) := by
  rw [getPrefix_eq packed.coded, packed.lower, packed.prefixLen]

theorem Packed.count : r.count = es.length := by
  rw [← packed.entries, entries_length]

theorem Packed.copy (layout : n.Layout) (src cnt : ℕ) (inside : src + cnt ≤ n.count)
    (fits : ∀ e ∈ (n.entries.drop src).take cnt,
      e.1.take (Prefix.common lower upper) = lower.take (Prefix.common lower upper))
    (room : headerSize + lower.length + upper.length +
      need (Prefix.common lower upper) (es ++ (n.entries.drop src).take cnt) ≤ pageSize) :
    Packed (n.copyKeyValueRange r es.length src cnt) leaf lower upper
      (es ++ (n.entries.drop src).take cnt) := by
  have used := packed.used
  have tight := packed.tight
  have count := packed.count
  rw [need_append] at room
  have copied := copy_extends layout packed.layout packed.coded inside
    (by rw [packed.prefixLen, packed.prefix_]; exact fits) (by
      rw [packed.prefixLen, slotEnd, count]
      omega)
  rw [count] at copied
  have offset := copied.offset
  have more := copied.used
  rw [packed.prefixLen] at offset more
  refine ⟨copied.layout, copied.coded, copied.isLeaf.trans packed.isLeaf,
    copied.lower.trans packed.lower, copied.upper.trans packed.upper, ?_, by omega, ?_⟩
  · rw [copied.entries, packed.entries]
  · rw [need_append, List.length_append, Nat.mul_add]
    omega

theorem Packed.withLink (link : ℕ) : Packed { r with link := link } leaf lower upper es where
  layout := ⟨packed.layout.used, packed.layout.fits, packed.layout.room, packed.layout.inside,
    packed.layout.apart⟩
  coded := ⟨packed.coded.prefixLen, packed.coded.heads⟩
  isLeaf := packed.isLeaf
  lower := packed.lower
  upper := packed.upper
  entries := packed.entries
  tight := packed.tight
  used := packed.used

theorem Packed.hinted : Packed r.makeHint leaf lower upper es where
  layout := ⟨packed.layout.used, packed.layout.fits, packed.layout.room, packed.layout.inside,
    packed.layout.apart⟩
  coded := ⟨packed.coded.prefixLen, packed.coded.heads⟩
  isLeaf := packed.isLeaf
  lower := packed.lower
  upper := packed.upper
  entries := packed.entries
  tight := packed.tight
  used := packed.used

theorem Packed.valid : r.makeHint.Valid where
  toLayout := packed.hinted.layout
  toCoded := packed.hinted.coded
  hint := fun _ => rfl

end Packed

structure Compacted (n r : BTreeNode) : Prop where
  valid : r.Valid
  packed : Packed r n.isLeaf n.getLowerFence n.getUpperFence n.entries
  link : r.link = n.link
  used : r.used = n.used

theorem compactify_compacted (valid : n.Valid) : Compacted n n.compactify := by
  have small := valid.toLayout.small
  have lf : n.getLowerFence.length = n.lowerFence.len := bytes_length _ _ _
  have uf : n.getUpperFence.length = n.upperFence.len := bytes_length _ _ _
  have own := need_own (n := n)
  have pre := valid.toCoded.prefixLen
  rw [pre] at own
  unfold BTreeNode.used at small
  have blank := fences_packed n.isLeaf n.getLowerFence n.getUpperFence
    (by simp only [pageSize]; omega)
  have all : (n.entries.drop 0).take n.count = n.entries := by
    rw [List.drop_zero, List.take_of_length_le (by simp)]
  have copied := blank.copy valid.toLayout 0 n.count (by omega)
    (by
      rw [all, ← pre]
      intro e mem
      rw [entry_fits mem, getPrefix_eq valid.toCoded])
    (by
      rw [all, List.nil_append, own]
      simp only [pageSize]
      omega)
  rw [all, List.nil_append] at copied
  have linked := copied.withLink n.link
  refine ⟨linked.valid, linked.hinted, rfl, ?_⟩
  have used : n.compactify.used + slotSize * n.entries.length =
      n.getLowerFence.length + n.getUpperFence.length +
        need (Prefix.common n.getLowerFence n.getUpperFence) n.entries := linked.hinted.used
  rw [own, entries_length] at used
  rw [show n.used = n.lowerFence.len + n.upperFence.len + (n.slot.map Slot.space).sum from rfl]
  omega

end BTreeNode
end BTree
