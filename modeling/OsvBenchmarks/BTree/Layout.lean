import OsvBenchmarks.BTree.Search
import Mathlib.Data.List.GetD

/-!
The layout of a page: fences and entries lie apart from each other between
dataOffset and the end of the page, the slot array ends below them, and
spaceUsed counts their bytes. A write below dataOffset, or into one of the
ranges, leaves all the others.
-/
namespace BTree

def Slot.space (s : Slot) : ℕ := s.keyLen + s.payloadLen

/-- Byte ranges (offset, length) that do not meet. -/
def Apart (a b : ℕ × ℕ) : Prop := a.2 = 0 ∨ b.2 = 0 ∨ a.1 + a.2 ≤ b.1 ∨ b.1 + b.2 ≤ a.1

namespace BTreeNode
variable (n : BTreeNode)

def entry (s : Slot) : Key × Payload := (n.getPrefix ++ n.keyOf s, n.payloadOf s)

def entries : List (Key × Payload) := n.slot.map n.entry

def used : ℕ := n.lowerFence.len + n.upperFence.len + (n.slot.map Slot.space).sum

def ranges : List (ℕ × ℕ) :=
  (n.lowerFence.offset, n.lowerFence.len) :: (n.upperFence.offset, n.upperFence.len) ::
    n.slot.map fun s => (s.offset, s.space)

structure Layout : Prop where
  used : n.spaceUsed = n.used
  fits : n.dataOffset + n.used ≤ pageSize
  room : n.slotEnd ≤ n.dataOffset
  inside : ∀ r ∈ n.ranges, r.2 = 0 ∨ n.dataOffset ≤ r.1 ∧ r.1 + r.2 ≤ pageSize
  apart : n.ranges.Pairwise Apart

/-- What is stored twice agrees. -/
structure Coded : Prop where
  prefixLen : n.prefixLen = Prefix.common n.getLowerFence n.getUpperFence
  heads : ∀ s ∈ n.slot, s.head = head (n.keyOf s)

structure Valid : Prop extends n.Layout, n.Coded where
  hint : hintCount * 2 < n.count → n.hint = n.makeHint.hint

variable {n : BTreeNode}

@[simp] theorem entries_length : n.entries.length = n.count := by simp [entries, count]

theorem Layout.small (layout : n.Layout) : n.dataOffset ≤ 4096 ∧ n.spaceUsed ≤ 4096 ∧
    headerSize + slotSize * n.count + n.used ≤ 4096 := by
  have fits := layout.fits
  have room := layout.room
  have used := layout.used
  simp only [pageSize, slotEnd] at *
  omega

theorem Coded.prefix_le (coded : n.Coded) : n.prefixLen ≤ n.lowerFence.len := by
  have := Prefix.common_le_left n.getLowerFence n.getUpperFence
  rw [coded.prefixLen]
  simpa [getLowerFence] using this

theorem getPrefix_eq (coded : n.Coded) : n.getPrefix = n.getLowerFence.take n.prefixLen :=
  (bytes_take _ _ coded.prefix_le).symm

theorem write_nil (heap : Heap) (w : ℕ) : write heap w [] = heap := by
  funext a
  have : ¬ (w ≤ a ∧ a < w) := by omega
  simp [write, this]

theorem read_frame {heap : Heap} {data : List u8} {w : ℕ} {r : ℕ × ℕ} {o len : ℕ}
    (apart : Apart (w, data.length) r) (low : r.1 ≤ o) (high : o + len ≤ r.1 + r.2) :
    bytes (write heap w data) o len = bytes heap o len := by
  rcases apart with none | empty | before | behind
  · have : data = [] := List.length_eq_zero_iff.mp none
    rw [this, write_nil]
  · have : len = 0 := by omega
    simp [this]
  · exact bytes_write_frame (by simp only at before; omega)
  · exact bytes_write_frame (by simp only at behind; omega)

theorem lower_mem : (n.lowerFence.offset, n.lowerFence.len) ∈ n.ranges := by simp [ranges]

theorem upper_mem : (n.upperFence.offset, n.upperFence.len) ∈ n.ranges := by simp [ranges]

theorem slot_mem {s : Slot} (mem : s ∈ n.slot) : (s.offset, s.space) ∈ n.ranges := by
  simp only [ranges, List.mem_cons, List.mem_map]
  exact Or.inr (Or.inr ⟨s, mem, rfl⟩)

theorem slotAt_mem {i : ℕ} (h : i < n.count) : n.slotAt i ∈ n.slot := by
  unfold slotAt
  rw [List.getD_eq_getElem _ _ h]
  exact List.getElem_mem h

/-- All that a page says through its heap, except what is behind slot `s`. -/
structure SameRead (n : BTreeNode) (heap : Heap) : Prop where
  lower : bytes heap n.lowerFence.offset n.lowerFence.len = n.getLowerFence
  upper : bytes heap n.upperFence.offset n.upperFence.len = n.getUpperFence
  prefix_ : bytes heap n.lowerFence.offset n.prefixLen = n.getPrefix

theorem sameRead_of_apart (coded : n.Coded) {w : ℕ} {data : List u8}
    (lower : Apart (w, data.length) (n.lowerFence.offset, n.lowerFence.len))
    (upper : Apart (w, data.length) (n.upperFence.offset, n.upperFence.len)) :
    SameRead n (write n.heap w data) :=
  ⟨read_frame lower (le_refl _) (le_refl _), read_frame upper (le_refl _) (le_refl _),
    read_frame lower (le_refl _) (by have := coded.prefix_le; simp only; omega)⟩

/-- Storing below dataOffset: the entry goes to place `i` among the slots. -/
def put (n : BTreeNode) (i : ℕ) (skey : Key) (payload : Payload) : BTreeNode :=
  let key := skey.drop n.prefixLen
  let space := key.length + payload.length
  { n with
    dataOffset := n.dataOffset - space
    spaceUsed := n.spaceUsed + space
    slot := n.slot.take i ++ ⟨n.dataOffset - space, key.length, payload.length, head key⟩ ::
      n.slot.drop i
    heap := write n.heap (n.dataOffset - space) (key ++ payload) }

theorem sub16_eq {a b : ℕ} (le : b ≤ a) (small : a < 2 ^ 16) : sub16 a b = a - b := by
  unfold sub16
  omega

theorem add16_eq {a b : ℕ} (small : a + b < 2 ^ 16) : add16 a b = a + b := Nat.mod_eq_of_lt small

theorem sub32_eq {a b : ℕ} (le : b ≤ a) (small : a < 2 ^ 32) : sub32 a b = a - b := by
  unfold sub32
  omega

def RoomFor (n : BTreeNode) (skey : Key) (payload : Payload) : Prop :=
  n.slotEnd + slotSize + ((skey.drop n.prefixLen).length + payload.length) ≤ n.dataOffset

theorem store_append (layout : n.Layout) {skey : Key} {payload : Payload}
    (room : n.RoomFor skey payload) :
    n.storeKeyValue n.count skey payload = n.put n.count skey payload := by
  have small := layout.small
  unfold RoomFor at room
  have hd : sub16 n.dataOffset ((skey.drop n.prefixLen).length + payload.length) =
      n.dataOffset - ((skey.drop n.prefixLen).length + payload.length) :=
    sub16_eq (by omega) (by omega)
  have hs : add16 n.spaceUsed ((skey.drop n.prefixLen).length + payload.length) =
      n.spaceUsed + ((skey.drop n.prefixLen).length + payload.length) :=
    add16_eq (by omega)
  have drop : n.slot.drop n.count = [] := List.drop_of_length_le (le_refl _)
  have drop' : n.slot.drop (n.count + 1) = [] := List.drop_of_length_le (by simp [count])
  simp only [storeKeyValue, put, setSlot, hd, hs, drop, drop', write_append]

theorem setSlot_shiftUp {slots : List Slot} {i : ℕ} (le : i ≤ slots.length) (s : Slot) :
    setSlot (shiftUp slots i) i s = slots.take i ++ s :: slots.drop i := by
  have len : (slots.take i).length = i := by
    rw [List.length_take]
    exact Nat.min_eq_left le
  unfold setSlot shiftUp
  rw [List.take_append_of_le_length (by omega), List.take_of_length_le (by omega),
    List.drop_append, List.drop_of_length_le (by omega), len]
  simp

theorem store_shifted (layout : n.Layout) {i : ℕ} (le : i ≤ n.count) {skey : Key}
    {payload : Payload} (room : n.RoomFor skey payload) :
    ({ n with slot := shiftUp n.slot i } : BTreeNode).storeKeyValue i skey payload =
      n.put i skey payload := by
  have small := layout.small
  unfold RoomFor at room
  have hd : sub16 n.dataOffset ((skey.drop n.prefixLen).length + payload.length) =
      n.dataOffset - ((skey.drop n.prefixLen).length + payload.length) :=
    sub16_eq (by omega) (by omega)
  have hs : add16 n.spaceUsed ((skey.drop n.prefixLen).length + payload.length) =
      n.spaceUsed + ((skey.drop n.prefixLen).length + payload.length) :=
    add16_eq (by omega)
  simp only [storeKeyValue, put, setSlot_shiftUp le, hd, hs, write_append]

section Put
variable {i : ℕ} {skey : Key} {payload : Payload} (layout : n.Layout) (coded : n.Coded)
  (room : n.RoomFor skey payload)
include layout room

theorem put_apart : ∀ r ∈ n.ranges, Apart (n.dataOffset -
    ((skey.drop n.prefixLen).length + payload.length),
    (skey.drop n.prefixLen ++ payload).length) r := by
  intro r mem
  unfold RoomFor at room
  rcases layout.inside r mem with empty | ⟨low, _⟩
  · exact Or.inr (Or.inl empty)
  · refine Or.inr (Or.inr (Or.inl ?_))
    simp only [List.length_append]
    omega

theorem put_sameRead (coded : n.Coded) : SameRead n (n.put i skey payload).heap :=
  sameRead_of_apart coded (put_apart layout room _ lower_mem) (put_apart layout room _ upper_mem)

theorem put_keyOf {s : Slot} (mem : s ∈ n.slot) :
    (n.put i skey payload).keyOf s = n.keyOf s :=
  read_frame (put_apart layout room _ (slot_mem mem)) (le_refl _) (by simp [Slot.space])

theorem put_payloadOf {s : Slot} (mem : s ∈ n.slot) :
    (n.put i skey payload).payloadOf s = n.payloadOf s :=
  read_frame (put_apart layout room _ (slot_mem mem)) (Nat.le_add_right _ _)
    (by simp [Slot.space, Nat.add_assoc])

omit layout room in
theorem put_new : let s : Slot := ⟨n.dataOffset - ((skey.drop n.prefixLen).length + payload.length),
      (skey.drop n.prefixLen).length, payload.length, head (skey.drop n.prefixLen)⟩
    (n.put i skey payload).keyOf s = skey.drop n.prefixLen ∧
      (n.put i skey payload).payloadOf s = payload := by
  intro s
  have all := bytes_write n.heap s.offset (skey.drop n.prefixLen ++ payload)
  rw [List.length_append, bytes_add] at all
  exact List.append_inj all (bytes_length _ _ _)

omit layout room in
theorem put_ranges : (n.put i skey payload).ranges.Perm
    ((n.dataOffset - ((skey.drop n.prefixLen).length + payload.length),
      (skey.drop n.prefixLen).length + payload.length) :: n.ranges) := by
  simp only [ranges, put, List.map_append, List.map_cons, Slot.space]
  have mid := @List.perm_middle _ (n.dataOffset - ((skey.drop n.prefixLen).length + payload.length),
      (skey.drop n.prefixLen).length + payload.length)
    ((n.slot.take i).map fun s => (s.offset, s.keyLen + s.payloadLen))
    ((n.slot.drop i).map fun s => (s.offset, s.keyLen + s.payloadLen))
  rw [← List.map_append, List.take_append_drop] at mid
  refine ((mid.cons _).trans (List.Perm.swap _ _ _) |>.cons _).trans (List.Perm.swap _ _ _)

omit layout room in
theorem put_used : (n.put i skey payload).used =
    n.used + ((skey.drop n.prefixLen).length + payload.length) := by
  have parts : ((n.slot.take i).map Slot.space).sum + ((n.slot.drop i).map Slot.space).sum =
      (n.slot.map Slot.space).sum := by
    rw [← List.sum_append, ← List.map_append, List.take_append_drop]
  simp only [used, put, List.map_append, List.map_cons, List.sum_append, List.sum_cons]
  simp only [Slot.space] at parts ⊢
  omega

omit layout room in
theorem put_count : (n.put i skey payload).count = n.count + 1 := by
  have := congrArg List.length (List.take_append_drop i n.slot)
  simp only [List.length_append] at this
  simp only [put, count, List.length_append, List.length_cons]
  omega

theorem put_layout : (n.put i skey payload).Layout := by
  have small := layout.small
  have apart := put_apart layout room
  unfold RoomFor at room
  have used : (n.put i skey payload).used = _ := put_used
  have fits := layout.fits
  have offset : (n.put i skey payload).dataOffset =
      n.dataOffset - ((skey.drop n.prefixLen).length + payload.length) := rfl
  refine ⟨?_, ?_, ?_, fun r mem => ?_, ?_⟩
  · rw [used, ← layout.used]
    rfl
  · omega
  · rw [slotEnd, put_count, offset, Nat.mul_succ]
    rw [slotEnd] at room
    omega
  · rcases List.mem_cons.mp (put_ranges.mem_iff.mp mem) with rfl | mem
    · exact Or.inr ⟨le_refl _, by simp only; omega⟩
    · exact (layout.inside r mem).imp id fun h => ⟨by omega, h.2⟩
  · refine (put_ranges.pairwise_iff fun h => ?_).mpr (List.Pairwise.cons ?_ layout.apart)
    · unfold Apart at h ⊢
      omega
    · intro r mem
      have := apart r mem
      rwa [List.length_append] at this

include coded in
theorem put_coded : (n.put i skey payload).Coded := by
  have same := put_sameRead layout room (i := i) coded
  refine ⟨?_, fun s mem => ?_⟩
  · change n.prefixLen = Prefix.common (bytes _ _ _) (bytes _ _ _)
    rw [show bytes (n.put i skey payload).heap (n.put i skey payload).lowerFence.offset
      (n.put i skey payload).lowerFence.len = n.getLowerFence from same.lower,
      show bytes (n.put i skey payload).heap (n.put i skey payload).upperFence.offset
      (n.put i skey payload).upperFence.len = n.getUpperFence from same.upper]
    exact coded.prefixLen
  · have mem : s ∈ n.slot.take i ++ ⟨n.dataOffset - ((skey.drop n.prefixLen).length + payload.length),
        (skey.drop n.prefixLen).length, payload.length, head (skey.drop n.prefixLen)⟩ ::
        n.slot.drop i := mem
    rcases List.mem_append.mp mem with old | mem
    · have old := List.mem_of_mem_take old
      rw [put_keyOf layout room old]
      exact coded.heads s old
    · rcases List.mem_cons.mp mem with rfl | old
      · rw [put_new.1]
      · have old := List.mem_of_mem_drop old
        rw [put_keyOf layout room old]
        exact coded.heads s old

include coded in
theorem put_entries (fits : skey.take n.prefixLen = n.getPrefix) :
    (n.put i skey payload).entries =
      n.entries.take i ++ (skey, payload) :: n.entries.drop i := by
  have same := put_sameRead layout room (i := i) coded
  have prefix_ : (n.put i skey payload).getPrefix = n.getPrefix := same.prefix_
  have old : ∀ s ∈ n.slot, (n.put i skey payload).entry s = n.entry s := fun s mem => by
    rw [entry, entry, prefix_, put_keyOf layout room mem, put_payloadOf layout room mem]
  have new := @put_new n i skey payload
  have slots : (n.put i skey payload).slot = n.slot.take i ++
      ⟨n.dataOffset - ((skey.drop n.prefixLen).length + payload.length),
        (skey.drop n.prefixLen).length, payload.length, head (skey.drop n.prefixLen)⟩ ::
      n.slot.drop i := rfl
  rw [entries, slots, List.map_append, List.map_cons, entries, ← List.map_take, ← List.map_drop]
  congr 1
  · exact List.map_congr_left fun s mem => old s (List.mem_of_mem_take mem)
  · congr 1
    · rw [entry, prefix_, new.1, new.2, ← fits, List.take_append_drop]
    · exact List.map_congr_left fun s mem => old s (List.mem_of_mem_drop mem)

end Put

end BTreeNode
end BTree
