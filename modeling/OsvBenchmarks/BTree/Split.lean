import OsvBenchmarks.BTree.Separator

/-!
A page split in two. Each half has room for its fences and entries, since a
full page has enough entries on both sides of its middle; the parent gets the
separator in front of the child that becomes the right half.
-/
namespace BTree

/-- No record type folds its key into more bytes. -/
def maxKeyLen : ℕ := 64

theorem need_le (p b : ℕ) (es : List (Key × Payload))
    (bound : ∀ e ∈ es, e.1.length + e.2.length ≤ b) : need p es ≤ (slotSize + b) * es.length := by
  induction es with
  | nil => simp
  | cons e es ih =>
    have first := bound e (by simp)
    have rest := ih fun e mem => bound e (by simp [mem])
    rw [need_cons, List.length_cons, Nat.mul_succ, List.length_drop]
    omega

theorem need_ge (p w : ℕ) (es : List (Key × Payload)) (bound : ∀ e ∈ es, w ≤ e.2.length) :
    (slotSize + w) * es.length ≤ need p es := by
  induction es with
  | nil => simp
  | cons e es ih =>
    have first := bound e (by simp)
    have rest := ih fun e mem => bound e (by simp [mem])
    rw [need_cons, List.length_cons, Nat.mul_succ]
    omega

/-- Everything between the fences shares their prefix; an empty upper fence is no bound. -/
theorem within_fits {lo up k : Key} (above : lo ≤ k) (below : up = [] ∨ k ≤ up) :
    k.take (Prefix.common lo up) = lo.take (Prefix.common lo up) := by
  rcases below with rfl | below
  · simp
  · exact (Prefix.take_between above below).1

theorem within_long {lo up k : Key} (above : lo ≤ k) (below : up = [] ∨ k ≤ up) :
    Prefix.common lo up ≤ k.length := by
  rcases below with rfl | below
  · simp
  · exact (Prefix.take_between above below).2

theorem common_grows_left {lo sep up : Key} (above : lo ≤ sep) (below : up = [] ∨ sep ≤ up) :
    Prefix.common lo up ≤ Prefix.common lo sep := by
  rcases below with rfl | below
  · simp
  · exact Prefix.common_mono (le_refl lo) above below

theorem common_grows_right {lo sep up : Key} (above : lo ≤ sep) (below : up = [] ∨ sep ≤ up) :
    Prefix.common lo up ≤ Prefix.common sep up := by
  rcases below with rfl | below
  · simp
  · exact Prefix.common_mono above below (le_refl up)

namespace BTreeNode
variable {n : BTreeNode}

/-- The sizes of what a page stores; all its payloads have one width. -/
structure Bounded (n : BTreeNode) (width : ℕ) : Prop where
  lower : n.getLowerFence.length ≤ maxKeyLen
  upper : n.getUpperFence.length ≤ maxKeyLen
  keys : ∀ e ∈ n.entries, e.1 ≠ [] ∧ e.1.length ≤ maxKeyLen ∧ e.1.length + width ≤ maxKVSize
  payloads : ∀ e ∈ n.entries, e.2.length = width

structure Within (n : BTreeNode) : Prop where
  above : ∀ e ∈ n.entries, n.getLowerFence ≤ e.1
  below : n.getUpperFence = [] ∨ ∀ e ∈ n.entries, e.1 ≤ n.getUpperFence

theorem Within.below_of_mem (within : Within n) {e : Key × Payload} (mem : e ∈ n.entries) :
    n.getUpperFence = [] ∨ e.1 ≤ n.getUpperFence :=
  within.below.imp id fun h => h e mem

theorem bytes_used (n : BTreeNode) : n.slotEnd + n.used =
    headerSize + n.getLowerFence.length + n.getUpperFence.length + need n.prefixLen n.entries := by
  have lf : n.getLowerFence.length = n.lowerFence.len := bytes_length _ _ _
  have uf : n.getUpperFence.length = n.upperFence.len := bytes_length _ _ _
  have own := need_own (n := n)
  unfold slotEnd BTreeNode.used
  omega

theorem bytes_fit (valid : n.Valid) : headerSize + n.getLowerFence.length +
    n.getUpperFence.length + need n.prefixLen n.entries ≤ pageSize := by
  have fits := valid.toLayout.fits
  have room := valid.toLayout.room
  have bytes := bytes_used n
  omega

/-- A page without space for one more entry of at most `b` bytes. -/
theorem full_bytes (valid : n.Valid) {key : Key} {payloadLen b : ℕ}
    (long : n.prefixLen ≤ key.length) (small : key.length < 2 ^ 32)
    (bound : key.length + payloadLen ≤ b)
    (full : n.hasSpaceFor key.length payloadLen = false) :
    pageSize < headerSize + n.getLowerFence.length + n.getUpperFence.length +
      need n.prefixLen n.entries + (slotSize + b) := by
  have space := hasSpaceFor_iff valid.toLayout payloadLen long small
  rw [full] at space
  have bytes := bytes_used n
  have more : pageSize < n.slotEnd + n.used + (slotSize + (key.drop n.prefixLen).length + payloadLen) := by
    by_contra less
    exact Bool.false_ne_true (space.mpr (not_lt.mp less))
  rw [List.length_drop] at more
  omega

theorem full_leaf {w : ℕ} (bounded : Bounded n w)
    (full : pageSize < headerSize + n.getLowerFence.length + n.getUpperFence.length +
      need n.prefixLen n.entries + (slotSize + maxKVSize)) : 3 ≤ n.count := by
  have most := need_le n.prefixLen maxKVSize n.entries fun e mem => by
    rw [bounded.payloads e mem]
    exact (bounded.keys e mem).2.2
  have lower := bounded.lower
  have upper := bounded.upper
  rw [entries_length] at most
  by_contra few
  have : (slotSize + maxKVSize) * n.count ≤ (slotSize + maxKVSize) * 2 :=
    Nat.mul_le_mul_left _ (by omega)
  simp only [slotSize, maxKVSize, pageSize, headerSize, maxKeyLen] at *
  omega

theorem full_inner (bounded : Bounded n pidSize)
    (full : pageSize < headerSize + n.getLowerFence.length + n.getUpperFence.length +
      need n.prefixLen n.entries + (slotSize + (maxKeyLen + pidSize))) : 47 ≤ n.count := by
  have most := need_le n.prefixLen (maxKeyLen + pidSize) n.entries fun e mem => by
    rw [bounded.payloads e mem]
    have := (bounded.keys e mem).2.1
    omega
  have lower := bounded.lower
  have upper := bounded.upper
  rw [entries_length] at most
  by_contra few
  have : (slotSize + (maxKeyLen + pidSize)) * n.count ≤ (slotSize + (maxKeyLen + pidSize)) * 46 :=
    Nat.mul_le_mul_left _ (by omega)
  simp only [slotSize, pidSize, pageSize, headerSize, maxKeyLen] at *
  omega

/-- `a` of the entries with new fences around them, where `b` others have gone. -/
theorem leaf_half_room {w a b fences fences' part rest new : ℕ} (three : 3 ≤ a + b)
    (few : a + b ≤ 16 → 2 * a ≤ a + b + 1) (many : 16 < a + b → 7 ≤ b) (width : w ≤ maxKVSize)
    (page : headerSize + fences + (part + rest) ≤ pageSize)
    (least : (slotSize + w) * (a + b) ≤ part + rest) (gone : (slotSize + w) * b ≤ rest)
    (most : part ≤ (slotSize + (maxKeyLen + w)) * a) (shrinks : new ≤ part)
    (short : fences' ≤ maxKeyLen + maxKeyLen) (near : fences' ≤ fences + maxKeyLen) :
    headerSize + fences' + new ≤ pageSize := by
  rcases Nat.lt_or_ge 16 (a + b) with big | small
  · have : slotSize * 7 ≤ (slotSize + w) * b := Nat.mul_le_mul (by omega) (many big)
    simp only [slotSize, headerSize, pageSize, maxKeyLen] at *
    omega
  · have half := few small
    have double : (slotSize + w) * (2 * a) ≤ (slotSize + w) * (a + b + 1) :=
      Nat.mul_le_mul_left _ half
    have spread : (slotSize + (maxKeyLen + w)) * a = (slotSize + w) * a + maxKeyLen * a := by
      ring
    have suffixes : maxKeyLen * a ≤ maxKeyLen * 8 := Nat.mul_le_mul_left _ (by omega)
    rw [Nat.mul_left_comm, Nat.mul_add_one] at double
    simp only [slotSize, headerSize, pageSize, maxKeyLen, maxKVSize] at *
    omega

/-- An inner page that can take any separator. -/
def Roomy (n : BTreeNode) : Prop := headerSize + n.getLowerFence.length + n.getUpperFence.length +
  need n.prefixLen n.entries + (slotSize + (maxKeyLen + pidSize)) ≤ pageSize

theorem Roomy.hasSpaceFor (roomy : Roomy n) (valid : n.Valid) {key : Key}
    (long : n.prefixLen ≤ key.length) (short : key.length ≤ maxKeyLen) :
    n.hasSpaceFor key.length pidSize = true := by
  have cap : maxKeyLen = 64 := rfl
  by_contra full
  have more := full_bytes valid long (by omega) (b := maxKeyLen + pidSize) (by omega)
    (Bool.eq_false_iff.mpr full)
  unfold Roomy at roomy
  omega

theorem inner_half_room {b fences fences' part rest new : ℕ} (many : 20 ≤ b)
    (page : headerSize + fences + (part + rest) ≤ pageSize)
    (gone : (slotSize + pidSize) * b ≤ rest) (shrinks : new ≤ part)
    (near : fences' ≤ fences + maxKeyLen) :
    headerSize + fences' + new + (slotSize + (maxKeyLen + pidSize)) ≤ pageSize := by
  have : (slotSize + pidSize) * 20 ≤ (slotSize + pidSize) * b := Nat.mul_le_mul_left _ many
  simp only [slotSize, headerSize, pageSize, maxKeyLen, pidSize] at *
  omega

theorem half_packed (valid : n.Valid) {lo up : Key} (src cnt : ℕ) (inside : src + cnt ≤ n.count)
    (within : ∀ e ∈ (n.entries.drop src).take cnt, lo ≤ e.1 ∧ (up = [] ∨ e.1 ≤ up))
    (room : headerSize + (lo.length + up.length) +
      need (Prefix.common lo up) ((n.entries.drop src).take cnt) ≤ pageSize) :
    Packed (n.copyKeyValueRange ((new n.isLeaf).setFences lo up) 0 src cnt) n.isLeaf lo up
      ((n.entries.drop src).take cnt) := by
  have blank := fences_packed n.isLeaf lo up (by omega)
  have copied := blank.copy valid.toLayout src cnt inside
    (fun e mem => within_fits (within e mem).1 (within e mem).2)
    (by rw [List.nil_append]; omega)
  rwa [List.nil_append] at copied

/-- The two halves of a page, with entries `a` and `b`, apart at `sep`. -/
structure Halved (n l r : BTreeNode) (a b : List (Key × Payload)) (sep : Key) : Prop where
  left : Packed l n.isLeaf n.getLowerFence sep a
  right : Packed r n.isLeaf sep n.getUpperFence b
  left_valid : l.Valid
  right_valid : r.Valid

theorem need_perm {p : ℕ} {es fs : List (Key × Payload)} (perm : es.Perm fs) :
    need p es = need p fs := (perm.map _).sum_eq

structure Part (n : BTreeNode) (part rest : List (Key × Payload)) (lo up : Key) : Prop where
  perm : n.entries.Perm (part ++ rest)
  prefix_ : n.prefixLen ≤ Prefix.common lo up
  short : lo.length ≤ maxKeyLen ∧ up.length ≤ maxKeyLen
  near : lo.length + up.length ≤ n.getLowerFence.length + n.getUpperFence.length + maxKeyLen

theorem Part.count {part rest : List (Key × Payload)} {lo up : Key} (h : Part n part rest lo up) :
    part.length + rest.length = n.count := by
  rw [← List.length_append, ← h.perm.length_eq, entries_length]

theorem Part.page {part rest : List (Key × Payload)} {lo up : Key} (h : Part n part rest lo up)
    (valid : n.Valid) : headerSize + (n.getLowerFence.length + n.getUpperFence.length) +
      (need n.prefixLen part + need n.prefixLen rest) ≤ pageSize := by
  have page := bytes_fit valid
  rw [need_perm h.perm, need_append] at page
  omega

theorem Part.leaf_room {w : ℕ} {part rest : List (Key × Payload)} {lo up : Key}
    (h : Part n part rest lo up) (valid : n.Valid) (bounded : Bounded n w) (three : 3 ≤ n.count)
    (few : n.count ≤ 16 → 2 * part.length ≤ n.count + 1) (many : 16 < n.count → 7 ≤ rest.length) :
    headerSize + (lo.length + up.length) + need (Prefix.common lo up) part ≤ pageSize := by
  have count := h.count
  have short := h.short
  have mem_part : ∀ e ∈ part, e ∈ n.entries := fun e mem =>
    h.perm.mem_iff.mpr (List.mem_append_left _ mem)
  have mem_rest : ∀ e ∈ rest, e ∈ n.entries := fun e mem =>
    h.perm.mem_iff.mpr (List.mem_append_right _ mem)
  have width : w ≤ maxKVSize := by
    obtain ⟨e, mem⟩ := List.exists_mem_of_length_pos (l := n.entries) (by rw [entries_length]; omega)
    have := (bounded.keys e mem).2.2
    omega
  have least_part := need_ge n.prefixLen w part
    fun e mem => le_of_eq (bounded.payloads e (mem_part e mem)).symm
  have least_rest := need_ge n.prefixLen w rest
    fun e mem => le_of_eq (bounded.payloads e (mem_rest e mem)).symm
  have most := need_le n.prefixLen (maxKeyLen + w) part fun e mem => by
    rw [bounded.payloads e (mem_part e mem)]
    have := (bounded.keys e (mem_part e mem)).2.1
    omega
  refine leaf_half_room (w := w) (a := part.length) (b := rest.length) (by omega) (by omega)
    (by omega) width (h.page valid) ?_ least_rest most (need_antitone h.prefix_ part) (by omega) h.near
  rw [Nat.mul_add]
  omega

theorem Part.inner_room {part rest : List (Key × Payload)} {lo up : Key}
    (h : Part n part rest lo up) (valid : n.Valid) (bounded : Bounded n pidSize)
    (many : 20 ≤ rest.length) : headerSize + (lo.length + up.length) +
      need (Prefix.common lo up) part + (slotSize + (maxKeyLen + pidSize)) ≤ pageSize := by
  have mem_rest : ∀ e ∈ rest, e ∈ n.entries := fun e mem =>
    h.perm.mem_iff.mpr (List.mem_append_right _ mem)
  have gone := need_ge n.prefixLen pidSize rest
    fun e mem => le_of_eq (bounded.payloads e (mem_rest e mem)).symm
  exact inner_half_room many (h.page valid) gone (need_antitone h.prefix_ part) h.near

/-- What splitNode does to the parent. -/
def adopt (parent : BTreeNode) (sep : Key) (leftPID newPID : ℕ) : BTreeNode :=
  (if (parent.lowerBound sep).1 = parent.count then { parent with link := newPID }
    else parent.setPayload (parent.lowerBound sep).1 (pidBytes newPID)).insertInPage sep
      (pidBytes leftPID)

section Leaf
variable {w slot : ℕ} {sep : Key}

theorem leaf_parts (within : Within n) (sorted : n.Ascending) (separates : Separates n slot sep)
    (inside : slot + 1 < n.count) :
    (∀ e ∈ n.entries.take (slot + 1), n.getLowerFence ≤ e.1 ∧ (sep = [] ∨ e.1 ≤ sep)) ∧
      ∀ e ∈ n.entries.drop (slot + 1), sep ≤ e.1 ∧ (n.getUpperFence = [] ∨ e.1 ≤ n.getUpperFence) := by
  constructor
  · intro e mem
    refine ⟨within.above e (List.mem_of_mem_take mem), Or.inr ?_⟩
    obtain ⟨j, less, _, rfl⟩ := take_entries mem
    exact le_trans (sorted j slot (by omega) (by omega)) separates.low
  · intro e mem
    refine ⟨?_, within.below_of_mem (List.mem_of_mem_drop mem)⟩
    obtain ⟨j, more, inside, rfl⟩ := drop_entries mem
    exact le_trans separates.high (sorted (slot + 1) j more inside)

theorem fullKey_mem {i : ℕ} (h : i < n.count) : (n.fullKey i, n.getPayload i) ∈ n.entries :=
  List.mem_of_getElem? (fullKey_eq h)

/-- The entries before a slot, the one there and those behind it. -/
theorem entries_at {i : ℕ} (h : i < n.count) :
    n.entries.take i ++ (n.fullKey i, n.getPayload i) :: n.entries.drop (i + 1) = n.entries := by
  have here := fullKey_eq h
  rw [List.getElem?_eq_getElem (by rwa [entries_length])] at here
  rw [← Option.some.inj here, ← List.drop_eq_getElem_cons, List.take_append_drop]

/-- The separator lies between the fences and is no longer than the keys. -/
theorem separator_within (bounded : Bounded n w) (within : Within n)
    (separates : Separates n slot sep) (inside : slot + 1 < n.count) :
    n.getLowerFence ≤ sep ∧ (n.getUpperFence = [] ∨ sep ≤ n.getUpperFence) ∧ sep ≠ [] ∧
      sep.length ≤ maxKeyLen := by
  have first := fullKey_mem (n := n) (i := slot) (by omega)
  have second := fullKey_mem (n := n) inside
  refine ⟨le_trans (within.above _ first) separates.low, ?_, ?_, ?_⟩
  · exact (within.below_of_mem second).imp id (le_trans separates.high)
  · rintro rfl
    have empty : n.fullKey slot = [] := le_antisymm separates.low (Prefix.nil_le _)
    exact (bounded.keys _ first).1 empty
  · have := (bounded.keys _ first).2.1
    have := (bounded.keys _ second).2.1
    rcases separates.short with short | short
    · exact le_trans short (bounded.keys _ first).2.1
    · exact le_trans short (bounded.keys _ second).2.1

theorem splitNode_leaf_eq (leaf : n.isLeaf = true) (leftPID newPID : ℕ) (parent : BTreeNode) :
    let l := n.copyKeyValueRange ((new n.isLeaf).setFences n.getLowerFence sep) 0 0 (slot + 1)
    n.splitNode leftPID newPID parent slot sep =
      ({ l with link := newPID : BTreeNode }.makeHint,
        { n.copyKeyValueRange ((new n.isLeaf).setFences sep n.getUpperFence) 0 l.count
            (n.count - l.count) with link := n.link : BTreeNode }.makeHint,
        adopt parent sep leftPID newPID) := by
  unfold splitNode
  simp only [leaf, if_true]
  rfl

theorem splitNode_leaf (valid : n.Valid) (leaf : n.isLeaf = true) (bounded : Bounded n w)
    (within : Within n) (sorted : n.Ascending)
    (full : pageSize < headerSize + n.getLowerFence.length + n.getUpperFence.length +
      need n.prefixLen n.entries + (slotSize + maxKVSize)) (leftPID newPID : ℕ) (parent : BTreeNode) :
    ∃ l r, n.splitNode leftPID newPID parent (n.bestSlot false) (n.getSep (n.findSeparator false)) =
        (l, r, adopt parent (n.getSep (n.findSeparator false)) leftPID newPID) ∧
      Halved n l r (n.entries.take (n.bestSlot false + 1)) (n.entries.drop (n.bestSlot false + 1))
        (n.getSep (n.findSeparator false)) ∧
      l.link = newPID ∧ r.link = n.link := by
  have three := full_leaf bounded full
  have balanced := bestSlot_balanced (n := n) (by omega)
  have separates := getSep_separates leaf false (by omega) sorted
  have inside := balanced.inside
  have few := balanced.few
  have many := balanced.many
  generalize n.getSep (n.findSeparator false) = sep at *
  generalize n.bestSlot false = slot at *
  obtain ⟨above, below, _, short⟩ := separator_within bounded within separates inside
  obtain ⟨low, high⟩ := leaf_parts within sorted separates inside
  have pre := valid.toCoded.prefixLen
  have lf := bounded.lower
  have uf := bounded.upper
  have whole := List.take_append_drop (slot + 1) n.entries
  have sizes : (n.entries.take (slot + 1)).length = slot + 1 ∧
      (n.entries.drop (slot + 1)).length = n.count - (slot + 1) := by
    rw [List.length_take, List.length_drop, entries_length]
    omega
  have left : Part n (n.entries.take (slot + 1)) (n.entries.drop (slot + 1)) n.getLowerFence sep := {
    perm := by rw [whole]
    prefix_ := by rw [pre]; exact common_grows_left above below
    short := ⟨lf, short⟩
    near := by omega }
  have right : Part n (n.entries.drop (slot + 1)) (n.entries.take (slot + 1)) sep n.getUpperFence := {
    perm := (List.Perm.of_eq whole.symm).trans List.perm_append_comm
    prefix_ := by rw [pre]; exact common_grows_right above below
    short := ⟨short, uf⟩
    near := by omega }
  have room_left := left.leaf_room valid bounded three (by omega) (by omega)
  have room_right := right.leaf_room valid bounded three (by omega) (by omega)
  have front : (n.entries.drop 0).take (slot + 1) = n.entries.take (slot + 1) := rfl
  have back : (n.entries.drop (slot + 1)).take (n.count - (slot + 1)) = n.entries.drop (slot + 1) :=
    List.take_of_length_le (by omega)
  have l := half_packed valid 0 _ (by omega) low room_left
  have r := half_packed valid (slot + 1) (n.count - (slot + 1)) (by omega)
    (by rwa [back]) (by rwa [back])
  rw [back] at r
  have count := l.count
  rw [front, sizes.1] at count
  have eq : n.splitNode leftPID newPID parent slot sep = _ :=
    splitNode_leaf_eq leaf leftPID newPID parent
  dsimp only at eq
  rw [count] at eq
  exact ⟨_, _, eq, ⟨(l.withLink _).hinted, (r.withLink _).hinted, (l.withLink _).valid,
    (r.withLink _).valid⟩, rfl, rfl⟩

end Leaf

end BTreeNode
end BTree
