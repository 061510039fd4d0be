import OsvBenchmarks.BTree.Accounting
import OsvBenchmarks.BTree.Merge

/-!
What the two halves of a split take of their pages, whether or not that is more
than there is; and that halves which fit hold the entries of the page, in order,
between its fences and the separator.
-/
namespace BTree
namespace BTreeNode
variable {n : BTreeNode}

/-- header + slots + both fences + entries <= pageSize -/
def Fits (n : BTreeNode) : Prop := n.slotEnd + n.used ≤ pageSize

instance (n : BTreeNode) : Decidable n.Fits := inferInstanceAs (Decidable (_ ≤ _))

section Bytes

theorem store_bytes (d : BTreeNode) (skey : Key) (payload : Payload) :
    (d.storeKeyValue d.count skey payload).count = d.count + 1 ∧
      (d.storeKeyValue d.count skey payload).slotEnd + (d.storeKeyValue d.count skey payload).used =
        d.slotEnd + d.used + (slotSize + ((skey.drop d.prefixLen).length + payload.length)) := by
  have slots : (d.storeKeyValue d.count skey payload).slot = d.slot ++
      [⟨sub16 d.dataOffset ((skey.drop d.prefixLen).length + payload.length),
        (skey.drop d.prefixLen).length, payload.length, head (skey.drop d.prefixLen)⟩] := by
    have rest : d.slot.drop (d.slot.length + 1) = [] := List.drop_of_length_le (by omega)
    simp only [storeKeyValue, setSlot, BTreeNode.count, List.take_length, rest]
  have count : (d.storeKeyValue d.count skey payload).count = d.count + 1 := by
    rw [BTreeNode.count, slots, List.length_append]
    rfl
  have used : (d.storeKeyValue d.count skey payload).used =
      d.used + ((skey.drop d.prefixLen).length + payload.length) := by
    rw [BTreeNode.used, slots, List.map_append, List.sum_append]
    simp only [BTreeNode.used, storeKeyValue, Slot.space, List.map_cons, List.map_nil, List.sum_cons,
      List.sum_nil]
    omega
  refine ⟨count, ?_⟩
  rw [slotEnd, slotEnd, count, used, Nat.mul_succ]
  omega

/-- Each turn of copyKeyValueRange stores a reconstructed entry, in whatever room there is. -/
theorem copy_succ (layout : n.Layout) {dst : BTreeNode} {src cnt i : ℕ} (inside : src + cnt < n.count)
    (same : (n.copyKeyValueRange dst i src cnt).prefixLen = dst.prefixLen)
    (long : dst.prefixLen ≤ (n.entry (n.slotAt (src + cnt))).1.length) :
    n.copyKeyValueRange dst i src (cnt + 1) =
      (n.copyKeyValueRange dst i src cnt).storeKeyValue (i + cnt)
        (n.entry (n.slotAt (src + cnt))).1 (n.entry (n.slotAt (src + cnt))).2 := by
  unfold copyKeyValueRange at same ⊢
  rw [List.range_succ, List.foldl_append]
  simp only [List.foldl_cons, List.foldl_nil]
  split
  · rename_i grows
    apply copyTail_eq layout inside grows
    rw [same]
    exact long
  · rfl

theorem part_succ {src cnt : ℕ} (inside : src + cnt < n.count) :
    (n.entries.drop src).take (cnt + 1) =
      (n.entries.drop src).take cnt ++ [n.entry (n.slotAt (src + cnt))] := by
  rw [List.take_add_one, List.getElem?_drop, entries_getElem? _ inside]
  rfl

theorem copy_bytes (layout : n.Layout) {dst : BTreeNode} {src cnt : ℕ} (inside : src + cnt ≤ n.count)
    (long : ∀ e ∈ (n.entries.drop src).take cnt, dst.prefixLen ≤ e.1.length) :
    (n.copyKeyValueRange dst dst.count src cnt).count = dst.count + cnt ∧
      (n.copyKeyValueRange dst dst.count src cnt).prefixLen = dst.prefixLen ∧
      (n.copyKeyValueRange dst dst.count src cnt).slotEnd +
          (n.copyKeyValueRange dst dst.count src cnt).used =
        dst.slotEnd + dst.used + need dst.prefixLen ((n.entries.drop src).take cnt) := by
  induction cnt with
  | zero => exact ⟨rfl, rfl, rfl⟩
  | succ cnt ih =>
    rw [part_succ (by omega)] at long ⊢
    obtain ⟨count, same, bytes⟩ := ih (by omega) fun e mem => long e (List.mem_append_left _ mem)
    have here := long (n.entry (n.slotAt (src + cnt))) (by simp)
    have more := store_bytes (n.copyKeyValueRange dst dst.count src cnt)
      (n.entry (n.slotAt (src + cnt))).1 (n.entry (n.slotAt (src + cnt))).2
    rw [copy_succ layout (by omega) same here]
    rw [count, same] at more
    obtain ⟨count', more⟩ := more
    refine ⟨count', same, ?_⟩
    rw [more, bytes, need_append, need_cons, need_nil]
    omega

theorem half_bytes (valid : n.Valid) (lo up : Key) {src cnt : ℕ} (inside : src + cnt ≤ n.count)
    (long : ∀ e ∈ (n.entries.drop src).take cnt, Prefix.common lo up ≤ e.1.length) (link : ℕ) :
    let half := { n.copyKeyValueRange ((new n.isLeaf).setFences lo up) 0 src cnt with
      link := link : BTreeNode }.makeHint
    half.count = cnt ∧ half.slotEnd + half.used =
      headerSize + (lo.length + up.length) +
        need (Prefix.common lo up) ((n.entries.drop src).take cnt) := by
  have blank : ((new n.isLeaf).setFences lo up).slotEnd + ((new n.isLeaf).setFences lo up).used =
      headerSize + (lo.length + up.length) := by
    simp [slotEnd, BTreeNode.used, BTreeNode.count, setFences, new]
  obtain ⟨count, _, bytes⟩ := @copy_bytes n valid.toLayout ((new n.isLeaf).setFences lo up) src cnt
    inside long
  rw [blank] at bytes
  intro half
  have zero : ((new n.isLeaf).setFences lo up).count = 0 := rfl
  rw [zero] at count bytes
  refine ⟨?_, bytes⟩
  have same : half.count = 0 + cnt := count
  omega

end Bytes

/-- Inside the fences; a leaf takes its upper fence as a key, a separator is never one. -/
def Between (leaf : Bool) (lower upper key : Key) : Prop :=
  (lower < key ∨ leaf = true ∧ lower = []) ∧ (upper = [] ∨ key < upper ∨ leaf = true ∧ key = upper)

instance (leaf : Bool) (lower upper key : Key) : Decidable (Between leaf lower upper key) :=
  inferInstanceAs (Decidable (_ ∧ _))

theorem Between.weak {leaf : Bool} {lower upper key : Key} (h : Between leaf lower upper key) :
    lower ≤ key ∧ (upper = [] ∨ key ≤ upper) := by
  obtain ⟨above, below⟩ := h
  constructor
  · rcases above with less | ⟨_, none⟩
    · exact le_of_lt less
    · rw [none]
      exact Prefix.nil_le key
  · rcases below with none | less | ⟨_, same⟩
    · exact Or.inl none
    · exact Or.inr (le_of_lt less)
    · exact Or.inr (le_of_eq same)

theorem Between.long {leaf : Bool} {lower upper key : Key} (h : Between leaf lower upper key) :
    Prefix.common lower upper ≤ key.length := within_long h.weak.1 h.weak.2

structure Formed (n : BTreeNode) : Prop where
  valid : n.Valid
  sorted : n.entries.Pairwise fun a b => a.1 < b.1
  between : ∀ e ∈ n.entries, Between n.isLeaf n.getLowerFence n.getUpperFence e.1
  wide : n.isLeaf = false → n.Wide pidSize

theorem Formed.within (formed : Formed n) : Within n where
  above e mem := (formed.between e mem).weak.1
  below := by
    by_cases none : n.getUpperFence = []
    · exact Or.inl none
    · exact Or.inr fun e mem => ((formed.between e mem).weak.2).resolve_left none

theorem Formed.ascending (formed : Formed n) : n.Ascending :=
  ascending_iff.mpr (formed.sorted.imp fun h => le_of_lt h)

theorem Formed.less (formed : Formed n) {i j : ℕ} (less : i < j) (inside : j < n.count) :
    n.fullKey i < n.fullKey j := by
  have order := List.pairwise_iff_getElem.mp formed.sorted i j (by rw [entries_length]; omega)
    (by rwa [entries_length]) less
  have first := fullKey_eq (n := n) (i := i) (by omega)
  have second := fullKey_eq (n := n) inside
  rw [List.getElem?_eq_getElem (by rw [entries_length]; omega)] at first second
  rwa [Option.some.inj first, Option.some.inj second] at order

structure Holds (h : BTreeNode) (leaf : Bool) (lo up : Key) (es : List (Key × Payload)) : Prop where
  formed : Formed h
  isLeaf : h.isLeaf = leaf
  lower : h.getLowerFence = lo
  upper : h.getUpperFence = up
  entries : h.entries = es

/-- A half that fits is well-formed again, with the entries under their longer prefix. -/
theorem half_holds (formed : Formed n) (lo up : Key) {src cnt : ℕ} (inside : src + cnt ≤ n.count)
    (between : ∀ e ∈ (n.entries.drop src).take cnt, Between n.isLeaf lo up e.1) (link : ℕ)
    (fits : ({ n.copyKeyValueRange ((new n.isLeaf).setFences lo up) 0 src cnt with
      link := link : BTreeNode }.makeHint).Fits) :
    Holds ({ n.copyKeyValueRange ((new n.isLeaf).setFences lo up) 0 src cnt with
      link := link : BTreeNode }.makeHint) n.isLeaf lo up ((n.entries.drop src).take cnt) := by
  have part : ((n.entries.drop src).take cnt).Sublist n.entries :=
    (List.take_sublist _ _).trans (List.drop_sublist _ _)
  obtain ⟨_, bytes⟩ := half_bytes formed.valid lo up inside (fun e mem => (between e mem).long) link
  unfold Fits at fits
  rw [bytes] at fits
  have packed := ((half_packed formed.valid src cnt inside
    (fun e mem => (between e mem).weak) fits).withLink link).hinted
  exact {
    formed := {
      valid := ((half_packed formed.valid src cnt inside
        (fun e mem => (between e mem).weak) fits).withLink link).valid
      sorted := by
        rw [packed.entries]
        exact formed.sorted.sublist part
      between := by
        rw [packed.entries, packed.isLeaf, packed.lower, packed.upper]
        exact between
      wide := by
        rw [packed.isLeaf]
        intro inner e mem
        rw [packed.entries] at mem
        exact formed.wide inner e (part.subset mem) }
    isLeaf := packed.isLeaf
    lower := packed.lower
    upper := packed.upper
    entries := packed.entries }

section Split
variable {parent : BTreeNode} {pid newPID i : ℕ} {sep : Key}

/-- The parent leads to this page, its child number `i`. -/
structure Routes (parent n : BTreeNode) (pid i : ℕ) : Prop where
  le : i ≤ parent.count
  child : (if i = parent.count then parent.link else parent.getChild i) = pid
  lower : n.getLowerFence = if i = 0 then parent.getLowerFence else parent.fullKey (i - 1)
  upper : n.getUpperFence = if i = parent.count then parent.getUpperFence else parent.fullKey i

/-- The separators of an inner page lie strictly between its fences. -/
theorem Formed.separator (formed : Formed n) (inner : n.isLeaf = false) {j : ℕ} (less : j < n.count) :
    n.getLowerFence < n.fullKey j ∧ (n.getUpperFence = [] ∨ n.fullKey j < n.getUpperFence) := by
  obtain ⟨above, below⟩ := formed.between _ (fullKey_mem less)
  rw [inner] at above below
  exact ⟨above.resolve_right fun h => Bool.false_ne_true h.1,
    below.imp id fun h => h.resolve_right fun h => Bool.false_ne_true h.1⟩

/-- A separator between the page's own keys, below its upper fence, lies between those of the parent. -/
theorem Routes.beside (routes : Routes parent n pid i) (formed : Formed parent)
    (inner : parent.isLeaf = false) (above : n.getLowerFence < sep ∨ n.getLowerFence = [])
    (below : n.getUpperFence = [] ∨ sep < n.getUpperFence) :
    (∀ j < i, parent.fullKey j < sep) ∧ ∀ j, i ≤ j → j < parent.count → sep < parent.fullKey j := by
  have le := routes.le
  have lower := routes.lower
  have upper := routes.upper
  constructor
  · intro j less
    rw [if_neg (by omega)] at lower
    -- no separator is empty, so an empty lower fence is the parent's own
    have last := (formed.separator inner (j := i - 1) (by omega)).1
    have above : parent.fullKey (i - 1) < sep := by
      rw [lower] at above
      refine above.resolve_right fun none => ?_
      rw [none] at last
      exact absurd last (List.not_lt_nil _)
    rcases Nat.eq_or_lt_of_le (show j ≤ i - 1 by omega) with rfl | before
    · exact above
    · exact lt_trans (formed.less before (by omega)) above
  · intro j more inside
    rw [if_neg (by omega)] at upper
    have first := (formed.separator inner (j := i) (by omega)).1
    have below : sep < parent.fullKey i := by
      rw [upper] at below
      refine below.resolve_left fun none => ?_
      rw [none] at first
      exact absurd first (List.not_lt_nil _)
    rcases Nat.eq_or_lt_of_le more with rfl | behind
    · exact below
    · exact lt_trans below (formed.less behind inside)

theorem Routes.between (routes : Routes parent n pid i) (formed : Formed parent)
    (inner : parent.isLeaf = false) (above : n.getLowerFence < sep ∨ n.getLowerFence = [])
    (below : n.getUpperFence = [] ∨ sep < n.getUpperFence) :
    (parent.getLowerFence < sep ∨ parent.getLowerFence = []) ∧
      (parent.getUpperFence = [] ∨ sep < parent.getUpperFence) := by
  obtain ⟨low, high⟩ := routes.beside formed inner above below
  have le := routes.le
  have lower := routes.lower
  have upper := routes.upper
  constructor
  · rcases Nat.eq_zero_or_pos i with zero | pos
    · rw [if_pos zero] at lower
      rwa [← lower]
    · exact Or.inl (lt_trans (formed.separator inner (by omega)).1 (low (i - 1) (by omega)))
  · by_cases last : i = parent.count
    · rw [if_pos last] at upper
      rwa [← upper]
    · have inside : i < parent.count := by omega
      exact (formed.separator inner inside).2.imp id (lt_trans (high i (le_refl _) inside))

theorem Routes.fresh (routes : Routes parent n pid i) (formed : Formed parent)
    (inner : parent.isLeaf = false) (above : n.getLowerFence < sep ∨ n.getLowerFence = [])
    (below : n.getUpperFence = [] ∨ sep < n.getUpperFence) :
    (∀ e ∈ parent.entries, e.1 ≠ sep) ∧ Place parent.entries sep i ∧
      sep.take parent.prefixLen = parent.getPrefix := by
  obtain ⟨low, high⟩ := routes.beside formed inner above below
  obtain ⟨lower, upper⟩ := routes.between formed inner above below
  have covers : parent.getLowerFence ≤ sep := by
    rcases lower with less | none
    · exact le_of_lt less
    · rw [none]
      exact Prefix.nil_le sep
  refine ⟨?_, ⟨?_, ?_, ?_⟩, ?_⟩
  · intro e mem same
    obtain ⟨j, _, inside, rfl⟩ := drop_entries (i := 0) (by simpa using mem)
    rcases Nat.lt_or_ge j i with before | behind
    · exact absurd same (ne_of_lt (low j before))
    · exact absurd same (ne_of_gt (high j behind inside))
  · rw [entries_length]
    exact routes.le
  · intro e mem
    obtain ⟨j, less, _, rfl⟩ := take_entries mem
    exact le_of_lt (low j less)
  · intro e mem
    obtain ⟨j, more, inside, rfl⟩ := drop_entries mem
    exact le_of_lt (high j more inside)
  · rw [getPrefix_eq formed.valid.toCoded, formed.valid.toCoded.prefixLen]
    exact within_fits covers (upper.imp id fun h => le_of_lt h)

theorem Routes.adopted (routes : Routes parent n pid i) (formed : Formed parent)
    (inner : parent.isLeaf = false) (above : n.getLowerFence < sep ∨ n.getLowerFence = [])
    (below : n.getUpperFence = [] ∨ sep < n.getUpperFence) (small : sep.length < 2 ^ 32)
    (space : parent.hasSpaceFor sep.length pidSize = true) (old : pid < 2 ^ 64)
    (fresh : newPID < 2 ^ 64) : Adopted parent (adopt parent sep pid newPID) sep pid newPID i := by
  obtain ⟨absent, place, fits⟩ := routes.fresh formed inner above below
  have adopted := adopt_adopted formed.valid (formed.wide inner) formed.sorted absent fits small
    space old fresh
  have found := lowerBound_place formed.valid (formed.sorted.imp fun h => le_of_lt h) sep
  rwa [place_unique found place absent] at adopted

/-- The pages that a split at `slot` makes of a page and its parent, whose child `i` it was. -/
structure Divides (n parent l r p : BTreeNode) (slot : ℕ) (sep : Key) (pid newPID i : ℕ) : Prop where
  low : n.isLeaf = true → n.fullKey slot ≤ sep ∧ sep < n.fullKey (slot + 1)
  middle : n.isLeaf = false → sep = n.fullKey slot
  left : Holds l n.isLeaf n.getLowerFence sep l.entries
  right : Holds r n.isLeaf sep n.getUpperFence r.entries
  leaf : n.isLeaf = true → l.entries ++ r.entries = n.entries ∧ l.link = newPID
  inner : n.isLeaf = false → l.entries ++ (sep, n.getPayload slot) :: r.entries = n.entries ∧
    l.link = n.getChild slot
  link : r.link = n.link
  parent : Adopted parent p sep pid newPID i

theorem Holds.self {h : BTreeNode} {leaf : Bool} {lo up : Key} {es : List (Key × Payload)}
    (holds : Holds h leaf lo up es) : Holds h leaf lo up h.entries :=
  ⟨holds.formed, holds.isLeaf, holds.lower, holds.upper, rfl⟩

theorem fullKey_short (valid : n.Valid) {j : ℕ} (inside : j < n.count) :
    (n.fullKey j).length ≤ 4096 + 4096 := by
  have slot := slot_small valid.toLayout (slotAt_mem inside)
  have pre := prefixLen_small valid
  have plen : n.getPrefix.length = n.prefixLen := getPrefix_length
  unfold Slot.space at slot
  rw [fullKey, List.length_append, plen, getKey_length]
  omega

theorem splitNode_leaf_divides (formed : Formed n) (leaf : n.isLeaf = true) (routes : Routes parent n pid i)
    (above : Formed parent) (inner : parent.isLeaf = false) (old : pid < 2 ^ 64) (fresh : newPID < 2 ^ 64)
    {slot : ℕ} (inside : slot + 1 < n.count) (separates : Separates n slot sep)
    (fits : (n.splitNode pid newPID parent slot sep).1.Fits ∧
      (n.splitNode pid newPID parent slot sep).2.1.Fits)
    (space : parent.hasSpaceFor sep.length pidSize = true) :
    Divides n parent (n.splitNode pid newPID parent slot sep).1
      (n.splitNode pid newPID parent slot sep).2.1 (n.splitNode pid newPID parent slot sep).2.2
      slot sep pid newPID i := by
  have distinct := formed.less (Nat.lt_succ_self slot) inside
  have high := separates.apart (ne_of_lt distinct)
  have low := separates.low
  have before : ∀ e ∈ n.entries.take (slot + 1), Between n.isLeaf n.getLowerFence sep e.1 := by
    intro e mem
    refine ⟨(formed.between e (List.mem_of_mem_take mem)).1, Or.inr ?_⟩
    obtain ⟨j, less, _, rfl⟩ := take_entries mem
    rcases lt_or_eq_of_le (le_trans (formed.ascending j slot (by omega) (by omega)) low) with h | h
    · exact Or.inl h
    · exact Or.inr ⟨leaf, h⟩
  have behind : ∀ e ∈ n.entries.drop (slot + 1), Between n.isLeaf sep n.getUpperFence e.1 := by
    intro e mem
    refine ⟨Or.inl ?_, (formed.between e (List.mem_of_mem_drop mem)).2⟩
    obtain ⟨j, more, there, rfl⟩ := drop_entries mem
    exact lt_of_lt_of_le high (formed.ascending (slot + 1) j more there)
  have first := (formed.between _ (fullKey_mem (show slot < n.count by omega))).1
  have second := (formed.between _ (fullKey_mem inside)).weak.2
  have size : sep.length < 2 ^ 32 := by
    have := fullKey_short formed.valid (show slot < n.count by omega)
    have := fullKey_short formed.valid inside
    have := separates.short
    omega
  have adopted := routes.adopted above inner
    (first.imp (fun h => lt_of_lt_of_le h low) fun h => h.2)
    (second.imp id fun h => lt_of_lt_of_le high h) size space old fresh
  have eq : n.splitNode pid newPID parent slot sep = _ := splitNode_leaf_eq leaf pid newPID parent
  have count : (n.copyKeyValueRange ((new n.isLeaf).setFences n.getLowerFence sep) 0 0
      (slot + 1)).count = slot + 1 :=
    (@half_bytes n formed.valid n.getLowerFence sep 0 (slot + 1) (by omega)
      (fun e mem => (before e mem).long) n.link).1
  dsimp only at eq
  rw [count] at eq
  rw [eq] at fits ⊢
  have rest : (n.entries.drop (slot + 1)).take (n.count - (slot + 1)) = n.entries.drop (slot + 1) :=
    List.take_of_length_le (by rw [List.length_drop, entries_length])
  have l := @half_holds n formed n.getLowerFence sep 0 (slot + 1) (by omega) before newPID fits.1
  have r := half_holds formed sep n.getUpperFence (by omega) (by rwa [rest]) n.link fits.2
  rw [rest] at r
  rw [List.drop_zero] at l
  exact {
    low := fun _ => ⟨low, high⟩
    middle := fun h => absurd (leaf.symm.trans h) (by decide)
    left := l.self
    right := r.self
    leaf := fun _ => ⟨by rw [l.entries, r.entries, List.take_append_drop], rfl⟩
    inner := fun h => absurd (leaf.symm.trans h) (by decide)
    link := rfl
    parent := adopted }

theorem splitNode_inner_divides (formed : Formed n) (inner' : n.isLeaf = false)
    (routes : Routes parent n pid i) (above : Formed parent) (inner : parent.isLeaf = false)
    (old : pid < 2 ^ 64) (fresh : newPID < 2 ^ 64) {slot : ℕ} (inside : slot < n.count)
    (same : sep = n.fullKey slot)
    (fits : (n.splitNode pid newPID parent slot sep).1.Fits ∧
      (n.splitNode pid newPID parent slot sep).2.1.Fits)
    (space : parent.hasSpaceFor sep.length pidSize = true) :
    Divides n parent (n.splitNode pid newPID parent slot sep).1
      (n.splitNode pid newPID parent slot sep).2.1 (n.splitNode pid newPID parent slot sep).2.2
      slot sep pid newPID i := by
  subst same
  have before : ∀ e ∈ n.entries.take slot,
      Between n.isLeaf n.getLowerFence (n.fullKey slot) e.1 := by
    intro e mem
    refine ⟨(formed.between e (List.mem_of_mem_take mem)).1, Or.inr (Or.inl ?_)⟩
    obtain ⟨j, less, _, rfl⟩ := take_entries mem
    exact formed.less less inside
  have behind : ∀ e ∈ n.entries.drop (slot + 1),
      Between n.isLeaf (n.fullKey slot) n.getUpperFence e.1 := by
    intro e mem
    refine ⟨Or.inl ?_, (formed.between e (List.mem_of_mem_drop mem)).2⟩
    obtain ⟨j, more, there, rfl⟩ := drop_entries mem
    exact formed.less (by omega) there
  obtain ⟨first, second⟩ := formed.between _ (fullKey_mem inside)
  have size : (n.fullKey slot).length < 2 ^ 32 := by
    have := fullKey_short formed.valid inside
    omega
  have adopted := routes.adopted above inner (first.imp id fun h => h.2)
    (second.imp id fun h => h.resolve_right fun h => absurd (inner'.symm.trans h.1) (by decide))
    size space old fresh
  have eq : n.splitNode pid newPID parent slot (n.fullKey slot) = _ :=
    splitNode_inner_eq inner' pid newPID parent slot (n.fullKey slot)
  have count : (n.copyKeyValueRange ((new n.isLeaf).setFences n.getLowerFence (n.fullKey slot)) 0 0
      slot).count = slot :=
    (@half_bytes n formed.valid n.getLowerFence (n.fullKey slot) 0 slot (by omega)
      (fun e mem => (before e mem).long) n.link).1
  dsimp only at eq
  rw [count] at eq
  rw [eq] at fits ⊢
  have rest : (n.entries.drop (slot + 1)).take (n.count - slot - 1) = n.entries.drop (slot + 1) :=
    List.take_of_length_le (by rw [List.length_drop, entries_length]; omega)
  have l := @half_holds n formed n.getLowerFence (n.fullKey slot) 0 slot (by omega) before
    (n.getChild slot) fits.1
  have r := half_holds formed (n.fullKey slot) n.getUpperFence (by omega) (by rwa [rest]) n.link
    fits.2
  rw [rest] at r
  rw [List.drop_zero] at l
  exact {
    low := fun h => absurd (inner'.symm.trans h) (by decide)
    middle := fun _ => rfl
    left := l.self
    right := r.self
    leaf := fun h => absurd (inner'.symm.trans h) (by decide)
    inner := fun _ => ⟨by rw [l.entries, r.entries, entries_at inside], rfl⟩
    link := rfl
    parent := adopted }

/-- A split whose halves fit keeps every entry, in order, and the tree's way to it. -/
theorem splitNode_halves (formed : Formed n) (some : 2 ≤ n.count) (splitOrdered : Bool)
    (above : Formed parent) (inner : parent.isLeaf = false) (routes : Routes parent n pid i)
    (old : pid < 2 ^ 64) (fresh : newPID < 2 ^ 64)
    (fits : (n.splitNode pid newPID parent (n.findSeparator splitOrdered).slot
        (n.getSep (n.findSeparator splitOrdered))).1.Fits ∧
      (n.splitNode pid newPID parent (n.findSeparator splitOrdered).slot
        (n.getSep (n.findSeparator splitOrdered))).2.1.Fits)
    (space : parent.hasSpaceFor (n.getSep (n.findSeparator splitOrdered)).length pidSize = true) :
    let info := n.findSeparator splitOrdered
    let pages := n.splitNode pid newPID parent info.slot (n.getSep info)
    Divides n parent pages.1 pages.2.1 pages.2.2 info.slot (n.getSep info) pid newPID i := by
  intro info pages
  cases leaf : n.isLeaf with
  | true =>
    have inside := bestSlot_inside splitOrdered some
    have slot : info.slot = n.bestSlot splitOrdered := (getSep_leaf leaf splitOrdered inside).1
    have separates := getSep_separates leaf splitOrdered some formed.ascending
    rw [← slot] at separates inside
    exact splitNode_leaf_divides formed leaf routes above inner old fresh inside separates fits space
  | false =>
    obtain ⟨slot, _, sep⟩ := findSeparator_inner splitOrdered leaf
    have same : n.getSep info = n.fullKey info.slot := by rw [slot, sep]
    have there : info.slot < n.count := by
      rw [slot]
      omega
    exact splitNode_inner_divides formed leaf routes above inner old fresh there same fits space

end Split

end BTreeNode
end BTree
