import OsvBenchmarks.BTree.SplitPoint

/-!
A page without space for an entry, and the split that it gets: the separator is
one that its parent can take, and each half is smaller and has its share of room.
-/
namespace BTree
namespace BTreeNode
variable {n parent : BTreeNode} {w pid newPID i : ℕ}

/-- The payloads that a page has: records of one size, or children. -/
def width (n : BTreeNode) (w : ℕ) : ℕ := if n.isLeaf then w else pidSize

def entryCap (n : BTreeNode) : ℕ := if n.isLeaf then maxKVSize else maxKeyLen + pidSize

/-- There may be an entry that the page has no space for. -/
def Full (n : BTreeNode) : Prop := pageSize < headerSize + n.getLowerFence.length +
  n.getUpperFence.length + need n.prefixLen n.entries + (slotSize + n.entryCap)

theorem full_of_no_space (valid : n.Valid) {key : Key} {payloadLen : ℕ}
    (long : n.prefixLen ≤ key.length) (cap : key.length + payloadLen ≤ n.entryCap)
    (none : n.hasSpaceFor key.length payloadLen = false) : Full n := by
  have small : n.entryCap ≤ 993 := by
    unfold entryCap
    split
    · decide
    · decide
  exact full_bytes valid long (by omega) cap none

theorem full_iff_not_roomy (inner : n.isLeaf = false) : Full n ↔ ¬ Roomy n := by
  unfold Full Roomy entryCap
  rw [inner]
  exact not_le.symm

theorem count_small (valid : n.Valid) : n.count ≤ 399 := by
  have small := valid.toLayout.small
  simp only [headerSize, slotSize] at small
  omega

/-- What splitNode and the parent ask of a separator. -/
structure Separator (n : BTreeNode) (info : SeparatorInfo) (sep : Key) : Prop where
  several : 1 < n.count
  first : 0 < info.slot
  inside : info.slot < n.count
  last : info.slot < pageSize / pidSize
  len : sep.length = info.len
  some : sep ≠ []
  short : sep.length ≤ maxKeyLen
  above : n.getLowerFence < sep ∨ n.getLowerFence = []
  below : n.getUpperFence = [] ∨ sep < n.getUpperFence

theorem Separator.cuts {info : SeparatorInfo} {sep : Key} (separator : Separator n info sep) :
    Cuts n info.slot sep := ⟨separator.inside, separator.some, separator.above, separator.below⟩

theorem separator_of_cuts (formed : Formed n) (point : n.SplitPoint false)
    (short : (n.getSep (n.findSeparator false)).length ≤ maxKeyLen) :
    Separator n (n.findSeparator false) (n.getSep (n.findSeparator false)) := by
  have cuts := formed.cuts point
  have most := count_small formed.valid
  have inside := cuts.inside
  have page : pageSize / pidSize = 512 := by decide
  exact {
    several := point.1
    first := point.2.1
    inside := inside
    last := by omega
    len := getSep_length false point.1
    some := cuts.some
    short := short
    above := cuts.above
    below := cuts.below }

theorem full_leaf_separator (formed : Formed n) (leaf : n.isLeaf = true) (bounded : Bounded n w)
    (full : Full n) : Separator n (n.findSeparator false) (n.getSep (n.findSeparator false)) := by
  have three : 3 ≤ n.count := full_leaf bounded (by
    rw [Full, entryCap, leaf] at full
    exact full)
  have some : 2 ≤ n.count := by omega
  have point : n.SplitPoint false :=
    splitPoint_iff.mpr ⟨fun _ => three, fun inner => absurd (leaf.symm.trans inner) (by decide)⟩
  have separates := getSep_separates leaf false some formed.ascending
  obtain ⟨_, _, _, short⟩ := separator_within bounded formed.within separates (bestSlot_inside false some)
  exact separator_of_cuts formed point short

theorem full_inner_separator (formed : Formed n) (inner : n.isLeaf = false)
    (bounded : Bounded n pidSize) (full : Full n) :
    Separator n (n.findSeparator false) (n.getSep (n.findSeparator false)) := by
  have many : 47 ≤ n.count := full_inner bounded (by
    rw [Full, entryCap, inner] at full
    exact full)
  have point : n.SplitPoint false :=
    splitPoint_iff.mpr ⟨fun leaf => absurd (leaf.symm.trans inner) (by decide), fun _ => by omega⟩
  have middle := fullKey_mem (n := n) (i := n.count / 2) (by omega)
  obtain ⟨_, short, _⟩ := bounded.keys _ middle
  have sep := (findSeparator_inner (n := n) false inner).2.2
  exact separator_of_cuts formed point (by rwa [sep])

theorem full_separator (formed : Formed n) (bounded : Bounded n (n.width w)) (full : Full n) :
    Separator n (n.findSeparator false) (n.getSep (n.findSeparator false)) := by
  cases leaf : n.isLeaf with
  | true => exact full_leaf_separator formed leaf bounded full
  | false =>
    rw [width, leaf] at bounded
    exact full_inner_separator formed leaf bounded full

theorem valid_fits (valid : n.Valid) : n.Fits := by
  have fits := valid.toLayout.fits
  have room := valid.toLayout.room
  unfold Fits
  omega

theorem Bounded.part {h : BTreeNode} {leaf : Bool} {lo up : Key} {es : List (Key × Payload)}
    (bounded : Bounded n w) (packed : Packed h leaf lo up es) (sub : es.Sublist n.entries)
    (lower : lo.length ≤ maxKeyLen) (upper : up.length ≤ maxKeyLen) : Bounded h w where
  lower := by rwa [packed.lower]
  upper := by rwa [packed.upper]
  keys e mem := bounded.keys e (sub.subset (packed.entries ▸ mem))
  payloads e mem := bounded.payloads e (sub.subset (packed.entries ▸ mem))

structure Relieves (n l r : BTreeNode) (w : ℕ) : Prop where
  left : Bounded l (n.width w)
  right : Bounded r (n.width w)
  fewer : n.isLeaf = true → l.count < n.count ∧ r.count < n.count
  roomy : n.isLeaf = false → Roomy l ∧ Roomy r

theorem full_leaf_splits (formed : Formed n) (leaf : n.isLeaf = true) (bounded : Bounded n w)
    (full : Full n) (above : Formed parent) (inner : parent.isLeaf = false)
    (routes : Routes parent n pid i) (old : pid < 2 ^ 64) (fresh : newPID < 2 ^ 64)
    (space : parent.hasSpaceFor (n.getSep (n.findSeparator false)).length pidSize = true) :
    let info := n.findSeparator false
    let pages := n.splitNode pid newPID parent info.slot (n.getSep info)
    Divides n parent pages.1 pages.2.1 pages.2.2 info.slot (n.getSep info) pid newPID i ∧
      Relieves n pages.1 pages.2.1 w := by
  intro info pages
  have separator := full_leaf_separator formed leaf bounded full
  have several := separator.several
  have inside := bestSlot_inside (n := n) false (by omega)
  have slot : info.slot = n.bestSlot false := (getSep_leaf leaf false inside).1
  have separates := getSep_separates leaf false (by omega) formed.ascending
  obtain ⟨l, r, eq, halved, _⟩ := splitNode_leaf formed.valid leaf bounded formed.within
    formed.ascending (by rw [Full, entryCap, leaf] at full; exact full) pid newPID parent
  have same : pages = (l, r, adopt parent (n.getSep info) pid newPID) := by
    rw [← eq, ← slot]
  have divides := splitNode_leaf_divides formed leaf routes above inner old fresh
    (show info.slot + 1 < n.count by omega) (slot ▸ separates)
    (by
      change pages.1.Fits ∧ pages.2.1.Fits
      rw [same]
      exact ⟨valid_fits halved.left_valid, valid_fits halved.right_valid⟩) space
  have left := halved.left.count
  have right := halved.right.count
  rw [List.length_take, entries_length] at left
  rw [List.length_drop, entries_length] at right
  refine ⟨divides, ?_⟩
  rw [same]
  exact {
    left := by
      rw [width, leaf]
      exact bounded.part halved.left (List.take_sublist _ _) bounded.lower separator.short
    right := by
      rw [width, leaf]
      exact bounded.part halved.right (List.drop_sublist _ _) separator.short bounded.upper
    fewer := fun _ => by
      simp only
      omega
    roomy := fun h => absurd (leaf.symm.trans h) (by decide) }

theorem full_inner_splits (formed : Formed n) (inner' : n.isLeaf = false)
    (bounded : Bounded n pidSize) (full : Full n) (above : Formed parent)
    (inner : parent.isLeaf = false) (routes : Routes parent n pid i) (old : pid < 2 ^ 64)
    (fresh : newPID < 2 ^ 64)
    (space : parent.hasSpaceFor (n.getSep (n.findSeparator false)).length pidSize = true) :
    let info := n.findSeparator false
    let pages := n.splitNode pid newPID parent info.slot (n.getSep info)
    Divides n parent pages.1 pages.2.1 pages.2.2 info.slot (n.getSep info) pid newPID i ∧
      Relieves n pages.1 pages.2.1 w := by
  intro info pages
  have separator := full_inner_separator formed inner' bounded full
  obtain ⟨slot, _, sep⟩ := findSeparator_inner false inner'
  obtain ⟨l, r, eq, halved, inside, _, _, roomy⟩ := splitNode_inner formed.valid inner' bounded
    formed.within formed.sorted (by rw [Full, entryCap, inner'] at full; exact full) pid newPID parent
  have same : pages = (l, r, adopt parent (n.getSep info) pid newPID) := by
    change n.splitNode pid newPID parent info.slot (n.getSep info) = _
    rw [sep, slot]
    exact eq
  have divides := splitNode_inner_divides formed inner' routes above inner old fresh
    (show info.slot < n.count by rw [slot]; exact inside) (sep.trans (by rw [slot]))
    (by
      change pages.1.Fits ∧ pages.2.1.Fits
      rw [same]
      exact ⟨valid_fits halved.left_valid, valid_fits halved.right_valid⟩) space
  refine ⟨divides, ?_⟩
  rw [same]
  rw [← sep] at halved
  exact {
    left := by
      rw [width, inner']
      exact bounded.part halved.left (List.take_sublist _ _) bounded.lower separator.short
    right := by
      rw [width, inner']
      exact bounded.part halved.right (List.drop_sublist _ _) separator.short bounded.upper
    fewer := fun h => absurd (inner'.symm.trans h) (by decide)
    roomy := fun _ => roomy }

/-- A full page splits into halves that are well-formed, in bounds and less full. -/
theorem full_splits (formed : Formed n) (bounded : Bounded n (n.width w)) (full : Full n)
    (above : Formed parent) (inner : parent.isLeaf = false) (routes : Routes parent n pid i)
    (old : pid < 2 ^ 64) (fresh : newPID < 2 ^ 64)
    (space : parent.hasSpaceFor (n.getSep (n.findSeparator false)).length pidSize = true) :
    let info := n.findSeparator false
    let pages := n.splitNode pid newPID parent info.slot (n.getSep info)
    Divides n parent pages.1 pages.2.1 pages.2.2 info.slot (n.getSep info) pid newPID i ∧
      Relieves n pages.1 pages.2.1 w := by
  cases leaf : n.isLeaf with
  | true =>
    rw [width, leaf] at bounded
    exact full_leaf_splits formed leaf bounded full above inner routes old fresh space
  | false =>
    rw [width, leaf] at bounded
    exact full_inner_splits formed leaf bounded full above inner routes old fresh space

section Insert
variable {r : BTreeNode} {key sep : Key} {payload : Payload}

theorem strict_insert {ks : List Key} {k : Key} (sorted : ks.Pairwise (· < ·))
    (low : ∀ a ∈ ks.take i, a < k) (high : ∀ a ∈ ks.drop i, k < a) :
    (ks.take i ++ k :: ks.drop i).Pairwise (· < ·) := by
  have whole := sorted
  rw [← List.take_append_drop i ks, List.pairwise_append] at whole
  obtain ⟨left, right, _⟩ := whole
  rw [List.pairwise_append]
  refine ⟨left, List.pairwise_cons.mpr ⟨high, right⟩, ?_⟩
  intro a before b behind
  rcases List.mem_cons.mp behind with rfl | behind
  · exact low a before
  · exact lt_trans (low a before) (high b behind)

/-- The keys of a page and one more, in its place, are those of the other. -/
structure Gains (n r : BTreeNode) (key : Key) (i : ℕ) : Prop where
  valid : r.Valid
  isLeaf : r.isLeaf = n.isLeaf
  lower : r.getLowerFence = n.getLowerFence
  upper : r.getUpperFence = n.getUpperFence
  keys : r.entries.map Prod.fst = (n.entries.map Prod.fst).take i ++ key :: (n.entries.map Prod.fst).drop i
  low : ∀ k ∈ (n.entries.map Prod.fst).take i, k < key
  high : ∀ k ∈ (n.entries.map Prod.fst).drop i, key < k

theorem Gains.mem (gains : Gains n r key i) {e : Key × Payload} (mem : e ∈ r.entries) :
    e.1 = key ∨ ∃ e' ∈ n.entries, e'.1 = e.1 := by
  have there : e.1 ∈ r.entries.map Prod.fst := List.mem_map_of_mem mem
  rw [gains.keys, List.mem_append, List.mem_cons] at there
  rcases there with before | here | behind
  · exact Or.inr (List.mem_map.mp (List.mem_of_mem_take before))
  · exact Or.inl here
  · exact Or.inr (List.mem_map.mp (List.mem_of_mem_drop behind))

theorem Gains.formed (gains : Gains n r key i) (formed : Formed n) (wide : r.isLeaf = false → r.Wide pidSize)
    (between : Between n.isLeaf n.getLowerFence n.getUpperFence key) : Formed r where
  valid := gains.valid
  sorted := by
    have old : (n.entries.map Prod.fst).Pairwise (· < ·) := List.pairwise_map.mpr formed.sorted
    have new : (r.entries.map Prod.fst).Pairwise (· < ·) := by
      rw [gains.keys]
      exact strict_insert old gains.low gains.high
    exact List.pairwise_map.mp new
  between e mem := by
    rw [gains.isLeaf, gains.lower, gains.upper]
    rcases gains.mem mem with same | ⟨e', old, same⟩
    · rwa [same]
    · rw [← same]
      exact formed.between e' old
  wide := wide

theorem Gains.bounded (gains : Gains n r key i) (bounded : Bounded n w) (wide : r.Wide w)
    (fits : key ≠ [] ∧ key.length ≤ maxKeyLen ∧ key.length + w ≤ maxKVSize) : Bounded r w where
  lower := gains.lower ▸ bounded.lower
  upper := gains.upper ▸ bounded.upper
  keys e mem := by
    rcases gains.mem mem with same | ⟨e', old, same⟩
    · rwa [same]
    · rw [← same]
      exact bounded.keys e' old
  payloads := wide

theorem Inserted.gains (step : Inserted n r key payload i) (absent : ∀ e ∈ n.entries, e.1 ≠ key) :
    Gains n r key i where
  valid := step.valid
  isLeaf := step.isLeaf
  lower := step.lower
  upper := step.upper
  keys := by rw [step.entries, List.map_append, List.map_cons, List.map_take, List.map_drop]
  low k mem := by
    rw [← List.map_take] at mem
    obtain ⟨e, here, rfl⟩ := List.mem_map.mp mem
    exact lt_of_le_of_ne (step.place.low e here) (absent e (List.mem_of_mem_take here))
  high k mem := by
    rw [← List.map_drop] at mem
    obtain ⟨e, here, rfl⟩ := List.mem_map.mp mem
    exact lt_of_le_of_ne (step.place.high e here) (absent e (List.mem_of_mem_drop here)).symm

theorem children_keys (n : BTreeNode) : n.children.map Prod.fst = n.entries.map Prod.fst := by
  simp [children]

theorem Adopted.gains (adopted : Adopted n r sep pid newPID i) : Gains n r sep i where
  valid := adopted.valid
  isLeaf := adopted.isLeaf
  lower := adopted.lower
  upper := adopted.upper
  keys := by
    rw [← children_keys r, ← children_keys n]
    rcases Nat.eq_or_lt_of_le adopted.le with last | inside
    · rw [(adopted.last last).1, last, List.map_append, List.take_of_length_le (by simp),
        List.drop_of_length_le (by simp)]
      rfl
    · have here : i < n.children.length := by rwa [children_length]
      have behind := List.drop_eq_getElem_cons here
      rw [(adopted.inside _ _ (List.getElem?_eq_getElem here)).1, ← List.map_take, ← List.map_drop, behind]
      simp only [List.map_append, List.map_cons]
      rfl
  low k mem := by
    rw [← children_keys n, ← List.map_take] at mem
    obtain ⟨e, here, rfl⟩ := List.mem_map.mp mem
    exact adopted.low e here
  high k mem := by
    rw [← children_keys n, ← List.map_drop] at mem
    obtain ⟨e, here, rfl⟩ := List.mem_map.mp mem
    exact adopted.high e here

/-- A separator lies strictly between the fences of an inner page. -/
theorem between_strict {lower upper : Key} (leaf : Bool) (some : sep ≠ []) (above : lower < sep ∨ lower = [])
    (below : upper = [] ∨ sep < upper) : Between leaf lower upper sep := by
  refine ⟨Or.inl (above.elim id fun none => ?_), below.imp id Or.inl⟩
  rw [none]
  exact lt_of_le_of_ne (Prefix.nil_le sep) some.symm

end Insert

section New
variable (isLeaf : Bool) (link : ℕ)

theorem new_formed : Formed { new isLeaf with link := link } where
  valid := (link_repointed (new_valid isLeaf) fun _ none => absurd none List.not_mem_nil).valid
  sorted := List.Pairwise.nil
  between := fun _ none => absurd none List.not_mem_nil
  wide := fun _ _ none => absurd none List.not_mem_nil

theorem new_bounded (w : ℕ) : Bounded { new isLeaf with link := link } w where
  lower := Nat.zero_le _
  upper := Nat.zero_le _
  keys := fun _ none => absurd none List.not_mem_nil
  payloads := fun _ none => absurd none List.not_mem_nil

theorem new_roomy : Roomy { new isLeaf with link := link } := by
  change headerSize + 0 + 0 + 0 + (slotSize + (maxKeyLen + pidSize)) ≤ pageSize
  decide

end New

end BTreeNode
end BTree
