import OsvBenchmarks.BTree.Budget
import OsvBenchmarks.BTree.FullPage

/-!
Pages with entries of any lengths that insert takes. One without space has two
entries, or one if it is an inner page; where it can be split and a leaf pays
for it, its halves are such pages again.
-/
namespace BTree
namespace BTreeNode
variable {n : BTreeNode} {splitOrdered : Bool}

/-- A page whose entries and fences are as short as insert demands. -/
structure Sized (n : BTreeNode) : Prop where
  lower : n.getLowerFence.length ≤ maxKVSize
  upper : n.getUpperFence.length ≤ maxKVSize
  keys : ∀ e ∈ n.entries, e.1.length ≤ maxKVSize
  small : n.isLeaf = true → ∀ e ∈ n.entries, e.1.length + e.2.length ≤ maxKVSize

theorem Sized.sound (sized : Sized n) (formed : Formed n) (leaf : n.isLeaf = true) : Sound n where
  leaf := leaf
  valid := formed.valid
  within := formed.within
  sorted := formed.sorted.imp fun h => le_of_lt h
  small := sized.small leaf
  lower := sized.lower
  upper := sized.upper

theorem new_sized (isLeaf : Bool) (link : ℕ) : Sized { new isLeaf with link := link } where
  lower := Nat.zero_le _
  upper := Nat.zero_le _
  keys := fun _ none => absurd none List.not_mem_nil
  small := fun _ _ none => absurd none List.not_mem_nil

theorem Bounded.sized {w : ℕ} (bounded : Bounded n (n.width w)) : Sized n where
  lower := le_trans bounded.lower (by decide)
  upper := le_trans bounded.upper (by decide)
  keys e mem := le_trans (bounded.keys e mem).2.1 (by decide)
  small _ e mem := by
    rw [bounded.payloads e mem]
    exact (bounded.keys e mem).2.2

theorem Sized.one (sized : Sized n) (formed : Formed n) {key : Key} (covers : n.Covers key)
    (short : key.length ≤ maxKVSize) (full : n.hasSpaceFor key.length pidSize = false) :
    1 ≤ n.count := by
  have long : n.prefixLen ≤ key.length := by
    rw [formed.valid.toCoded.prefixLen]
    exact within_long covers.1 covers.2
  have size : maxKVSize = 993 := by decide
  have more := full_bytes (b := maxKVSize + pidSize) formed.valid long (by omega) (by omega) full
  have lower := sized.lower
  have upper := sized.upper
  by_contra none
  have empty : n.entries = [] := List.length_eq_zero_iff.mp (by rw [entries_length]; omega)
  rw [empty, need_nil] at more
  simp only [slotSize, pageSize, headerSize, pidSize] at *
  omega

/-- The bytes of the longest entry that a page can be given: a leaf's by insert, an inner page's by
a split. -/
def longest (n : BTreeNode) : ℕ := maxKVSize + if n.isLeaf then 0 else pidSize

/-- Three of a leaf's longest entries, or two of an inner page's, fit between its fences, without what
they share with these. -/
def Spacious (n : BTreeNode) : Prop :=
  headerSize + n.getLowerFence.length + n.getUpperFence.length +
    (if n.isLeaf then 3 else 2) * (slotSize + n.longest - n.prefixLen) ≤ pageSize

instance (n : BTreeNode) : Decidable n.Spacious := inferInstanceAs (Decidable (_ ≤ _))

/-- Entries of limited length that all begin with the page's prefix. -/
theorem need_most {p b : ℕ} {es : List (Key × Payload)} (long : ∀ e ∈ es, p ≤ e.1.length)
    (bound : ∀ e ∈ es, e.1.length + e.2.length ≤ b) : need p es ≤ (slotSize + b - p) * es.length := by
  induction es with
  | nil => simp
  | cons e es ih =>
    have first := bound e (by simp)
    have covers := long e (by simp)
    have rest := ih (fun e mem => long e (by simp [mem])) fun e mem => bound e (by simp [mem])
    rw [need_cons, List.length_cons, Nat.mul_succ, List.length_drop]
    omega

theorem Sized.entry (sized : Sized n) (formed : Formed n) {e : Key × Payload} (mem : e ∈ n.entries) :
    e.1.length + e.2.length ≤ n.longest := by
  unfold longest
  cases leaf : n.isLeaf with
  | true => exact sized.small leaf e mem
  | false =>
    have key := sized.keys e mem
    have width := formed.wide leaf e mem
    rw [if_neg Bool.false_ne_true]
    omega

theorem Sized.splitPoint (sized : Sized n) (formed : Formed n) (spacious : n.Spacious) {key : Key}
    {payloadLen : ℕ} (covers : n.Covers key) (small : key.length + payloadLen ≤ n.longest)
    (full : n.hasSpaceFor key.length payloadLen = false) : n.SplitPoint splitOrdered := by
  have shared : ∀ {k : Key}, n.Covers k → n.prefixLen ≤ k.length := by
    intro k covers
    rw [formed.valid.toCoded.prefixLen]
    exact within_long covers.1 covers.2
  have most := need_most (b := n.longest)
    (fun e mem => shared ⟨formed.within.above e mem, formed.within.below_of_mem mem⟩)
    fun e mem => sized.entry formed mem
  rw [entries_length] at most
  have long := shared covers
  have space := hasSpaceFor_iff formed.valid.toLayout payloadLen long (by
    have size : maxKVSize = 993 := by decide
    unfold longest at small
    split at small
    · omega
    · simp only [pidSize] at small
      omega)
  rw [full, List.length_drop] at space
  have bytes := bytes_used n
  -- with this entry it would have one too many
  have more : pageSize < n.slotEnd + n.used + (slotSize + n.longest - n.prefixLen) := by
    by_contra less
    exact Bool.false_ne_true (space.mpr (by omega))
  have next : (slotSize + n.longest - n.prefixLen) * (n.count + 1) =
      (slotSize + n.longest - n.prefixLen) * n.count + (slotSize + n.longest - n.prefixLen) :=
    Nat.mul_succ _ _
  have fewer : ∀ c, headerSize + n.getLowerFence.length + n.getUpperFence.length +
      c * (slotSize + n.longest - n.prefixLen) ≤ pageSize → c ≤ n.count := by
    intro c fits
    by_contra few
    have less := Nat.mul_le_mul_left (slotSize + n.longest - n.prefixLen) (show n.count + 1 ≤ c by omega)
    rw [Nat.mul_comm c] at fits
    omega
  unfold Spacious at spacious
  rw [splitPoint_iff]
  constructor
  · intro leaf
    rw [if_pos leaf] at spacious
    exact fewer 3 spacious
  · intro inner
    rw [inner] at spacious
    exact fewer 2 spacious

theorem Sized.separator (sized : Sized n) (point : n.SplitPoint splitOrdered) :
    (n.getSep (n.findSeparator splitOrdered)).length ≤ maxKVSize := by
  obtain ⟨some, _, inside⟩ := point
  have key := sized.keys _ (fullKey_mem inside)
  cases leaf : n.isLeaf with
  | true =>
    obtain ⟨slot, _, sep⟩ := getSep_leaf leaf splitOrdered (bestSlot_inside splitOrdered some)
    have short := Prefix.parting_short (n.fullKey (n.bestSlot splitOrdered))
      (n.fullKey (n.bestSlot splitOrdered + 1))
    rw [← sep, ← slot] at short
    exact le_trans short key
  | false =>
    obtain ⟨slot, _, sep⟩ := findSeparator_inner splitOrdered leaf
    rw [← slot] at sep
    rwa [sep]

section Split
variable {parent l r p : BTreeNode} {pid newPID slot i : ℕ} {sep : Key}

/-- The halves of an inner page fit: each gives away the separator and a fence. -/
theorem Formed.inner_fits (formed : Formed n) (inner : n.isLeaf = false) (inside : slot < n.count) :
    (n.splitNode pid newPID parent slot (n.fullKey slot)).1.Fits ∧
      (n.splitNode pid newPID parent slot (n.fullKey slot)).2.1.Fits := by
  have valid := formed.valid
  have bytes := bytes_fit valid
  obtain ⟨low, high⟩ := inner_parts formed.within formed.sorted inside
  obtain ⟨above, below⟩ := (formed.between _ (fullKey_mem inside)).weak
  have pre := valid.toCoded.prefixLen
  have lower : n.prefixLen ≤ n.getLowerFence.length := by
    rw [pre]
    exact Prefix.common_le_left _ _
  have upper : n.prefixLen ≤ n.getUpperFence.length := by
    rw [pre]
    exact Prefix.common_le_right _ _
  have grows_left : n.prefixLen ≤ Prefix.common n.getLowerFence (n.fullKey slot) := by
    rw [pre]
    exact common_grows_left above below
  have grows_right : n.prefixLen ≤ Prefix.common (n.fullKey slot) n.getUpperFence := by
    rw [pre]
    exact common_grows_right above below
  -- the entry at the slot goes to the parent
  have need_whole : need n.prefixLen n.entries = need n.prefixLen (n.entries.take slot) +
      need n.prefixLen ((n.fullKey slot, n.getPayload slot) :: n.entries.drop (slot + 1)) := by
    rw [← need_append, entries_at inside]
  rw [need_cons, List.length_drop] at need_whole
  have left := need_antitone grows_left (n.entries.take slot)
  have right := need_antitone grows_right (n.entries.drop (slot + 1))
  have back : (n.entries.drop (slot + 1)).take (n.count - slot - 1) = n.entries.drop (slot + 1) := by
    apply List.take_of_length_le
    rw [List.length_drop, entries_length]
    omega
  have left_long : ∀ e ∈ n.entries.take slot, Prefix.common n.getLowerFence (n.fullKey slot) ≤ e.1.length :=
    fun e mem => within_long (low e mem).1 (low e mem).2
  have right_long : ∀ e ∈ n.entries.drop (slot + 1),
      Prefix.common (n.fullKey slot) n.getUpperFence ≤ e.1.length :=
    fun e mem => within_long (high e mem).1 (high e mem).2
  have count : (n.copyKeyValueRange ((new n.isLeaf).setFences n.getLowerFence (n.fullKey slot)) 0 0
      slot).count = slot :=
    (@half_bytes n valid n.getLowerFence (n.fullKey slot) 0 slot (by omega) left_long n.link).1
  obtain ⟨_, left_bytes⟩ := @half_bytes n valid n.getLowerFence (n.fullKey slot) 0 slot (by omega)
    left_long (n.getChild slot)
  obtain ⟨_, right_bytes⟩ := @half_bytes n valid (n.fullKey slot) n.getUpperFence (slot + 1)
    (n.count - slot - 1) (by omega) (by rwa [back]) n.link
  have eq : n.splitNode pid newPID parent slot (n.fullKey slot) = _ :=
    splitNode_inner_eq inner pid newPID parent slot (n.fullKey slot)
  dsimp only at eq
  rw [count] at eq
  rw [eq]
  unfold Fits
  rw [left_bytes, right_bytes, back, List.drop_zero]
  simp only [slotSize, headerSize, pageSize] at *
  omega

theorem splitNode_fits (sized : Sized n) (formed : Formed n) (point : n.SplitPoint splitOrdered)
    (pays : n.isLeaf = true → n.Pays splitOrdered) :
    let info := n.findSeparator splitOrdered
    (n.splitNode pid newPID parent info.slot (n.getSep info)).1.Fits ∧
      (n.splitNode pid newPID parent info.slot (n.getSep info)).2.1.Fits := by
  obtain ⟨some, _, inside⟩ := point
  cases leaf : n.isLeaf with
  | true =>
    have fits : SplitFits n splitOrdered pid newPID parent :=
      (splitFits_iff (sized.sound formed leaf) some).mpr (pays leaf)
    exact ⟨fits.left, fits.right⟩
  | false =>
    obtain ⟨slot, _, sep⟩ := findSeparator_inner splitOrdered leaf
    rw [← slot] at sep
    dsimp only
    rw [sep]
    exact formed.inner_fits leaf inside

theorem Divides.sized (divides : Divides n parent l r p slot sep pid newPID i) (sized : Sized n)
    (short : sep.length ≤ maxKVSize) : Sized l ∧ Sized r := by
  have left := divides.left
  have right := divides.right
  have old : (∀ e ∈ l.entries, e ∈ n.entries) ∧ ∀ e ∈ r.entries, e ∈ n.entries := by
    cases leaf : n.isLeaf with
    | true =>
      rw [← (divides.leaf leaf).1]
      exact ⟨fun _ mem => List.mem_append_left _ mem, fun _ mem => List.mem_append_right _ mem⟩
    | false =>
      rw [← (divides.inner leaf).1]
      exact ⟨fun _ mem => List.mem_append_left _ mem,
        fun _ mem => List.mem_append_right _ (List.mem_cons_of_mem _ mem)⟩
  constructor
  · exact {
      lower := by rw [left.lower]; exact sized.lower
      upper := by rw [left.upper]; exact short
      keys := fun e mem => sized.keys e (old.1 e mem)
      small := fun leaf e mem => sized.small (left.isLeaf.symm.trans leaf) e (old.1 e mem) }
  · exact {
      lower := by rw [right.lower]; exact short
      upper := by rw [right.upper]; exact sized.upper
      keys := fun e mem => sized.keys e (old.2 e mem)
      small := fun leaf e mem => sized.small (right.isLeaf.symm.trans leaf) e (old.2 e mem) }

theorem Adopted.sized (adopted : Adopted parent p sep pid newPID i) (sized : Sized parent)
    (inner : parent.isLeaf = false) (short : sep.length ≤ maxKVSize) : Sized p where
  lower := by rw [adopted.lower]; exact sized.lower
  upper := by rw [adopted.upper]; exact sized.upper
  keys e mem := by
    rcases adopted.gains.mem mem with same | ⟨e', old, same⟩
    · rwa [same]
    · rw [← same]
      exact sized.keys e' old
  small leaf := absurd (leaf.symm.trans (adopted.isLeaf.trans inner)) (by decide)

end Split

theorem Inserted.sized {r : BTreeNode} {key : Key} {payload : Payload} {i : ℕ}
    (step : Inserted n r key payload i) (sized : Sized n)
    (small : key.length + payload.length ≤ maxKVSize) : Sized r := by
  exact {
    lower := by rw [step.lower]; exact sized.lower
    upper := by rw [step.upper]; exact sized.upper
    keys := by
      intro e mem
      rcases step.mem mem with old | rfl
      · exact sized.keys e old
      · exact le_trans (Nat.le_add_right _ _) small
    small := by
      intro leaf e mem
      rcases step.mem mem with old | rfl
      · exact sized.small (step.isLeaf.symm.trans leaf) e old
      · exact small }

end BTreeNode
end BTree
