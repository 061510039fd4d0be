import OsvBenchmarks.BTree.Halves
import OsvBenchmarks.Rte.Memcmp

/-!
The search with custom_memcmp as it is: at some lengths it also compares what lies
behind the bytes that it was asked for, on the page behind the stored key and in
memory behind the key searched for. Where no comparison is left to those bytes the
search is that of memcmp, and so is a split's way into the parent.
-/
namespace BTree
open Rte

/-- custom_memcmp of a key, with what lies behind it in memory, and of the page from `offset` on. -/
def compareAt (behind : Heap) (key : Key) (heap : Heap) (offset n : ℕ) : Ordering :=
  match custom_memcmp (key ++ bytes behind 0 16) (bytes heap offset (n + 16)) n with
  | some ret => compare ret 0
  -- it reads less than 16 bytes too many
  | none => .eq

/-- One begins with the other, and at its length custom_memcmp looks at the bytes behind. -/
def Undecided (a b : Key) : Prop := Overruns (min a.length b.length) ∧ (a <+: b ∨ b <+: a)

instance (a b : Key) : Decidable (Undecided a b) := inferInstanceAs (Decidable (_ ∧ _))

theorem memcmp_congr {a a' b b' : List u8} {n : ℕ} (left : a.take n = a'.take n)
    (right : b.take n = b'.take n) : memcmp a b n = memcmp a' b' n := by
  unfold memcmp
  rw [left, right]

theorem memcmp_less {a b : List u8} {n : ℕ} (less : a.take n < b.take n) : memcmp a b n = .lt := by
  unfold memcmp
  rw [if_pos less]

theorem memcmp_more {a b : List u8} {n : ℕ} (more : b.take n < a.take n) : memcmp a b n = .gt := by
  unfold memcmp
  rw [if_neg (not_lt.mpr (le_of_lt more)), if_pos more]

theorem memcmp_cut {a b : List u8} {m n : ℕ} (le : m ≤ n) (differ : a.take m ≠ b.take m) :
    memcmp a b n = memcmp a b m := by
  have further : ∀ {a b : List u8}, a.take m < b.take m → a.take n < b.take n := by
    intro a b less
    apply Prefix.lt_of_take_lt (n := m)
    rwa [List.take_take, List.take_take, Nat.min_eq_left le]
  rcases lt_or_gt_of_ne differ with less | more
  · rw [memcmp_less less, memcmp_less (further less)]
  · rw [memcmp_more more, memcmp_more (further more)]

theorem reach_le (n : ℕ) : n ≤ reach n ∧ reach n ≤ n + 16 := by
  unfold reach
  split
  · omega
  · split
    · omega
    · omega

section Compare
variable {behind : Heap} {key : Key} {heap : Heap} {offset n : ℕ}

theorem compareAt_reach (le : n ≤ key.length) : compareAt behind key heap offset n =
    memcmp (key ++ bytes behind 0 16) (bytes heap offset (n + 16)) (reach n) := by
  have bound := (reach_le n).2
  obtain ⟨ret, found, same⟩ := custom_memcmp_reach (a := key ++ bytes behind 0 16)
    (b := bytes heap offset (n + 16)) n (by rw [List.length_append, bytes_length]; omega)
    (by rw [bytes_length]; omega)
  rw [compareAt, found]
  exact same

/-- custom_memcmp is memcmp where the bytes that it was asked for decide. -/
theorem compareAt_eq {len : ℕ} (le : n ≤ key.length) (le' : n ≤ len)
    (decided : Overruns n → key.take n ≠ bytes heap offset n) :
    compareAt behind key heap offset n = memcmp key (bytes heap offset len) n := by
  have left : (key ++ bytes behind 0 16).take n = key.take n := List.take_append_of_le_length le
  have right : (bytes heap offset (n + 16)).take n = bytes heap offset n :=
    bytes_take heap offset (Nat.le_add_right n 16)
  have asked : memcmp (key ++ bytes behind 0 16) (bytes heap offset (n + 16)) n =
      memcmp key (bytes heap offset len) n :=
    memcmp_congr left (right.trans (bytes_take heap offset le').symm)
  rw [compareAt_reach le, ← asked]
  by_cases overruns : Overruns n
  · apply memcmp_cut (reach_le n).1
    rw [left, right]
    exact decided overruns
  · have same : reach n = n := by
      rw [reach, if_neg fun h => overruns (Or.inl h), if_neg fun h => overruns (Or.inr h)]
    rw [same]

theorem undecided_of_take {a b : Key} (overruns : Overruns (min a.length b.length))
    (same : a.take (min a.length b.length) = b.take (min a.length b.length)) : Undecided a b := by
  refine ⟨overruns, ?_⟩
  rcases Nat.le_total a.length b.length with le | le
  · rw [Nat.min_eq_left le, List.take_length] at same
    exact Or.inl (same ▸ List.take_prefix _ _)
  · rw [Nat.min_eq_right le, List.take_length] at same
    exact Or.inr (same ▸ List.take_prefix _ _)

end Compare

namespace BTreeNode
variable (n : BTreeNode) (behind : Heap)

/-- The binary search of lowerBound, with custom_memcmp. -/
def searchIn (key : Key) (keyHead : ℕ) : ℕ → ℕ → ℕ → ℕ × Bool
  | 0, lower, _ => (lower, false)
  | turns + 1, lower, upper =>
    if lower < upper then
      let mid := (upper - lower) / 2 + lower
      if keyHead < (n.slotAt mid).head then searchIn key keyHead turns lower mid
      else if keyHead > (n.slotAt mid).head then searchIn key keyHead turns (mid + 1) upper
      else
        match compareAt behind key n.heap (n.slotAt mid).offset
          (min key.length (n.slotAt mid).keyLen) with
        | .lt => searchIn key keyHead turns lower mid
        | .gt => searchIn key keyHead turns (mid + 1) upper
        | .eq =>
          if key.length < (n.slotAt mid).keyLen then searchIn key keyHead turns lower mid
          else if key.length > (n.slotAt mid).keyLen then searchIn key keyHead turns (mid + 1) upper
          else (mid, true)
    else (lower, false)

/-- lowerBound, with custom_memcmp; `behind` is what lies behind the key in memory. -/
def lowerBoundIn (skey : Key) : ℕ × Bool :=
  match compareAt behind skey n.heap n.lowerFence.offset (min skey.length n.prefixLen) with
  | .lt => (0, false)
  | .gt => (n.count, false)
  | .eq =>
    if skey.length < n.prefixLen then (0, false)
    else
      let key := skey.drop n.prefixLen
      let (lower, upper) := n.searchHint (head key) 0 n.count
      n.searchIn behind key (head key) n.count lower upper

/-- insertInPage, with custom_memcmp -/
def insertInPageIn (key : Key) (payload : Payload) : BTreeNode :=
  let n := if n.spaceNeeded key.length payload.length > n.freeSpace then n.compactify else n
  let slotId := (n.lowerBoundIn behind key).1
  let n := { n with slot := shiftUp n.slot slotId }
  (n.storeKeyValue slotId key payload).updateHint slotId

/-- What splitNode does to the parent, with custom_memcmp. -/
def adoptIn (behind' : Heap) (parent : BTreeNode) (sep : Key) (leftPID newPID : ℕ) : BTreeNode :=
  let oldParentSlot := (parent.lowerBoundIn behind sep).1
  let parent :=
    if oldParentSlot = parent.count then { parent with link := newPID }
    else parent.setPayload oldParentSlot (pidBytes newPID)
  parent.insertInPageIn behind' sep (pidBytes leftPID)

/-- splitNode, with custom_memcmp, which only the search of the parent calls. -/
def splitNodeIn (behind' : Heap) (leftPID newPID : ℕ) (parent : BTreeNode) (sepSlot : ℕ) (sep : Key) :
    BTreeNode × BTreeNode × BTreeNode :=
  let pages := n.splitNode leftPID newPID parent sepSlot sep
  (pages.1, pages.2.1, adoptIn behind behind' parent sep leftPID newPID)

/-- The search of the key compares it with the page's prefix and, behind that, with its keys. -/
def Decided (skey : Key) : Prop := ¬ Undecided skey n.getPrefix ∧
  ∀ k ∈ n.entries.map Prod.fst, ¬ Undecided (skey.drop n.prefixLen) (k.drop n.prefixLen)

instance (skey : Key) : Decidable (n.Decided skey) := inferInstanceAs (Decidable (_ ∧ _))

variable {n behind}
variable {skey : Key}

theorem Decided.transfer {m : BTreeNode} (decided : n.Decided skey) (prefixLen : m.prefixLen = n.prefixLen)
    (prefix_ : m.getPrefix = n.getPrefix) (keys : m.entries.map Prod.fst = n.entries.map Prod.fst) :
    m.Decided skey := by
  unfold Decided
  rw [prefixLen, prefix_, keys]
  exact decided

theorem decided_of_short (short : skey.length ≤ 64) : n.Decided skey := by
  constructor
  · rintro ⟨overruns, _⟩
    unfold Overruns at overruns
    omega
  · rintro k _ ⟨overruns, _⟩
    unfold Overruns at overruns
    rw [List.length_drop] at overruns
    omega

theorem Decided.slot (decided : n.Decided skey) {i : ℕ} (inside : i < n.count) :
    ¬ Undecided (skey.drop n.prefixLen) (n.getKey i) := by
  have plen : n.getPrefix.length = n.prefixLen := getPrefix_length
  have here := decided.2 (n.fullKey i) (List.mem_map_of_mem (fullKey_mem inside))
  rw [fullKey, List.drop_append_of_le_length (by omega), ← plen, List.drop_length, List.nil_append,
    plen] at here
  exact here

theorem searchIn_eq {key : Key} (decided : ∀ i < n.count, ¬ Undecided key (n.getKey i)) (keyHead turns : ℕ) :
    ∀ lower upper, upper ≤ n.count →
      n.searchIn behind key keyHead turns lower upper = n.search key keyHead turns lower upper := by
  induction turns with
  | zero => exact fun _ _ _ => rfl
  | succ turns ih =>
    intro lower upper bound
    unfold searchIn search
    by_cases more : lower < upper
    · have inside : (upper - lower) / 2 + lower < n.count := by omega
      rw [if_pos more, if_pos more]
      dsimp only
      generalize (upper - lower) / 2 + lower = mid at *
      have len : (n.getKey mid).length = (n.slotAt mid).keyLen := getKey_length mid
      have same : compareAt behind key n.heap (n.slotAt mid).offset (min key.length (n.slotAt mid).keyLen) =
          memcmp key (n.getKey mid) (min key.length (n.slotAt mid).keyLen) := by
        apply compareAt_eq (Nat.min_le_left _ _) (Nat.min_le_right _ _)
        intro overruns equal
        rw [← bytes_take n.heap _ (Nat.min_le_right key.length _)] at equal
        rw [← len] at overruns equal
        exact decided mid inside (undecided_of_take overruns (by rw [equal, len]; rfl))
      have low := ih lower mid (by omega)
      have high := ih (mid + 1) upper bound
      by_cases less : keyHead < (n.slotAt mid).head
      · rw [if_pos less, if_pos less]
        exact low
      · rw [if_neg less, if_neg less]
        by_cases greater : keyHead > (n.slotAt mid).head
        · rw [if_pos greater, if_pos greater]
          exact high
        · rw [if_neg greater, if_neg greater, same]
          cases memcmp key (n.getKey mid) (min key.length (n.slotAt mid).keyLen) with
          | lt => exact low
          | gt => exact high
          | eq =>
            dsimp only
            by_cases shorter : key.length < (n.slotAt mid).keyLen
            · rw [if_pos shorter, if_pos shorter]
              exact low
            · rw [if_neg shorter, if_neg shorter]
              by_cases longer : key.length > (n.slotAt mid).keyLen
              · rw [if_pos longer, if_pos longer]
                exact high
              · rw [if_neg longer, if_neg longer]
    · rw [if_neg more, if_neg more]

/-- Where no comparison is left to the bytes behind, the search is that of memcmp. -/
theorem lowerBoundIn_eq (valid : n.Valid) (decided : n.Decided skey) :
    n.lowerBoundIn behind skey = n.lowerBound skey := by
  have plen : n.getPrefix.length = n.prefixLen := getPrefix_length
  have same : compareAt behind skey n.heap n.lowerFence.offset (min skey.length n.prefixLen) =
      memcmp skey n.getPrefix (min skey.length n.prefixLen) := by
    apply compareAt_eq (Nat.min_le_left _ _) (Nat.min_le_right _ _)
    intro overruns equal
    rw [← bytes_take n.heap _ (Nat.min_le_right skey.length _)] at equal
    rw [← plen] at overruns equal
    exact decided.1 (undecided_of_take overruns (by rw [equal, plen]; rfl))
  have inside := (searchHint_inside valid.hint (head (skey.drop n.prefixLen))).2
  unfold lowerBoundIn lowerBound
  rw [same]
  cases memcmp skey n.getPrefix (min skey.length n.prefixLen) with
  | lt => rfl
  | gt => rfl
  | eq =>
    dsimp only
    by_cases short : skey.length < n.prefixLen
    · rw [if_pos short, if_pos short]
    · rw [if_neg short, if_neg short]
      generalize n.searchHint (head (skey.drop n.prefixLen)) 0 n.count = hint at inside ⊢
      obtain ⟨lower, upper⟩ := hint
      exact searchIn_eq (fun i less => decided.slot less) _ _ _ _ inside

theorem insertInPageIn_eq (valid : n.Valid) (decided : n.Decided skey) (payload : Payload) :
    n.insertInPageIn behind skey payload = n.insertInPage skey payload := by
  unfold insertInPageIn insertInPage
  by_cases small : n.spaceNeeded skey.length payload.length > n.freeSpace
  · rw [if_pos small]
    have step := compactify_compacted valid
    have prefixLen : n.compactify.prefixLen = n.prefixLen := by
      rw [step.packed.prefixLen, valid.toCoded.prefixLen]
    have kept : n.compactify.Decided skey := by
      refine decided.transfer prefixLen ?_ (congrArg _ step.packed.entries)
      rw [step.packed.prefix_, getPrefix_eq valid.toCoded, valid.toCoded.prefixLen]
    dsimp only
    rw [lowerBoundIn_eq step.valid kept]
  · rw [if_neg small]
    dsimp only
    rw [lowerBoundIn_eq valid decided]

section Split
variable {behind' : Heap} {parent : BTreeNode} {sep : Key} {leftPID newPID : ℕ}

theorem Decided.repointed {m : BTreeNode} {i : ℕ} (decided : n.Decided skey) (valid : n.Valid)
    (step : Repointed n m i newPID) : m.Decided skey := by
  refine decided.transfer step.prefixLen ?_ step.keys
  rw [getPrefix_eq step.valid.toCoded, getPrefix_eq valid.toCoded, step.lower, step.prefixLen]

theorem adoptIn_eq (above : Formed parent) (inner : parent.isLeaf = false) (decided : parent.Decided sep) :
    adoptIn behind behind' parent sep leftPID newPID = adopt parent sep leftPID newPID := by
  have le := (lowerBound_located above.valid.searchable above.ascending sep).le
  unfold adoptIn adopt
  rw [lowerBoundIn_eq above.valid decided]
  by_cases last : (parent.lowerBound sep).1 = parent.count
  · have step : Repointed parent { parent with link := newPID } parent.count newPID :=
      link_repointed above.valid (above.wide inner)
    simp only [last, if_true]
    exact insertInPageIn_eq step.valid (decided.repointed above.valid step) _
  · have step : Repointed parent (parent.setPayload (parent.lowerBound sep).1 (pidBytes newPID))
        (parent.lowerBound sep).1 newPID :=
      setPayload_repointed above.valid (above.wide inner) (by omega)
    simp only [last, if_false]
    exact insertInPageIn_eq step.valid (decided.repointed above.valid step) _

theorem splitNode_adopts (sepSlot : ℕ) :
    (n.splitNode leftPID newPID parent sepSlot sep).2.2 = adopt parent sep leftPID newPID := by
  unfold splitNode
  split
  · rfl
  · rfl

theorem splitNodeIn_eq (above : Formed parent) (inner : parent.isLeaf = false)
    (decided : parent.Decided sep) (sepSlot : ℕ) :
    n.splitNodeIn behind behind' leftPID newPID parent sepSlot sep =
      n.splitNode leftPID newPID parent sepSlot sep := by
  unfold splitNodeIn
  dsimp only
  rw [adoptIn_eq above inner decided, ← splitNode_adopts sepSlot]

end Split
end BTreeNode
end BTree
