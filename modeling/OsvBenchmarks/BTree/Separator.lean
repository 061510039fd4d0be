import OsvBenchmarks.BTree.Page

/-!
The separator of a split: a slot near the middle, and the shortest key that
still tells the entries up to it from those behind it.
-/
namespace BTree
namespace BTreeNode
variable {n : BTreeNode}

/-- How far from the middle findSeparator may go. -/
structure Balanced (count slot : ℕ) : Prop where
  inside : slot + 1 < count
  few : count ≤ 16 → slot = (count - 1) / 2
  many : 16 < count → count / 2 - count / 16 ≤ slot ∧ slot ≤ count / 2

theorem bestSlot_balanced (some : 2 ≤ n.count) : Balanced n.count (n.bestSlot false) := by
  unfold bestSlot
  rw [if_neg Bool.false_ne_true]
  by_cases many : n.count > 16
  · rw [if_pos many]
    dsimp only
    split
    · have found := @List.findIdx_le_length _
        (fun slot => n.commonPrefix slot 0 ≠ n.commonPrefix (n.count / 2 - n.count / 16) 0)
        (List.range' (n.count / 2 - n.count / 16 + 1)
          (n.count / 2 - (n.count / 2 - n.count / 16 + 1)))
      rw [List.length_range'] at found
      exact ⟨by omega, by omega, by omega⟩
    · exact ⟨by omega, by omega, by omega⟩
  · rw [if_neg many]
    exact ⟨by omega, by omega, by omega⟩

theorem bestSlot_inside (splitOrdered : Bool) (some : 2 ≤ n.count) :
    n.bestSlot splitOrdered + 1 < n.count := by
  cases splitOrdered with
  | false => exact (bestSlot_balanced some).inside
  | true =>
    unfold bestSlot
    rw [if_pos rfl]
    omega

/-- The separator is the key at the slot, or the next key cut behind the first difference. -/
theorem getSep_leaf (leaf : n.isLeaf = true) (splitOrdered : Bool)
    (inside : n.bestSlot splitOrdered + 1 < n.count) :
    let info := n.findSeparator splitOrdered
    let slot := n.bestSlot splitOrdered
    info.slot = slot ∧ (n.getSep info).length = info.len ∧
      n.getSep info = Prefix.parting (n.fullKey slot) (n.fullKey (slot + 1)) := by
  have outer : ¬ n.isInner = true := by
    rw [isInner, leaf]
    exact Bool.false_ne_true
  have plen : n.getPrefix.length = n.prefixLen := getPrefix_length
  unfold findSeparator
  rw [if_neg outer]
  intro info slot
  have keys : (n.getKey slot).length = (n.slotAt slot).keyLen ∧
      (n.getKey (slot + 1)).length = (n.slotAt (slot + 1)).keyLen :=
    ⟨getKey_length _, getKey_length _⟩
  have parting : Prefix.parting (n.fullKey slot) (n.fullKey (slot + 1)) = n.getPrefix ++
      if n.commonPrefix slot (slot + 1) < (n.slotAt slot).keyLen ∧
        n.commonPrefix slot (slot + 1) + 1 < (n.slotAt (slot + 1)).keyLen
      then (n.getKey (slot + 1)).take (n.commonPrefix slot (slot + 1) + 1) else n.getKey slot := by
    rw [fullKey, fullKey, Prefix.parting_append, Prefix.parting, keys.1, keys.2]
    rfl
  rw [parting]
  by_cases cut : n.commonPrefix slot (slot + 1) < (n.slotAt slot).keyLen ∧
      n.commonPrefix slot (slot + 1) + 1 < (n.slotAt (slot + 1)).keyLen
  · have form : info = ⟨n.prefixLen + n.commonPrefix slot (slot + 1) + 1, slot, true⟩ :=
      if_pos ⟨inside, cut⟩
    rw [if_pos cut, form]
    generalize n.commonPrefix slot (slot + 1) = common at *
    have taken : (n.getKey (slot + 1)).take (common + 1) =
        bytes n.heap (n.slotAt (slot + 1)).offset (common + 1) := bytes_take _ _ (by omega)
    have rest : n.prefixLen + common + 1 - n.prefixLen = common + 1 := by omega
    have sep : n.getSep ⟨n.prefixLen + common + 1, slot, true⟩ =
        n.getPrefix ++ (n.getKey (slot + 1)).take (common + 1) := by
      simp only [getSep, if_true, rest, taken]
    refine ⟨rfl, ?_, sep⟩
    rw [sep, List.length_append, plen, List.length_take, keys.2]
    simp only
    omega
  · have form : info = ⟨n.prefixLen + (n.slotAt slot).keyLen, slot, false⟩ :=
      if_neg fun h => cut h.2
    have sep : n.getSep info = n.fullKey slot := by
      rw [form]
      simp only [getSep, Bool.false_eq_true, if_false, Nat.add_zero, Nat.add_sub_cancel_left]
      rfl
    refine ⟨by rw [form], ?_, ?_⟩
    · rw [sep, form, fullKey, List.length_append, plen, keys.1]
    · rw [if_neg cut, sep]
      rfl

structure Separates (n : BTreeNode) (slot : ℕ) (sep : Key) : Prop where
  low : n.fullKey slot ≤ sep
  high : sep ≤ n.fullKey (slot + 1)
  apart : n.fullKey slot ≠ n.fullKey (slot + 1) → sep < n.fullKey (slot + 1)
  short : sep.length ≤ (n.fullKey slot).length ∨ sep.length ≤ (n.fullKey (slot + 1)).length

theorem common_self (k : Key) : Prefix.common k k = k.length := by
  induction k with
  | nil => rfl
  | cons a k ih => simp [Prefix.common, ih]

theorem getSep_separates (leaf : n.isLeaf = true) (splitOrdered : Bool) (some : 2 ≤ n.count)
    (sorted : n.Ascending) :
    Separates n (n.bestSlot splitOrdered) (n.getSep (n.findSeparator splitOrdered)) := by
  have inside := bestSlot_inside splitOrdered some
  have order := sorted (n.bestSlot splitOrdered) (n.bestSlot splitOrdered + 1) (by omega) inside
  rw [(getSep_leaf leaf splitOrdered inside).2.2]
  generalize n.bestSlot splitOrdered = slot at *
  unfold Prefix.parting
  split
  · rename_i cut
    obtain ⟨first, second⟩ := cut
    have less : n.fullKey slot < n.fullKey (slot + 1) := by
      refine lt_of_le_of_ne order fun same => ?_
      rw [← same, common_self] at first
      exact lt_irrefl _ first
    have low := Prefix.truncate_gt less first
    have high := Prefix.take_lt second
    refine ⟨le_of_lt low, le_of_lt high, fun _ => high, Or.inr ?_⟩
    rw [List.length_take]
    omega
  · exact ⟨le_refl _, order, fun ne => lt_of_le_of_ne order ne, Or.inl (le_refl _)⟩

theorem findSeparator_inner (splitOrdered : Bool) (inner : n.isLeaf = false) :
    (n.findSeparator splitOrdered).slot = n.count / 2 ∧
      (n.getSep (n.findSeparator splitOrdered)).length = (n.findSeparator splitOrdered).len ∧
      n.getSep (n.findSeparator splitOrdered) = n.fullKey (n.count / 2) := by
  have plen : n.getPrefix.length = n.prefixLen := getPrefix_length
  have form : n.findSeparator splitOrdered =
      ⟨n.prefixLen + (n.slotAt (n.count / 2)).keyLen, n.count / 2, false⟩ := by
    unfold findSeparator
    rw [if_pos (by rw [isInner, inner]; rfl)]
  have sep : n.getSep ⟨n.prefixLen + (n.slotAt (n.count / 2)).keyLen, n.count / 2, false⟩ =
      n.fullKey (n.count / 2) := by
    simp only [getSep, Bool.false_eq_true, if_false, Nat.add_zero, Nat.add_sub_cancel_left]
    rfl
  rw [form, sep]
  refine ⟨rfl, ?_, rfl⟩
  rw [fullKey, List.length_append, plen, getKey_length]

end BTreeNode
end BTree
