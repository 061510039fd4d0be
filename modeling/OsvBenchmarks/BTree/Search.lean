import OsvBenchmarks.BTree.Heap

/-!
The in-page search. The hints narrow the range, heads decide most comparisons,
the stored suffix decides the rest; the result is the place of the key among
the full keys of the page.
-/
namespace BTree
namespace BTreeNode
variable (n : BTreeNode)

/-- The reconstructed key: prefix ++ stored suffix. -/
def fullKey (i : ℕ) : Key := n.getPrefix ++ n.getKey i

structure Searchable : Prop where
  heads : ∀ i < n.count, (n.slotAt i).head = head (n.getKey i)
  hint : hintCount * 2 < n.count → n.hint = n.makeHint.hint

def Ascending : Prop := ∀ i j, i ≤ j → j < n.count → n.fullKey i ≤ n.fullKey j

end BTreeNode

/-- `r` says where `k` is, or would be, among `count` ascending keys. -/
structure Located (keys : ℕ → Key) (count : ℕ) (k : Key) (r : ℕ × Bool) : Prop where
  le : r.1 ≤ count
  here : r.2 = true → r.1 < count ∧ keys r.1 = k
  absent : r.2 = false → (∀ i < r.1, keys i < k) ∧ ∀ i, r.1 ≤ i → i < count → k < keys i

namespace BTreeNode
variable {n : BTreeNode}

theorem getPrefix_length : n.getPrefix.length = n.prefixLen := bytes_length _ _ _

theorem getKey_length (i : ℕ) : (n.getKey i).length = (n.slotAt i).keyLen := bytes_length _ _ _

theorem suffix_le_iff {i j : ℕ} : n.fullKey i ≤ n.fullKey j ↔ n.getKey i ≤ n.getKey j :=
  Prefix.append_le_append_iff

theorem makeHint_getElem (i : ℕ) (h : i < n.makeHint.hint.length) :
    n.makeHint.hint[i] = (n.slotAt (n.count / (hintCount + 1) * (i + 1))).head := by
  simp [makeHint]

theorem makeHint_length : n.makeHint.hint.length = hintCount := by simp [makeHint]

structure Narrowed (n : BTreeNode) (keyHead : ℕ) (r : ℕ × ℕ) : Prop where
  order : r.1 ≤ r.2
  bound : r.2 ≤ n.count
  low : ∀ i < r.1, (n.slotAt i).head < keyHead
  high : ∀ i, r.2 ≤ i → i < n.count → keyHead < (n.slotAt i).head

/-- The range that the hints leave lies in the page, whatever the order of the keys. -/
theorem searchHint_inside (hint : hintCount * 2 < n.count → n.hint = n.makeHint.hint)
    (keyHead : ℕ) : (n.searchHint keyHead 0 n.count).1 ≤ (n.searchHint keyHead 0 n.count).2 ∧
      (n.searchHint keyHead 0 n.count).2 ≤ n.count := by
  unfold searchHint
  split
  · rename_i many
    rw [hint many]
    set dist := n.count / (hintCount + 1) with dist_eq
    set pos := n.makeHint.hint.findIdx fun h => h ≥ keyHead with pos_eq
    set skip := (n.makeHint.hint.drop pos).findIdx fun h => h ≠ keyHead
    have room : hintCount * dist ≤ n.count := by
      simp only [hintCount] at dist_eq many ⊢
      omega
    have pos_le : pos ≤ hintCount := by
      have := @List.findIdx_le_length _ (fun h => h ≥ keyHead) n.makeHint.hint
      rwa [makeHint_length] at this
    have step : ∀ a b, a ≤ b → a * dist ≤ b * dist := fun a b h => Nat.mul_le_mul_right _ h
    dsimp only
    split
    · exact ⟨step _ _ (by omega), (step _ hintCount (by omega)).trans room⟩
    · exact ⟨(step _ _ pos_le).trans room, le_refl _⟩
  · exact ⟨Nat.zero_le _, le_refl _⟩

theorem searchHint_narrowed (hint : hintCount * 2 < n.count → n.hint = n.makeHint.hint)
    (sorted : ∀ i j, i ≤ j → j < n.count → (n.slotAt i).head ≤ (n.slotAt j).head) (keyHead : ℕ) :
    Narrowed n keyHead (n.searchHint keyHead 0 n.count) := by
  obtain ⟨order, bound⟩ := searchHint_inside hint keyHead
  suffices narrow : (∀ i < (n.searchHint keyHead 0 n.count).1, (n.slotAt i).head < keyHead) ∧
      ∀ i, (n.searchHint keyHead 0 n.count).2 ≤ i → i < n.count → keyHead < (n.slotAt i).head from
    ⟨order, bound, narrow.1, narrow.2⟩
  unfold searchHint
  split
  · rename_i many
    rw [hint many]
    set dist := n.count / (hintCount + 1) with dist_eq
    set pos := n.makeHint.hint.findIdx fun h => h ≥ keyHead with pos_eq
    set skip := (n.makeHint.hint.drop pos).findIdx fun h => h ≠ keyHead with skip_eq
    have room : dist * hintCount < n.count := by
      simp only [hintCount] at dist_eq many ⊢
      omega
    have pos_le : pos ≤ hintCount := by
      have := @List.findIdx_le_length _ (fun h => h ≥ keyHead) n.makeHint.hint
      rwa [makeHint_length] at this
    have below : ∀ i (h : i < pos), (n.slotAt (dist * (i + 1))).head < keyHead := by
      intro i h
      have hlen : i < n.makeHint.hint.length := by rw [makeHint_length]; omega
      have := @List.not_of_lt_findIdx _ (fun h => h ≥ keyHead) n.makeHint.hint i h
      rw [makeHint_getElem i hlen] at this
      simpa using this
    have reached : pos < hintCount → keyHead ≤ (n.slotAt (dist * (pos + 1))).head := by
      intro h
      have hlen : pos < n.makeHint.hint.length := by rwa [makeHint_length]
      have := @List.findIdx_getElem _ (fun h => h ≥ keyHead) n.makeHint.hint hlen
      rw [makeHint_getElem _ hlen] at this
      simpa using this
    have passed : pos + skip < hintCount → (n.slotAt (dist * (pos + skip + 1))).head ≠ keyHead := by
      intro h
      have hlen : skip < (n.makeHint.hint.drop pos).length := by
        rw [List.length_drop, makeHint_length]; omega
      have := @List.findIdx_getElem _ (fun h => h ≠ keyHead) (n.makeHint.hint.drop pos) hlen
      rw [List.getElem_drop, makeHint_getElem] at this
      exact of_decide_eq_true this
    have step : ∀ a b, a ≤ b → dist * a ≤ dist * b := fun a b h => Nat.mul_le_mul_left _ h
    refine ⟨fun i h => ?_, fun i low h => ?_⟩
    · dsimp only at h
      have some : 0 < pos := by
        rcases Nat.eq_zero_or_pos pos with zero | some
        · simp [zero] at h
        · exact some
      have last := below (pos - 1) (by omega)
      rw [Nat.sub_add_cancel some] at last
      have inside := step pos hintCount pos_le
      rw [Nat.mul_comm pos] at h
      exact lt_of_le_of_lt (sorted i _ (le_of_lt h) (by omega)) last
    · dsimp only at low
      split at low
      · rename_i more
        have inside := step (pos + skip + 1) hintCount (by omega)
        rw [Nat.mul_comm (pos + skip + 1)] at low
        have up := reached (by omega)
        have rise := sorted _ _ (step (pos + 1) (pos + skip + 1) (by omega)) (by omega)
        have beyond := sorted _ _ low h
        have ne := passed more
        omega
      · omega
  · exact ⟨by simp, fun i h h' => absurd h (not_le.mpr h')⟩

/-- The stored suffix at a slot against the rest of the key, as the loop compares them. -/
theorem compare_suffix {key : Key} {i : ℕ} (equal : memcmp key (n.getKey i)
    (min key.length (n.slotAt i).keyLen) = .eq) :
    (key.length < (n.slotAt i).keyLen → key < n.getKey i) ∧
      (key.length > (n.slotAt i).keyLen → n.getKey i < key) ∧
      (key.length = (n.slotAt i).keyLen → n.getKey i = key) := by
  have same := memcmp_eq equal
  have len := getKey_length (n := n) i
  refine ⟨fun shorter => ?_, fun longer => ?_, fun level => ?_⟩
  · rw [Nat.min_eq_left (le_of_lt shorter), List.take_of_length_le (le_refl _)] at same
    exact Prefix.lt_of_take_eq same.symm (by omega)
  · rw [Nat.min_eq_right (le_of_lt longer), List.take_of_length_le (by omega : (n.getKey i).length ≤ _)] at same
    exact Prefix.lt_of_take_eq (by rw [len]; exact same) (by omega)
  · rw [List.take_of_length_le (by omega), List.take_of_length_le (by omega)] at same
    exact same.symm

theorem search_located (heads : ∀ i < n.count, (n.slotAt i).head = head (n.getKey i))
    (sorted : ∀ i j, i ≤ j → j < n.count → n.getKey i ≤ n.getKey j) (key : Key) :
    ∀ turns lower upper, lower ≤ upper → upper ≤ n.count → upper - lower ≤ turns →
      (∀ i < lower, n.getKey i < key) → (∀ i, upper ≤ i → i < n.count → key < n.getKey i) →
      Located n.getKey n.count key (n.search key (head key) turns lower upper) := by
  intro turns
  induction turns with
  | zero =>
    intro lower upper order bound few low high
    have : lower = upper := by omega
    subst this
    exact ⟨bound, by simp [search], fun _ => ⟨low, high⟩⟩
  | succ turns ih =>
    intro lower upper order bound few low high
    simp only [search]
    split
    · rename_i more
      generalize at_ : (upper - lower) / 2 + lower = mid
      have within : lower ≤ mid ∧ mid < upper := by omega
      have up : key < n.getKey mid →
          Located n.getKey n.count key (n.search key (head key) turns lower mid) := fun less =>
        ih lower mid within.1 (by omega) (by omega) low fun i hi h =>
          lt_of_lt_of_le less (sorted mid i hi h)
      have down : n.getKey mid < key →
          Located n.getKey n.count key (n.search key (head key) turns (mid + 1) upper) := fun less =>
        ih (mid + 1) upper (by omega) bound (by omega)
          (fun i hi => lt_of_le_of_lt (sorted i mid (by omega) (by omega)) less) high
      have here := heads mid (by omega)
      split
      · rename_i less
        exact up (lt_of_head_lt (here ▸ less))
      · split
        · rename_i less
          exact down (lt_of_head_lt (here ▸ less))
        · split
          · rename_i less
            exact up (Prefix.lt_of_take_lt (memcmp_lt less))
          · rename_i less
            exact down (Prefix.lt_of_take_lt (memcmp_gt less))
          · rename_i equal
            obtain ⟨shorter, longer, level⟩ := compare_suffix equal
            split
            · rename_i less
              exact up (shorter less)
            · split
              · rename_i less
                exact down (longer less)
              · exact ⟨by simp; omega, fun _ => ⟨by simp; omega, level (by omega)⟩, by simp⟩
    · have : lower = upper := by omega
      subst this
      exact ⟨bound, by simp, fun _ => ⟨low, high⟩⟩

theorem lowerBound_located (ok : n.Searchable) (sorted : n.Ascending) (skey : Key) :
    Located n.fullKey n.count skey (n.lowerBound skey) := by
  have below : n.getPrefix ≤ n.getPrefix := le_refl _
  have before : (∀ i, skey < n.fullKey i) → Located n.fullKey n.count skey (0, false) := fun h =>
    ⟨Nat.zero_le _, by simp, fun _ => ⟨by simp, fun i _ _ => h i⟩⟩
  have behind : (∀ i, n.fullKey i < skey) → Located n.fullKey n.count skey (n.count, false) :=
    fun h => ⟨le_refl _, by simp, fun _ => ⟨fun i _ => h i, fun i h h' => absurd h (not_le.mpr h')⟩⟩
  have len : n.getPrefix.length = n.prefixLen := getPrefix_length
  have cut : ∀ i, (n.fullKey i).take (min skey.length n.prefixLen) =
      n.getPrefix.take (min skey.length n.prefixLen) := fun i => by
    rw [fullKey, List.take_append_of_le_length (by omega)]
  unfold lowerBound
  split
  · rename_i less
    refine before fun i => Prefix.lt_of_take_lt (n := min skey.length n.prefixLen) ?_
    rw [cut i]
    exact memcmp_lt less
  · rename_i more
    refine behind fun i => Prefix.lt_of_take_lt (n := min skey.length n.prefixLen) ?_
    rw [cut i]
    exact memcmp_gt more
  · rename_i equal
    have same := memcmp_eq equal
    split
    · rename_i short
      refine before fun i => ?_
      rw [Nat.min_eq_left (le_of_lt short), List.take_of_length_le (le_refl _)] at same
      exact lt_of_lt_of_le (Prefix.lt_of_take_eq same.symm (by omega)) (Prefix.le_append _ _)
    · rename_i long
      rw [Nat.min_eq_right (by omega), List.take_of_length_le (by omega : n.getPrefix.length ≤ _)] at same
      have whole : n.getPrefix ++ skey.drop n.prefixLen = skey := by
        rw [← same, List.take_append_drop]
      have suffixes : ∀ i j, i ≤ j → j < n.count → n.getKey i ≤ n.getKey j := fun i j le h =>
        suffix_le_iff.mp (sorted i j le h)
      have narrowed := searchHint_narrowed ok.hint (fun i j le h => by
        rw [ok.heads i (by omega), ok.heads j h]
        exact head_mono (suffixes i j le h)) (head (skey.drop n.prefixLen))
      have found := search_located ok.heads suffixes (skey.drop n.prefixLen) n.count _ _
        narrowed.order narrowed.bound (by have := narrowed.bound; omega)
        (fun i h => lt_of_head_lt (by
          have := narrowed.low i h
          have := narrowed.order
          have := narrowed.bound
          rw [← ok.heads i (by omega)]; assumption))
        (fun i low h => lt_of_head_lt (by rw [← ok.heads i h]; exact narrowed.high i low h))
      refine ⟨found.le, fun h => ?_, fun h => ?_⟩
      · obtain ⟨inside, key⟩ := found.here h
        exact ⟨inside, by rw [fullKey, key, whole]⟩
      · obtain ⟨low, high⟩ := found.absent h
        refine ⟨fun i hi => ?_, fun i hi h => ?_⟩
        · rw [← whole]
          exact Prefix.append_lt_append_iff.mpr (low i hi)
        · have := Prefix.append_lt_append_iff (p := n.getPrefix) |>.mpr (high i hi h)
          rwa [whole] at this

/-- lowerBound returns the first slot whose full key is not below the search key, and reports
an exact match exactly when there is one. -/
theorem lowerBound_first {n : BTreeNode}
    (sorted : ∀ i j, i < j → j < n.count → n.getKey i < n.getKey j)
    (heads : ∀ i < n.count, (n.slotAt i).head = head (n.getKey i))
    (hint : n.hint = n.makeHint.hint)
    (prefix_ : n.getPrefix = n.getLowerFence.take n.prefixLen) (skey : Key) :
    (n.lowerBound skey).1 ≤ n.count ∧
      (∀ i < n.count, skey ≤ n.getLowerFence.take n.prefixLen ++ n.getKey i ↔
        (n.lowerBound skey).1 ≤ i) ∧
      ((n.lowerBound skey).2 = true ↔
        ∃ i < n.count, n.getLowerFence.take n.prefixLen ++ n.getKey i = skey) := by
  rw [← prefix_]
  have strict : ∀ i j, i < j → j < n.count → n.fullKey i < n.fullKey j := by
    intro i j less inside
    exact Prefix.append_lt_append_iff.mpr (sorted i j less inside)
  have ascend : n.Ascending := by
    intro i j le inside
    rcases Nat.eq_or_lt_of_le le with rfl | less
    · exact le_refl _
    · exact le_of_lt (strict i j less inside)
  have found := lowerBound_located ⟨heads, fun _ => hint⟩ ascend skey
  generalize n.lowerBound skey = r at *
  cases exact_ : r.2 with
  | true =>
    obtain ⟨inside, same⟩ := found.here exact_
    refine ⟨found.le, ?_, ?_⟩
    · intro i hi
      constructor
      · intro high
        by_contra less
        exact absurd (strict i r.1 (not_le.mp less) inside) (not_lt.mpr (same ▸ high))
      · intro le
        exact same ▸ ascend r.1 i le hi
    · exact iff_of_true rfl ⟨r.1, inside, same⟩
  | false =>
    obtain ⟨low, high⟩ := found.absent exact_
    refine ⟨found.le, ?_, ?_⟩
    · intro i hi
      constructor
      · intro above
        by_contra less
        exact absurd (low i (not_le.mp less)) (not_lt.mpr above)
      · intro le
        exact le_of_lt (high i le hi)
    · apply iff_of_false Bool.false_ne_true
      rintro ⟨i, hi, same⟩
      rcases Nat.lt_or_ge i r.1 with less | more
      · exact lt_irrefl skey (same ▸ low i less)
      · exact lt_irrefl skey (same ▸ high i more hi)

/-- 40 slots, so that the search has hints, below the fences "a" and "b". -/
def fortySlots : BTreeNode :=
  (List.range 40).foldl (fun n i => n.insertInPage [97, 98, Fin.ofNat 256 i] [7])
    ((new true).setFences [97, 98] [97, 99])

theorem lowerBound_first_forty :
    (fortySlots.lowerBound [97, 98, 21, 0]).1 ≤ fortySlots.count ∧
      (∀ i < fortySlots.count,
        [97, 98, 21, 0] ≤ fortySlots.getLowerFence.take fortySlots.prefixLen ++ fortySlots.getKey i ↔
          (fortySlots.lowerBound [97, 98, 21, 0]).1 ≤ i) ∧
      ((fortySlots.lowerBound [97, 98, 21, 0]).2 = true ↔ ∃ i < fortySlots.count,
        fortySlots.getLowerFence.take fortySlots.prefixLen ++ fortySlots.getKey i = [97, 98, 21, 0]) := by
  have count : fortySlots.count = 40 := by decide +kernel
  have keys : ∀ i < 40, fortySlots.getKey i = [98, Fin.ofNat 256 i] := by decide +kernel
  apply lowerBound_first
  · intro i j less inside
    rw [count] at inside
    have ordered : ∀ j < 40, ∀ i < j, ([98, Fin.ofNat 256 i] : Key) < [98, Fin.ofNat 256 j] := by decide +kernel
    rw [keys i (by omega), keys j inside]
    exact ordered j inside i less
  · rw [count]
    decide +kernel
  · decide +kernel
  · decide +kernel

end BTreeNode
end BTree
