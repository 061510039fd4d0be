import OsvBenchmarks.BTree.Node
import Mathlib.Tactic.Ring

/-!
Bytes in memory: what a write changes and what it leaves, page ids read back,
and the four-byte heads that compare as the keys do.
-/
namespace BTree

@[simp] theorem bytes_length (heap : Heap) (o n : ℕ) : (bytes heap o n).length = n := by
  simp [bytes]

@[simp] theorem bytes_zero (heap : Heap) (o : ℕ) : bytes heap o 0 = [] := rfl

theorem bytes_getElem (heap : Heap) (o n i : ℕ) (h : i < (bytes heap o n).length) :
    (bytes heap o n)[i] = heap (o + i) := by
  simp [bytes]

theorem bytes_add (heap : Heap) (o m n : ℕ) :
    bytes heap o (m + n) = bytes heap o m ++ bytes heap (o + m) n := by
  simp only [bytes, List.range_add, List.map_append, List.map_map]
  congr 1
  refine List.map_congr_left fun i _ => ?_
  simp [Nat.add_assoc]

theorem bytes_take (heap : Heap) (o : ℕ) {m n : ℕ} (le : m ≤ n) :
    (bytes heap o n).take m = bytes heap o m := by
  obtain ⟨d, rfl⟩ := Nat.exists_eq_add_of_le le
  rw [bytes_add, List.take_append_of_le_length (by simp), List.take_of_length_le (by simp)]

theorem bytes_drop (heap : Heap) (o : ℕ) {m n : ℕ} (le : m ≤ n) :
    (bytes heap o n).drop m = bytes heap (o + m) (n - m) := by
  obtain ⟨d, rfl⟩ := Nat.exists_eq_add_of_le le
  rw [bytes_add, List.drop_append_of_le_length (by simp), List.drop_of_length_le (by simp)]
  simp

theorem bytes_congr {heap heap' : Heap} {o n : ℕ}
    (same : ∀ a, o ≤ a → a < o + n → heap' a = heap a) : bytes heap' o n = bytes heap o n := by
  refine List.map_congr_left fun i hi => ?_
  have := List.mem_range.mp hi
  exact same (o + i) (by omega) (by omega)

@[simp] theorem bytes_write (heap : Heap) (o : ℕ) (data : List u8) :
    bytes (write heap o data) o data.length = data := by
  apply List.ext_getElem
  · simp
  · intro i h₁ h₂
    rw [bytes_getElem]
    have inside : o ≤ o + i ∧ o + i < o + data.length := by omega
    simp [write, inside, List.getElem?_eq_getElem h₂]

theorem bytes_write_frame {heap : Heap} {o p n : ℕ} {data : List u8}
    (apart : p + n ≤ o ∨ o + data.length ≤ p) :
    bytes (write heap o data) p n = bytes heap p n := by
  refine bytes_congr fun a low high => ?_
  have outside : ¬ (o ≤ a ∧ a < o + data.length) := by omega
  simp [write, outside]

theorem write_append (heap : Heap) (o : ℕ) (a b : List u8) :
    write heap o (a ++ b) = write (write heap o a) (o + a.length) b := by
  funext x
  unfold write
  by_cases second : o + a.length ≤ x ∧ x < o + a.length + b.length
  · have both : o ≤ x ∧ x < o + (a ++ b).length := by simp; omega
    rw [if_pos both, if_pos second, List.getD_eq_getElem?_getD, List.getD_eq_getElem?_getD,
      List.getElem?_append_right (by omega)]
    congr 2
    omega
  · rw [if_neg second]
    by_cases first : o ≤ x ∧ x < o + a.length
    · have both : o ≤ x ∧ x < o + (a ++ b).length := by simp; omega
      rw [if_pos both, if_pos first, List.getD_eq_getElem?_getD, List.getD_eq_getElem?_getD,
        List.getElem?_append_left (by omega)]
    · have none : ¬ (o ≤ x ∧ x < o + (a ++ b).length) := by simp; omega
      rw [if_neg none, if_neg first]

@[simp] theorem pidBytes_length (pid : ℕ) : (pidBytes pid).length = pidSize := by
  simp [pidBytes]

theorem loadPID_digits (n pid : ℕ) :
    loadPID ((List.range n).map fun i => Fin.ofNat 256 (pid / 256 ^ i)) = pid % 256 ^ n := by
  induction n generalizing pid with
  | zero => simp [loadPID, Nat.mod_one]
  | succ n ih =>
    have shift : ∀ i, pid / 256 ^ (i + 1) = pid / 256 / 256 ^ i := fun i => by
      rw [pow_succ', Nat.div_div_eq_div_mul]
    have tail := ih (pid / 256)
    rw [List.range_succ_eq_map, List.map_cons, List.map_map]
    simp only [loadPID, List.foldr_cons] at tail ⊢
    simp only [Function.comp_def, Nat.succ_eq_add_one, shift, tail]
    rw [pow_succ', Nat.mod_mul]
    simp

theorem loadPID_pidBytes {pid : ℕ} (small : pid < 2 ^ 64) : loadPID (pidBytes pid) = pid := by
  rw [pidBytes, loadPID_digits]
  exact Nat.mod_eq_of_lt small

/-- The first `n` bytes of a key as a big-endian number, padded with zeros. -/
def pad : ℕ → Key → ℕ
  | 0, _ => 0
  | _ + 1, [] => 0
  | n + 1, a :: as => a.val * 256 ^ n + pad n as

theorem pad_lt (n : ℕ) (k : Key) : pad n k < 256 ^ n := by
  induction n generalizing k with
  | zero => simp [pad]
  | succ n ih =>
    cases k with
    | nil => simp [pad]
    | cons a k =>
      have rest := ih k
      have first := a.isLt
      have : (a.val + 1) * 256 ^ n ≤ 256 * 256 ^ n := Nat.mul_le_mul_right _ first
      simp only [pad, pow_succ]
      rw [Nat.add_mul] at this
      omega

theorem head_eq_pad (k : Key) : head k = pad 4 k := by
  match k with
  | [] => rfl
  | [a] => simp [head, pad]
  | [a, b] => simp [head, pad]; ring
  | [a, b, c] => simp [head, pad]; ring
  | a :: b :: c :: d :: _ => simp [head, pad]; ring

theorem lt_of_pad_lt {n : ℕ} {a b : Key} (less : pad n a < pad n b) : a < b := by
  induction n generalizing a b with
  | zero => simp [pad] at less
  | succ n ih =>
    cases b with
    | nil => simp [pad] at less
    | cons y b =>
      cases a with
      | nil => exact List.nil_lt_cons y b
      | cons x a =>
        have ha := pad_lt n a
        have hb := pad_lt n b
        simp only [pad] at less
        rw [List.cons_lt_cons_iff]
        rcases lt_trichotomy x y with low | same | high
        · exact Or.inl low
        · subst same
          exact Or.inr ⟨rfl, ih (by omega)⟩
        · have : y.val + 1 ≤ x.val := high
          have : (y.val + 1) * 256 ^ n ≤ x.val * 256 ^ n := Nat.mul_le_mul_right _ this
          rw [Nat.add_mul] at this
          omega

theorem lt_of_head_lt {a b : Key} (less : head a < head b) : a < b := by
  rw [head_eq_pad, head_eq_pad] at less
  exact lt_of_pad_lt less

theorem head_mono {a b : Key} (le : a ≤ b) : head a ≤ head b := by
  by_contra more
  exact absurd le (not_le.mpr (lt_of_head_lt (not_le.mp more)))

theorem memcmp_lt {a b : Key} {n : ℕ} (h : memcmp a b n = .lt) : a.take n < b.take n := by
  unfold memcmp at h
  split at h
  · assumption
  · split at h <;> cases h

theorem memcmp_gt {a b : Key} {n : ℕ} (h : memcmp a b n = .gt) : b.take n < a.take n := by
  unfold memcmp at h
  split at h
  · cases h
  · split at h
    · assumption
    · cases h

theorem memcmp_eq {a b : Key} {n : ℕ} (h : memcmp a b n = .eq) : a.take n = b.take n := by
  unfold memcmp at h
  split at h
  · cases h
  · rename_i notLess
    split at h
    · cases h
    · rename_i notMore
      exact le_antisymm (not_lt.mp notMore) (not_lt.mp notLess)

end BTree
