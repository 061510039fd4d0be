import OsvBenchmarks.Library.Chunks
import OsvBenchmarks.BTree.Heap
import Mathlib.Data.LawfulXor.Basic
import Mathlib.Data.Nat.Bitwise

/-!
custom_memcmp, which is rte_memcmp: chunks of 16 and of 32 bytes in vector
registers, the last one laid over those before it. Both pointers always stand at
the same place in their buffers, so one offset serves for both. A register is the
list of its bytes, the lowest first.
-/
namespace Rte
open BTree Chunks

/-- x[i] - y[i] of two uint8_t, as an int -/
def byteGap (x y : u8) : ℤ := (x.val : ℤ) - y.val

/-- Find the first different byte for comparison. -/
def rte_cmpffdb : List u8 → List u8 → ℕ → ℤ
  | _, _, 0 => 0
  | x :: xs, y :: ys, n + 1 => if x ≠ y then byteGap x y else rte_cmpffdb xs ys n
  | _, _, _ + 1 => 0

/-- Find the first different bit for comparison; `none` is -1. -/
def rte_cmpffd (x y : ℕ) : Option ℕ := (List.range 32).find? fun i => (x ^^^ y).testBit i

section Registers

/-- int8_t of a byte -/
def signed (x : u8) : ℤ := if x.val < 128 then x.val else (x.val : ℤ) - 256

/-- _mm_xor_si128, _mm256_xor_si256 -/
def xor (x y : List u8) : List u8 := x.zipWith (· ^^^ ·) y

/-- _mm_or_si128, _mm256_or_si256 -/
def or (x y : List u8) : List u8 := x.zipWith (· ||| ·) y

/-- _mm_cmpgt_epi8, _mm256_cmpgt_epi8: the bytes are compared as signed. -/
def cmpgt (x y : List u8) : List u8 := x.zipWith (fun a b => if signed a > signed b then 255 else 0) y

/-- _mm_testz_si128(x, x), _mm256_testz_si256(x, x) -/
def testz (x : List u8) : Bool := x.all (· = 0)

/-- _mm_movemask_epi8, _mm256_movemask_epi8: the top bit of each byte. -/
def movemask : List u8 → ℕ
  | [] => 0
  | x :: xs => (if x.val.testBit 7 then 1 else 0) + 2 * movemask xs

end Registers

section Functions
variable (a b : List u8)

def rte_cmp16 (p : ℤ) : Option ℤ := do
  let xmm0 ← load a p 16
  let xmm1 ← load b p 16
  if !testz (xor xmm0 xmm1) then
    if xmm0.take 8 = xmm1.take 8 then return rte_cmpffdb (xmm0.drop 8) (xmm1.drop 8) 8
    else return rte_cmpffdb (xmm0.take 8) (xmm1.take 8) 8
  else return 0

/-- Two registers of `width` bytes on each side. -/
def cmpRegisters (width : ℕ) (p : ℤ) : Option ℤ := do
  let mm11 ← load a p width
  let mm12 ← load a (p + width) width
  let mm21 ← load b p width
  let mm22 ← load b (p + width) width
  let mm1 := xor mm11 mm21
  let mm2 := xor mm12 mm22
  if !testz (or mm1 mm2) then
    -- which of the two blocks are different
    let (mm11, mm21, mm1, s) :=
      if testz mm1 then (mm12, mm22, mm2, p + width) else (mm11, mm21, mm1, p)
    let mm_cmp := xor mm1 (cmpgt mm11 mm21)
    let mm_rcmp := xor mm1 (cmpgt mm21 mm11)
    match rte_cmpffd (movemask mm_cmp) (movemask mm_rcmp) with
    | none => return 0
    | some cmp_b =>
      let s1 ← load a (s + cmp_b) 1
      let s2 ← load b (s + cmp_b) 1
      return rte_cmpffdb s1 s2 1
  else return 0

def rte_cmp32 (p : ℤ) : Option ℤ := cmpRegisters a b 16 p

def rte_cmp64 (p : ℤ) : Option ℤ := cmpRegisters a b 32 p

def rte_cmp128 (p : ℤ) : Option ℤ := andThen (rte_cmp64 a b p) (rte_cmp64 a b (p + 64))

def rte_cmp256 (p : ℤ) : Option ℤ :=
  andThen (rte_cmp64 a b p) (andThen (rte_cmp64 a b (p + 64))
    (andThen (rte_cmp64 a b (p + 128)) (rte_cmp64 a b (p + 192))))

/-- The blocks of rte_memcmp_regular for 2 ^ k bytes and less. -/
def regular : ℕ → ℤ → ℕ → Option ℤ
  | 0, _, _ => some 0
  | k + 1, p, n => do
    if n &&& 2 ^ k ≠ 0 then
      let x ← load a p (2 ^ k)
      let y ← load b p (2 ^ k)
      if x = y then regular k (p + 2 ^ k) (n - 2 ^ k) else return rte_cmpffdb x y (2 ^ k)
    else regular k p n

def rte_memcmp_regular (p : ℤ) (n : ℕ) : Option ℤ := regular a b 4 p n

/-- CMP_BLOCK_LESS_THAN_512, from the back -/
def cmpLast (p : ℤ) (n : ℕ) : Option ℤ :=
  if n > 32 then andThen (rte_cmp32 a b p) (rte_cmp32 a b (p - 32 + n))
  else if n > 0 then rte_cmp32 a b (p - 32 + n)
  else some 0

def cmpBelow128 (p : ℤ) (n : ℕ) : Option ℤ :=
  if n ≥ 64 then andThen (rte_cmp64 a b p) (cmpLast a b (p + 64) (n - 64)) else cmpLast a b p n

def cmpBelow256 (p : ℤ) (n : ℕ) : Option ℤ :=
  if n ≥ 128 then andThen (rte_cmp128 a b p) (cmpBelow128 a b (p + 128) (n - 128))
  else cmpBelow128 a b p n

def cmpBelow512 (p : ℤ) (n : ℕ) : Option ℤ :=
  if n ≥ 256 then andThen (rte_cmp256 a b p) (cmpBelow256 a b (p + 256) (n - 256))
  else cmpBelow256 a b p n

def cmpBlocks (p : ℤ) (n : ℕ) : Option ℤ :=
  if n > 512 then
    andThen (rte_cmp256 a b p) (andThen (rte_cmp256 a b (p + 256)) (cmpBlocks (p + 512) (n - 512)))
  else cmpBelow512 a b p n
termination_by n

def rte_memcmp (n : ℕ) : Option ℤ :=
  if n < 16 then rte_memcmp_regular a b 0 n
  else if n ≤ 32 then andThen (rte_cmp16 a b 0) (rte_cmp16 a b (0 - 16 + n))
  else if n ≤ 48 then andThen (rte_cmp32 a b 0) (rte_cmp16 a b (0 - 16 + n))
  else if n ≤ 64 then
    andThen (rte_cmp32 a b 0) (andThen (rte_cmp16 a b 32) (rte_cmp16 a b (0 - 16 + n)))
  else if n ≤ 96 then
    andThen (rte_cmp64 a b 0) (andThen (rte_cmp16 a b 64) (rte_cmp16 a b (0 - 16 + n)))
  else if n ≤ 128 then
    andThen (rte_cmp64 a b 0) (andThen (rte_cmp32 a b 64) (andThen (rte_cmp16 a b 96)
      (rte_cmp16 a b (0 - 16 + n))))
  else cmpBlocks a b 0 n

def custom_memcmp (num : ℕ) : Option ℤ := rte_memcmp a b num

end Functions

theorem byteGap_exact (x y : u8) : byteGap x y = 0 ↔ x = y := by
  rw [byteGap, Fin.ext_iff]
  omega

theorem rte_cmpffdb_eq (xs ys : List u8) (n : ℕ) :
    rte_cmpffdb xs ys n = difference byteGap (xs.take n) (ys.take n) := by
  induction n generalizing xs ys with
  | zero => simp [rte_cmpffdb, difference]
  | succ n ih =>
    cases xs with
    | nil => simp [rte_cmpffdb, difference]
    | cons x xs =>
      cases ys with
      | nil => simp [rte_cmpffdb, difference]
      | cons y ys =>
        by_cases same : x = y
        · have none := (byteGap_exact x y).mpr same
          simp only [rte_cmpffdb, ne_eq, same, not_true, if_false, List.take_succ_cons, difference,
            ih xs ys]
          rw [if_pos (same ▸ none)]
        · have some := mt (byteGap_exact x y).mp same
          simp [rte_cmpffdb, difference, same, some]

section Registers

theorem byte_xor (a b : u8) : (a ^^^ b).val = a.val ^^^ b.val := Fin.xor_val_of_two_pow (w := 8) a b

theorem byte_or (a b : u8) : (a ||| b).val = a.val ||| b.val := Fin.or_val_of_two_pow (w := 8) a b

theorem testz_cons (a : u8) (x : List u8) : testz (a :: x) = true ↔ a = 0 ∧ testz x = true := by
  simp [testz]

theorem testz_xor {x y : List u8} (same : x.length = y.length) : testz (xor x y) = true ↔ x = y := by
  induction x generalizing y with
  | nil => simp [testz, xor, List.eq_nil_of_length_eq_zero same.symm]
  | cons a x ih =>
    cases y with
    | nil => cases same
    | cons b y =>
      have bytes : a ^^^ b = 0 ↔ a = b := by
        rw [Fin.ext_iff, byte_xor, Fin.ext_iff]
        exact xor_eq_zero_iff
      have step : testz (xor (a :: x) (b :: y)) = true ↔ a ^^^ b = 0 ∧ testz (xor x y) = true :=
        testz_cons _ _
      rw [step, bytes, ih (Nat.succ.inj same), List.cons.injEq]

theorem testz_or {x y : List u8} (same : x.length = y.length) :
    testz (or x y) = true ↔ testz x = true ∧ testz y = true := by
  induction x generalizing y with
  | nil => simp [testz, or, List.eq_nil_of_length_eq_zero same.symm]
  | cons a x ih =>
    cases y with
    | nil => cases same
    | cons b y =>
      have bytes : a ||| b = 0 ↔ a = 0 ∧ b = 0 := by
        rw [Fin.ext_iff, byte_or, Fin.ext_iff, Fin.ext_iff]
        exact Nat.or_eq_zero_iff
      have step : testz (or (a :: x) (b :: y)) = true ↔ a ||| b = 0 ∧ testz (or x y) = true :=
        testz_cons _ _
      rw [step, bytes, ih (Nat.succ.inj same), testz_cons, testz_cons]
      tauto

theorem movemask_testBit (x : List u8) (i : ℕ) :
    (movemask x).testBit i = (x[i]?.map fun byte : u8 => byte.val.testBit 7).getD false := by
  induction x generalizing i with
  | nil => simp [movemask]
  | cons a x ih =>
    cases i with
    | zero =>
      simp only [movemask, Nat.testBit_zero, List.getElem?_cons_zero, Option.map_some, Option.getD_some]
      split <;> simp_all
    | succ i =>
      have half : movemask (a :: x) / 2 = movemask x := by
        simp only [movemask]
        split <;> omega
      rw [Nat.testBit_add_one, half, ih, List.getElem?_cons_succ]

theorem signed_inj {a b : u8} (same : signed a = signed b) : a = b := by
  have ha := a.isLt
  have hb := b.isLt
  simp only [signed] at same
  rw [Fin.ext_iff]
  split at same <;> split at same <;> omega

/-- The comparison of two bytes each way: the masks differ where the bytes do. -/
theorem masks_differ (a b : u8) :
    ((a ^^^ b) ^^^ if signed a > signed b then 255 else 0 : u8).val.testBit 7 ≠
      ((a ^^^ b) ^^^ if signed b > signed a then 255 else 0 : u8).val.testBit 7 ↔ a ≠ b := by
  have high : (255 : u8).val.testBit 7 = true := by decide
  have low : (0 : u8).val.testBit 7 = false := by decide
  rw [byte_xor _ (ite _ _ _), byte_xor _ (ite _ _ _), Nat.testBit_xor, Nat.testBit_xor]
  rcases lt_trichotomy (signed a) (signed b) with less | same | more
  · rw [if_neg (not_lt.mpr (le_of_lt less)), if_pos less, high, low]
    have differ : a ≠ b := fun h => absurd less (by simp [h])
    simp [differ]
  · rw [signed_inj same]
    simp
  · rw [if_pos more, if_neg (not_lt.mpr (le_of_lt more)), high, low]
    have differ : a ≠ b := fun h => absurd more (by simp [h])
    simp [differ]

/-- The masks of two registers differ first where their bytes do. -/
theorem masks_testBit {x y : List u8} (same : x.length = y.length) (i : ℕ) :
    (movemask (xor (xor x y) (cmpgt x y)) ^^^ movemask (xor (xor x y) (cmpgt y x))).testBit i = true ↔
      x[i]? ≠ y[i]? := by
  rw [Nat.testBit_xor, movemask_testBit, movemask_testBit]
  rcases Nat.lt_or_ge i x.length with inside | outside
  · have hx := List.getElem?_eq_getElem inside
    have hy := List.getElem?_eq_getElem (same ▸ inside)
    have inside' : i < y.length := same ▸ inside
    have differ := masks_differ x[i] y[i]
    simp only [xor, cmpgt, List.getElem?_zipWith, hx, hy, Option.map_some, Option.getD_some, bne_iff_ne]
    rw [differ]
    simp
  · have hx := List.getElem?_eq_none outside
    have hy := List.getElem?_eq_none (same ▸ outside)
    simp [xor, cmpgt, List.getElem?_zipWith, hx, hy]

theorem cmpffd_first {x y : List u8} (same : x.length = y.length) (short : x.length ≤ 32)
    (differ : x ≠ y) :
    ∃ i, rte_cmpffd (movemask (xor (xor x y) (cmpgt x y))) (movemask (xor (xor x y) (cmpgt y x))) =
      some i ∧ i < x.length ∧ x.take i = y.take i ∧ x[i]? ≠ y[i]? := by
  have bits := masks_testBit same
  rcases found : rte_cmpffd (movemask (xor (xor x y) (cmpgt x y)))
      (movemask (xor (xor x y) (cmpgt y x))) with _ | i
  · rw [rte_cmpffd, List.find?_range_eq_none] at found
    refine absurd (List.ext_getElem? fun i => ?_) differ
    rcases Nat.lt_or_ge i x.length with inside | outside
    · by_contra h
      have set := (bits i).mpr h
      have clear := found i (by omega)
      rw [set] at clear
      cases clear
    · rw [List.getElem?_eq_none outside, List.getElem?_eq_none (same ▸ outside)]
  · rw [rte_cmpffd, List.find?_range_eq_some] at found
    obtain ⟨set, _, clear⟩ := found
    have here := (bits i).mp set
    refine ⟨i, rfl, ?_, ?_, here⟩
    · by_contra outside
      rw [List.getElem?_eq_none (by omega), List.getElem?_eq_none (by omega)] at here
      exact here rfl
    · refine List.ext_getElem? fun j => ?_
      rw [List.getElem?_take, List.getElem?_take]
      split
      · rename_i before
        by_contra h
        have := clear j before
        rw [(bits j).mpr h] at this
        cases this
      · rfl

end Registers

theorem difference_at {x y : List u8} {i : ℕ} (same : x.length = y.length) (inside : i < x.length)
    (front : x.take i = y.take i) (here : x[i]? ≠ y[i]?) :
    difference byteGap ((x.drop i).take 1) ((y.drop i).take 1) = difference byteGap x y := by
  have inside' : i < y.length := same ▸ inside
  have hx := List.drop_eq_getElem_cons inside
  have hy := List.drop_eq_getElem_cons inside'
  have apart : x[i] ≠ y[i] := by
    intro h
    rw [List.getElem?_eq_getElem inside, List.getElem?_eq_getElem inside', h] at here
    exact here rfl
  have gap := mt (byteGap_exact _ _).mp apart
  have whole : difference byteGap x y = difference byteGap (x.drop i) (y.drop i) := by
    calc difference byteGap x y
        = difference byteGap (x.take i ++ x.drop i) (y.take i ++ y.drop i) := by
          rw [List.take_append_drop, List.take_append_drop]
      _ = difference byteGap (x.drop i) (y.drop i) := by
          rw [front, difference_append_same byteGap_exact]
  rw [whole, hx, hy, difference, if_neg gap]
  exact if_neg gap

section Spec
variable {a b : List u8}

/-- `result` compares `size` bytes from `start` on. -/
def Compares (a b : List u8) (start size : ℕ) (result : Option ℤ) : Prop :=
  start + size ≤ a.length → start + size ≤ b.length → result =
    some (difference byteGap ((a.drop start).take size) ((b.drop start).take size))

theorem Compares.decides {m n start size : ℕ} {result : Option ℤ} (compares : Compares a b start size result)
    (le : start ≤ m) (ends : start + size = n) : Decides byteGap a b m n result :=
  ends ▸ Decides.chunk byteGap_exact le compares

theorem chunk_length {c : List u8} {start size : ℕ} (inside : start + size ≤ c.length) :
    ((c.drop start).take size).length = size := by
  rw [List.length_take, List.length_drop]
  omega

theorem rte_cmp16_compares {i : ℕ} {p : ℤ} (at_ : p = i) :
    Compares a b i 16 (rte_cmp16 a b p) := by
  intro ha hb
  have la := chunk_length ha
  have lb := chunk_length hb
  rw [at_, rte_cmp16, load_inside ha, load_inside hb]
  generalize (a.drop i).take 16 = x at la ⊢
  generalize (b.drop i).take 16 = y at lb ⊢
  have zero := testz_xor (la.trans lb.symm)
  have cut : difference byteGap x y =
      difference byteGap (x.take 8 ++ x.drop 8) (y.take 8 ++ y.drop 8) := by
    rw [List.take_append_drop, List.take_append_drop]
  by_cases same : x = y
  · have none : testz (xor x y) = true := zero.mpr same
    simp only [Option.bind_eq_bind, Option.bind_some, none]
    rw [same, difference_self byteGap_exact]
    rfl
  · have some : testz (xor x y) = false := Bool.eq_false_iff.mpr (mt zero.mp same)
    by_cases low : x.take 8 = y.take 8
    · have high : (x.drop 8).take 8 = x.drop 8 ∧ (y.drop 8).take 8 = y.drop 8 :=
        ⟨List.take_of_length_le (by rw [List.length_drop]; omega),
          List.take_of_length_le (by rw [List.length_drop]; omega)⟩
      rw [cut, low, difference_append_same byteGap_exact]
      simp [some, low, rte_cmpffdb_eq, high.1, high.2]
    · have lengths : (x.take 8).length = (y.take 8).length := by
        rw [List.length_take, List.length_take, la, lb]
      rw [cut, difference_append_differ byteGap_exact _ _ lengths low]
      simp [some, low, rte_cmpffdb_eq, List.take_take]

theorem masks_compare {start width : ℕ} {p : ℤ} (at_ : p = start) (short : width ≤ 32)
    (ha : start + width ≤ a.length) (hb : start + width ≤ b.length)
    (differ : (a.drop start).take width ≠ (b.drop start).take width) :
    (match rte_cmpffd
        (movemask (xor (xor ((a.drop start).take width) ((b.drop start).take width))
          (cmpgt ((a.drop start).take width) ((b.drop start).take width))))
        (movemask (xor (xor ((a.drop start).take width) ((b.drop start).take width))
          (cmpgt ((b.drop start).take width) ((a.drop start).take width)))) with
      | none => return 0
      | some cmp_b => do
        let s1 ← load a (p + cmp_b) 1
        let s2 ← load b (p + cmp_b) 1
        return rte_cmpffdb s1 s2 1) =
      some (difference byteGap ((a.drop start).take width) ((b.drop start).take width)) := by
  have la := chunk_length ha
  have lb := chunk_length hb
  obtain ⟨i, bit, inside, front, here⟩ := cmpffd_first (la.trans lb.symm) (by omega) differ
  have byte : ∀ c : List u8, start + width ≤ c.length → load c (p + i) 1 =
      some ((((c.drop start).take width).drop i).take 1) := by
    intro c hc
    have place : p + (i : ℤ) = ((start + i : ℕ) : ℤ) := by omega
    rw [place, load_inside (by omega), List.drop_take, List.take_take, List.drop_drop]
    congr 2
    omega
  rw [bit, ← difference_at (la.trans lb.symm) inside front here]
  simp [byte a ha, byte b hb, rte_cmpffdb_eq, List.take_take]

theorem cmpRegisters_compares {start width : ℕ} {p : ℤ} (at_ : p = start) (short : width ≤ 32) :
    Compares a b start (2 * width) (cmpRegisters a b width p) := by
  intro ha hb
  have next : p + (width : ℤ) = ((start + width : ℕ) : ℤ) := by omega
  have first := @masks_compare a b start width p at_ short (by omega) (by omega)
  have second := @masks_compare a b (start + width) width (p + width) next short (by omega) (by omega)
  have cut : ∀ c : List u8, (c.drop start).take (2 * width) =
      (c.drop start).take width ++ (c.drop (start + width)).take width := by
    intro c
    rw [Nat.two_mul, List.take_add, List.drop_drop]
  have l1 := @chunk_length a start width (by omega)
  have l2 := @chunk_length b start width (by omega)
  have l3 := @chunk_length a (start + width) width (by omega)
  have l4 := @chunk_length b (start + width) width (by omega)
  rw [cmpRegisters, next, at_, load_inside (by omega), load_inside (by omega), load_inside (by omega),
    load_inside (by omega), cut a, cut b]
  rw [next] at second
  rw [at_] at first
  generalize (a.drop start).take width = x at l1 first ⊢
  generalize (b.drop start).take width = y at l2 first ⊢
  generalize (a.drop (start + width)).take width = u at l3 second ⊢
  generalize (b.drop (start + width)).take width = v at l4 second ⊢
  have low := testz_xor (l1.trans l2.symm)
  have high := testz_xor (l3.trans l4.symm)
  have both := @testz_or (xor x y) (xor u v) (by simp [xor, l1, l2, l3, l4])
  by_cases front : x = y
  · by_cases back : u = v
    · have none : testz (or (xor x y) (xor u v)) = true := both.mpr ⟨low.mpr front, high.mpr back⟩
      simp only [Option.bind_eq_bind, Option.bind_some, none]
      rw [front, back, difference_self byteGap_exact]
      rfl
    · have some : testz (or (xor x y) (xor u v)) = false :=
        Bool.eq_false_iff.mpr fun h => back (high.mp (both.mp h).2)
      have zero := low.mpr front
      rw [front] at some zero ⊢
      simp only [Option.bind_eq_bind, Option.bind_some, some, zero, difference_append_same byteGap_exact]
      exact second back
  · have some : testz (or (xor x y) (xor u v)) = false :=
      Bool.eq_false_iff.mpr fun h => front (low.mp (both.mp h).1)
    have differs : testz (xor x y) = false := Bool.eq_false_iff.mpr (mt low.mp front)
    rw [difference_append_differ byteGap_exact _ _ (l1.trans l2.symm) front]
    simp only [Option.bind_eq_bind, Option.bind_some, some, differs]
    exact first front

theorem cmp16_decides {m n i : ℕ} {p : ℤ} (at_ : p = i) (le : i ≤ m) (ends : i + 16 = n) :
    Decides byteGap a b m n (rte_cmp16 a b p) :=
  (rte_cmp16_compares at_).decides le ends

theorem cmp32_decides {m n i : ℕ} {p : ℤ} (at_ : p = i) (le : i ≤ m) (ends : i + 32 = n) :
    Decides byteGap a b m n (rte_cmp32 a b p) :=
  (cmpRegisters_compares at_ (by decide)).decides le ends

theorem cmp64_decides {m n i : ℕ} {p : ℤ} (at_ : p = i) (le : i ≤ m) (ends : i + 64 = n) :
    Decides byteGap a b m n (rte_cmp64 a b p) :=
  (cmpRegisters_compares at_ (by decide)).decides le ends

theorem cmp128_decides {m : ℕ} {p : ℤ} (at_ : p = m) :
    Decides byteGap a b m (m + 128) (rte_cmp128 a b p) := by
  apply Decides.andThen byteGap_exact (m := m + 64) (by omega)
  · exact cmp64_decides at_ (Nat.le_refl m) rfl
  · exact cmp64_decides (i := m + 64) (by omega) (Nat.le_refl _) (by omega)

theorem cmp256_decides {m : ℕ} {p : ℤ} (at_ : p = m) :
    Decides byteGap a b m (m + 256) (rte_cmp256 a b p) := by
  apply Decides.andThen byteGap_exact (m := m + 64) (by omega)
  · exact cmp64_decides at_ (Nat.le_refl m) rfl
  apply Decides.andThen byteGap_exact (m := m + 128) (by omega)
  · exact cmp64_decides (i := m + 64) (by omega) (Nat.le_refl _) (by omega)
  apply Decides.andThen byteGap_exact (m := m + 192) (by omega)
  · exact cmp64_decides (i := m + 128) (by omega) (Nat.le_refl _) (by omega)
  · exact cmp64_decides (i := m + 192) (by omega) (Nat.le_refl _) (by omega)

theorem regular_compares {k i n : ℕ} {p : ℤ} (at_ : p = i) (small : n < 2 ^ k) :
    Compares a b i n (regular a b k p n) := by
  induction k generalizing i n p with
  | zero =>
    intro _ _
    obtain rfl : n = 0 := by omega
    simp [regular, difference]
  | succ k ih =>
    intro ha hb
    have bit : n &&& 2 ^ k ≠ 0 ↔ 2 ^ k ≤ n := by
      rw [Nat.and_two_pow, Nat.testBit_eq_decide_div_mod_eq]
      rcases Nat.lt_or_ge n (2 ^ k) with below | above
      · simp [Nat.div_eq_of_lt below, below]
      · have one : n / 2 ^ k = 1 := Nat.div_eq_of_lt_le (by omega) (by omega)
        simp [one, above]
    rw [regular]
    by_cases set : 2 ^ k ≤ n
    · have cut : ∀ c : List u8, (c.drop i).take n =
          (c.drop i).take (2 ^ k) ++ (c.drop (i + 2 ^ k)).take (n - 2 ^ k) := by
        intro c
        rw [← List.drop_drop, ← List.take_add, Nat.add_sub_cancel' set]
      have rest := @ih (i + 2 ^ k) (n - 2 ^ k) (p + (2 ^ k : ℕ)) (by omega) (by omega)
        (by omega) (by omega)
      have la := @chunk_length a i (2 ^ k) (by omega)
      have lb := @chunk_length b i (2 ^ k) (by omega)
      rw [if_pos (bit.mpr set), at_, load_inside (by omega), load_inside (by omega), cut a, cut b]
      rw [at_, Nat.cast_pow, Nat.cast_ofNat] at rest
      simp only [Option.bind_eq_bind, Option.bind_some]
      split
      · rename_i same
        rw [rest, same, difference_append_same byteGap_exact]
      · rename_i differ
        rw [difference_append_differ byteGap_exact _ _ (la.trans lb.symm) differ, rte_cmpffdb_eq,
          List.take_take, List.take_take, Nat.min_self]
        rfl
    · rw [if_neg (mt bit.mp set)]
      exact ih at_ (by omega) ha hb

theorem cmpLast_decides {m n : ℕ} {p : ℤ} (at_ : p = m) (far : 32 ≤ m) (few : n ≤ 64) :
    Decides byteGap a b m (m + n) (cmpLast a b p n) := by
  rw [cmpLast]
  split
  · apply Decides.andThen byteGap_exact (m := m + 32) (by omega)
    · exact cmp32_decides at_ (Nat.le_refl m) rfl
    · exact cmp32_decides (i := m + n - 32) (by omega) (by omega) (by omega)
  · split
    · exact cmp32_decides (i := m + n - 32) (by omega) (by omega) (by omega)
    · obtain rfl : n = 0 := by omega
      exact Decides.done byteGap_exact

theorem cmpBelow128_decides {m n : ℕ} {p : ℤ} (at_ : p = m) (far : 32 ≤ m ∨ 64 ≤ n) (few : n ≤ 128) :
    Decides byteGap a b m (m + n) (cmpBelow128 a b p n) := by
  rw [cmpBelow128]
  split
  · have ends : m + n = m + 64 + (n - 64) := by omega
    rw [ends]
    apply Decides.andThen byteGap_exact (m := m + 64) (by omega)
    · exact cmp64_decides at_ (Nat.le_refl m) rfl
    · exact cmpLast_decides (by omega) (by omega) (by omega)
  · exact cmpLast_decides at_ (by omega) (by omega)

theorem cmpBelow256_decides {m n : ℕ} {p : ℤ} (at_ : p = m) (far : 32 ≤ m ∨ 64 ≤ n) (few : n ≤ 256) :
    Decides byteGap a b m (m + n) (cmpBelow256 a b p n) := by
  rw [cmpBelow256]
  split
  · have ends : m + n = m + 128 + (n - 128) := by omega
    rw [ends]
    apply Decides.andThen byteGap_exact (m := m + 128) (by omega) (cmp128_decides at_)
    exact cmpBelow128_decides (by omega) (by omega) (by omega)
  · exact cmpBelow128_decides at_ far (by omega)

theorem cmpBelow512_decides {m n : ℕ} {p : ℤ} (at_ : p = m) (far : 32 ≤ m ∨ 64 ≤ n) (few : n ≤ 512) :
    Decides byteGap a b m (m + n) (cmpBelow512 a b p n) := by
  rw [cmpBelow512]
  split
  · have ends : m + n = m + 256 + (n - 256) := by omega
    rw [ends]
    apply Decides.andThen byteGap_exact (m := m + 256) (by omega) (cmp256_decides at_)
    exact cmpBelow256_decides (by omega) (by omega) (by omega)
  · exact cmpBelow256_decides at_ far (by omega)

theorem cmpBlocks_decides {m n : ℕ} {p : ℤ} (at_ : p = m) (far : 32 ≤ m ∨ 64 ≤ n) :
    Decides byteGap a b m (m + n) (cmpBlocks a b p n) := by
  induction n using Nat.strong_induction_on generalizing m p with
  | h n ih =>
    rw [cmpBlocks]
    split
    · rename_i more
      have ends : m + n = m + 512 + (n - 512) := by omega
      rw [ends]
      apply Decides.andThen byteGap_exact (m := m + 256) (by omega) (cmp256_decides at_)
      apply Decides.andThen byteGap_exact (m := m + 256 + 256) (by omega) (cmp256_decides (by omega))
      exact ih (n - 512) (by omega) (by omega) (by omega)
    · exact cmpBelow512_decides at_ far (by omega)

end Spec

/-- The lengths whose third chunk ends behind them. -/
def Overruns (n : ℕ) : Prop := 64 < n ∧ n < 80 ∨ 96 < n ∧ n < 112

instance (n : ℕ) : Decidable (Overruns n) := inferInstanceAs (Decidable (_ ∨ _))

/-- The number of bytes that are compared. -/
def reach (n : ℕ) : ℕ := if 64 < n ∧ n < 80 then 80 else if 96 < n ∧ n < 112 then 112 else n

section Result
variable {a b : List u8}

theorem rte_memcmp_decides (n : ℕ) : Decides byteGap a b 0 (reach n) (rte_memcmp a b n) := by
  have first16 := @cmp16_decides a b 0 16 0 0 rfl (Nat.le_refl 0) rfl
  have first32 := @cmp32_decides a b 0 32 0 0 rfl (Nat.le_refl 0) rfl
  have first64 := @cmp64_decides a b 0 64 0 0 rfl (Nat.le_refl 0) rfl
  have next16 := @cmp16_decides a b 64 80 64 64 rfl (Nat.le_refl 64) rfl
  have next32 := @cmp32_decides a b 64 96 64 64 rfl (Nat.le_refl 64) rfl
  -- the last 16 bytes, laid over what has been compared or inside it
  have last : ∀ m, 16 ≤ n → n ≤ m + 16 →
      Decides byteGap a b m (max m n) (rte_cmp16 a b (0 - 16 + n)) := by
    intro m enough le
    rcases Nat.le_total m n with short | long
    · rw [Nat.max_eq_right short]
      exact cmp16_decides (i := n - 16) (by omega) (by omega) (by omega)
    · rw [Nat.max_eq_left long]
      exact Decides.inside byteGap_exact (i := n - 16) (by omega) (rte_cmp16_compares (by omega))
  have reaches : ∀ m, 16 ≤ n → n ≤ m + 16 → max m n = reach n →
      Decides byteGap a b m (reach n) (rte_cmp16 a b (0 - 16 + n)) :=
    fun m enough le ends => ends ▸ last m enough le
  have plain : ¬ Overruns n → reach n = n := by
    intro none
    rw [reach, if_neg fun h => none (Or.inl h), if_neg fun h => none (Or.inr h)]
  have bound : n ≤ reach n := by
    rw [reach]
    split_ifs <;> omega
  rw [rte_memcmp]
  split
  · rw [plain (by rw [Overruns]; omega)]
    exact (regular_compares (i := 0) rfl (by omega)).decides (Nat.le_refl 0) (Nat.zero_add n)
  split
  · have whole := plain (by rw [Overruns]; omega)
    exact first16.andThen byteGap_exact (by omega) (reaches 16 (by omega) (by omega) (by omega))
  split
  · have whole := plain (by rw [Overruns]; omega)
    exact first32.andThen byteGap_exact (by omega) (reaches 32 (by omega) (by omega) (by omega))
  split
  · have whole := plain (by rw [Overruns]; omega)
    apply first32.andThen byteGap_exact (by omega)
    apply Decides.andThen byteGap_exact (m := 48) (by omega)
    · exact cmp16_decides (i := 32) rfl (by omega) rfl
    · exact reaches 48 (by omega) (by omega) (by omega)
  split
  · have ends : max 80 n = reach n := by
      rw [reach]
      split_ifs <;> omega
    apply first64.andThen byteGap_exact (by omega)
    exact next16.andThen byteGap_exact (by omega) (reaches 80 (by omega) (by omega) ends)
  split
  · have ends : max 112 n = reach n := by
      rw [reach]
      split_ifs <;> omega
    apply first64.andThen byteGap_exact (by omega)
    apply next32.andThen byteGap_exact (by omega)
    apply Decides.andThen byteGap_exact (m := 112) (by omega)
    · exact cmp16_decides (i := 96) rfl (by omega) rfl
    · exact reaches 112 (by omega) (by omega) ends
  · have blocks := @cmpBlocks_decides a b 0 n 0 rfl (by omega)
    rw [plain (by rw [Overruns]; omega)]
    rwa [Nat.zero_add] at blocks

theorem difference_lt {x y : List u8} (same : x.length = y.length) :
    difference byteGap x y < 0 ↔ x < y := by
  induction x generalizing y with
  | nil =>
    obtain rfl := List.eq_nil_of_length_eq_zero same.symm
    simp [difference]
  | cons u x ih =>
    cases y with
    | nil => cases same
    | cons v y =>
      have gap : byteGap u v < 0 ↔ u < v := by
        rw [byteGap, Fin.lt_def]
        omega
      rw [difference, List.cons_lt_cons_iff]
      split
      · rename_i none
        obtain rfl := (byteGap_exact u v).mp none
        simp [ih (Nat.succ.inj same)]
      · rename_i some
        have differ := mt (byteGap_exact u v).mpr some
        simp [gap, differ]

theorem byteGap_swap (u v : u8) : byteGap v u = - byteGap u v := by
  rw [byteGap, byteGap]
  omega

theorem difference_swap (x y : List u8) : difference byteGap y x = - difference byteGap x y := by
  induction x generalizing y with
  | nil => cases y <;> rfl
  | cons u x ih =>
    cases y with
    | nil => rfl
    | cons v y =>
      rw [difference, difference, byteGap_swap, ih]
      split <;> split <;> omega

theorem compare_difference {n : ℕ} (ha : n ≤ a.length) (hb : n ≤ b.length) :
    compare (difference byteGap (a.take n) (b.take n)) 0 = memcmp a b n := by
  have same : (a.take n).length = (b.take n).length := by
    rw [List.length_take, List.length_take]
    omega
  have less := difference_lt same
  have more := difference_lt same.symm
  rw [difference_swap] at more
  rw [memcmp]
  rcases lt_trichotomy (difference byteGap (a.take n) (b.take n)) 0 with low | zero | high
  · rw [if_pos (less.mp low)]
    exact compare_lt_iff_lt.mpr low
  · rw [if_neg (mt less.mpr (by omega)), if_neg (mt more.mpr (by omega))]
    exact compare_eq_iff_eq.mpr zero
  · rw [if_neg (mt less.mpr (by omega)), if_pos (more.mp (by omega))]
    exact compare_gt_iff_gt.mpr high

end Result

theorem custom_memcmp_reach {a b : List u8} (num : ℕ) (ha : reach num ≤ a.length)
    (hb : reach num ≤ b.length) :
    ∃ ret, custom_memcmp a b num = some ret ∧ compare ret 0 = memcmp a b (reach num) :=
  ⟨_, rte_memcmp_decides num ha hb rfl, compare_difference ha hb⟩

/-- custom_memcmp is memcmp but for the lengths that overrun, where it also compares what lies
behind. -/
theorem custom_memcmp_agrees_iff (num : ℕ) :
    (∀ a b : List u8, num ≤ a.length → num ≤ b.length →
      ∃ ret, custom_memcmp a b num = some ret ∧ compare ret 0 = memcmp a b num) ↔
      ¬ Overruns num := by
  constructor
  · intro agrees overruns
    have further : num < reach num := by
      rw [reach]
      rcases overruns with mid | high
      · rw [if_pos mid]
        omega
      · rw [if_neg (by omega), if_pos high]
        omega
    have la : (List.replicate (reach num) (0 : u8)).length = reach num := List.length_replicate
    have lb : (List.replicate num (0 : u8) ++ List.replicate (reach num) 1).length =
        num + reach num := by
      simp
    obtain ⟨ret, found, same⟩ := agrees (List.replicate (reach num) 0)
      (List.replicate num 0 ++ List.replicate (reach num) 1) (by omega) (by omega)
    obtain ⟨ret', found', cmp⟩ := custom_memcmp_reach (a := List.replicate (reach num) 0)
      (b := List.replicate num 0 ++ List.replicate (reach num) 1) num (by omega) (by omega)
    rw [found] at found'
    cases found'
    have equal : memcmp (List.replicate (reach num) (0 : u8))
        (List.replicate num 0 ++ List.replicate (reach num) 1) num = .eq := by
      have left : (List.replicate (reach num) (0 : u8)).take num = List.replicate num 0 := by
        rw [List.take_replicate, Nat.min_eq_left (by omega)]
      have right : (List.replicate num (0 : u8) ++ List.replicate (reach num) 1).take num =
          List.replicate num 0 := List.take_left' List.length_replicate
      rw [memcmp, left, right, if_neg (lt_irrefl _), if_neg (lt_irrefl _)]
    have whole := memcmp_eq ((cmp.symm.trans same).trans equal)
    have at_ := congrArg (fun l : List u8 => l[num]?) whole
    simp [further] at at_
  · intro plain a b ha hb
    have same : reach num = num := by
      rw [reach, if_neg fun h => plain (Or.inl h), if_neg fun h => plain (Or.inr h)]
    have ends := custom_memcmp_reach (a := a) (b := b) num (by omega) (by omega)
    rwa [same] at ends

end Rte
