import OsvBenchmarks.Library.Chunks
import OsvBenchmarks.BTree.Heap
import Mathlib.Data.Nat.Bitwise

/-!
custom_memcpy, which is rte_memcpy as -mavx2 compiles it: whole registers, the last
one laid over those before it. Source and destination do not overlap, so they are
two buffers; both pointers always stand at the same place in theirs.
-/
namespace Rte
open BTree Chunks

section Functions
variable (src : List u8)

def rte_mov16 (dst : List u8) (p : ℤ) : Option (List u8) := move src 16 dst p

def rte_mov32 (dst : List u8) (p : ℤ) : Option (List u8) := move src 32 dst p

def rte_mov64 (dst : List u8) (p : ℤ) : Option (List u8) := do
  let dst ← rte_mov32 src dst (p + 0 * 32)
  rte_mov32 src dst (p + 1 * 32)

def rte_mov128 (dst : List u8) (p : ℤ) : Option (List u8) := do
  let dst ← rte_mov32 src dst (p + 0 * 32)
  let dst ← rte_mov32 src dst (p + 1 * 32)
  let dst ← rte_mov32 src dst (p + 2 * 32)
  rte_mov32 src dst (p + 3 * 32)

def rte_mov128blocks (dst : List u8) (p : ℤ) (n : ℕ) : Option (List u8) :=
  if n ≥ 128 then do
    let dst ← rte_mov128 src dst p
    rte_mov128blocks dst (p + 128) (n - 128)
  else some dst
termination_by n

/-- Copy less than 16 bytes: the bits of n from the lowest on. -/
def copyBits (n : ℕ) : List ℕ → List u8 → ℤ → Option (List u8)
  | [], dst, _ => some dst
  | size :: sizes, dst, p => do
    if n &&& size ≠ 0 then
      let dst ← move src size dst p
      copyBits n sizes dst (p + size)
    else copyBits n sizes dst p

/-- The end of COPY_BLOCK_128_BACK31 -/
def copyBack31 (dst : List u8) (p : ℤ) (n : ℕ) : Option (List u8) :=
  if n > 32 then do
    let dst ← rte_mov32 src dst p
    rte_mov32 src dst (p - 32 + n)
  else if n > 0 then rte_mov32 src dst (p - 32 + n)
  else some dst

def copyBlock128Back31 (dst : List u8) (p : ℤ) (n : ℕ) : Option (List u8) :=
  if n ≥ 64 then do
    let dst ← rte_mov64 src dst p
    copyBack31 src dst (p + 64) (n - 64)
  else copyBack31 src dst p n

/-- Copy 128-byte blocks and whatever left -/
def copyBlocks128 (dst : List u8) (p : ℤ) (n : ℕ) : Option (List u8) := do
  let dst ← rte_mov128blocks src dst p n
  let bits := n - n % 128
  copyBlock128Back31 src dst (p + bits) (n % 128)

/-- `dstu` is the address of the destination. -/
def rte_memcpy_generic (dstu : ℕ) (dst : List u8) (n : ℕ) : Option (List u8) :=
  if n < 16 then copyBits src n [0x01, 0x02, 0x04, 0x08] dst 0
  else if n ≤ 32 then do
    let dst ← rte_mov16 src dst 0
    rte_mov16 src dst (0 - 16 + n)
  else if n ≤ 48 then do
    let dst ← rte_mov16 src dst 0
    let dst ← rte_mov16 src dst 16
    rte_mov16 src dst (0 - 16 + n)
  else if n ≤ 64 then do
    let dst ← rte_mov32 src dst 0
    rte_mov32 src dst (0 - 32 + n)
  else if n ≤ 256 then
    if n ≥ 128 then do
      let dst ← rte_mov128 src dst 0
      copyBlock128Back31 src dst 128 (n - 128)
    else copyBlock128Back31 src dst 0 n
  else do
    -- make store aligned
    let dstofss := dstu % 32
    if dstofss > 0 then
      let dstofss := 32 - dstofss
      let dst ← rte_mov32 src dst 0
      copyBlocks128 src dst dstofss (n - dstofss)
    else copyBlocks128 src dst 0 n

/-- Copy 64 bytes blocks -/
def copyBlocks64 (dst : List u8) (p : ℤ) (n : ℕ) : Option (List u8) :=
  if n ≥ 64 then do
    let dst ← rte_mov64 src dst p
    copyBlocks64 dst (p + 64) (n - 64)
  else rte_mov64 src dst (p - 64 + n)
termination_by n

def rte_memcpy_aligned (dst : List u8) (n : ℕ) : Option (List u8) :=
  if n < 16 then copyBits src n [0x01, 0x02, 0x04, 0x08] dst 0
  else if n ≤ 32 then do
    let dst ← rte_mov16 src dst 0
    rte_mov16 src dst (0 - 16 + n)
  else if n ≤ 64 then do
    let dst ← rte_mov32 src dst 0
    rte_mov32 src dst (0 - 32 + n)
  else copyBlocks64 src dst 0 n

/-- `dstu` and `srcu` are the addresses of the buffers; the mask is 0x1F. -/
def rte_memcpy (dstu srcu : ℕ) (dst : List u8) (n : ℕ) : Option (List u8) :=
  if (dstu ||| srcu) % 32 = 0 then rte_memcpy_aligned src dst n
  else rte_memcpy_generic src dstu dst n

def custom_memcpy (dest src_ : ℕ) (dst : List u8) (count : ℕ) : Option (List u8) :=
  rte_memcpy src dest src_ dst count

end Functions

section Spec
variable {src old : List u8} {n : ℕ}

/-- From a state in which `m` bytes are copied to one in which `m'` are. -/
def Copies (src old : List u8) (n m m' : ℕ) (step : List u8 → Option (List u8)) : Prop :=
  ∀ dst, Copied src old n m dst → ∃ dst', step dst = some dst' ∧ Copied src old n m' dst'

theorem Copies.bind {m m' m'' : ℕ} {f g : List u8 → Option (List u8)} (first : Copies src old n m m' f)
    (second : Copies src old n m' m'' g) : Copies src old n m m'' fun dst => f dst >>= g := by
  intro dst copied
  obtain ⟨dst', ends, copied'⟩ := first dst copied
  obtain ⟨dst'', ends', copied''⟩ := second dst' copied'
  refine ⟨dst'', ?_, copied''⟩
  simp only [ends]
  exact ends'

theorem Copies.pure (m : ℕ) : Copies src old n m m some := fun dst copied => ⟨dst, rfl, copied⟩

theorem Copies.mono {m m' l : ℕ} {f : List u8 → Option (List u8)} (copies : Copies src old n m m' f)
    (le : l ≤ m') : Copies src old n m l f := by
  intro dst copied
  obtain ⟨dst', ends, copied'⟩ := copies dst copied
  exact ⟨dst', ends, copied'.mono le⟩

variable (hs : n ≤ src.length) (ho : n ≤ old.length)
include hs ho

theorem move_copies {m i size : ℕ} {p : ℤ} (at_ : p = i) (le : i ≤ m) (inside : i + size ≤ n) :
    Copies src old n m (max m (i + size)) fun dst => move src size dst p := by
  intro dst copied
  rw [at_]
  exact copied.move le inside hs ho

theorem mov64_copies {m i : ℕ} {p : ℤ} (at_ : p = i) (le : i ≤ m) (inside : i + 64 ≤ n) :
    Copies src old n m (max m (i + 64)) fun dst => rte_mov64 src dst p := by
  have first := @move_copies src old n hs ho m i 32 (p + 0 * 32) (by omega) le (by omega)
  have second := @move_copies src old n hs ho (max m (i + 32)) (i + 32) 32 (p + 1 * 32) (by omega)
    (by omega) (by omega)
  exact (first.bind second).mono (by omega)

theorem mov128_copies {m : ℕ} {p : ℤ} (at_ : p = m) (inside : m + 128 ≤ n) :
    Copies src old n m (m + 128) fun dst => rte_mov128 src dst p := by
  have part : ∀ j : ℕ, j + 32 ≤ 128 → Copies src old n (m + j) (m + j + 32)
      fun dst => rte_mov32 src dst (p + j) := by
    intro j less
    exact (@move_copies src old n hs ho (m + j) (m + j) 32 (p + j) (by omega) (Nat.le_refl _)
      (by omega)).mono (by omega)
  exact (part 0 (by omega)).bind ((part 32 (by omega)).bind ((part 64 (by omega)).bind
    (part 96 (by omega))))

theorem mov128blocks_copies {m k : ℕ} {p : ℤ} (at_ : p = m) (inside : m + k ≤ n) :
    Copies src old n m (m + (k - k % 128)) fun dst => rte_mov128blocks src dst p k := by
  induction k using Nat.strong_induction_on generalizing m p with
  | h k ih =>
    by_cases more : k ≥ 128
    · have rest := @ih (k - 128) (by omega) (m + 128) (p + 128) (by omega) (by omega)
      have steps := (mov128_copies hs ho at_ (by omega)).bind rest
      intro dst copied
      dsimp only
      rw [rte_mov128blocks, if_pos more]
      exact steps.mono (by omega) dst copied
    · intro dst copied
      dsimp only
      rw [rte_mov128blocks, if_neg more]
      exact ⟨dst, rfl, copied.mono (by omega)⟩

theorem copyBits_copies {j k : ℕ} {p : ℤ} (at_ : p = (n % 2 ^ k : ℕ)) :
    Copies src old n (n % 2 ^ k) (n % 2 ^ (k + j)) fun dst =>
      copyBits src n ((List.range' k j).map (2 ^ ·)) dst p := by
  induction j generalizing k p with
  | zero => exact Copies.pure _
  | succ j ih =>
    have bit : n &&& 2 ^ k ≠ 0 ↔ n / 2 ^ k % 2 = 1 := by
      rw [Nat.and_two_pow, Nat.testBit_eq_decide_div_mod_eq]
      by_cases set : n / 2 ^ k % 2 = 1 <;> simp [set]
    have up : n % 2 ^ (k + 1) = n % 2 ^ k + 2 ^ k * (n / 2 ^ k % 2) := Nat.mod_pow_succ
    have ends : k + 1 + j = k + (j + 1) := by omega
    have le := Nat.mod_le n (2 ^ (k + 1))
    intro dst copied
    dsimp only
    rw [List.range'_succ, List.map_cons, copyBits]
    by_cases set : n / 2 ^ k % 2 = 1
    · rw [set, Nat.mul_one] at up
      have first := @move_copies src old n hs ho (n % 2 ^ k) (n % 2 ^ k) (2 ^ k) p at_ (Nat.le_refl _)
        (by omega)
      have rest := @ih (k + 1) (p + (2 ^ k : ℕ)) (by omega)
      rw [if_pos (bit.mpr set)]
      have steps := (first.mono (l := n % 2 ^ (k + 1)) (by omega)).bind rest
      rw [ends] at steps
      exact steps dst copied
    · have none : n / 2 ^ k % 2 = 0 := by omega
      rw [none, Nat.mul_zero, Nat.add_zero] at up
      rw [if_neg (mt bit.mp set)]
      have rest := @ih (k + 1) p (by omega)
      rw [ends, up] at rest
      exact rest dst copied

theorem copyBack31_copies {m k : ℕ} {p : ℤ} (at_ : p = m) (far : 32 ≤ m) (few : k ≤ 64)
    (inside : m + k = n) : Copies src old n m n fun dst => copyBack31 src dst p k := by
  intro dst copied
  dsimp only
  rw [copyBack31]
  split
  · have first := @move_copies src old n hs ho m m 32 p at_ (Nat.le_refl m) (by omega)
    have last := @move_copies src old n hs ho (max m (m + 32)) (m + k - 32) 32 (p - 32 + k) (by omega)
      (by omega) (by omega)
    exact (first.bind last).mono (by omega) dst copied
  · split
    · exact (@move_copies src old n hs ho m (m + k - 32) 32 (p - 32 + k) (by omega) (by omega)
        (by omega)).mono (by omega) dst copied
    · exact ⟨dst, rfl, copied.mono (by omega)⟩

theorem copyBlock128Back31_copies {m k : ℕ} {p : ℤ} (at_ : p = m) (far : 32 ≤ m ∨ 64 ≤ k)
    (few : k ≤ 128) (inside : m + k = n) :
    Copies src old n m n fun dst => copyBlock128Back31 src dst p k := by
  intro dst copied
  dsimp only
  rw [copyBlock128Back31]
  split
  · have first := mov64_copies (m := m) hs ho at_ (Nat.le_refl m) (by omega)
    have rest := copyBack31_copies (m := m + 64) (k := k - 64) (p := p + 64) hs ho (by omega) (by omega)
      (by omega) (by omega)
    exact ((first.mono (l := m + 64) (by omega)).bind rest) dst copied
  · exact copyBack31_copies hs ho at_ (by omega) (by omega) inside dst copied

theorem copyBlocks128_copies {m k : ℕ} {p : ℤ} (at_ : p = m) (many : 128 ≤ m + k - k % 128)
    (inside : m + k = n) : Copies src old n m n fun dst => copyBlocks128 src dst p k := by
  have blocks := mov128blocks_copies hs ho at_ (Nat.le_of_eq inside)
  have rest := copyBlock128Back31_copies (m := m + (k - k % 128)) (k := k % 128)
    (p := p + (k - k % 128 : ℕ)) hs ho (by omega) (by omega) (by omega) (by omega)
  exact blocks.bind rest

theorem copyBlocks64_copies {m k : ℕ} {p : ℤ} (at_ : p = m) (far : 64 ≤ m ∨ 64 ≤ k)
    (inside : m + k = n) : Copies src old n m n fun dst => copyBlocks64 src dst p k := by
  induction k using Nat.strong_induction_on generalizing m p with
  | h k ih =>
    intro dst copied
    dsimp only
    rw [copyBlocks64]
    split
    · have first := mov64_copies (m := m) hs ho at_ (Nat.le_refl m) (by omega)
      have rest := @ih (k - 64) (by omega) (m + 64) (p + 64) (by omega) (by omega) (by omega)
      exact ((first.mono (l := m + 64) (by omega)).bind rest) dst copied
    · exact (mov64_copies (m := m) (i := m + k - 64) hs ho (by omega) (by omega) (by omega)).mono
        (by omega) dst copied

theorem bits_copies (small : n < 16) :
    Copies src old n 0 n fun dst => copyBits src n [0x01, 0x02, 0x04, 0x08] dst 0 := by
  have bits := @copyBits_copies src old n hs ho 4 0 0 (by simp [Nat.mod_one])
  rwa [Nat.pow_zero, Nat.mod_one, Nat.zero_add, Nat.mod_eq_of_lt (show n < 2 ^ 4 by omega)] at bits

theorem ends_copies (size : ℕ) (enough : size ≤ n) (few : n ≤ 2 * size) :
    Copies src old n 0 n fun dst => move src size dst 0 >>= fun dst => move src size dst (0 - size + n) := by
  have first := @move_copies src old n hs ho 0 0 size 0 rfl (Nat.le_refl 0) (by omega)
  have last := @move_copies src old n hs ho (max 0 (0 + size)) (n - size) size (0 - size + n) (by omega)
    (by omega) (by omega)
  exact (first.bind last).mono (by omega)

theorem rte_memcpy_generic_copies (dstu : ℕ) :
    Copies src old n 0 n fun dst => rte_memcpy_generic src dstu dst n := by
  intro dst copied
  dsimp only
  rw [rte_memcpy_generic]
  split
  · exact bits_copies hs ho (by omega) dst copied
  split
  · exact ends_copies hs ho 16 (by omega) (by omega) dst copied
  split
  · have first := @move_copies src old n hs ho 0 0 16 0 rfl (Nat.le_refl 0) (by omega)
    have next := @move_copies src old n hs ho (max 0 (0 + 16)) 16 16 16 rfl (by omega) (by omega)
    have last := @move_copies src old n hs ho (max (max 0 (0 + 16)) (16 + 16)) (n - 16) 16 (0 - 16 + n)
      (by omega) (by omega) (by omega)
    exact (first.bind (next.bind last)).mono (by omega) dst copied
  split
  · exact ends_copies hs ho 32 (by omega) (by omega) dst copied
  split
  · split
    · have rest := copyBlock128Back31_copies (m := 128) (k := n - 128) (p := 128) hs ho rfl (by omega)
        (by omega) (by omega)
      exact ((mov128_copies (m := 0) (p := 0) hs ho rfl (by omega)).bind rest) dst copied
    · exact copyBlock128Back31_copies hs ho rfl (by omega) (by omega) (Nat.zero_add n) dst copied
  · simp only
    split
    · have first := @move_copies src old n hs ho 0 0 32 0 rfl (Nat.le_refl 0) (by omega)
      have rest := copyBlocks128_copies (m := 32 - dstu % 32) (k := n - (32 - dstu % 32))
        (p := (32 - dstu % 32 : ℕ)) hs ho rfl (by omega) (by omega)
      exact ((first.mono (l := 32 - dstu % 32) (by omega)).bind rest) dst copied
    · exact copyBlocks128_copies hs ho rfl (by omega) (Nat.zero_add n) dst copied

theorem rte_memcpy_aligned_copies : Copies src old n 0 n fun dst => rte_memcpy_aligned src dst n := by
  intro dst copied
  dsimp only
  rw [rte_memcpy_aligned]
  split
  · exact bits_copies hs ho (by omega) dst copied
  split
  · exact ends_copies hs ho 16 (by omega) (by omega) dst copied
  split
  · exact ends_copies hs ho 32 (by omega) (by omega) dst copied
  · exact copyBlocks64_copies hs ho rfl (by omega) (Nat.zero_add n) dst copied

theorem rte_memcpy_copies (dest src_ : ℕ) :
    Copies src old n 0 n fun dst => rte_memcpy src dest src_ dst n := by
  intro dst copied
  simp only [rte_memcpy]
  split
  · exact rte_memcpy_aligned_copies hs ho dst copied
  · exact rte_memcpy_generic_copies hs ho dest dst copied

end Spec

/-- Wherever the buffers stand, exactly the first `count` bytes are copied and no access leaves
a buffer. -/
theorem custom_memcpy_copies (dest src_ : ℕ) (src dst : List u8) (count : ℕ) (hs : count ≤ src.length)
    (hd : count ≤ dst.length) :
    custom_memcpy src dest src_ dst count = some (src.take count ++ dst.drop count) := by
  obtain ⟨dst', ends, copied⟩ := rte_memcpy_copies hs hd dest src_ dst Copied.start
  rw [← copied.whole]
  exact ends

theorem custom_memcpy_copies_long :
    custom_memcpy (List.replicate 300 7) 0 64 (List.replicate 300 0 ++ [9]) 300 =
      some (List.replicate 300 7 ++ [9]) := by
  have room : 300 ≤ (List.replicate 300 (0 : u8) ++ [9]).length := by
    rw [List.length_append, List.length_replicate]
    exact Nat.le_add_right 300 1
  rw [custom_memcpy_copies 0 64 (List.replicate 300 7) _ 300 (le_of_eq List.length_replicate.symm) room,
    List.take_of_length_le (le_of_eq List.length_replicate), List.drop_left' List.length_replicate]

theorem custom_memcpy_write (dest src_ : ℕ) (heap : Heap) (offset len : ℕ) (data : List u8)
    (inside : data.length ≤ len) :
    custom_memcpy data dest src_ (bytes heap offset len) data.length =
      some (bytes (write heap offset data) offset len) := by
  have rest : len = data.length + (len - data.length) := by omega
  have behind := @bytes_write_frame heap offset (offset + data.length) (len - data.length) data
    (Or.inr (Nat.le_refl _))
  have room : data.length ≤ (bytes heap offset len).length := by rwa [bytes_length]
  obtain ⟨dst, ends, copied⟩ := rte_memcpy_copies (Nat.le_refl _) room dest src_ _ Copied.start
  refine ends.trans ?_
  rw [copied.whole, bytes_drop heap offset inside, List.take_length]
  conv_rhs => rw [rest, bytes_add, bytes_write, behind]

end Rte
