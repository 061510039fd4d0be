import Mathlib.Algebra.Order.Ring.Nat
import Mathlib.Tactic.Linarith
import Mathlib.Tactic.Ring

/-!
The sequential modes of mmapbench: each round takes the next 512 MiB from the
shared counter, reduces it modulo `virtSize - page_size` and touches one byte in
each 4096. Arithmetic is that of uint64_t.
-/
namespace Mmapbench

def scanBlock : ℕ := 512 * 1024 * 1024

/-- The sizes from the command line. -/
structure Sizes where
  virtSize : ℕ
  page_size : ℕ
  positive : 0 < virtSize
  gib : 2 ^ 30 ∣ virtSize
  small : virtSize < 2 ^ 64
  pages : 0 < page_size
  page : 4096 ∣ page_size
  below : page_size < virtSize

namespace Sizes
variable (o : Sizes)

/-- pos, after seqScanPos has been advanced to `seqScanPos` -/
def pos (seqScanPos : ℕ) : ℕ := seqScanPos % ((o.virtSize + 2 ^ 64 - o.page_size) % 2 ^ 64)

/-- The offsets pos + j of one round; mode 0 reads there and mode 2 writes. -/
def block (seqScanPos : ℕ) : List ℕ :=
  (List.range (scanBlock / 4096)).map fun j => (o.pos seqScanPos + j * 4096) % 2 ^ 64

/-- The rounds in the order of their atomic additions, each with the thread that takes it. -/
def scan : ℕ → List ℕ → List (ℕ × List ℕ)
  | _, [] => []
  | seqScanPos, thread :: threads =>
    let seqScanPos := (seqScanPos + scanBlock) % 2 ^ 64
    (thread, o.block seqScanPos) :: scan seqScanPos threads

/-- Every offset that a round touches is inside the mapping. -/
def Inside (offsets : List ℕ) : Prop := ∀ a ∈ offsets, a < o.virtSize

/-- The first round that would leave the mapping, if there is one: the start of a lap moves
    back by `scanBlock - page_size` each time. -/
def firstOutside : ℕ :=
  let laps := scanBlock / (scanBlock - o.page_size)
  (laps + 1) * (o.virtSize / scanBlock) - laps

/-- Whether a lap comes to end between two blocks, within the given number of rounds. -/
def Drifts (rounds : ℕ) : Prop :=
  o.page_size < scanBlock ∧ ¬ scanBlock - o.page_size ∣ scanBlock ∧
    o.firstOutside ≤ min rounds (2 ^ 35 - 1)

end Sizes

section Laps
variable {B h d k : ℕ}

/-- A block of `B` bytes that would end behind `h + 1` of them begins in a lap that has moved
    by a part of a block; the laps are `d` bytes longer than `h` blocks. -/
theorem outside_lap (some : 0 < d) (outside : h * B < k * B % (h * B + d)) :
    ¬ d ∣ B ∧ (B / d + 1) * h + 1 ≤ k := by
  obtain ⟨w, lap⟩ : ∃ w, w = k * B / (h * B + d) := ⟨_, rfl⟩
  obtain ⟨s, beyond⟩ : ∃ s, k * B % (h * B + d) = h * B + s := ⟨_, (Nat.add_sub_of_le outside.le).symm⟩
  have parts := Nat.div_add_mod (k * B) (h * B + d)
  have rest := Nat.mod_lt (k * B) (show 0 < h * B + d by omega)
  rw [← lap, beyond] at parts
  rw [beyond] at outside rest
  have low : 0 < s := by omega
  have high : s < d := by omega
  have sum : (w + 1) * h * B + (w * d + s) = k * B := by
    rw [← parts]
    ring
  have behind : (w + 1) * h < k := by
    by_contra before
    have := Nat.mul_le_mul_right B (not_lt.mp before)
    omega
  obtain ⟨t, rfl⟩ : ∃ t, k = (w + 1) * h + t := ⟨_, (Nat.add_sub_of_le behind.le).symm⟩
  have whole : t * B = w * d + s := by
    have split : ((w + 1) * h + t) * B = (w + 1) * h * B + t * B := Nat.add_mul _ _ _
    omega
  have positive : 1 ≤ t := by omega
  constructor
  · intro divides
    have part : d ∣ s := by
      have all : d ∣ w * d + s := whole ▸ Dvd.dvd.mul_left divides t
      exact (Nat.dvd_add_right (Nat.dvd_mul_left d w)).mp all
    exact absurd (Nat.le_of_dvd low part) (by omega)
  · have laps : B / d ≤ w := by
      rw [Nat.div_le_iff_le_mul_add_pred some]
      have := Nat.mul_le_mul_right B positive
      rw [Nat.mul_comm d w]
      omega
    have fewer : (B / d + 1) * h ≤ (w + 1) * h := Nat.mul_le_mul_right h (Nat.succ_le_succ laps)
    omega

/-- Unless the laps come to end between two blocks, the block with this number is one. -/
theorem outside_first (some : 0 < d) (between : ¬ d ∣ B) :
    h * B < ((B / d + 1) * h + 1) * B % (h * B + d) := by
  have parts := Nat.div_add_mod B d
  have rest := Nat.mod_lt B some
  have left : 0 < B % d := Nat.pos_of_ne_zero fun none => between (Nat.dvd_of_mod_eq_zero none)
  have sum : ((B / d + 1) * h + 1) * B = h * B + B % d + (h * B + d) * (B / d) := by
    calc ((B / d + 1) * h + 1) * B = (B / d) * (h * B) + h * B + B := by ring
      _ = (B / d) * (h * B) + h * B + (d * (B / d) + B % d) := by rw [parts]
      _ = h * B + B % d + (h * B + d) * (B / d) := by ring
  rw [sum, Nat.add_mul_mod_self_left, Nat.mod_eq_of_lt (by omega)]
  omega

end Laps

namespace Sizes
variable {o : Sizes}

theorem modulus : (o.virtSize + 2 ^ 64 - o.page_size) % 2 ^ 64 = o.virtSize - o.page_size := by
  have := o.small
  have := o.below
  omega

/-- The last byte of a block decides, since the block and the mapping are whole pages. -/
theorem block_inside {seqScanPos : ℕ} (page : 4096 ∣ seqScanPos) :
    o.Inside (o.block seqScanPos) ↔ o.pos seqScanPos + scanBlock ≤ o.virtSize := by
  have below := o.below
  have pages := o.pages
  have small := o.small
  have size : scanBlock = 131072 * 4096 := by decide
  have count : scanBlock / 4096 = 131072 := by decide
  obtain ⟨g, gib⟩ := o.gib
  have start : o.pos seqScanPos < o.virtSize - o.page_size := by
    rw [pos, modulus]
    exact Nat.mod_lt _ (by omega)
  have whole : 4096 ∣ o.virtSize := Dvd.dvd.trans (by decide) o.gib
  obtain ⟨a, at_⟩ : 4096 ∣ o.pos seqScanPos := by
    rw [pos, modulus]
    exact (Nat.dvd_mod_iff (Nat.dvd_sub whole o.page)).mpr page
  have wraps : ∀ j, j < 131072 → (o.pos seqScanPos + j * 4096) % 2 ^ 64 = o.pos seqScanPos + j * 4096 := by
    intro j bound
    exact Nat.mod_eq_of_lt (by omega)
  constructor
  · intro inside
    have last := inside (o.pos seqScanPos + 131071 * 4096) (List.mem_map.mpr
      ⟨131071, by rw [count, List.mem_range]; decide, wraps 131071 (by decide)⟩)
    omega
  · intro room b member
    obtain ⟨j, range, rfl⟩ := List.mem_map.mp member
    rw [count, List.mem_range] at range
    rw [wraps j range]
    omega

theorem scan_rounds {Q : List ℕ → Prop} {seqScanPos : ℕ} {threads : List ℕ} :
    (∀ r ∈ o.scan seqScanPos threads, Q r.2) ↔
      ∀ k, 1 ≤ k → k ≤ threads.length → Q (o.block ((seqScanPos + k * scanBlock) % 2 ^ 64)) := by
  induction threads generalizing seqScanPos with
  | nil =>
    constructor
    · intro _ k low high
      exact absurd (Nat.le_trans low high) (by decide)
    · intro _ r none
      cases none
  | cons thread threads ih =>
    have step : ∀ k, ((seqScanPos + scanBlock) % 2 ^ 64 + k * scanBlock) % 2 ^ 64 =
        (seqScanPos + (k + 1) * scanBlock) % 2 ^ 64 := by
      intro k
      rw [Nat.mod_add_mod, Nat.succ_mul k scanBlock, Nat.add_assoc, Nat.add_comm (k * scanBlock)]
    rw [scan, List.forall_mem_cons, ih]
    simp only [step]
    constructor
    · rintro ⟨first, later⟩ k low high
      rcases Nat.eq_or_lt_of_le low with rfl | more
      · rwa [Nat.one_mul scanBlock]
      · obtain ⟨k, rfl⟩ : ∃ j, k = j + 1 := ⟨_, (Nat.succ_pred_eq_of_pos low).symm⟩
        exact later k (by omega) (by rw [List.length_cons] at high; omega)
    · intro rounds
      constructor
      · have first := rounds 1 (Nat.le_refl _) (by simp)
        rwa [Nat.one_mul scanBlock] at first
      · intro k low high
        exact rounds (k + 1) (by omega) (by rw [List.length_cons]; omega)

/-- A round leaves the mapping exactly where its lap has moved too far. -/
theorem round_inside (k : ℕ) : o.Inside (o.block (k * scanBlock)) ↔
    ¬ (o.page_size < scanBlock ∧ o.virtSize - scanBlock < k * scanBlock % (o.virtSize - o.page_size)) := by
  have below := o.below
  have page : 4096 ∣ k * scanBlock := Dvd.dvd.mul_left (by decide) k
  have wide : scanBlock ≤ o.virtSize := by
    exact Nat.le_trans (by decide) (Nat.le_of_dvd o.positive o.gib)
  rw [block_inside page, pos, modulus]
  have rest := Nat.mod_lt (k * scanBlock) (show 0 < o.virtSize - o.page_size by omega)
  omega

/-- The offsets stay inside for a number of rounds, whichever threads take them, if and
    only if the laps do not come to end between two blocks by then. -/
theorem seqread_inside (o : Sizes) (threads : List ℕ) :
    (∀ r ∈ o.scan 0 threads, o.Inside r.2) ↔ ¬ o.Drifts threads.length := by
  have below := o.below
  have word : 2 ^ 64 = 2 ^ 35 * scanBlock := by decide
  have rounds : (∀ r ∈ o.scan 0 threads, o.Inside r.2) ↔
      ∀ k, 1 ≤ k → k ≤ threads.length → o.Inside (o.block (k % 2 ^ 35 * scanBlock)) := by
    simp only [scan_rounds, Nat.zero_add, word, Nat.mul_mod_mul_right]
  obtain ⟨h, blocks⟩ : ∃ h, o.virtSize = (h + 1) * scanBlock := by
    obtain ⟨g, gib⟩ := o.gib
    have positive := o.positive
    refine ⟨2 * g - 1, ?_⟩
    have size : scanBlock = 2 ^ 29 := by decide
    rw [size]
    omega
  have count : o.virtSize / scanBlock = h + 1 := by
    rw [blocks, Nat.mul_div_cancel _ (by decide)]
  have first : o.firstOutside = (scanBlock / (scanBlock - o.page_size) + 1) * h + 1 := by
    rw [firstOutside, count, Nat.mul_succ]
    omega
  have lap : o.page_size < scanBlock →
      o.virtSize - o.page_size = h * scanBlock + (scanBlock - o.page_size) := by
    intro less
    rw [blocks, Nat.succ_mul]
    omega
  have before : o.virtSize - scanBlock = h * scanBlock := by
    rw [blocks, Nat.succ_mul]
    omega
  rw [rounds]
  constructor
  · rintro inside ⟨less, between, reached⟩
    have outside := outside_first (h := h) (show 0 < scanBlock - o.page_size by omega) between
    have here := inside o.firstOutside (by omega) (by omega)
    rw [Nat.mod_eq_of_lt (show o.firstOutside < 2 ^ 35 by omega), round_inside, first] at here
    exact here ⟨less, by rwa [before, lap less]⟩
  · intro steady k low high
    rw [round_inside]
    rintro ⟨less, outside⟩
    rw [before, lap less] at outside
    obtain ⟨between, late⟩ := outside_lap (by omega) outside
    have word := Nat.mod_lt k (show 0 < 2 ^ 35 by decide)
    have small := Nat.mod_le k (2 ^ 35)
    exact steady ⟨less, between, by omega⟩

end Sizes

theorem fourKib_positive : 0 < 4096 := by decide

/-- One GiB in pages of 4 KiB. -/
def oneGib : Sizes where
  virtSize := 2 ^ 30
  page_size := 4096
  positive := by decide
  gib := by decide
  small := by decide
  pages := fourKib_positive
  page := by decide
  below := by decide

/-- The third round touches the byte behind the mapping. -/
theorem third_round_outside : oneGib.firstOutside = 3 ∧
    ¬ ∀ r ∈ oneGib.scan 0 [0, 0, 0], oneGib.Inside r.2 := by
  refine ⟨by decide, fun inside => ?_⟩
  have rounds := Sizes.scan_rounds.mp inside 3 (by decide) (by decide)
  have third : (0 + 3 * scanBlock) % 2 ^ 64 = 3 * scanBlock := by decide
  rw [third, Sizes.round_inside] at rounds
  exact rounds (by decide)

end Mmapbench
