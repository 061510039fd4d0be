import Mathlib.Algebra.Order.Group.Nat
import Mathlib.Data.List.Basic

/-!
parallel_for, which hands each worker its part of a range. Arithmetic is that of
uint64_t but for the worker number, an unsigned of 32 bits.
-/
namespace ParallelFor

structure Call where
  i : ℕ
  b : ℕ
  e : ℕ
  deriving DecidableEq, Repr

/-- `spins` is a loop that has used up its turns, `divides` a division by zero. -/
inductive Outcome where
  | spins
  | divides
  | returns (calls : List Call)
  deriving DecidableEq, Repr

def Outcome.cons (call : Call) : Outcome → Outcome
  | .returns calls => .returns (call :: calls)
  | .spins => .spins
  | .divides => .divides

section Loop
variable (begin_ end_ nthreads perThread : ℕ)

/-- The body of worker `i`. -/
def body (i : ℕ) : Call :=
  let b := (perThread * i + begin_) % 2 ^ 64
  ⟨i, b, if i = (nthreads + 2 ^ 64 - 1) % 2 ^ 64 then end_ else (b + perThread) % 2 ^ 64⟩

/-- The loop that starts the workers; the first argument bounds its turns. -/
def spawn : ℕ → ℕ → Outcome
  | 0, _ => .spins
  | turns + 1, i =>
    if i < nthreads then
      (spawn turns ((i + 1) % 2 ^ 32)).cons (body begin_ end_ nthreads perThread i)
    else .returns []

end Loop

def parallel_for (turns begin_ end_ nthreads : ℕ) : Outcome :=
  let n := (end_ + 2 ^ 64 - begin_) % 2 ^ 64
  let nthreads := if n < nthreads then n else nthreads
  if nthreads = 0 then .divides
  else spawn begin_ end_ nthreads (n / nthreads) turns 0

/-- The calls cut the range into parts that are not empty, in the order of the workers. -/
structure Partitions (begin_ end_ nthreads : ℕ) (calls : List Call) : Prop where
  covers : ∀ x, (∃ c ∈ calls, c.b ≤ x ∧ x < c.e) ↔ begin_ ≤ x ∧ x < end_
  ordered : calls.Pairwise fun c d => c.i < d.i ∧ c.e ≤ d.b
  nonempty : ∀ c ∈ calls, c.b < c.e
  few : calls.length ≤ nthreads

/-- Calls of the workers from `i` on whose ranges follow one another up to `stop`. -/
inductive Tiles (stop : ℕ) : ℕ → ℕ → List Call → Prop where
  | nil (i : ℕ) : Tiles stop i stop []
  | cons {i e : ℕ} {calls : List Call} (b : ℕ) (positive : b < e)
      (tail : Tiles stop (i + 1) e calls) : Tiles stop i b (⟨i, b, e⟩ :: calls)

namespace Tiles
variable {stop i b : ℕ} {calls : List Call}

theorem start_le (tiles : Tiles stop i b calls) : b ≤ stop := by
  induction tiles with
  | nil => exact Nat.le_refl _
  | cons b positive tail ih => omega

theorem within (tiles : Tiles stop i b calls) {c : Call} (member : c ∈ calls) :
    i ≤ c.i ∧ b ≤ c.b ∧ c.b < c.e := by
  induction tiles with
  | nil => cases member
  | cons b positive tail ih =>
    rcases List.mem_cons.mp member with rfl | later
    · exact ⟨Nat.le_refl _, Nat.le_refl _, positive⟩
    · obtain ⟨worker, low, some⟩ := ih later
      exact ⟨by omega, by omega, some⟩

theorem covers (tiles : Tiles stop i b calls) (x : ℕ) :
    (∃ c ∈ calls, c.b ≤ x ∧ x < c.e) ↔ b ≤ x ∧ x < stop := by
  induction tiles with
  | nil => simp
  | @cons i e calls b positive tail ih =>
    have rest := tail.start_le
    rw [List.exists_mem_cons_iff, ih]
    dsimp only
    omega

theorem ordered (tiles : Tiles stop i b calls) :
    calls.Pairwise fun c d => c.i < d.i ∧ c.e ≤ d.b := by
  induction tiles with
  | nil => exact List.Pairwise.nil
  | cons b positive tail ih =>
    refine List.pairwise_cons.mpr ⟨fun d member => ?_, ih⟩
    obtain ⟨worker, low, _⟩ := tail.within member
    exact ⟨worker, low⟩

end Tiles

section Spawn
variable {begin_ end_ nthreads perThread : ℕ}

/-- Where the part of worker `i` begins. -/
def bound (begin_ end_ nthreads perThread i : ℕ) : ℕ :=
  if i = nthreads then end_ else perThread * i + begin_

theorem body_eq {i : ℕ} (inside : i < nthreads) (small : end_ < 2 ^ 64)
    (room : perThread * nthreads + begin_ ≤ end_) (word : nthreads < 2 ^ 32) :
    body begin_ end_ nthreads perThread i = ⟨i, bound begin_ end_ nthreads perThread i,
      bound begin_ end_ nthreads perThread (i + 1)⟩ := by
  have next : perThread * (i + 1) = perThread * i + perThread := Nat.mul_succ _ _
  have last : perThread * (i + 1) ≤ perThread * nthreads := Nat.mul_le_mul_left _ inside
  have low : (perThread * i + begin_) % 2 ^ 64 = perThread * i + begin_ := Nat.mod_eq_of_lt (by omega)
  have high : (perThread * i + begin_ + perThread) % 2 ^ 64 = perThread * (i + 1) + begin_ := by
    rw [Nat.mod_eq_of_lt (by omega)]
    omega
  have end' : i = (nthreads + 2 ^ 64 - 1) % 2 ^ 64 ↔ i + 1 = nthreads := by omega
  simp only [body, bound, low, high, end', Nat.ne_of_lt inside, if_false]

/-- With a worker number that reaches `nthreads` the loop ends, and the parts follow one another. -/
theorem spawn_tiles (some : 0 < perThread) (small : end_ < 2 ^ 64)
    (room : perThread * nthreads + begin_ ≤ end_) (word : nthreads < 2 ^ 32) {left i : ℕ}
    (here : i + left = nthreads) :
    ∃ calls, spawn begin_ end_ nthreads perThread (left + 1) i = .returns calls ∧
      Tiles end_ i (bound begin_ end_ nthreads perThread i) calls ∧ calls.length = left := by
  induction left generalizing i with
  | zero =>
    have done : i = nthreads := here
    refine ⟨[], ?_, ?_, rfl⟩
    · rw [spawn, if_neg (by omega)]
    · rw [bound, if_pos done]
      exact .nil i
  | succ left ih =>
    obtain ⟨calls, rest, tiles, count⟩ := ih (show i + 1 + left = nthreads by omega)
    have next : (i + 1) % 2 ^ 32 = i + 1 := Nat.mod_eq_of_lt (by omega)
    have inside : i < nthreads := by omega
    refine ⟨_, ?_, .cons _ ?_ tiles, ?_⟩
    · rw [spawn, if_pos inside, next, rest, Outcome.cons, body_eq inside small room word]
    · have step : perThread * (i + 1) = perThread * i + perThread := Nat.mul_succ _ _
      have last : perThread * (i + 1) ≤ perThread * nthreads := Nat.mul_le_mul_left _ inside
      unfold bound
      rw [if_neg (Nat.ne_of_lt inside)]
      split <;> omega
    · rw [List.length_cons, count]

theorem spawn_spins (many : 2 ^ 32 ≤ nthreads) {turns i : ℕ} (word : i < 2 ^ 32) :
    spawn begin_ end_ nthreads perThread turns i = .spins := by
  induction turns generalizing i with
  | zero => rfl
  | succ turns ih =>
    rw [spawn, if_pos (by omega), ih (Nat.mod_lt _ (by decide)), Outcome.cons]

end Spawn

/-- An empty range leaves no worker, and the quotient has none to divide by. -/
theorem empty_divides (turns begin_ nthreads : ℕ) :
    parallel_for turns begin_ begin_ nthreads = .divides := by
  have size : (begin_ + 2 ^ 64 - begin_) % 2 ^ 64 = 0 := by omega
  have none : (if 0 < nthreads then 0 else nthreads) = 0 := by
    split <;> omega
  simp only [parallel_for, size, none, if_true]

/-- parallel_for cuts its range into one part for each worker if and only if the range is not
    empty and the number of workers fits an unsigned. -/
theorem parallel_for_partitions (begin_ end_ nthreads : ℕ) (order : begin_ ≤ end_)
    (small : end_ < 2 ^ 64) (one : 1 ≤ nthreads) :
    (∃ turns calls, parallel_for turns begin_ end_ nthreads = .returns calls ∧
      Partitions begin_ end_ nthreads calls) ↔
    begin_ < end_ ∧ min (end_ - begin_) nthreads < 2 ^ 32 := by
  have size : (end_ + 2 ^ 64 - begin_) % 2 ^ 64 = end_ - begin_ := by omega
  have lowered : (if end_ - begin_ < nthreads then end_ - begin_ else nthreads) =
      min (end_ - begin_) nthreads := by
    split <;> omega
  constructor
  · rintro ⟨turns, calls, run, _⟩
    by_contra wrong
    rcases Nat.eq_or_lt_of_le order with rfl | some
    · rw [empty_divides] at run
      cases run
    · have many : 2 ^ 32 ≤ min (end_ - begin_) nthreads := by omega
      simp only [parallel_for, size, lowered] at run
      rw [if_neg (by omega), spawn_spins many (by decide)] at run
      cases run
  · rintro ⟨some, word⟩
    have workers : 0 < min (end_ - begin_) nthreads := by omega
    have per : 0 < (end_ - begin_) / min (end_ - begin_) nthreads :=
      Nat.div_pos (Nat.min_le_left _ _) workers
    have room := Nat.div_mul_le_self (end_ - begin_) (min (end_ - begin_) nthreads)
    obtain ⟨calls, run, tiles, count⟩ := @spawn_tiles begin_ end_ _ _ per small (by omega) word
      _ 0 (Nat.zero_add (min (end_ - begin_) nthreads))
    have start : bound begin_ end_ (min (end_ - begin_) nthreads)
        ((end_ - begin_) / min (end_ - begin_) nthreads) 0 = begin_ := by
      rw [bound, if_neg (by omega), Nat.mul_zero, Nat.zero_add]
    rw [start] at tiles
    refine ⟨min (end_ - begin_) nthreads + 1, calls, ?_, tiles.covers, tiles.ordered, ?_, by omega⟩
    · simp only [parallel_for, size, lowered]
      rw [if_neg (by omega), run]
    · exact fun c member => (tiles.within member).2.2

/-- Ten keys for three workers. -/
theorem parallel_for_partitions_ten :
    parallel_for 9 0 10 3 = .returns [⟨0, 0, 3⟩, ⟨1, 3, 6⟩, ⟨2, 6, 10⟩] ∧
      ∃ turns calls, parallel_for turns 0 10 3 = .returns calls ∧ Partitions 0 10 3 calls :=
  ⟨by decide, (parallel_for_partitions 0 10 3 (by decide) (by decide) (by decide)).mpr
    (by decide)⟩

/-- The load of no keys divides by zero. -/
theorem empty_range_divides : (∀ turns, parallel_for turns 0 0 4 = .divides) ∧
    ¬ ∃ turns calls, parallel_for turns 0 0 4 = .returns calls ∧ Partitions 0 0 4 calls := by
  refine ⟨fun turns => empty_divides turns 0 4, ?_⟩
  rintro ⟨turns, calls, run, _⟩
  rw [empty_divides] at run
  cases run

end ParallelFor
