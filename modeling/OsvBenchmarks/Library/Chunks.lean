import OsvBenchmarks.Library.Prefix
import Mathlib.Data.List.TakeDrop
import Mathlib.Order.Fin.Basic

/-!
Buffers that are read and written in chunks, which may lie over each other. An
access outside its buffer has no result. Two buffers are compared, or one is
copied into the other, from the front; a chunk may start anywhere in what has
been done already.
-/
namespace Chunks
variable {A : Type}

/-- `size` elements from `start` on. -/
def load (buffer : List A) (start : ℤ) (size : ℕ) : Option (List A) :=
  if 0 ≤ start ∧ start + size ≤ buffer.length then some ((buffer.drop start.toNat).take size)
  else none

def store (buffer : List A) (start : ℤ) (chunk : List A) : Option (List A) :=
  if 0 ≤ start ∧ start + chunk.length ≤ buffer.length then
    some (buffer.take start.toNat ++ chunk ++ buffer.drop (start.toNat + chunk.length))
  else none

theorem load_inside {buffer : List A} {start size : ℕ} (inside : start + size ≤ buffer.length) :
    load buffer start size = some ((buffer.drop start).take size) := by
  rw [load, if_pos (by omega), Int.toNat_natCast]

theorem store_inside {buffer chunk : List A} {start : ℕ} (inside : start + chunk.length ≤ buffer.length) :
    store buffer start chunk =
      some (buffer.take start ++ chunk ++ buffer.drop (start + chunk.length)) := by
  rw [store, if_pos (by omega), Int.toNat_natCast]

section Difference
variable (gap : A → A → ℤ)

def difference : List A → List A → ℤ
  | x :: xs, y :: ys => if gap x y = 0 then difference xs ys else gap x y
  | _, _ => 0

variable {gap} (exact_ : ∀ x y, gap x y = 0 ↔ x = y)
include exact_

theorem difference_self (xs : List A) : difference gap xs xs = 0 := by
  induction xs with
  | nil => rfl
  | cons x xs ih => rw [difference, if_pos ((exact_ x x).mpr rfl), ih]

theorem difference_eq_zero {xs ys : List A} (same : xs.length = ys.length) :
    difference gap xs ys = 0 ↔ xs = ys := by
  constructor
  · intro none
    induction xs generalizing ys with
    | nil => exact (List.eq_nil_of_length_eq_zero same.symm).symm
    | cons x xs ih =>
      cases ys with
      | nil => cases same
      | cons y ys =>
        rw [difference] at none
        split at none
        · rename_i here
          rw [(exact_ x y).mp here, ih (Nat.succ.inj same) none]
        · contradiction
  · rintro rfl
    exact difference_self exact_ xs

theorem difference_append_same (xs us vs : List A) :
    difference gap (xs ++ us) (xs ++ vs) = difference gap us vs := by
  induction xs with
  | nil => rfl
  | cons x xs ih => rw [List.cons_append, List.cons_append, difference, if_pos ((exact_ x x).mpr rfl), ih]

theorem difference_append_differ {xs ys : List A} (us vs : List A) (same : xs.length = ys.length)
    (differ : xs ≠ ys) : difference gap (xs ++ us) (ys ++ vs) = difference gap xs ys := by
  induction xs generalizing ys with
  | nil => exact absurd (List.eq_nil_of_length_eq_zero same.symm).symm differ
  | cons x xs ih =>
    cases ys with
    | nil => cases same
    | cons y ys =>
      simp only [List.cons_append, difference]
      by_cases here : gap x y = 0
      · have tails : xs ≠ ys := by
          rintro rfl
          exact differ (by rw [(exact_ x y).mp here])
        rw [if_pos here, if_pos here, ih (Nat.succ.inj same) tails]
      · rw [if_neg here, if_neg here]

end Difference

section Compare
variable (gap : A → A → ℤ) (a b : List A)

/-- Once the first `m` elements of both agree, `result` is the comparison of the first `n`. -/
def Decides (m n : ℕ) (result : Option ℤ) : Prop :=
  n ≤ a.length → n ≤ b.length → a.take m = b.take m →
    result = some (difference gap (a.take n) (b.take n))

/-- The rest is compared only where no difference was found. -/
def andThen (first rest : Option ℤ) : Option ℤ := do
  let ret ← first
  if ret ≠ 0 then return ret else rest

variable {gap a b} (exact_ : ∀ x y, gap x y = 0 ↔ x = y)
include exact_

theorem Decides.done {m : ℕ} : Decides gap a b m m (some 0) := by
  intro _ _ agree
  rw [agree, difference_self exact_]

theorem Decides.andThen {m n l : ℕ} {first rest : Option ℤ} (le : m ≤ n)
    (here : Decides gap a b l m first) (there : Decides gap a b m n rest) :
    Decides gap a b l n (andThen first rest) := by
  intro ha hb agree
  have lengths : (a.take m).length = (b.take m).length := by
    rw [List.length_take, List.length_take]
    omega
  have cut : ∀ c : List A, c.take n = c.take m ++ (c.drop m).take (n - m) := by
    intro c
    rw [← List.take_add, Nat.add_sub_cancel' le]
  have found := here (by omega) (by omega) agree
  by_cases now : a.take m = b.take m
  · have none := (difference_eq_zero exact_ lengths).mpr now
    simp [Chunks.andThen, found, none, there ha hb now]
  · have some := mt (difference_eq_zero exact_ lengths).mp now
    rw [cut a, cut b, difference_append_differ exact_ _ _ lengths now]
    simp [Chunks.andThen, found, some]

theorem Decides.chunk {m start size : ℕ} (le : start ≤ m) {result : Option ℤ}
    (compares : start + size ≤ a.length → start + size ≤ b.length → result =
      some (difference gap ((a.drop start).take size) ((b.drop start).take size))) :
    Decides gap a b m (start + size) result := by
  intro ha hb agree
  have front : a.take start = b.take start := by
    have := congrArg (List.take start) agree
    rwa [List.take_take, List.take_take, Nat.min_eq_left le] at this
  rw [compares ha hb, List.take_add, List.take_add, front, difference_append_same exact_]

theorem Decides.inside {m i size : ℕ} (le : i + size ≤ m) {result : Option ℤ}
    (compares : i + size ≤ a.length → i + size ≤ b.length → result =
      some (difference gap ((a.drop i).take size) ((b.drop i).take size))) :
    Decides gap a b m m result := by
  intro ha hb agree
  have part : ∀ c : List A, (c.drop i).take size = ((c.take m).drop i).take size := by
    intro c
    rw [List.drop_take, List.take_take, Nat.min_eq_left (by omega)]
  rw [compares (by omega) (by omega), part a, part b, agree, difference_self exact_,
    difference_self exact_]

end Compare

section Copy
variable (src old : List A) (n : ℕ)

/-- The first `m` elements are copied, those from `n` on are as before. -/
structure Copied (m : ℕ) (dst : List A) : Prop where
  length : dst.length = old.length
  done : dst.take m = src.take m
  frame : dst.drop n = old.drop n

/-- Copies `size` elements at `start`. -/
def move (size : ℕ) (dst : List A) (start : ℤ) : Option (List A) := do
  let chunk ← load src start size
  store dst start chunk

variable {src old n}

theorem Copied.start : Copied src old n 0 old :=
  ⟨rfl, rfl, rfl⟩

theorem Copied.mono {m l : ℕ} {dst : List A} (le : l ≤ m) (copied : Copied src old n m dst) :
    Copied src old n l dst := by
  refine ⟨copied.length, ?_, copied.frame⟩
  have := congrArg (List.take l) copied.done
  rwa [List.take_take, List.take_take, Nat.min_eq_left le] at this

theorem Copied.whole {dst : List A} (copied : Copied src old n n dst) :
    dst = src.take n ++ old.drop n := by
  rw [← copied.done, ← copied.frame, List.take_append_drop]

/-- A chunk that starts inside what is copied and ends inside what is to be. -/
theorem Copied.move {m start size : ℕ} {dst : List A} (copied : Copied src old n m dst)
    (le : start ≤ m) (inside : start + size ≤ n) (hs : n ≤ src.length) (ho : n ≤ old.length) :
    ∃ dst', move src size dst start = some dst' ∧ Copied src old n (max m (start + size)) dst' := by
  have len := copied.length
  have chunk : ((src.drop start).take size).length = size := by
    rw [List.length_take, List.length_drop]
    omega
  have wrote : store dst start ((src.drop start).take size) = some (dst.take start ++
      (src.drop start).take size ++ dst.drop (start + ((src.drop start).take size).length)) :=
    store_inside (by omega)
  have front : dst.take start ++ (src.drop start).take size = src.take (start + size) := by
    rw [(copied.mono le).done, ← List.take_add]
  have reached : (src.take (start + size)).length = start + size := by
    rw [List.length_take]
    omega
  rw [chunk, front] at wrote
  refine ⟨src.take (start + size) ++ dst.drop (start + size), ?_, ?_, ?_, ?_⟩
  · rw [Chunks.move, load_inside (by omega)]
    exact wrote
  · rw [List.length_append, List.length_drop, reached]
    omega
  · rcases Nat.le_total m (start + size) with short | long
    · rw [Nat.max_eq_right short]
      exact List.take_left' reached
    · have whole : dst.take m = src.take (start + size) ++ (dst.drop (start + size)).take (m - (start + size)) := by
        rw [← (copied.mono long).done, ← List.take_add, Nat.add_sub_cancel' long]
      rw [Nat.max_eq_left long, ← copied.done, whole, List.take_append, reached,
        List.take_of_length_le (by omega)]
  · have split : n = start + size + (n - (start + size)) := by omega
    rw [← copied.frame, split, ← List.drop_drop, List.drop_left' reached, List.drop_drop]

end Copy
end Chunks
