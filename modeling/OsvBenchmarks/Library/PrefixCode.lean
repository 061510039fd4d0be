import OsvBenchmarks.Library.Prefix

/-!
Order-preserving prefix codes. A code keeps an order when its strings compare as
the values do and no string of it is a prefix of a string for another value.
Such codes may be concatenated: the result compares field by field.
-/
namespace PrefixCode
variable {A : Type*}

/-- Neither string is a prefix of the other. -/
def Apart (x y : List A) : Prop := ¬ x <+: y ∧ ¬ y <+: x

theorem apart_cons {a : A} {x y : List A} (apart : Apart x y) : Apart (a :: x) (a :: y) := by
  constructor
  · intro h
    exact apart.1 (List.cons_prefix_cons.mp h).2
  · intro h
    exact apart.2 (List.cons_prefix_cons.mp h).2

theorem apart_of_head_ne {a b : A} {x y : List A} (differ : a ≠ b) : Apart (a :: x) (b :: y) := by
  constructor
  · intro h
    exact differ (List.cons_prefix_cons.mp h).1
  · intro h
    exact differ (List.cons_prefix_cons.mp h).1.symm

theorem Apart.append {x y : List A} (apart : Apart x y) (s t : List A) :
    Apart (x ++ s) (y ++ t) := by
  have either : ∀ {u v p q : List A}, u ++ p <+: v ++ q → u <+: v ∨ v <+: u := by
    intro u v p q h
    exact List.prefix_or_prefix_of_prefix
      ((List.prefix_append u p).trans h) (List.prefix_append v q)
  constructor
  · intro h
    rcases either h with left | right
    · exact apart.1 left
    · exact apart.2 right
  · intro h
    rcases either h with right | left
    · exact apart.2 right
    · exact apart.1 left

theorem apart_append_left {p x y : List A} (apart : Apart x y) : Apart (p ++ x) (p ++ y) := by
  induction p with
  | nil => exact apart
  | cons a p ih => exact apart_cons ih

theorem apart_of_length {x y : List A} (same : x.length = y.length) (differ : x ≠ y) :
    Apart x y := by
  constructor
  · intro h
    exact differ (h.eq_of_length same)
  · intro h
    exact differ (h.eq_of_length same.symm).symm

theorem apart_terminated {z : A} {x y : List A} (hx : z ∉ x) (hy : z ∉ y) (differ : x ≠ y) :
    Apart (x ++ [z]) (y ++ [z]) := by
  induction x generalizing y with
  | nil =>
    cases y with
    | nil => exact absurd rfl differ
    | cons b y => exact apart_of_head_ne fun same => hy (by simp [same])
  | cons a x ih =>
    cases y with
    | nil => exact apart_of_head_ne fun same => hx (by simp [same])
    | cons b y =>
      by_cases same : a = b
      · subst same
        have tails : x ≠ y := fun h => differ (by rw [h])
        exact apart_cons (ih (fun h => hx (List.mem_cons_of_mem _ h))
          (fun h => hy (List.mem_cons_of_mem _ h)) tails)
      · exact apart_of_head_ne same

variable [LinearOrder A]

theorem Apart.append_lt_iff {x y : List A} (apart : Apart x y) (s t : List A) :
    x ++ s < y ++ t ↔ x < y := by
  induction x generalizing y with
  | nil => exact absurd List.nil_prefix apart.1
  | cons a x ih =>
    cases y with
    | nil => exact absurd List.nil_prefix apart.2
    | cons b y =>
      simp only [List.cons_append, List.cons_lt_cons_iff]
      by_cases same : a = b
      · subst same
        have rest : Apart x y := ⟨fun h => apart.1 (List.cons_prefix_cons.mpr ⟨rfl, h⟩),
          fun h => apart.2 (List.cons_prefix_cons.mpr ⟨rfl, h⟩)⟩
        simp [ih rest]
      · simp [same]

theorem terminated_lt_iff {z : A} {x y : List A} (hx : ∀ a ∈ x, z < a) (hy : ∀ a ∈ y, z < a) :
    x ++ [z] < y ++ [z] ↔ x < y := by
  induction x generalizing y with
  | nil =>
    cases y with
    | nil => simp
    | cons b y => simp [List.cons_lt_cons_iff, hy b (by simp)]
  | cons a x ih =>
    have low := hx a (by simp)
    cases y with
    | nil => simp [List.cons_lt_cons_iff, lt_asymm low, low.ne']
    | cons b y =>
      have tails := ih (fun c h => hx c (List.mem_cons_of_mem _ h))
        (fun c h => hy c (List.mem_cons_of_mem _ h))
      simp [List.cons_lt_cons_iff, tails]

/-- `code` compares as `less` does, and only values that are the `same` have comparable strings. -/
structure Keeps {α : Type*} (code : α → List A) (less same : α → α → Prop) (a b : α) : Prop where
  order : code a < code b ↔ less a b
  congr : same a b → code a = code b
  apart : ¬ same a b → Apart (code a) (code b)

namespace Keeps
variable {α β : Type*} {code : α → List A} {less same : α → α → Prop}
variable {code' : β → List A} {less' same' : β → β → Prop}

theorem pair {a b : α} {c d : β} (first : Keeps code less same a b)
    (second : Keeps code' less' same' c d) :
    Keeps (fun p : α × β => code p.1 ++ code' p.2)
      (fun p q => less p.1 q.1 ∨ same p.1 q.1 ∧ less' p.2 q.2)
      (fun p q => same p.1 q.1 ∧ same' p.2 q.2) (a, c) (b, d) := by
  by_cases equal : same a b
  · have word := first.congr equal
    have notLess : ¬ less a b := by
      rw [← first.order, word]
      exact lt_irrefl _
    constructor
    · simp only [word, Prefix.append_lt_append_iff, second.order, equal, notLess]
      simp
    · rintro ⟨_, h⟩
      simp only [word, second.congr h]
    · intro differ
      simp only [word]
      exact apart_append_left (second.apart fun h => differ ⟨equal, h⟩)
  · have apart := first.apart equal
    constructor
    · simp only [apart.append_lt_iff, first.order, equal]
      simp
    · intro h
      exact absurd h.1 equal
    · intro _
      exact apart.append _ _

theorem same_of_prefix {a b : α} (keeps : Keeps code less same a b) (h : code a <+: code b) :
    same a b := by
  by_contra differ
  exact (keeps.apart differ).1 h

end Keeps
end PrefixCode
