import Mathlib.Data.List.Lex
import Mathlib.Order.Compare
import Mathlib.Tactic.NormNum

/-!
Common prefixes in the lexicographic order. Everything between two strings
shares their common prefix, and the shortest string between two neighbours is
the upper one cut after the first difference.
-/
namespace Prefix
variable {A : Type*} [LinearOrder A]

def common : List A → List A → ℕ
  | a :: as, b :: bs => if a = b then common as bs + 1 else 0
  | _, _ => 0

@[simp] theorem common_nil_left (b : List A) : common [] b = 0 := by
  cases b <;> rfl

@[simp] theorem common_nil_right (a : List A) : common a [] = 0 := by
  cases a <;> rfl

theorem common_le_left (a b : List A) : common a b ≤ a.length := by
  induction a generalizing b with
  | nil => simp
  | cons x a ih =>
    cases b with
    | nil => simp
    | cons y b =>
      simp only [common, List.length_cons]
      split
      · have := ih b; omega
      · omega

theorem common_le_right (a b : List A) : common a b ≤ b.length := by
  induction a generalizing b with
  | nil => simp
  | cons x a ih =>
    cases b with
    | nil => simp
    | cons y b =>
      simp only [common, List.length_cons]
      split
      · have := ih b; omega
      · omega

theorem nil_le (a : List A) : [] ≤ a := not_lt.mp (List.not_lt_nil a)

theorem cons_le_cons_iff {x y : A} {a b : List A} :
    x :: a ≤ y :: b ↔ x < y ∨ x = y ∧ a ≤ b := by
  rw [← not_lt, List.cons_lt_cons_iff, ← not_lt]
  constructor
  · intro h
    rcases lt_trichotomy x y with less | same | more
    · exact Or.inl less
    · exact Or.inr ⟨same, fun g => h (Or.inr ⟨same.symm, g⟩)⟩
    · exact absurd (Or.inl more) h
  · rintro (less | ⟨same, h⟩) (more | ⟨_, g⟩)
    · exact lt_asymm less more
    · exact absurd less (by simp_all)
    · exact absurd more (by simp_all)
    · exact h g

theorem append_lt_append_iff {p a b : List A} : p ++ a < p ++ b ↔ a < b := by
  induction p with
  | nil => rfl
  | cons x p ih => simpa [List.cons_lt_cons_iff] using ih

theorem append_le_append_iff {p a b : List A} : p ++ a ≤ p ++ b ↔ a ≤ b := by
  rw [← not_lt, append_lt_append_iff, not_lt]

theorem lt_append {a b : List A} (more : b ≠ []) : a < a ++ b := by
  have : a ++ [] < a ++ b := append_lt_append_iff.mpr (by cases b <;> simp_all)
  simpa using this

instance list_noMaxOrder [Nonempty A] : NoMaxOrder (List A) where
  exists_gt a := ⟨a ++ [Classical.arbitrary A], lt_append (List.cons_ne_nil _ _)⟩

theorem le_append (a b : List A) : a ≤ a ++ b := by
  have : a ++ [] ≤ a ++ b := append_le_append_iff.mpr (nil_le b)
  simpa using this

theorem take_le (n : ℕ) (a : List A) : a.take n ≤ a := by
  have := le_append (a.take n) (a.drop n)
  rwa [List.take_append_drop] at this

/-- What lies between two strings starts with their common prefix. -/
theorem take_between {a b k : List A} (above : a ≤ k) (below : k ≤ b) :
    k.take (common a b) = a.take (common a b) ∧ common a b ≤ k.length := by
  induction a generalizing b k with
  | nil => simp
  | cons x a ih =>
    cases b with
    | nil => simp
    | cons y b =>
      simp only [common]
      split
      · rename_i same
        subst same
        cases k with
        | nil => exact absurd (List.nil_lt_cons x a) (not_lt.mpr above)
        | cons z k =>
          rw [cons_le_cons_iff] at above below
          have mid : z = x := by
            rcases above with up | ⟨rfl, _⟩
            · rcases below with down | ⟨rfl, _⟩
              · exact absurd up (lt_asymm down)
              · exact absurd up (lt_irrefl _)
            · rfl
          subst mid
          have above : a ≤ k := by simpa using above
          have below : k ≤ b := by simpa using below
          have := ih above below
          simpa using this
      · simp

theorem common_mono {a b a' b' : List A} (above : a ≤ a') (mid : a' ≤ b') (below : b' ≤ b) :
    common a b ≤ common a' b' := by
  have left := take_between above (le_trans mid below)
  have right := take_between (le_trans above mid) below
  have agree : ∀ n, n ≤ a'.length → n ≤ b'.length → a'.take n = b'.take n → n ≤ common a' b' := by
    intro n la lb same
    clear left right above mid below
    induction a' generalizing b' n with
    | nil => simpa using la
    | cons x a' ih =>
      cases b' with
      | nil => simpa using lb
      | cons y b' =>
        cases n with
        | zero => exact Nat.zero_le _
        | succ n =>
          simp only [List.take_succ_cons, List.cons.injEq] at same
          simp only [common, same.1, if_true]
          have := ih n (by simpa using la) (by simpa using lb) same.2
          omega
  exact agree _ left.2 right.2 (left.1.trans right.1.symm)

theorem lt_of_take_lt {n : ℕ} {a b : List A} (h : a.take n < b.take n) : a < b := by
  induction n generalizing a b with
  | zero => exact absurd h (by simp)
  | succ n ih =>
    cases b with
    | nil => exact absurd h (by simp)
    | cons y b =>
      cases a with
      | nil => exact List.nil_lt_cons y b
      | cons x a =>
        simp only [List.take_succ_cons, List.cons_lt_cons_iff] at h ⊢
        exact h.imp id fun g => ⟨g.1, ih g.2⟩

theorem lt_of_take_eq {a b : List A} (same : b.take a.length = a) (short : a.length < b.length) :
    a < b := by
  have rest : b.drop a.length ≠ [] := by simpa using short
  have := lt_append (a := b.take a.length) rest
  rwa [List.take_append_drop, same] at this

theorem truncate_gt {a b : List A} (less : a < b) (more : common a b < a.length) :
    a < b.take (common a b + 1) := by
  induction a generalizing b with
  | nil => simp at more
  | cons x a ih =>
    cases b with
    | nil => simp at less
    | cons y b =>
      simp only [common] at more ⊢
      rw [List.cons_lt_cons_iff] at less
      split
      · rename_i same
        rw [if_pos same] at more
        have tail : a < b := by
          rcases less with h | h
          · exact absurd h (by simp [same])
          · exact h.2
        rw [List.take_succ_cons, List.cons_lt_cons_iff]
        exact Or.inr ⟨same, ih tail (by simpa using more)⟩
      · rename_i differ
        rw [List.take_succ_cons, List.cons_lt_cons_iff]
        exact Or.inl (less.resolve_right fun h => differ h.1)

theorem take_lt {n : ℕ} {a : List A} (short : n < a.length) : a.take n < a := by
  have rest : a.drop n ≠ [] := by simpa using short
  have := lt_append (a := a.take n) rest
  rwa [List.take_append_drop] at this

theorem common_append (p a b : List A) : common (p ++ a) (p ++ b) = p.length + common a b := by
  induction p with
  | nil => simp
  | cons x p ih =>
    simp only [List.cons_append, common, if_true, ih, List.length_cons]
    omega

/-- The second of two neighbours, cut after the first difference, if that is shorter
and the first does not begin it; else the first. -/
def parting (a b : List A) : List A :=
  if common a b < a.length ∧ common a b + 1 < b.length then b.take (common a b + 1) else a

theorem parting_append (p a b : List A) : parting (p ++ a) (p ++ b) = p ++ parting a b := by
  unfold parting
  rw [common_append, List.length_append, List.length_append]
  by_cases cut : common a b < a.length ∧ common a b + 1 < b.length
  · have longer : p.length + common a b < p.length + a.length ∧
        p.length + common a b + 1 < p.length + b.length := by omega
    have all : p.length ≤ p.length + common a b + 1 := by omega
    rw [if_pos cut, if_pos longer, List.take_append, List.take_of_length_le all]
    congr 2
    omega
  · have shorter : ¬ (p.length + common a b < p.length + a.length ∧
        p.length + common a b + 1 < p.length + b.length) := by omega
    rw [if_neg cut, if_neg shorter]

theorem parting_short (a b : List A) : (parting a b).length ≤ a.length := by
  unfold parting
  split
  · rw [List.length_take]
    omega
  · exact Nat.le_refl _

end Prefix
