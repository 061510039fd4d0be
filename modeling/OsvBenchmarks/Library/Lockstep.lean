import Mathlib.Data.List.Basic

/-!
Machines that answer every input, and one machine standing for another: where a
relation between their states is kept, and the answers are equal, in every step
that meets a condition, it is so in every run whose steps meet it.
-/
namespace Lockstep
variable {S A I O : Type*}

def answers (next : S → I → O × S) : S → List I → List O
  | _, [] => []
  | s, i :: is => (next s i).1 :: answers next (next s i).2 is

def last (next : S → I → O × S) : S → List I → S
  | s, [] => s
  | s, i :: is => last next (next s i).2 is

def Meets (next : S → I → O × S) (ok : S → I → Prop) : S → List I → Prop
  | _, [] => True
  | s, i :: is => ok s i ∧ Meets next ok (next s i).2 is

theorem answers_eq {next : S → I → O × S} {spec : A → I → O × A} (ok : S → I → Prop)
    (R : S → A → Prop) (step : ∀ s a i, R s a → ok s i →
      (next s i).1 = (spec a i).1 ∧ R (next s i).2 (spec a i).2)
    {s : S} {a : A} {is : List I} (start : R s a) (meets : Meets next ok s is) :
    answers next s is = answers spec a is ∧ R (last next s is) (last spec a is) := by
  induction is generalizing s a with
  | nil => exact ⟨rfl, start⟩
  | cons i is ih =>
    obtain ⟨answer, related⟩ := step s a i start meets.1
    obtain ⟨rest, final⟩ := ih related meets.2
    exact ⟨by rw [answers, answers, answer, rest], final⟩

end Lockstep
