import OsvBenchmarks.Library.Interleave
import Mathlib.Algebra.BigOperators.Group.List.Basic

/-!
A tally of the shared state to which each program adds a sum that depends neither on what
it reads nor on what the others do between its calls. In every interleaving the tally and
what the programs have still to add make up the same total.
-/
namespace Interleave
open Runs
variable {S L A B M : Type} [AddCommMonoid M]

section Adds
variable (inv : S → Prop) (tally : S → M)

/-- Whatever it reads, the program keeps the invariant, adds the sum, and its result is one
of `post`. -/
def Adds (post : A → Prop) : Prog S L A → M → Prop
  | .ret a, sum => post a ∧ sum = 0
  | .call _ effect next, sum => ∀ s, inv s → inv (effect s) ∧
      ∃ now later, sum = now + later ∧ tally (effect s) = tally s + now ∧ Adds post (next s) later

variable {inv tally} {post : A → Prop}

theorem Adds.pure {a : A} (here : post a) : Adds inv tally post (pure a : Prog S L A) 0 :=
  ⟨here, rfl⟩

theorem Adds.atomic {l : L} {f : S → A × S} {sum : M}
    (step : ∀ s, inv s → inv (f s).2 ∧ tally (f s).2 = tally s + sum ∧ post (f s).1) :
    Adds inv tally post (Prog.atomic l f) sum := by
  intro s start
  obtain ⟨keeps, adds, result⟩ := step s start
  exact ⟨keeps, sum, 0, (add_zero sum).symm, adds, result, rfl⟩

theorem Adds.bind {p : Prog S L A} {mid : A → Prop} {f : A → Prog S L B} {post : B → Prop}
    {first second : M} (before : Adds inv tally mid p first)
    (after : ∀ a, mid a → Adds inv tally post (f a) second) :
    Adds inv tally post (p >>= f) (first + second) := by
  induction p generalizing first with
  | ret a =>
    obtain ⟨here, none⟩ := before
    rw [none, zero_add]
    exact after a here
  | call l effect next ih =>
    intro s start
    obtain ⟨keeps, now, later, parts, adds, rest⟩ := before s start
    refine ⟨keeps, now, later + second, ?_, adds, ih s rest⟩
    rw [parts, add_assoc]

theorem Adds.weaken {p : Prog S L A} {post' : A → Prop} {sum : M} (adds : Adds inv tally post p sum)
    (more : ∀ a, post a → post' a) : Adds inv tally post' p sum := by
  induction p generalizing sum with
  | ret a => exact ⟨more a adds.1, adds.2⟩
  | call l effect next ih =>
    intro s start
    obtain ⟨keeps, now, later, parts, step, rest⟩ := adds s start
    exact ⟨keeps, now, later, parts, step, ih s rest⟩

theorem Adds.each {body : A → Prog S L Unit} {sums : A → M} {as : List A}
    (bodies : ∀ a ∈ as, Adds inv tally (fun _ => True) (body a) (sums a)) :
    Adds inv tally (fun _ => True) (Prog.each body as) (as.map sums).sum := by
  induction as with
  | nil => exact Adds.pure trivial
  | cons a as ih =>
    rw [List.map_cons, List.sum_cons]
    apply Adds.bind (bodies a (by simp))
    intro _ _
    exact ih fun b member => bodies b (List.mem_cons_of_mem _ member)

theorem Adds.calls {made : L → (S → S) → Prop} {p : Prog S L A} (calls : p.Calls made)
    (keeps : ∀ l effect, made l effect → ∀ s, inv s → inv (effect s) ∧ tally (effect s) = tally s) :
    Adds inv tally (fun _ => True) p 0 := by
  induction p with
  | ret a => exact ⟨trivial, rfl⟩
  | call l effect next ih =>
    intro s start
    obtain ⟨keep, same⟩ := keeps l effect calls.1 s start
    refine ⟨keep, 0, 0, (add_zero 0).symm, ?_, ih s (calls.2 s)⟩
    rw [same, add_zero]

end Adds

theorem sum_take {left : List M} {i : ℕ} {now later : M} (here : left[i]? = some (now + later)) :
    left.sum = now + (left.set i later).sum := by
  induction left generalizing i with
  | nil => cases here
  | cons sum left ih =>
    cases i with
    | zero =>
      cases here
      rw [List.set_cons_zero, List.sum_cons, List.sum_cons, add_assoc]
    | succ i =>
      rw [List.set_cons_succ, List.sum_cons, List.sum_cons, ih here, add_left_comm]

section Pool
variable {inv : S → Prop} {tally : S → M} {post : A → Prop}

/-- Each program has its own sum left to add. -/
structure Owes (inv : S → Prop) (tally : S → M) (post : A → Prop) (pool : Pool S L A)
    (left : List M) : Prop where
  start : inv pool.shared
  length : left.length = pool.threads.length
  threads : ∀ (i : ℕ) (p : Prog S L A) (sum : M), pool.threads[i]? = some p → left[i]? = some sum →
    Adds inv tally post p sum

theorem Owes.step {pool pool' : Pool S L A} {left : List M} {i : ℕ}
    (owes : Owes inv tally post pool left) (move : next pool i = some pool') :
    ∃ left', Owes inv tally post pool' left' ∧
      tally pool'.shared + left'.sum = tally pool.shared + left.sum := by
  unfold next at move
  split at move
  · rename_i l effect follow here
    cases move
    have range := (List.getElem?_eq_some_iff.mp here).1
    obtain ⟨sum, own⟩ : ∃ sum, left[i]? = some sum :=
      ⟨_, List.getElem?_eq_getElem (by rw [owes.length]; exact range)⟩
    obtain ⟨keeps, now, later, parts, adds, rest⟩ := owes.threads i _ sum here own pool.shared owes.start
    refine ⟨left.set i later, ⟨keeps, ?_, ?_⟩, ?_⟩
    · simp [owes.length]
    · intro j p sum found owed
      by_cases same : i = j
      · subst same
        rw [List.getElem?_set_self range] at found
        rw [List.getElem?_set_self (by rw [owes.length]; exact range)] at owed
        cases found
        cases owed
        exact rest
      · rw [List.getElem?_set_ne same] at found owed
        exact owes.threads j p sum found owed
    · rw [parts] at own
      rw [adds, sum_take own, add_assoc]
  · cases move
  · cases move

/-- In every interleaving the tally and what is left make up the same total. -/
theorem Owes.exec {pool pool' : Pool S L A} {left : List M} {moves : List ℕ}
    (owes : Owes inv tally post pool left) (run : exec next pool moves = some pool') :
    ∃ left', Owes inv tally post pool' left' ∧
      tally pool'.shared + left'.sum = tally pool.shared + left.sum := by
  apply exec_preserves (fun pool' : Pool S L A => ∃ left', Owes inv tally post pool' left' ∧
      tally pool'.shared + left'.sum = tally pool.shared + left.sum) _ ⟨left, owes, rfl⟩ run
  rintro mid i mid' ⟨left', owes', same⟩ move
  obtain ⟨left'', owes'', same'⟩ := owes'.step move
  exact ⟨left'', owes'', same'.trans same⟩

theorem Owes.result {pool : Pool S L A} {left : List M} (owes : Owes inv tally post pool left) {a : A}
    (ended : .ret a ∈ pool.threads) : post a := by
  obtain ⟨i, here⟩ := List.mem_iff_getElem?.mp ended
  have range := (List.getElem?_eq_some_iff.mp here).1
  obtain ⟨sum, own⟩ : ∃ sum, left[i]? = some sum :=
    ⟨_, List.getElem?_eq_getElem (by rw [owes.length]; exact range)⟩
  exact (owes.threads i _ sum here own).1

theorem Owes.nothing {pool : Pool S L A} {left : List M} (owes : Owes inv tally post pool left)
    (finished : ∀ p ∈ pool.threads, ∃ a, p = .ret a) : left.sum = 0 := by
  apply List.sum_eq_zero
  intro sum member
  obtain ⟨i, own⟩ := List.mem_iff_getElem?.mp member
  have range := (List.getElem?_eq_some_iff.mp own).1
  obtain ⟨p, here⟩ : ∃ p, pool.threads[i]? = some p :=
    ⟨_, List.getElem?_eq_getElem (by rw [← owes.length]; exact range)⟩
  obtain ⟨a, rfl⟩ := finished p (List.mem_of_getElem? here)
  exact (owes.threads i _ sum here own).2

theorem Owes.finished {pool pool' : Pool S L A} {left : List M} {moves : List ℕ}
    (owes : Owes inv tally post pool left) (run : Runs.exec next pool moves = some pool')
    (finished : ∀ p ∈ pool'.threads, ∃ a, p = .ret a) :
    tally pool'.shared = tally pool.shared + left.sum := by
  obtain ⟨left', owes', same⟩ := owes.exec run
  rw [owes'.nothing finished, add_zero] at same
  exact same

end Pool
end Interleave
