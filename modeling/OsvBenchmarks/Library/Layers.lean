import Mathlib.Order.Basic

/-!
Distances from a root of a directed graph, by the layers of a breadth-first
search: a layer is what one edge reaches from the layer before it and no earlier
layer holds.
-/
namespace Layers
variable {V : Type*} (edge : V → V → Prop) (root : V)

inductive Walk : ℕ → V → Prop
  | start : Walk 0 root
  | next {k : ℕ} {u v : V} : Walk k u → edge u v → Walk (k + 1) v

/-- The shortest walk to `v` has `d` edges. -/
def Distance (d : ℕ) (v : V) : Prop := Walk edge root d v ∧ ∀ k < d, ¬ Walk edge root k v

variable {edge root}

theorem Distance.unique {d e : ℕ} {v : V} (first : Distance edge root d v)
    (second : Distance edge root e v) : d = e := by
  rcases Nat.lt_trichotomy d e with less | same | more
  · exact absurd first.1 (second.2 d less)
  · exact same
  · exact absurd second.1 (first.2 e more)

theorem Walk.distance {k : ℕ} {v : V} (walk : Walk edge root k v) :
    ∃ d, d ≤ k ∧ Distance edge root d v := by
  induction k using Nat.strongRecOn generalizing v with
  | ind k ih =>
    by_cases shorter : ∃ j, j < k ∧ Walk edge root j v
    · obtain ⟨j, less, other⟩ := shorter
      obtain ⟨d, le, distance⟩ := ih j less other
      exact ⟨d, by omega, distance⟩
    · refine ⟨k, Nat.le_refl k, walk, ?_⟩
      intro j less other
      exact shorter ⟨j, less, other⟩

theorem distance_zero_iff {v : V} : Distance edge root 0 v ↔ v = root := by
  constructor
  · intro distance
    obtain ⟨walk, _⟩ := distance
    cases walk
    rfl
  · rintro rfl
    exact ⟨.start, fun k less => absurd less (Nat.not_lt_zero k)⟩

/-- A vertex of the next layer is reached from this one and lies in no layer up to it. -/
theorem distance_succ_iff {d : ℕ} {v : V} :
    Distance edge root (d + 1) v ↔
      (∃ u, Distance edge root d u ∧ edge u v) ∧ ∀ k, k ≤ d → ¬ Distance edge root k v := by
  constructor
  · rintro ⟨walk, shortest⟩
    constructor
    · cases walk with
      | @next _ u _ walk step =>
        refine ⟨u, ⟨walk, ?_⟩, step⟩
        intro k less shorter
        exact shortest (k + 1) (by omega) (.next shorter step)
    · intro k le distance
      exact shortest k (by omega) distance.1
  · rintro ⟨⟨u, distance, step⟩, fresh⟩
    refine ⟨.next distance.1 step, ?_⟩
    intro k less walk
    obtain ⟨e, le, closer⟩ := walk.distance
    exact fresh e (by omega) closer

theorem Distance.edge_le {d : ℕ} {u v : V} (distance : Distance edge root d u) (step : edge u v) :
    ∃ e, e ≤ d + 1 ∧ Distance edge root e v :=
  (Walk.next distance.1 step).distance

theorem empty_after {d e : ℕ} (empty : ∀ v, ¬ Distance edge root d v) (le : d ≤ e) (v : V) :
    ¬ Distance edge root e v := by
  induction le generalizing v with
  | refl => exact empty v
  | step _ ih =>
    intro distance
    obtain ⟨⟨u, closer, _⟩, _⟩ := distance_succ_iff.mp distance
    exact ih u closer

end Layers
