import Mathlib.Data.List.Nodup

/-!
Scans of sorted lists. Where the wanted elements lie together behind the start,
a scan that stops at the first one that is not wanted finds all of them; and
removing neighbours that are equal leaves each element of a sorted list once.
-/
namespace Band
variable {A : Type*}

section Scan
variable {r : A → A → Prop} {before inside : A → Bool}

/-- Where nothing wanted comes after something that is not, all that is wanted comes first. -/
theorem takeWhile_eq_filter {l : List A} (sorted : l.Pairwise r)
    (ends : ∀ a ∈ l, ∀ b ∈ l, r a b → inside a = false → inside b = false) :
    l.takeWhile inside = l.filter inside := by
  induction l with
  | nil => rfl
  | cons a l ih =>
    obtain ⟨first, rest⟩ := List.pairwise_cons.mp sorted
    cases here : inside a with
    | true =>
      rw [List.takeWhile_cons_of_pos here, List.filter_cons_of_pos here]
      exact congrArg (a :: ·) (ih rest fun b hb c hc =>
        ends b (List.mem_cons_of_mem _ hb) c (List.mem_cons_of_mem _ hc))
    | false =>
      have none : ∀ b ∈ a :: l, ¬ inside b = true := by
        intro b member
        rcases List.mem_cons.mp member with rfl | member
        · simp [here]
        · simp [ends a (by simp) b (List.mem_cons_of_mem _ member) (first b member) here]
      rw [List.takeWhile_cons_of_neg (none a (by simp)), List.filter_eq_nil_iff.mpr none]

theorem scan_eq_filter {l : List A} (sorted : l.Pairwise r)
    (start : ∀ a ∈ l, before a = true → inside a = false)
    (passed : ∀ a ∈ l, ∀ b ∈ l, r a b → before a = false → before b = false)
    (ends : ∀ a ∈ l, ∀ b ∈ l, r a b → before a = false → inside a = false → inside b = false) :
    (l.dropWhile before).takeWhile inside = l.filter inside := by
  induction l with
  | nil => rfl
  | cons a l ih =>
    obtain ⟨first, rest⟩ := List.pairwise_cons.mp sorted
    cases here : before a with
    | true =>
      have outside := start a (by simp) here
      rw [List.dropWhile_cons_of_pos here, List.filter_cons_of_neg (by simp [outside])]
      apply ih rest
      · exact fun b hb => start b (List.mem_cons_of_mem _ hb)
      · exact fun b hb c hc => passed b (List.mem_cons_of_mem _ hb) c (List.mem_cons_of_mem _ hc)
      · exact fun b hb c hc => ends b (List.mem_cons_of_mem _ hb) c (List.mem_cons_of_mem _ hc)
    | false =>
      rw [List.dropWhile_cons_of_neg (by simp [here])]
      apply takeWhile_eq_filter sorted
      intro b hb c hc less
      apply ends b hb c hc less
      rcases List.mem_cons.mp hb with rfl | member
      · exact here
      · exact passed a (by simp) b hb (first b member) here

end Scan

section Unique
variable [DecidableEq A]

/-- Of neighbours that are equal only the last one stays. -/
def unique : List A → List A
  | [] => []
  | [a] => [a]
  | a :: b :: l => if a = b then unique (b :: l) else a :: unique (b :: l)

theorem mem_unique {l : List A} {x : A} : x ∈ unique l ↔ x ∈ l := by
  induction l using unique.induct with
  | case1 => rfl
  | case2 a => rfl
  | case3 b l ih =>
    rw [unique, if_pos rfl, ih]
    simp
  | case4 a b l differ ih =>
    rw [unique, if_neg differ, List.mem_cons, ih]
    exact List.mem_cons.symm

theorem unique_nodup {lt : A → A → Prop} (asymm : ∀ a b, lt a b → lt b a → False) {l : List A}
    (sorted : l.Pairwise fun a b => lt a b ∨ a = b) : (unique l).Nodup := by
  induction l using unique.induct with
  | case1 => exact List.nodup_nil
  | case2 a => exact List.nodup_singleton a
  | case3 b l ih =>
    rw [unique, if_pos rfl]
    exact ih (List.pairwise_cons.mp sorted).2
  | case4 a b l differ ih =>
    obtain ⟨first, rest⟩ := List.pairwise_cons.mp sorted
    rw [unique, if_neg differ, List.nodup_cons, mem_unique]
    refine ⟨fun again => ?_, ih rest⟩
    -- the smallest element does not come back behind a larger one
    have less : lt a b := (first b (by simp)).resolve_right differ
    rcases List.mem_cons.mp again with same | behind
    · exact differ same
    · rcases (List.pairwise_cons.mp rest).1 a behind with back | same
      · exact asymm a b less back
      · exact differ same.symm

end Unique
end Band
