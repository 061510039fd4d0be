import Mathlib.Data.List.Nodup
import Mathlib.Order.Lattice

/-!
Tables of rows under ordered keys. A key may hold several rows; lookup, update
and erase take the latest of them. What a table holds is described key by key.
-/
namespace Table
variable {K R : Type}

abbrev Rows (K R : Type) := List (K × R)

section Keys
variable [DecidableEq K]

/-- The rows under one key, the latest first. -/
def rowsAt (t : Rows K R) (k : K) : List R := t.filterMap fun e => if e.1 = k then some e.2 else none

def lookup (t : Rows K R) (k : K) : Option R := (t.find? fun e => e.1 = k).map (·.2)

def insert (t : Rows K R) (k : K) (r : R) : Rows K R := (k, r) :: t

def update (k : K) (f : R → R) : Rows K R → Rows K R
  | [] => []
  | e :: t => if e.1 = k then (e.1, f e.2) :: t else e :: update k f t

/-- The table without the row, if there was one. -/
def erase (t : Rows K R) (k : K) : Rows K R := t.eraseP fun e => e.1 = k

theorem rowsAt_cons (e : K × R) (t : Rows K R) (k : K) :
    rowsAt (e :: t) k = if e.1 = k then e.2 :: rowsAt t k else rowsAt t k := by
  rw [rowsAt, List.filterMap_cons]
  by_cases same : e.1 = k
  · rw [if_pos same, if_pos same]
    rfl
  · rw [if_neg same, if_neg same]
    rfl

@[simp] theorem rowsAt_nil (k : K) : rowsAt ([] : Rows K R) k = [] := by
  rfl

theorem rowsAt_append (t u : Rows K R) (k : K) :
    rowsAt (t ++ u) k = rowsAt t k ++ rowsAt u k := by
  simp [rowsAt]

theorem rowsAt_insert (t : Rows K R) (k k' : K) (r : R) :
    rowsAt (insert t k r) k' = if k = k' then r :: rowsAt t k' else rowsAt t k' :=
  rowsAt_cons (k, r) t k'

theorem lookup_eq (t : Rows K R) (k : K) : lookup t k = (rowsAt t k).head? := by
  induction t with
  | nil => rfl
  | cons e t ih =>
    rw [rowsAt_cons, lookup, List.find?_cons]
    by_cases same : e.1 = k
    · simp [same]
    · simp only [same, decide_false, if_false]
      exact ih

theorem rowsAt_update (t : Rows K R) (k k' : K) (f : R → R) :
    rowsAt (update k f t) k' =
      if k = k' then (rowsAt t k').modifyHead f else rowsAt t k' := by
  induction t with
  | nil => simp [update]
  | cons e t ih =>
    by_cases same : e.1 = k
    · by_cases at' : k = k'
      · simp [update, same, at', rowsAt_cons]
      · simp [update, same, at', rowsAt_cons]
    · have head : update k f (e :: t) = e :: update k f t := by simp [update, same]
      rw [head, rowsAt_cons, rowsAt_cons, ih]
      by_cases at' : k = k'
      · have other : ¬ e.1 = k' := fun h => same (h.trans at'.symm)
        simp [at', other]
      · simp [at']

theorem rowsAt_erase (t : Rows K R) (k k' : K) :
    rowsAt (erase t k) k' = if k = k' then (rowsAt t k').tail else rowsAt t k' := by
  induction t with
  | nil => simp [erase]
  | cons e t ih =>
    by_cases same : e.1 = k
    · have rest : erase (e :: t) k = t := by simp [erase, same]
      rw [rest, rowsAt_cons, same]
      by_cases at' : k = k'
      · simp [at']
      · simp [at']
    · have head : erase (e :: t) k = e :: erase t k := by simp [erase, same]
      rw [head, rowsAt_cons, rowsAt_cons, ih]
      by_cases at' : k = k'
      · have other : ¬ e.1 = k' := fun h => same (h.trans at'.symm)
        simp [at', other]
      · simp [at']

theorem lookup_update (t : Rows K R) (k k' : K) (f : R → R) :
    lookup (update k f t) k' = if k = k' then (lookup t k').map f else lookup t k' := by
  rw [lookup_eq, lookup_eq, rowsAt_update]
  by_cases same : k = k'
  · rw [if_pos same, if_pos same]
    cases rowsAt t k' <;> rfl
  · rw [if_neg same, if_neg same]

theorem lookup_update_none (t : Rows K R) (k k' : K) (f : R → R) :
    lookup (update k f t) k' = none ↔ lookup t k' = none := by
  rw [lookup_update]
  split
  · exact Option.map_eq_none_iff
  · rfl

theorem lookup_map {B : Type} (g : R → B) (t : Rows K R) (k : K) :
    lookup (t.map fun e => (e.1, g e.2)) k = (lookup t k).map g := by
  induction t with
  | nil => rfl
  | cons e t ih =>
    rw [lookup, lookup, List.map_cons, List.find?_cons, List.find?_cons]
    by_cases same : e.1 = k
    · simp [same]
    · simp only [same, decide_false]
      exact ih

theorem map_update {B : Type} {g : K × R → B} {k : K} {f : R → R} (t : Rows K R)
    (same : ∀ r, g (k, f r) = g (k, r)) : (update k f t).map g = t.map g := by
  induction t with
  | nil => rfl
  | cons e t ih =>
    by_cases here : e.1 = k
    · have head : update k f (e :: t) = (e.1, f e.2) :: t := by simp [update, here]
      have row : g (e.1, f e.2) = g e := by
        subst here
        exact same e.2
      rw [head, List.map_cons, List.map_cons, row]
    · have head : update k f (e :: t) = e :: update k f t := by simp [update, here]
      rw [head, List.map_cons, List.map_cons, ih]

theorem mem_rowsAt {t : Rows K R} {k : K} {r : R} : r ∈ rowsAt t k ↔ (k, r) ∈ t := by
  simp only [rowsAt, List.mem_filterMap]
  constructor
  · rintro ⟨e, member, h⟩
    split at h
    · rename_i same
      cases h
      rw [← same]
      exact member
    · cases h
  · intro member
    exact ⟨(k, r), member, by simp⟩

theorem lookup_present {t : Rows K R} {k : K} {r : R} (member : (k, r) ∈ t) :
    lookup t k ≠ none := by
  intro none
  rw [lookup_eq, List.head?_eq_none_iff] at none
  have there := mem_rowsAt.mpr member
  rw [none] at there
  cases there

theorem rowsAt_map {A : Type} (key : A → K) (row : A → R) {as : List A} (nodup : as.Nodup)
    (injective : ∀ a ∈ as, ∀ b ∈ as, key a = key b → a = b) {a : A} (member : a ∈ as) :
    rowsAt (as.map fun a => (key a, row a)) (key a) = [row a] := by
  induction as with
  | nil => cases member
  | cons b as ih =>
    obtain ⟨fresh, nodup⟩ := List.nodup_cons.mp nodup
    have tail : ∀ c ∈ as, ∀ d ∈ as, key c = key d → c = d := fun c hc d hd =>
      injective c (List.mem_cons_of_mem _ hc) d (List.mem_cons_of_mem _ hd)
    rw [List.map_cons, rowsAt_cons]
    rcases List.mem_cons.mp member with rfl | member
    · have none : rowsAt (as.map fun a => (key a, row a)) (key a) = [] := by
        rw [List.eq_nil_iff_forall_not_mem]
        intro r there
        obtain ⟨c, hc, pair⟩ := List.mem_map.mp (mem_rowsAt.mp there)
        have same := injective c (List.mem_cons_of_mem _ hc) a (by simp) (Prod.mk.inj pair).1
        exact fresh (same ▸ hc)
      rw [if_pos rfl, none]
    · have differ : key b ≠ key a := by
        intro same
        have := injective b (by simp) a (List.mem_cons_of_mem _ member) same
        exact fresh (this ▸ member)
      rw [if_neg differ]
      exact ih nodup tail member

theorem rowsAt_map_none {A : Type} {key : A → K} {row : A → R} {as : List A} {k : K}
    (none : ∀ a ∈ as, key a ≠ k) : rowsAt (as.map fun a => (key a, row a)) k = [] := by
  rw [List.eq_nil_iff_forall_not_mem]
  intro r there
  obtain ⟨a, member, pair⟩ := List.mem_map.mp (mem_rowsAt.mp there)
  exact none a member (Prod.mk.inj pair).1

theorem rowsAt_flatMap_none {A : Type} {f : A → Rows K R} {as : List A} {k : K}
    (none : ∀ a ∈ as, rowsAt (f a) k = []) : rowsAt (as.flatMap f) k = [] := by
  induction as with
  | nil => rfl
  | cons a as ih =>
    rw [List.flatMap_cons, rowsAt_append, none a (by simp), List.nil_append]
    exact ih fun b member => none b (List.mem_cons_of_mem _ member)

theorem rowsAt_flatMap {A : Type} {f : A → Rows K R} {as : List A} (nodup : as.Nodup) {k : K}
    {a : A} (member : a ∈ as) (others : ∀ b ∈ as, b ≠ a → rowsAt (f b) k = []) :
    rowsAt (as.flatMap f) k = rowsAt (f a) k := by
  induction as with
  | nil => cases member
  | cons b as ih =>
    obtain ⟨fresh, nodup⟩ := List.nodup_cons.mp nodup
    rw [List.flatMap_cons, rowsAt_append]
    rcases List.mem_cons.mp member with rfl | member
    · have rest : rowsAt (as.flatMap f) k = [] := by
        apply rowsAt_flatMap_none
        intro c there
        apply others c (List.mem_cons_of_mem _ there)
        intro same
        exact fresh (same ▸ there)
      rw [rest, List.append_nil]
    · have differ : b ≠ a := by
        intro same
        exact fresh (same ▸ member)
      rw [others b (by simp) differ, List.nil_append]
      exact ih nodup member fun c there => others c (List.mem_cons_of_mem _ there)

end Keys

section Order
variable [LinearOrder K]

def firstFrom (k : K) : Rows K R → Option (K × R)
  | [] => none
  | e :: t =>
    if k ≤ e.1 then
      match firstFrom k t with
      | some f => if f.1 < e.1 then some f else some e
      | none => some e
    else firstFrom k t

theorem firstFrom_mem {t : Rows K R} {k : K} {e : K × R} (first : firstFrom k t = some e) :
    e ∈ t ∧ k ≤ e.1 := by
  induction t generalizing e with
  | nil => cases first
  | cons d t ih =>
    simp only [firstFrom] at first
    split at first
    · rename_i above
      split at first
      · rename_i f rest
        split at first
        · cases first
          exact ⟨List.mem_cons_of_mem _ (ih rest).1, (ih rest).2⟩
        · cases first
          exact ⟨by simp, above⟩
      · cases first
        exact ⟨by simp, above⟩
    · exact ⟨List.mem_cons_of_mem _ (ih first).1, (ih first).2⟩

theorem firstFrom_le {t : Rows K R} {k : K} {d : K × R} (member : d ∈ t) (above : k ≤ d.1) :
    ∃ e, firstFrom k t = some e ∧ e.1 ≤ d.1 := by
  induction t with
  | nil => cases member
  | cons c t ih =>
    simp only [firstFrom]
    rcases List.mem_cons.mp member with rfl | member
    · rw [if_pos above]
      split
      · split
        · rename_i less
          exact ⟨_, rfl, le_of_lt less⟩
        · exact ⟨_, rfl, le_refl _⟩
      · exact ⟨_, rfl, le_refl _⟩
    · obtain ⟨e, first, le⟩ := ih member
      rw [first]
      split
      · simp only
        split
        · exact ⟨e, rfl, le⟩
        · rename_i more
          exact ⟨c, rfl, le_trans (not_lt.mp more) le⟩
      · exact ⟨e, rfl, le⟩

theorem firstFrom_map {B : Type} (g : R → B) (k : K) (t : Rows K R) :
    firstFrom k (t.map fun e => (e.1, g e.2)) = (firstFrom k t).map fun e => (e.1, g e.2) := by
  induction t with
  | nil => rfl
  | cons e t ih =>
    simp only [List.map_cons, firstFrom, ih]
    cases firstFrom k t with
    | none => split <;> rfl
    | some f =>
      simp only [Option.map_some]
      split
      · split <;> rfl
      · rfl

theorem firstFrom_present {t : Rows K R} {k : K} {r : R} (present : (k, r) ∈ t) :
    ∃ r', firstFrom k t = some (k, r') ∧ (k, r') ∈ t := by
  obtain ⟨⟨k', r'⟩, first, le⟩ := firstFrom_le (k := k) present (le_refl _)
  obtain ⟨there, above⟩ := firstFrom_mem first
  obtain rfl : k' = k := le_antisymm le above
  exact ⟨r', first, there⟩

end Order

section Distinct

def Distinct (t : Rows K R) : Prop := (t.map Prod.fst).Nodup

theorem Distinct.tail {e : K × R} {t : Rows K R} (distinct : Distinct (e :: t)) :
    (∀ d ∈ t, d.1 ≠ e.1) ∧ Distinct t := by
  obtain ⟨fresh, rest⟩ := List.nodup_cons.mp distinct
  exact ⟨fun d member same => fresh (same ▸ List.mem_map_of_mem member), rest⟩

theorem Distinct.perm {t u : Rows K R} (distinct : Distinct t) (perm : u.Perm t) : Distinct u :=
  (perm.map Prod.fst).nodup_iff.mpr distinct

theorem Distinct.same_row {t : Rows K R} (distinct : Distinct t) {d e : K × R} (hd : d ∈ t) (he : e ∈ t)
    (same : d.1 = e.1) : d = e :=
  List.inj_on_of_nodup_map distinct hd he same

section Keys
variable [DecidableEq K] {t : Rows K R} (distinct : Distinct t)
include distinct

theorem Distinct.lookup_iff {k : K} {r : R} : lookup t k = some r ↔ (k, r) ∈ t := by
  rw [lookup_eq]
  constructor
  · intro found
    exact mem_rowsAt.mp (List.mem_of_mem_head? found)
  · intro member
    have there := mem_rowsAt.mpr member
    cases rows : rowsAt t k with
    | nil =>
      rw [rows] at there
      cases there
    | cons r' rest =>
      have first : (k, r') ∈ t := mem_rowsAt.mp (rows ▸ List.mem_cons_self)
      rw [List.head?_cons, (Prod.mk.inj (distinct.same_row first member rfl)).2]

theorem Distinct.update_eq (k : K) (f : R → R) :
    update k f t = t.map fun e => (e.1, if e.1 = k then f e.2 else e.2) := by
  induction t with
  | nil => rfl
  | cons e t ih =>
    obtain ⟨fresh, rest⟩ := distinct.tail
    rw [update, List.map_cons]
    by_cases same : e.1 = k
    · have kept : (t.map fun d => (d.1, if d.1 = k then f d.2 else d.2)) = t := by
        refine (List.map_congr_left fun d member => ?_).trans (List.map_id t)
        rw [if_neg (same ▸ fresh d member)]
        rfl
      rw [if_pos same, if_pos same, kept]
    · rw [if_neg same, if_neg same, ih rest]

theorem Distinct.erase_eq (k : K) : erase t k = t.filter fun e => decide (e.1 ≠ k) := by
  induction t with
  | nil => rfl
  | cons e t ih =>
    obtain ⟨fresh, rest⟩ := distinct.tail
    by_cases same : e.1 = k
    · have kept : t.filter (fun e => decide (e.1 ≠ k)) = t :=
        List.filter_eq_self.mpr fun d member => decide_eq_true (same ▸ fresh d member)
      rw [erase, List.eraseP_cons_of_pos (by simpa using same), List.filter_cons_of_neg (by simpa using same),
        kept]
    · rw [erase, List.eraseP_cons_of_neg (by simpa using same), List.filter_cons_of_pos (by simpa using same)]
      exact congrArg _ (ih rest)

end Keys

theorem Distinct.firstFrom_iff [LinearOrder K] {t : Rows K R} (distinct : Distinct t) {k : K} {e : K × R} :
    firstFrom k t = some e ↔ e ∈ t ∧ k ≤ e.1 ∧ ∀ d ∈ t, k ≤ d.1 → e.1 ≤ d.1 := by
  have least : ∀ e, firstFrom k t = some e → ∀ d ∈ t, k ≤ d.1 → e.1 ≤ d.1 := by
    intro e first d member above
    obtain ⟨e', first', le⟩ := firstFrom_le member above
    rw [first] at first'
    cases first'
    exact le
  constructor
  · intro first
    exact ⟨(firstFrom_mem first).1, (firstFrom_mem first).2, least e first⟩
  · rintro ⟨member, above, lowest⟩
    obtain ⟨e', first, le⟩ := firstFrom_le member above
    obtain ⟨member', above'⟩ := firstFrom_mem first
    rw [first, distinct.same_row member' member (le_antisymm le (lowest e' member' above'))]

end Distinct
end Table
