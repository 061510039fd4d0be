import Mathlib.Data.Fintype.Card

/-!
Ownership of one readers-writer lock. The owners are a function from agents to
modes; a status is what a lock word can say about them. Each change of a lock
word has one lemma here that moves the owners along with it.
-/
namespace RwLock

inductive Mode where
  | free
  | shared
  | exclusive
  deriving DecidableEq, Repr

inductive Status where
  | free
  | shared (count : ℕ)
  | exclusive
  deriving DecidableEq, Repr

variable {T : Type*} [Fintype T]

def sharers (owners : T → Mode) : ℕ := (Finset.univ.filter fun t => owners t = .shared).card

inductive Describes (owners : T → Mode) : Status → Prop where
  | free (all : ∀ t, owners t = .free) : Describes owners .free
  | shared (readers : ∀ t, owners t ≠ .exclusive) (some : 0 < sharers owners) :
      Describes owners (.shared (sharers owners))
  | exclusive (t : T) (writer : owners t = .exclusive)
      (alone : ∀ u, u ≠ t → owners u = .free) : Describes owners .exclusive

theorem sharers_pos_iff {owners : T → Mode} : 0 < sharers owners ↔ ∃ t, owners t = .shared := by
  rw [sharers, Finset.card_pos]
  constructor
  · rintro ⟨t, mem⟩
    exact ⟨t, (Finset.mem_filter.mp mem).2⟩
  · rintro ⟨t, ht⟩
    exact ⟨t, Finset.mem_filter.mpr ⟨Finset.mem_univ t, ht⟩⟩

theorem describes_free {owners : T → Mode} (h : Describes owners .free) (t : T) :
    owners t = .free := by
  cases h with
  | free all => exact all t

theorem describes_exclusive {owners : T → Mode} (h : Describes owners .exclusive) :
    ∃ t, owners t = .exclusive ∧ ∀ u, u ≠ t → owners u = .free := by
  cases h with
  | exclusive t writer alone => exact ⟨t, writer, alone⟩

theorem describes_shared {owners : T → Mode} {n : ℕ} (h : Describes owners (.shared n)) :
    0 < n ∧ sharers owners = n ∧ ∀ t, owners t ≠ .exclusive := by
  cases h with
  | shared readers some => exact ⟨some, rfl, readers⟩

variable [DecidableEq T]

theorem sharers_add {owners : T → Mode} {t : T} (ht : owners t ≠ .shared) :
    sharers (Function.update owners t .shared) = sharers owners + 1 := by
  have grow : (Finset.univ.filter fun u => Function.update owners t .shared u = .shared) =
      insert t (Finset.univ.filter fun u => owners u = .shared) := by
    ext u
    by_cases same : u = t
    · subst u; simp
    · simp [same]
  rw [sharers, grow, Finset.card_insert_of_notMem (by simpa using ht)]
  rfl

theorem sharers_remove {owners : T → Mode} {t : T} {m : Mode} (ht : owners t = .shared)
    (hm : m ≠ .shared) : sharers (Function.update owners t m) + 1 = sharers owners := by
  have back := sharers_add (by simpa using hm : Function.update owners t m t ≠ .shared)
  rw [Function.update_idem, ← ht, Function.update_eq_self] at back
  exact back.symm

theorem exclusive_status {owners : T → Mode} {st : Status} {t : T}
    (h : Describes owners st) (ht : owners t = .exclusive) :
    st = .exclusive ∧ ∀ u, u ≠ t → owners u = .free := by
  cases h with
  | free all => rw [all t] at ht; cases ht
  | shared readers _ => exact absurd ht (readers t)
  | exclusive w writer alone =>
    have same : t = w := by
      by_contra ne
      rw [alone t ne] at ht
      cases ht
    subst same
    exact ⟨rfl, alone⟩

theorem shared_status {owners : T → Mode} {st : Status} {t : T}
    (h : Describes owners st) (ht : owners t = .shared) :
    st = .shared (sharers owners) ∧ 0 < sharers owners ∧ ∀ u, owners u ≠ .exclusive := by
  cases h with
  | free all => rw [all t] at ht; cases ht
  | shared readers some => exact ⟨rfl, some, readers⟩
  | exclusive w writer alone =>
    by_cases same : t = w
    · subst same; rw [writer] at ht; cases ht
    · rw [alone t same] at ht; cases ht

theorem acquire {owners : T → Mode} (t : T) (h : Describes owners .free) :
    Describes (Function.update owners t .exclusive) .exclusive :=
  .exclusive t (by simp) fun u ne => by simp [ne, describes_free h u]

theorem release {owners : T → Mode} {t : T} {st : Status} (h : Describes owners st)
    (ht : owners t = .exclusive) : Describes (Function.update owners t .free) .free := by
  have alone := (exclusive_status h ht).2
  refine .free fun u => ?_
  by_cases same : u = t
  · simp [same]
  · simp [same, alone u same]

theorem share_first {owners : T → Mode} (t : T) (h : Describes owners .free) :
    Describes (Function.update owners t .shared) (.shared 1) := by
  have none : sharers owners = 0 := by
    by_contra ne
    obtain ⟨u, hu⟩ := sharers_pos_iff.mp (Nat.pos_of_ne_zero ne)
    rw [describes_free h u] at hu
    cases hu
  have one : sharers (Function.update owners t .shared) = 1 := by
    rw [sharers_add (by simp [describes_free h t]), none]
  rw [← one]
  refine .shared (fun u => ?_) (by omega)
  by_cases same : u = t
  · simp [same]
  · simp [same, describes_free h u]

theorem share_more {owners : T → Mode} {t : T} {n : ℕ} (h : Describes owners (.shared n))
    (ht : owners t = .free) :
    Describes (Function.update owners t .shared) (.shared (n + 1)) := by
  obtain ⟨_, count, readers⟩ := describes_shared h
  have more : sharers (Function.update owners t .shared) = n + 1 := by
    rw [sharers_add (by simp [ht]), count]
  rw [← more]
  refine .shared (fun u => ?_) (by omega)
  by_cases same : u = t
  · simp [same]
  · simpa [same] using readers u

theorem unshare {owners : T → Mode} {t : T} {n : ℕ} (h : Describes owners (.shared n))
    (ht : owners t = .shared) :
    Describes (Function.update owners t .free) (if n = 1 then .free else .shared (n - 1)) := by
  obtain ⟨pos, count, readers⟩ := describes_shared h
  have fewer := sharers_remove (m := .free) ht (by simp)
  have notExclusive : ∀ u, Function.update owners t .free u ≠ .exclusive := by
    intro u
    by_cases same : u = t
    · simp [same]
    · simpa [same] using readers u
  split
  · rename_i one
    refine .free fun u => ?_
    have notShared : Function.update owners t .free u ≠ .shared := by
      intro hu
      have := sharers_pos_iff.mpr ⟨u, hu⟩
      omega
    cases hm : Function.update owners t .free u with
    | free => rfl
    | shared => exact absurd hm notShared
    | exclusive => exact absurd hm (notExclusive u)
  · have less : n - 1 = sharers (Function.update owners t .free) := by omega
    rw [less]
    exact .shared notExclusive (by omega)

theorem upgrade {owners : T → Mode} {t : T} (h : Describes owners (.shared 1))
    (ht : owners t = .shared) :
    Describes (Function.update owners t .exclusive) .exclusive := by
  have gone := unshare h ht
  simp only [↓reduceIte] at gone
  have := acquire t gone
  rwa [Function.update_idem] at this

end RwLock
