import Mathlib.Data.Finset.Basic
import Mathlib.Logic.Function.Basic

/-!
Pages under exclusive locks with versions, as optimistic lock coupling uses
them. A reader remembers a page's version and takes no lock; what it has learnt of
the page holds as long as the version is the same and no other thread holds the page.
-/
namespace Optimistic
variable {P T : Type}

structure Locks (P T : Type) where
  holder : P → Option T
  version : P → ℕ

structure Guard (P : Type) where
  page : P
  version : ℕ

namespace Locks

def unlocked : Locks P T := ⟨fun _ => none, fun _ => 0⟩

variable (l : Locks P T) (p : P) (i : T) (g : Guard P)

def Free : Prop := l.holder p = none

def guard : Guard P := ⟨p, l.version p⟩

def Unchanged : Prop := l.holder g.page = none ∧ l.version g.page = g.version

def Open : Prop := l.holder p = none ∨ l.holder p = some i

def Valid : Prop := l.Open g.page i ∧ l.version g.page = g.version

def Holding (pages : Finset P) : Prop := ∀ p, l.holder p = some i ↔ p ∈ pages

instance Free.decidable : Decidable (l.Free p) := inferInstanceAs (Decidable (_ = none))

instance Unchanged.decidable : Decidable (l.Unchanged g) := inferInstanceAs (Decidable (_ = none ∧ _ = _))

variable [DecidableEq P]

def lockX : Locks P T := { l with holder := Function.update l.holder p (some i) }

def unlockX : Locks P T :=
  { l with
    holder := Function.update l.holder p none
    version := Function.update l.version p (l.version p + 1) }

end Locks

open Locks
variable {l l' l'' : Locks P T} {i j : T} {p : P} {g : Guard P} {kept kept' kept'' : P → Prop}

/-- Later on: a page with the same version that no other thread holds is kept. -/
structure Later (kept : P → Prop) (i : T) (l l' : Locks P T) : Prop where
  version : ∀ p, l.version p ≤ l'.version p
  still : ∀ p, l'.version p = l.version p → l'.Open p i → l.Open p i ∧ kept p

/-- What a thread relies on: it keeps its locks, and the pages under them are kept too. -/
structure Rely (kept : P → Prop) (i : T) (l l' : Locks P T) : Prop extends Later kept i l l' where
  holder : ∀ p, l'.holder p = some i ↔ l.holder p = some i
  locked : ∀ p, l.holder p = some i → kept p

theorem Rely.refl (all : ∀ p, kept p) : Rely kept i l l where
  version _ := le_refl _
  still p _ here := ⟨here, all p⟩
  holder _ := Iff.rfl
  locked p _ := all p

theorem Rely.trans (first : Rely kept i l l') (second : Rely kept' i l' l'')
    (both : ∀ p, kept p → kept' p → kept'' p) : Rely kept'' i l l'' where
  version p := le_trans (first.version p) (second.version p)
  still p same here := by
    have before := first.version p
    have after := second.version p
    obtain ⟨mid, kept'⟩ := second.still p (by omega) here
    obtain ⟨start, kept⟩ := first.still p (by omega) mid
    exact ⟨start, both p kept kept'⟩
  holder p := (second.holder p).trans (first.holder p)
  locked p held := both p (first.locked p held) (second.locked p ((first.holder p).mpr held))

theorem Rely.write (other : j ≠ i) (rest : ∀ p, l.holder p ≠ some i → kept p) :
    Rely kept j l l where
  version _ := le_refl _
  still p _ here := by
    refine ⟨here, rest p fun held => ?_⟩
    rcases here with none | mine
    · rw [held] at none
      cases none
    · rw [held] at mine
      exact other (Option.some.inj mine).symm
  holder _ := Iff.rfl
  locked p held := by
    refine rest p fun mine => ?_
    rw [mine] at held
    exact other (Option.some.inj held).symm

section Steps
variable [DecidableEq P]

theorem Rely.lockX (free : l.Free p) (other : j ≠ i) (all : ∀ p, kept p) :
    Rely kept j l (l.lockX p i) where
  version _ := le_refl _
  still q _ here := by
    refine ⟨?_, all q⟩
    by_cases same : q = p
    · subst same
      exact Or.inl free
    · simpa [Open, Locks.lockX, same] using here
  holder q := by
    by_cases same : q = p
    · subst same
      simp [Locks.lockX, show l.holder q = none from free, other.symm]
    · simp [Locks.lockX, same]
  locked q _ := all q

theorem Rely.unlockX (held : l.holder p = some i) (other : j ≠ i) (all : ∀ p, kept p) :
    Rely kept j l (l.unlockX p) where
  version q := by
    by_cases same : q = p
    · subst same
      simp [Locks.unlockX]
    · simp [Locks.unlockX, same]
  still q version here := by
    by_cases same : q = p
    · subst same
      simp [Locks.unlockX] at version
    · exact ⟨by simpa [Open, Locks.unlockX, same] using here, all q⟩
  holder q := by
    by_cases same : q = p
    · subst same
      simp [Locks.unlockX, held, other.symm]
    · simp [Locks.unlockX, same]
  locked q _ := all q

theorem Later.lockX (free : l.Free p) (all : ∀ p, kept p) : Later kept i l (l.lockX p i) where
  version _ := le_refl _
  still q _ here := by
    refine ⟨?_, all q⟩
    by_cases same : q = p
    · subst same
      exact Or.inl free
    · simpa [Open, Locks.lockX, same] using here

end Steps

section Seen
variable {φ φ' : Prop}

/-- What holds if nobody has changed the page since the guard was taken. -/
structure Seen (i : T) (l : Locks P T) (g : Guard P) (φ : Prop) : Prop where
  version : g.version ≤ l.version g.page
  valid : l.Valid i g → φ

theorem Seen.later (seen : Seen i l g φ) (later : Later kept i l l')
    (keeps : kept g.page → φ → φ') : Seen i l' g φ' where
  version := le_trans seen.version (later.version _)
  valid valid := by
    have before := seen.version
    have after := later.version g.page
    have same := valid.2
    obtain ⟨still, kept⟩ := later.still g.page (by omega) valid.1
    exact keeps kept (seen.valid ⟨still, by omega⟩)

theorem Seen.guard (here : l.Valid i (l.guard p) → φ) : Seen i l (l.guard p) φ :=
  ⟨le_refl _, here⟩

theorem Locks.Unchanged.valid (same : l.Unchanged g) : l.Valid i g := ⟨Or.inl same.1, same.2⟩

end Seen

section Holding
variable {pages : Finset P}

theorem Locks.Holding.rely (holding : l.Holding i pages) (rely : Rely kept i l l') : l'.Holding i pages :=
  fun p => (rely.holder p).trans (holding p)

theorem Locks.Holding.unchanged (holding : l.Holding i ∅) (valid : l.Valid i g) : l.Unchanged g := by
  refine ⟨valid.1.resolve_right fun mine => ?_, valid.2⟩
  exact absurd ((holding _).mp mine) (Finset.notMem_empty _)

variable [DecidableEq P]

theorem Locks.Holding.lockX (holding : l.Holding i pages) : (l.lockX p i).Holding i (insert p pages) := by
  intro q
  by_cases same : q = p
  · subst same
    simp [Locks.lockX]
  · simp [Locks.lockX, same, holding q]

theorem Locks.Holding.unlockX (holding : l.Holding i pages) : (l.unlockX p).Holding i (pages.erase p) := by
  intro q
  by_cases same : q = p
  · subst same
    simp [Locks.unlockX]
  · simp [Locks.unlockX, same, holding q]

end Holding
end Optimistic
