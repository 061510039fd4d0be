import OsvBenchmarks.Library.Band
import OsvBenchmarks.Tpcc.KeyFold

/-!
Tables as the adapter reads them: rows in the order of their folded keys, looked
up by the folded key and scanned from the first row at or behind one. A callback
gets each key read back from bytes, over whatever the buffers held before.
-/
namespace Tpcc
open BTree PrefixCode

/-- Rows with distinct keys, which are zero-free where they are text. -/
structure Stored (cs : List Column) (R : Type) where
  rows : List (Values cs × R)
  proper : ∀ row ∈ rows, KeyProper cs row.1
  sorted : rows.Pairwise fun a b => foldKey cs a.1 < foldKey cs b.1

/-- What kk holds behind a key, and typedKey before it is read. -/
abbrev Leftover (cs : List Column) := Values cs → List u8 × Values cs

namespace Stored
variable {cs : List Column} {R S : Type}

/-- lookupField and lookup1 find a row by its folded key. -/
def lookup (t : Stored cs R) (key : Values cs) : Option R :=
  (t.rows.find? fun row => foldKey cs row.1 = foldKey cs key).map Prod.snd

def visit (left : Leftover cs) (found : Values cs → R → S → S × Bool) :
    List (Values cs × R) → S → Option S
  | [], s => some s
  | row :: rows, s => do
    let (typedKey, _) ← unfoldKey cs (foldKey cs row.1 ++ (left row.1).1) (left row.1).2
    let (s, more) := found typedKey row.2 s
    if more then visit left found rows s else return s

def scan (t : Stored cs R) (left : Leftover cs) (key : Values cs)
    (found : Values cs → R → S → S × Bool) (s : S) : Option S :=
  visit left found (t.rows.dropWhile fun row => foldKey cs row.1 < foldKey cs key) s

variable {A : Type} {wanted : Values cs → Bool} {item : R → A}

/-- The callbacks that collect an item of every row until one is not wanted. -/
def collect (wanted : Values cs → Bool) (item : R → A) (key : Values cs) (rec : R) (items : List A) :
    List A × Bool :=
  if wanted key then (items ++ [item rec], true) else (items, false)

theorem visit_collect (left : Leftover cs) {rows : List (Values cs × R)}
    (proper : ∀ row ∈ rows, KeyProper cs row.1)
    (respects : ∀ a b, KeyProper cs b → keySame cs a b → wanted a = wanted b) (items : List A) :
    visit left (collect wanted item) rows items =
      some (items ++ (rows.takeWhile fun row => wanted row.1).map fun row => item row.2) := by
  induction rows generalizing items with
  | nil => simp [visit]
  | cons row rows ih =>
    have here := proper row (by simp)
    obtain ⟨typedKey, read, same⟩ := unfoldKey_foldKey cs here (left row.1).1 (left row.1).2
    have agree := respects typedKey row.1 here same
    rw [visit, read]
    simp only [Option.bind_eq_bind, Option.bind_some, collect, agree]
    cases inside : wanted row.1 with
    | true =>
      simp only [List.takeWhile_cons, inside, if_true]
      rw [ih (fun row member => proper row (List.mem_cons_of_mem _ member))]
      simp
    | false =>
      simp [inside]

/-- A scan of wanted rows that lie together from the start on collects all of them. -/
theorem scan_collect (t : Stored cs R) (left : Leftover cs) {key : Values cs}
    (respects : ∀ a b, KeyProper cs b → keySame cs a b → wanted a = wanted b)
    (start : ∀ a, KeyProper cs a → foldKey cs a < foldKey cs key → wanted a = false)
    (ends : ∀ a b, KeyProper cs a → KeyProper cs b → foldKey cs a < foldKey cs b →
      ¬ foldKey cs a < foldKey cs key → wanted a = false → wanted b = false) :
    t.scan left key (collect wanted item) [] =
      some ((t.rows.filter fun row => wanted row.1).map fun row => item row.2) := by
  have proper : ∀ row ∈ t.rows.dropWhile fun row => foldKey cs row.1 < foldKey cs key,
      KeyProper cs row.1 := fun row member =>
    t.proper row ((List.dropWhile_sublist _).subset member)
  rw [scan, visit_collect left proper respects, List.nil_append]
  congr 2
  apply Band.scan_eq_filter t.sorted
  · intro a ha before
    exact start a.1 (t.proper a ha) (of_decide_eq_true before)
  · intro a _ b _ less behind
    have behind := of_decide_eq_false behind
    exact decide_eq_false fun before => behind (lt_trans less before)
  · intro a ha b hb less behind outside
    exact ends a.1 b.1 (t.proper a ha) (t.proper b hb) less (of_decide_eq_false behind) outside

theorem lookup_mem {t : Stored cs R} {key : Values cs} {rec : R} (found : t.lookup key = some rec) :
    ∃ k, (k, rec) ∈ t.rows ∧ foldKey cs k = foldKey cs key := by
  obtain ⟨row, first, rfl⟩ := Option.map_eq_some_iff.mp found
  have same := List.find?_some first
  exact ⟨row.1, List.mem_of_find?_eq_some first, of_decide_eq_true same⟩

theorem lookup_present {t : Stored cs R} {key k : Values cs} {rec : R} (member : (k, rec) ∈ t.rows)
    (same : foldKey cs k = foldKey cs key) : t.lookup key ≠ none := by
  intro missing
  have none := List.find?_eq_none.mp (Option.map_eq_none_iff.mp missing) _ member
  exact none (decide_eq_true same)

theorem lookup_unique {t : Stored cs R} {key k : Values cs} {rec rec' : R}
    (found : t.lookup key = some rec) (member : (k, rec') ∈ t.rows)
    (same : foldKey cs k = foldKey cs key) : rec' = rec := by
  obtain ⟨k', member', same'⟩ := lookup_mem found
  obtain ⟨i, hi, first⟩ := List.mem_iff_getElem.mp member
  obtain ⟨j, hj, second⟩ := List.mem_iff_getElem.mp member'
  have order := List.pairwise_iff_getElem.mp t.sorted
  rcases Nat.lt_trichotomy i j with less | equal | more
  · have := order i j hi hj less
    rw [first, second, same, same'] at this
    exact absurd this (lt_irrefl _)
  · subst equal
    exact (Prod.mk.inj (first.symm.trans second)).2
  · have := order j i hj hi more
    rw [first, second, same, same'] at this
    exact absurd this (lt_irrefl _)

end Stored
end Tpcc
