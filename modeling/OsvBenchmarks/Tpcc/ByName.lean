import OsvBenchmarks.Tpcc.Scan

/-!
The choice of a customer by last name. The scan starts at the empty first name
and ends at the first other row; a name ends with a zero in its key, so the rows
of one name lie together even where other names extend it or begin it.
-/
namespace Tpcc
open Stored

structure CustomerWdlRec where
  cId : Integer

namespace WdlKey
variable (key : Values RecordType.customerWdl.key)

def cWId : Integer := key.1
def cDId : Integer := key.2.1
def cLast : Varchar 16 := key.2.2.1
def cFirst : Varchar 16 := key.2.2.2.1

end WdlKey

open WdlKey

def nameKey (wId dId : Integer) (last first : Varchar 16) : Values RecordType.customerWdl.key :=
  (wId, dId, last, first, ())

@[simp] theorem nameKey_fields (wId dId : Integer) (last first : Varchar 16) :
    cWId (nameKey wId dId last first) = wId ∧ cDId (nameKey wId dId last first) = dId ∧
      cLast (nameKey wId dId last first) = last ∧ cFirst (nameKey wId dId last first) = first :=
  ⟨rfl, rfl, rfl, rfl⟩

/-- The condition of the callback: where it fails the scan ends. -/
def named (wId dId : Integer) (last : Varchar 16) (key : Values RecordType.customerWdl.key) : Bool :=
  cWId key == wId && cDId key == dId && decide ((cLast key).same last)

/-- The ids by name, and the customer that is chosen; none if there are none. -/
def chooseByName (customerwdl : Stored RecordType.customerWdl.key CustomerWdlRec)
    (left : Leftover RecordType.customerWdl.key) (wId dId : Integer) (last : Varchar 16) :
    Option (List Integer × Option Integer) := do
  let ids ← customerwdl.scan left (nameKey wId dId last (varcharOf 16 []))
    (collect (named wId dId last) CustomerWdlRec.cId) []
  let cCount := ids.length
  if cCount = 0 then return (ids, none)
  let index := if cCount % 2 = 0 then cCount / 2 - 1 else cCount / 2
  return (ids, ids[index]?)

/-- orderStatusName(w_id, d_id, c_last), up to the choice -/
def orderStatusName (customerwdl : Stored RecordType.customerWdl.key CustomerWdlRec)
    (left : Leftover RecordType.customerWdl.key) (wId dId : Integer) (cLast : Varchar 16) :=
  chooseByName customerwdl left wId dId cLast

/-- paymentByName(.., c_w_id, c_d_id, c_last, ..), from the scan to the choice -/
def paymentByNameChoice (customerwdl : Stored RecordType.customerWdl.key CustomerWdlRec)
    (left : Leftover RecordType.customerWdl.key) (cWId cDId : Integer) (cLast : Varchar 16) :=
  chooseByName customerwdl left cWId cDId cLast

def rowsByName (customerwdl : Stored RecordType.customerWdl.key CustomerWdlRec)
    (wId dId : Integer) (last : List BTree.u8) :
    List (Values RecordType.customerWdl.key × CustomerWdlRec) :=
  customerwdl.rows.filter fun row =>
    cWId row.1 = wId ∧ cDId row.1 = dId ∧ (cLast row.1).content = last

section Order
variable {a b : Values RecordType.customerWdl.key} {wId dId : Integer} {last : Varchar 16}

theorem wdl_proper (proper : KeyProper _ a) : (cLast a).Proper ∧ (cFirst a).Proper :=
  ⟨proper.2.2.1, proper.2.2.2.1⟩

theorem nameKey_proper {first : Varchar 16} (hl : last.Proper) (hf : first.Proper) :
    KeyProper _ (nameKey wId dId last first) := ⟨trivial, trivial, hl, hf, trivial⟩

theorem wdl_order (pa : KeyProper _ a) (pb : KeyProper _ b) : foldKey _ a < foldKey _ b ↔
    (cWId a).toInt < (cWId b).toInt ∨ cWId a = cWId b ∧ ((cDId a).toInt < (cDId b).toInt ∨
      cDId a = cDId b ∧ ((cLast a).content < (cLast b).content ∨
        (cLast a).content = (cLast b).content ∧ (cFirst a).content < (cFirst b).content)) := by
  have order : foldKey _ a < foldKey _ b ↔
      (cWId a).toInt < (cWId b).toInt ∨ cWId a = cWId b ∧ ((cDId a).toInt < (cDId b).toInt ∨
        cDId a = cDId b ∧ ((cLast a).less (cLast b) ∨ (cLast a).same (cLast b) ∧
          ((cFirst a).less (cFirst b) ∨ (cFirst a).same (cFirst b) ∧ False))) :=
    (foldKey_keeps _ pa pb).order
  obtain ⟨la, fa⟩ := wdl_proper pa
  obtain ⟨lb, fb⟩ := wdl_proper pb
  simp only [order, and_false, or_false, Varchar.less_iff la lb, Varchar.same_iff la lb,
    Varchar.less_iff fa fb]

theorem named_iff (pa : KeyProper _ a) (sized : 0 ≤ last.length ∧ last.length ≤ 16) :
    named wId dId last a = true ↔
      cWId a = wId ∧ cDId a = dId ∧ (cLast a).content = last.content := by
  obtain ⟨la, _⟩ := wdl_proper pa
  simp only [named, Bool.and_eq_true, beq_iff_eq, decide_eq_true_eq, and_assoc,
    Varchar.same_iff_content ⟨la.1, la.2.1⟩ sized]

theorem named_same (same : keySame _ a b) : named wId dId last a = named wId dId last b := by
  have fields : cWId a = cWId b ∧ cDId a = cDId b ∧ (cLast a).same (cLast b) ∧
      (cFirst a).same (cFirst b) ∧ True := same
  obtain ⟨w, d, l, _⟩ := fields
  have agree : (cLast a).same last ↔ (cLast b).same last := by
    obtain ⟨len, bytes⟩ := Varchar.same_iff_take.mp l
    rw [Varchar.same_iff_take, Varchar.same_iff_take, bytes, len]
  simp only [named, w, d, agree]

theorem named_proper (pa : KeyProper _ a) (sized : 0 ≤ last.length ∧ last.length ≤ 16)
    (here : named wId dId last a = true) : last.Proper := by
  obtain ⟨_, _, content⟩ := (named_iff pa sized).mp here
  refine ⟨sized.1, sized.2, ?_⟩
  rw [← content]
  exact (wdl_proper pa).1.2.2

theorem scan_named (customerwdl : Stored RecordType.customerWdl.key CustomerWdlRec)
    (left : Leftover RecordType.customerWdl.key) (sized : 0 ≤ last.length ∧ last.length ≤ 16) :
    customerwdl.scan left (nameKey wId dId last (varcharOf 16 []))
      (collect (named wId dId last) CustomerWdlRec.cId) [] =
    some ((rowsByName customerwdl wId dId last.content).map fun row => row.2.cId) := by
  have rows : rowsByName customerwdl wId dId last.content =
      customerwdl.rows.filter fun row => named wId dId last row.1 := by
    apply List.filter_congr
    intro row member
    rw [Bool.eq_iff_iff, decide_eq_true_eq, named_iff (customerwdl.proper row member) sized]
  have empty : (varcharOf 16 []).Proper := by decide
  have content : (varcharOf 16 []).content = [] := by rfl
  rw [rows]
  by_cases proper : last.Proper
  · obtain ⟨w, d, l, f⟩ := nameKey_fields wId dId last (varcharOf 16 [])
    apply scan_collect
    · exact fun a b _ same => named_same same
    · intro a pa before
      rw [wdl_order pa (nameKey_proper proper empty), w, d, l, f, content] at before
      rw [← Bool.not_eq_true, named_iff pa sized]
      rintro ⟨rfl, rfl, same⟩
      rw [same] at before
      simp at before
    · intro a b pa pb less behind outside
      rw [wdl_order pa pb] at less
      rw [wdl_order pa (nameKey_proper proper empty), w, d, l, f, content] at behind
      rw [← Bool.not_eq_true, named_iff pa sized] at outside
      rw [← Bool.not_eq_true, named_iff pb sized]
      rintro ⟨rfl, rfl, same⟩
      rw [same] at less
      -- a row before one of that name is before the start, or is of that name
      rcases less with low | ⟨wSame, low | ⟨dSame, low | ⟨lSame, _⟩⟩⟩
      · exact behind (Or.inl low)
      · exact behind (Or.inr ⟨wSame, Or.inl low⟩)
      · exact behind (Or.inr ⟨wSame, Or.inr ⟨dSame, Or.inl low⟩⟩)
      · exact outside ⟨wSame, dSame, lSame⟩
  · have none : ∀ a, KeyProper _ a → named wId dId last a = false := by
      intro a pa
      rw [← Bool.not_eq_true]
      exact fun here => proper (named_proper pa sized here)
    apply scan_collect
    · exact fun a b _ same => named_same same
    · exact fun a pa _ => none a pa
    · exact fun a b _ pb _ _ _ => none b pb

theorem rowsByName_sorted (customerwdl : Stored RecordType.customerWdl.key CustomerWdlRec)
    (wId dId : Integer) (last : List BTree.u8) : (rowsByName customerwdl wId dId last).Pairwise
      fun a b => (cFirst a.1).content < (cFirst b.1).content := by
  have sub : (rowsByName customerwdl wId dId last).Sublist customerwdl.rows := List.filter_sublist
  apply (customerwdl.sorted.sublist sub).imp_of_mem
  intro a b ha hb less
  obtain ⟨ma, sa⟩ := List.mem_filter.mp ha
  obtain ⟨mb, sb⟩ := List.mem_filter.mp hb
  obtain ⟨wa, da, la⟩ := of_decide_eq_true sa
  obtain ⟨wb, db, lb⟩ := of_decide_eq_true sb
  rw [wdl_order (customerwdl.proper a ma) (customerwdl.proper b mb), wa, wb, da, db, la, lb] at less
  simpa using less

end Order

/-- What both transactions do for a name: the ids are those of the rows with it, by first name,
and the customer in the middle is chosen, the earlier one of two. -/
structure ChosenByName (customerwdl : Stored RecordType.customerWdl.key CustomerWdlRec)
    (wId dId : Integer) (last : List BTree.u8) (ids : List Integer) (chosen : Option Integer) :
    Prop where
  collected : ids = (rowsByName customerwdl wId dId last).map fun row => row.2.cId
  sorted : (rowsByName customerwdl wId dId last).Pairwise
    fun a b => (cFirst a.1).content < (cFirst b.1).content
  nobody : ids.length = 0 → chosen = none
  middle : 0 < ids.length → ∃ cId, chosen = some cId ∧ ids[(ids.length + 1) / 2 - 1]? = some cId

theorem chooseByName_chosen (customerwdl : Stored RecordType.customerWdl.key CustomerWdlRec)
    (left : Leftover RecordType.customerWdl.key) (wId dId : Integer) (last : Varchar 16)
    (sized : 0 ≤ last.length ∧ last.length ≤ 16) :
    ∃ ids chosen, chooseByName customerwdl left wId dId last = some (ids, chosen) ∧
      ChosenByName customerwdl wId dId last.content ids chosen := by
  have sorted := rowsByName_sorted customerwdl wId dId last.content
  rw [chooseByName, scan_named customerwdl left sized]
  simp only [Option.bind_eq_bind, Option.bind_some]
  generalize ids_eq : (rowsByName customerwdl wId dId last.content).map
    (fun row => row.2.cId) = ids
  by_cases empty : ids.length = 0
  · rw [if_pos empty]
    exact ⟨ids, none, rfl, ids_eq.symm, sorted, fun _ => rfl, fun some => absurd empty (by omega)⟩
  · have index : (if ids.length % 2 = 0 then ids.length / 2 - 1 else ids.length / 2) =
        (ids.length + 1) / 2 - 1 := by
      split
      · omega
      · omega
    have inside : (ids.length + 1) / 2 - 1 < ids.length := by omega
    rw [if_neg empty]
    simp only [index]
    refine ⟨ids, _, rfl, ids_eq.symm, sorted, fun none => absurd none empty, fun _ => ?_⟩
    exact ⟨_, List.getElem?_eq_getElem inside, List.getElem?_eq_getElem inside⟩

/-- orderStatusName and paymentByName find the customers of a name and take the middle one. -/
theorem selection_by_name (customerwdl : Stored RecordType.customerWdl.key CustomerWdlRec)
    (left : Leftover RecordType.customerWdl.key) (wId dId : Integer) (cLast : Varchar 16)
    (sized : 0 ≤ cLast.length ∧ cLast.length ≤ 16) :
    ∃ ids chosen, orderStatusName customerwdl left wId dId cLast = some (ids, chosen) ∧
      paymentByNameChoice customerwdl left wId dId cLast = some (ids, chosen) ∧
      ChosenByName customerwdl wId dId cLast.content ids chosen := by
  obtain ⟨ids, chosen, result, by_name⟩ := chooseByName_chosen customerwdl left wId dId cLast sized
  exact ⟨ids, chosen, result, result, by_name⟩

/-- Names a, ab and b; of the two customers named a one is called p, the other q. -/
def sampleCustomers : Stored RecordType.customerWdl.key CustomerWdlRec where
  rows := [
    (nameKey 1 1 (varcharOf 16 [65]) (varcharOf 16 [80]), ⟨9⟩),
    (nameKey 1 1 (varcharOf 16 [65]) (varcharOf 16 [81]), ⟨4⟩),
    (nameKey 1 1 (varcharOf 16 [65, 66]) (varcharOf 16 [80]), ⟨5⟩),
    (nameKey 1 1 (varcharOf 16 [66]) (varcharOf 16 [80]), ⟨6⟩)]
  proper := by
    have names : ∀ name ∈ [[65], [65, 66], [66], [80], [81]], (varcharOf 16 name).Proper := by decide
    intro row member
    simp only [List.mem_cons, List.not_mem_nil, or_false] at member
    rcases member with rfl | rfl | rfl | rfl
    all_goals exact nameKey_proper (names _ (by simp)) (names _ (by simp))
  sorted := by decide +kernel

theorem selection_by_name_two :
    orderStatusName sampleCustomers (fun key => ([], key)) 1 1 (varcharOf 16 [65]) =
      some ([9, 4], some 9) ∧
    ∃ ids chosen, ChosenByName sampleCustomers 1 1 [65] ids chosen ∧ ids = [9, 4] ∧ chosen = some 9 := by
  have both : orderStatusName sampleCustomers (fun key => ([], key)) 1 1 (varcharOf 16 [65]) =
      some ([9, 4], some 9) := by decide +kernel
  obtain ⟨ids, chosen, status, _, by_name⟩ := selection_by_name sampleCustomers
    (fun key => ([], key)) 1 1 (varcharOf 16 [65]) (by decide)
  have same := Option.some.inj (both.symm.trans status)
  exact ⟨both, ids, chosen, by_name, (Prod.mk.inj same).1.symm, (Prod.mk.inj same).2.symm⟩

end Tpcc
