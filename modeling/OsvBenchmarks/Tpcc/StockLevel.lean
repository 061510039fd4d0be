import OsvBenchmarks.Tpcc.Scan
import Mathlib.Algebra.Field.Rat
import Mathlib.Data.Set.Card
import Mathlib.Data.List.Sort

/-!
stockLevel against the query in its comment. The lines of the last twenty orders
of a district are one stretch of the orderline table; their items are sorted, made
unique, and counted where the warehouse has too few of them.
-/
namespace Tpcc
open Stored

/-- minInteger as a word -/
def lowestInteger : Integer := BitVec.intMin 32

def districtKey (wId dId : Integer) : Values RecordType.district.key := (wId, dId, ())

def stockKey (wId iId : Integer) : Values RecordType.stock.key := (wId, iId, ())

def lineKey (wId dId oId number : Integer) : Values RecordType.orderline.key :=
  (wId, dId, oId, number, ())

namespace StockKey
variable (key : Values RecordType.stock.key)

def sWId : Integer := key.1
def sIId : Integer := key.2.1

end StockKey

namespace LineKey
variable (key : Values RecordType.orderline.key)

def olWId : Integer := key.1
def olDId : Integer := key.2.1
def olOId : Integer := key.2.2.1
def olNumber : Integer := key.2.2.2.1

@[simp] theorem lineKey_fields (w d o n : Integer) : olWId (lineKey w d o n) = w ∧
    olDId (lineKey w d o n) = d ∧ olOId (lineKey w d o n) = o ∧ olNumber (lineKey w d o n) = n :=
  ⟨rfl, rfl, rfl, rfl⟩

end LineKey

structure DistrictRec where
  dNextOId : Integer

structure OrderlineRec where
  olIId : Integer

structure StockRec where
  sQuantity : ℚ

structure StockTables where
  district : Stored RecordType.district.key DistrictRec
  orderline : Stored RecordType.orderline.key OrderlineRec
  stock : Stored RecordType.stock.key StockRec

open LineKey StockKey

/-- The order of std::sort on Integers. -/
def AtMost (a b : Integer) : Prop := a.toInt ≤ b.toInt

instance : DecidableRel AtMost := fun a b => inferInstanceAs (Decidable (a.toInt ≤ b.toInt))

/-- The condition of the callback: where it fails the scan ends. -/
def recentLine (wId dId oId minOlOId : Integer) (key : Values RecordType.orderline.key) : Bool :=
  olWId key == wId && olDId key == dId && (olOId key).slt oId && minOlOId.sle (olOId key)

/-- count += res_s_quantity < threshold, for each item -/
def countBelow (db : StockTables) (wId threshold : Integer) : List Integer → Option ℕ
  | [] => some 0
  | iId :: items => do
    let rec' ← db.stock.lookup (stockKey wId iId)
    let count ← countBelow db wId threshold items
    return (if rec'.sQuantity < (threshold.toInt : ℚ) then 1 else 0) + count

/-- The count that stockLevel arrives at; none where a lookup finds no row. -/
def stockLevel (db : StockTables) (left : Leftover RecordType.orderline.key)
    (wId dId threshold : Integer) : Option ℕ := do
  let district ← db.district.lookup (districtKey wId dId)
  let oId := district.dNextOId
  let minOlOId := oId - 20
  let items ← db.orderline.scan left (lineKey wId dId minOlOId lowestInteger)
    (collect (recentLine wId dId oId minOlOId) OrderlineRec.olIId) []
  countBelow db wId threshold (Band.unique (items.insertionSort AtMost))

/-- SELECT DISTINCT s_i_id FROM orderline, stock WHERE ... -/
def lowItems (db : StockTables) (wId dId threshold oId : Integer) : Set Integer :=
  {i | ∃ line ∈ db.orderline.rows, ∃ row ∈ db.stock.rows,
    olWId line.1 = wId ∧ olDId line.1 = dId ∧ (olOId line.1).toInt < oId.toInt ∧
      oId.toInt - 20 ≤ (olOId line.1).toInt ∧ sWId row.1 = wId ∧ sIId row.1 = line.2.olIId ∧
      row.2.sQuantity < (threshold.toInt : ℚ) ∧ sIId row.1 = i}

section Order
variable {a b : Values RecordType.orderline.key}

theorem orderline_order : foldKey _ a < foldKey _ b ↔ (olWId a).toInt < (olWId b).toInt ∨
    olWId a = olWId b ∧ ((olDId a).toInt < (olDId b).toInt ∨
      olDId a = olDId b ∧ ((olOId a).toInt < (olOId b).toInt ∨
        olOId a = olOId b ∧ (olNumber a).toInt < (olNumber b).toInt)) := by
  have proper : ∀ key : Values RecordType.orderline.key, KeyProper _ key :=
    fun _ => ⟨trivial, trivial, trivial, trivial, trivial⟩
  have order : foldKey _ a < foldKey _ b ↔ (olWId a).toInt < (olWId b).toInt ∨
      olWId a = olWId b ∧ ((olDId a).toInt < (olDId b).toInt ∨
        olDId a = olDId b ∧ ((olOId a).toInt < (olOId b).toInt ∨
          olOId a = olOId b ∧ ((olNumber a).toInt < (olNumber b).toInt ∨
            olNumber a = olNumber b ∧ False))) :=
    (foldKey_keeps _ (proper a) (proper b)).order
  simp only [order, and_false, or_false]

theorem recentLine_iff {wId dId oId minOlOId : Integer} : recentLine wId dId oId minOlOId a = true ↔
    olWId a = wId ∧ olDId a = dId ∧ (olOId a).toInt < oId.toInt ∧
      minOlOId.toInt ≤ (olOId a).toInt := by
  simp only [recentLine, Bool.and_eq_true, beq_iff_eq, BitVec.slt, BitVec.sle, decide_eq_true_eq,
    and_assoc]

theorem recentLine_same {wId dId oId minOlOId : Integer} (same : keySame _ a b) :
    recentLine wId dId oId minOlOId a = recentLine wId dId oId minOlOId b := by
  have fields : olWId a = olWId b ∧ olDId a = olDId b ∧ olOId a = olOId b ∧
      olNumber a = olNumber b ∧ True := same
  obtain ⟨w, d, o, _⟩ := fields
  rw [recentLine, recentLine, w, d, o]

/-- The scan of stockLevel collects the items of all lines of the recent orders. -/
theorem scan_recent (db : StockTables) (left : Leftover RecordType.orderline.key)
    (wId dId oId minOlOId : Integer) :
    db.orderline.scan left (lineKey wId dId minOlOId lowestInteger)
      (collect (recentLine wId dId oId minOlOId) OrderlineRec.olIId) [] =
    some ((db.orderline.rows.filter fun line => recentLine wId dId oId minOlOId line.1).map
      fun line => line.2.olIId) := by
  have lowest : lowestInteger.toInt = -2 ^ 31 := rfl
  apply scan_collect
  · exact fun a b _ same => recentLine_same same
  · intro a _ before
    obtain ⟨w, d, o, n⟩ := lineKey_fields wId dId minOlOId lowestInteger
    have number := BitVec.le_toInt (olNumber a)
    rw [orderline_order, w, d, o, n] at before
    rw [← Bool.not_eq_true, recentLine_iff]
    simp only [← BitVec.toInt_inj] at before ⊢
    omega
  · intro a b _ _ less behind outside
    obtain ⟨w, d, o, n⟩ := lineKey_fields wId dId minOlOId lowestInteger
    rw [orderline_order] at less
    rw [orderline_order, w, d, o, n] at behind
    rw [← Bool.not_eq_true, recentLine_iff] at outside ⊢
    simp only [← BitVec.toInt_inj] at less behind outside ⊢
    omega

end Order

section Count
variable {db : StockTables} {wId threshold : Integer}

def isLow (db : StockTables) (wId threshold iId : Integer) : Bool :=
  (db.stock.lookup (stockKey wId iId)).any fun rec' => rec'.sQuantity < (threshold.toInt : ℚ)

theorem countBelow_eq {items : List Integer}
    (stocked : ∀ iId ∈ items, db.stock.lookup (stockKey wId iId) ≠ none) :
    countBelow db wId threshold items = some (items.countP (isLow db wId threshold)) := by
  induction items with
  | nil => rfl
  | cons iId items ih =>
    obtain ⟨rec', found⟩ := Option.ne_none_iff_exists'.mp (stocked iId (by simp))
    rw [countBelow, found, ih fun i member => stocked i (List.mem_cons_of_mem _ member)]
    by_cases low : rec'.sQuantity < (threshold.toInt : ℚ)
    · simp [isLow, found, low, Nat.add_comm]
    · simp [isLow, found, low]

theorem stock_same {iId : Integer} {key : Values RecordType.stock.key} :
    foldKey _ key = foldKey _ (stockKey wId iId) ↔ sWId key = wId ∧ sIId key = iId := by
  have proper : ∀ key : Values RecordType.stock.key, KeyProper _ key :=
    fun _ => ⟨trivial, trivial, trivial⟩
  have keeps := foldKey_keeps _ (proper key) (proper (stockKey wId iId))
  have same : keySame _ key (stockKey wId iId) ↔ sWId key = wId ∧ sIId key = iId ∧ True := Iff.rfl
  rw [and_true] at same
  rw [← same]
  constructor
  · intro equal
    apply keeps.same_of_prefix
    rw [equal]
  · exact keeps.congr

theorem isLow_iff {iId : Integer} : isLow db wId threshold iId = true ↔
    ∃ row ∈ db.stock.rows, sWId row.1 = wId ∧ sIId row.1 = iId ∧ row.2.sQuantity < (threshold.toInt : ℚ) := by
  rw [isLow, Option.any_eq_true]
  constructor
  · rintro ⟨rec', found, low⟩
    obtain ⟨key, member, same⟩ := lookup_mem found
    obtain ⟨w, i⟩ := stock_same.mp same
    exact ⟨_, member, w, i, of_decide_eq_true low⟩
  · rintro ⟨⟨key, rec'⟩, member, w, i, low⟩
    have same := stock_same.mpr ⟨w, i⟩
    have there := lookup_present member same
    obtain ⟨found, here⟩ := Option.ne_none_iff_exists'.mp there
    rw [lookup_unique here member same] at low
    exact ⟨found, here, decide_eq_true low⟩

instance : Std.Total AtMost := ⟨fun a b => Int.le_total a.toInt b.toInt⟩

instance : IsTrans Integer AtMost := ⟨fun _ _ _ first second => Int.le_trans first second⟩

theorem sorted_unique_nodup (items : List Integer) :
    (Band.unique (items.insertionSort AtMost)).Nodup := by
  apply @Band.unique_nodup _ _ fun a b : Integer => a.toInt < b.toInt
  · intro a b less more
    omega
  · apply (List.pairwise_insertionSort AtMost items).imp
    intro a b le
    rcases Int.lt_or_eq_of_le le with less | same
    · exact Or.inl less
    · exact Or.inr (BitVec.toInt_inj.mp same)

/-- stockLevel counts what its query counts, whatever else the tables hold. -/
theorem stockLevel_counts (db : StockTables) (left : Leftover RecordType.orderline.key)
    (wId dId threshold oId : Integer) (district : db.district.lookup (districtKey wId dId) = some ⟨oId⟩)
    (inside : -2 ^ 31 ≤ oId.toInt - 20)
    (stocked : ∀ line ∈ db.orderline.rows, db.stock.lookup (stockKey wId line.2.olIId) ≠ none) :
    stockLevel db left wId dId threshold = some (lowItems db wId dId threshold oId).ncard := by
  have minOlOId : (oId - 20).toInt = oId.toInt - 20 := by
    have high := BitVec.toInt_lt (x := oId)
    rw [BitVec.toInt_sub]
    change (oId.toInt - 20).bmod (2 ^ 32) = _
    apply Int.bmod_eq_of_le
    · omega
    · omega
  rw [stockLevel, district]
  simp only [Option.bind_eq_bind, Option.bind_some, scan_recent]
  generalize lines_eq : (db.orderline.rows.filter fun line =>
    recentLine wId dId oId (oId - 20) line.1) = lines
  have mem_lines : ∀ line, line ∈ lines ↔ line ∈ db.orderline.rows ∧ olWId line.1 = wId ∧
      olDId line.1 = dId ∧ (olOId line.1).toInt < oId.toInt ∧
        oId.toInt - 20 ≤ (olOId line.1).toInt := by
    intro line
    rw [← lines_eq, List.mem_filter, recentLine_iff, minOlOId]
  generalize items_eq : Band.unique ((lines.map fun line => line.2.olIId).insertionSort
    AtMost) = items
  have mem_items : ∀ i, i ∈ items ↔ ∃ line ∈ lines, line.2.olIId = i := by
    intro i
    rw [← items_eq, Band.mem_unique, List.mem_insertionSort, List.mem_map]
  have nodup : items.Nodup := by
    rw [← items_eq]
    exact sorted_unique_nodup _
  have low : lowItems db wId dId threshold oId =
      ((items.filter (isLow db wId threshold)).toFinset : Set Integer) := by
    ext i
    simp only [List.coe_toFinset, Set.mem_ofPred_eq, List.mem_filter, mem_items, isLow_iff]
    constructor
    · rintro ⟨line, member, row, there, w, d, before, after, wSame, iSame, few, rfl⟩
      exact ⟨⟨line, (mem_lines line).mpr ⟨member, w, d, before, after⟩, iSame.symm⟩,
        row, there, wSame, rfl, few⟩
    · rintro ⟨⟨line, member, item⟩, row, there, wSame, iSame, few⟩
      obtain ⟨member, w, d, before, after⟩ := (mem_lines line).mp member
      exact ⟨line, member, row, there, w, d, before, after, wSame, iSame.trans item.symm, few, iSame⟩
  rw [low, Set.ncard_coe_finset, List.toFinset_card_of_nodup (nodup.filter _),
    ← List.countP_eq_length_filter]
  apply countBelow_eq
  intro i member
  obtain ⟨line, there, rfl⟩ := (mem_items i).mp member
  exact stocked line ((mem_lines line).mp there).1

end Count

/-- Item 5 twice among the recent lines of district 1, item 7 in an older one. -/
def sampleTables : StockTables where
  district := {
    rows := [(districtKey 1 1, ⟨3025⟩)]
    proper := fun _ _ => ⟨trivial, trivial, trivial⟩
    sorted := List.pairwise_singleton _ _ }
  orderline := {
    rows := [(lineKey 1 1 3004 1, ⟨7⟩), (lineKey 1 1 3010 1, ⟨5⟩), (lineKey 1 1 3010 2, ⟨5⟩),
      (lineKey 1 2 3010 1, ⟨7⟩)]
    proper := fun _ _ => ⟨trivial, trivial, trivial, trivial, trivial⟩
    sorted := by decide +kernel }
  stock := {
    rows := [(stockKey 1 5, ⟨3⟩), (stockKey 1 7, ⟨3⟩)]
    proper := fun _ _ => ⟨trivial, trivial, trivial⟩
    sorted := by decide +kernel }

theorem stockLevel_counts_one : stockLevel sampleTables (fun key => ([], key)) 1 1 10 = some 1 ∧
    (lowItems sampleTables 1 1 10 3025).ncard = 1 := by
  have district : sampleTables.district.lookup (districtKey 1 1) = some ⟨3025⟩ := by rfl
  have stocked : ∀ line ∈ sampleTables.orderline.rows,
      (sampleTables.stock.lookup (stockKey 1 line.2.olIId)).isSome = true := by decide +kernel
  have counts := stockLevel_counts sampleTables (fun key => ([], key)) 1 1 10 3025 district
    (by decide) fun line member none => by
      have some := stocked line member
      rw [none] at some
      cases some
  have one : stockLevel sampleTables (fun key => ([], key)) 1 1 10 = some 1 := by decide +kernel
  exact ⟨one, (Option.some.inj (one.symm.trans counts)).symm⟩

end Tpcc
