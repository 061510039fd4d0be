import OsvBenchmarks.Tpcc.Books
import OsvBenchmarks.Tpcc.OrderIds
import Mathlib.Algebra.BigOperators.Group.List.Lemmas
import Mathlib.Tactic.Linarith

/-!
What stays true of the books from the loaded database on: the districts' year-to-date
amounts against the warehouse's, the next order id against the rows of order, and the
o_ol_cnt against the rows of orderline.
-/
namespace Tpcc
open Runs Interleave Table

def Payment.Drawn (warehouseCount : ℕ) (p : Payment) : Prop :=
  (1 ≤ p.wId ∧ p.wId ≤ warehouseCount) ∧ (1 ≤ p.dId ∧ p.dId ≤ 10) ∧
    (1 ≤ p.cWId ∧ p.cWId ≤ warehouseCount) ∧ 1 ≤ p.cDId ∧ p.cDId ≤ 10

/-- What newOrderRnd, deliveryRnd and paymentRnd pass. -/
def Call.Generated (warehouseCount : ℕ) : Call → Prop
  | newOrder o => (Call.newOrder o).Drawn warehouseCount ∧
      ∀ line ∈ o.lines, 1 ≤ line.supware ∧ line.supware ≤ warehouseCount
  | delivery wId carrierId => (Call.delivery wId carrierId).Drawn warehouseCount
  | paymentById p cId => p.Drawn warehouseCount ∧ 1 ≤ cId ∧ cId ≤ 3000
  | paymentByName p _ => p.Drawn warehouseCount

theorem districts_range {dId : ℤ} : dId ∈ districts ↔ 1 ≤ dId ∧ dId ≤ 10 := by
  simp only [districts, List.mem_cons, List.not_mem_nil, or_false]
  omega

/-- Books in which the districts of a warehouse and its tables agree up to `gap` and `first`. -/
structure Even (b : Account → ℚ) (wId : ℤ) (gap first : ℚ) : Prop where
  ytd : (districts.map fun dId => b (.district wId dId)).sum = b (.warehouse wId) + gap
  orders : ∀ dId ∈ districts, b (.nextOId wId dId) = b (.orders wId dId) + first
  lines : ∀ dId ∈ districts, b (.olCnt wId dId) = b (.lines wId dId)

section Sums
variable {b c : Account → ℚ} {wId : ℤ} {gap gap' first first' : ℚ}

theorem Even.zero : Even 0 wId 0 0 := by
  constructor <;> simp

theorem Even.add (even : Even b wId gap first) (even' : Even c wId gap' first') :
    Even (b + c) wId (gap + gap') (first + first') := by
  constructor
  · simp only [Pi.add_apply]
    rw [List.sum_map_add, even.ytd, even'.ytd]
    ring
  · intro dId member
    rw [Pi.add_apply, Pi.add_apply, even.orders dId member, even'.orders dId member]
    ring
  · intro dId member
    rw [Pi.add_apply, Pi.add_apply, even.lines dId member, even'.lines dId member]

theorem Even.plus (even : Even b wId 0 0) (even' : Even c wId gap first) : Even (b + c) wId gap first := by
  simpa using even.add even'

theorem Even.sum {bs : List (Account → ℚ)} (each : ∀ b ∈ bs, Even b wId 0 0) :
    Even bs.sum wId 0 0 := by
  induction bs with
  | nil => exact Even.zero
  | cons b bs ih =>
    rw [List.sum_cons]
    exact (each b (by simp)).plus (ih fun c member => each c (List.mem_cons_of_mem _ member))

theorem sum_only {A : Type} [DecidableEq A] {as : List A} (nodup : as.Nodup) {a : A} (member : a ∈ as)
    {f : A → ℚ} (others : ∀ a' ∈ as, a' ≠ a → f a' = 0) : (as.map f).sum = f a := by
  rw [List.sum_map_eq_nsmul_single a f fun a' differ there => others a' there differ,
    List.count_eq_one_of_mem nodup member, one_nsmul]

end Sums

section Added

theorem Payment.ytd_even {warehouseCount : ℕ} {p : Payment} (drawn : p.Drawn warehouseCount) (wId : ℤ) :
    Even p.ytd wId 0 0 := by
  have inside : p.dId ∈ districts := districts_range.mpr drawn.2.1
  constructor
  · rw [sum_only (by decide) inside]
    · by_cases same : wId = p.wId
      · simp [Payment.ytd, same]
      · simp [Payment.ytd, same]
    · intro dId _ differ
      simp [Payment.ytd, differ]
  · simp [Payment.ytd]
  · simp [Payment.ytd]

theorem recorded_even (paid : Option (Key × ℚ)) (wId : ℤ) : Even (recorded paid) wId 0 0 := by
  match paid with
  | none => exact Even.zero
  | some (customer, hAmount) => constructor <;> simp [recorded]

theorem Line.books_even (line : Line) (home wId : ℤ) : Even (line.books home) wId 0 0 := by
  constructor <;> simp [Line.books]

theorem NewOrder.books_even (o : NewOrder) (wId : ℤ) : Even o.books wId 0 0 := by
  have stock : Even (o.lines.map (Line.books o.wId)).sum wId 0 0 := by
    apply Even.sum
    intro b member
    obtain ⟨line, _, rfl⟩ := List.mem_map.mp member
    exact line.books_even o.wId wId
  have ids : Even (Pi.single (.nextOId o.wId o.dId) 1 + Pi.single (.orders o.wId o.dId) 1) wId 0 0 := by
    constructor <;> simp [Pi.single_apply]
  have lines : Even (Pi.single (.olCnt o.wId o.dId) (o.lines.length : ℚ) +
      Pi.single (.lines o.wId o.dId) (o.lines.length : ℚ)) wId 0 0 := by
    constructor <;> simp [Pi.single_apply]
  have parts : o.books = (Pi.single (.nextOId o.wId o.dId) 1 + Pi.single (.orders o.wId o.dId) 1) +
      ((o.lines.map (Line.books o.wId)).sum + (Pi.single (.olCnt o.wId o.dId) (o.lines.length : ℚ) +
        Pi.single (.lines o.wId o.dId) (o.lines.length : ℚ))) := by
    rw [NewOrder.books]
    abel
  rw [parts]
  exact ids.plus (stock.plus lines)

theorem Call.books_even {warehouseCount : ℕ} (db : Database) {c : Call}
    (generated : c.Generated warehouseCount) (wId : ℤ) : Even (c.books db) wId 0 0 := by
  cases c with
  | newOrder o => exact o.books_even wId
  | delivery wId' carrierId => exact Even.zero
  | paymentById p cId =>
    exact (Payment.ytd_even generated.1 wId).plus (recorded_even _ wId)
  | paymentByName p cLast =>
    exact (Payment.ytd_even generated wId).plus (recorded_even _ wId)

end Added

section Loaded
variable (W : ℕ) (draws : Draws)

theorem load_warehouse {w : ℕ} (low : 1 ≤ w) (high : w ≤ W) :
    lookup (load W draws).warehouse [(w : ℤ)] = some ⟨draws.wTax w, 3000000⟩ := by
  have rows : rowsAt (load W draws).warehouse [(w : ℤ)] = [⟨draws.wTax w, 3000000⟩] := by
    apply rowsAt_map (fun w : ℕ => [(w : ℤ)]) (fun w => (⟨draws.wTax w, 3000000⟩ : Warehouse))
      List.nodup_range' _ (List.mem_range'_1.mpr (by omega))
    intro a _ b _ same
    simpa using same
  rw [lookup_eq, rows]
  rfl

theorem load_stock {w i : ℕ} (wLow : 1 ≤ w) (wHigh : w ≤ W) (iLow : 1 ≤ i) (iHigh : i ≤ 100000) :
    lookup (load W draws).stock [(w : ℤ), (i : ℤ)] ≠ none := by
  apply lookup_present
  apply List.mem_flatMap.mpr
  refine ⟨w, List.mem_range'_1.mpr (by omega), ?_⟩
  exact List.mem_map_of_mem (List.mem_range'_1.mpr (by omega))

theorem total_append {R : Type} (rows rows' : Rows Key R) (field : R → ℚ) (wId dId : ℤ) :
    total (rows ++ rows') field wId dId = total rows field wId dId + total rows' field wId dId := by
  simp [total]

theorem total_flatMap {A R : Type} (as : List A) (rows : A → Rows Key R) (field : R → ℚ) (wId dId : ℤ) :
    total (as.flatMap rows) field wId dId = (as.map fun a => total (rows a) field wId dId).sum := by
  induction as with
  | nil => simp [total]
  | cons a as ih => rw [List.flatMap_cons, total_append, ih, List.map_cons, List.sum_cons]

theorem total_under {A R : Type} {as : List A} {key : A → Key} {row : A → R} {field : R → ℚ} {w d : ℤ}
    (under : ∀ a ∈ as, (key a).take 2 = [w, d]) (wId dId : ℤ) :
    total (as.map fun a => (key a, row a)) field wId dId =
      if [w, d] = [wId, dId] then (as.map fun a => field (row a)).sum else 0 := by
  rw [total, List.map_map]
  split
  · rename_i here
    congr 1
    apply List.map_congr_left
    intro a member
    exact if_pos ((under a member).trans here)
  · rename_i other
    apply List.sum_eq_zero
    intro x there
    obtain ⟨a, member, rfl⟩ := List.mem_map.mp there
    exact if_neg fun same => other ((under a member).symm.trans same)

theorem load_lines (wId dId : ℤ) :
    books (load W draws) (.olCnt wId dId) = books (load W draws) (.lines wId dId) := by
  have lines : books (load W draws) (.lines wId dId) = _ :=
    total_flatMap (loadedIds W 1 3000) _ (fun _ => 1) wId dId
  have orders : books (load W draws) (.olCnt wId dId) = ((loadedIds W 1 3000).map _).sum :=
    congrArg List.sum List.map_map
  rw [lines, orders]
  congr 1
  apply List.map_congr_left
  rintro ⟨w, d, o⟩ _
  have count : (draws.order w d o).oOlCnt = ((draws.oOlCnt w d o + 5 : ℕ) : ℤ) := rfl
  have under : ∀ l ∈ List.range' 1 (draws.oOlCnt w d o + 5),
      ([(w : ℤ), (d : ℤ), (o : ℤ), (l : ℤ)] : Key).take 2 = [(w : ℤ), (d : ℤ)] := fun _ _ => rfl
  simp only [Function.comp_apply, total_under under, count]
  simp

theorem load_orders {w d : ℕ} (member : (w, d) ∈ loadedDistricts W) :
    books (load W draws) (.orders w d) = 3000 := by
  have orders : (load W draws).order = (loadedDistricts W).flatMap fun p : ℕ × ℕ =>
      (List.range' 1 3000).map fun o : ℕ =>
        ([(p.1 : ℤ), (p.2 : ℤ), (o : ℤ)], draws.order p.1 p.2 o) := by
    change List.map _ (loadedIds W 1 3000) = _
    rw [loadedIds, List.map_flatMap]
    simp only [List.map_map]
    rfl
  have rows : books (load W draws) (.orders w d) =
      ((loadedDistricts W).map fun p : ℕ × ℕ => if p = (w, d) then (3000 : ℚ) else 0).sum := by
    rw [books, orders, total_flatMap]
    congr 1
    apply List.map_congr_left
    rintro ⟨w', d'⟩ _
    have under : ∀ o ∈ List.range' 1 3000,
        ([(w' : ℤ), (d' : ℤ), (o : ℤ)] : Key).take 2 = [(w' : ℤ), (d' : ℤ)] := fun _ _ => rfl
    rw [total_under under, List.map_const', List.sum_replicate, List.length_range']
    simp
  rw [rows, sum_only loadedDistricts_nodup member]
  · simp
  · intro p _ differ
    exact if_neg differ

/-- Of the year-to-date amounts that the loader stores, 3000000 in each row, those of the districts
exceed that of their warehouse. -/
theorem load_even {wId : ℤ} (low : 1 ≤ wId) (high : wId ≤ W) :
    Even (books (load W draws)) wId 27000000 1 := by
  obtain ⟨w, rfl⟩ := Int.eq_ofNat_of_zero_le (show 0 ≤ wId by omega)
  have loaded : ∀ dId ∈ districts, ∃ d : ℕ, dId = d ∧ (w, d) ∈ loadedDistricts W := by
    intro dId member
    have inside := districts_range.mp member
    obtain ⟨d, rfl⟩ := Int.eq_ofNat_of_zero_le (show 0 ≤ dId by omega)
    exact ⟨d, rfl, mem_loadedDistricts.mpr (by omega)⟩
  constructor
  · have each : ∀ dId ∈ districts, books (load W draws) (.district w dId) = 3000000 := by
      intro dId member
      obtain ⟨d, rfl, there⟩ := loaded dId member
      rw [books, column, load_district W draws there]
      rfl
    rw [List.map_congr_left each, books, column, load_warehouse W draws (by omega) (by omega)]
    simp [districts]
    norm_num
  · intro dId member
    obtain ⟨d, rfl, there⟩ := loaded dId member
    rw [load_orders W draws there, books, column, load_district W draws there]
    simp
    norm_num
  · exact fun dId _ => load_lines W draws w dId

theorem idsByName_mem {p : Payment} {cLast : List ℕ} {db : Database} {cId : ℤ}
    (member : cId ∈ idsByName p cLast db) : ∃ row ∈ db.customerwdl, row.cId = cId := by
  obtain ⟨row, there, same⟩ := List.mem_map.mp member
  exact ⟨row, (List.dropWhile_suffix _).subset ((List.takeWhile_prefix _).subset there), same⟩

/-- What the transactions look up is loaded, if customerwdl names loaded customers. -/
theorem load_served (named : ∀ row ∈ draws.customerwdl, 1 ≤ row.cId ∧ row.cId ≤ 3000) {c : Call}
    (generated : c.Generated W) : c.Served (load W draws) := by
  have district : ∀ {w d : ℤ}, 1 ≤ w ∧ w ≤ W → 1 ≤ d ∧ d ≤ 10 →
      ∃ w' d' : ℕ, w = w' ∧ d = d' ∧ (w', d') ∈ loadedDistricts W := by
    intro w d hw hd
    obtain ⟨w', rfl⟩ := Int.eq_ofNat_of_zero_le (show 0 ≤ w by omega)
    obtain ⟨d', rfl⟩ := Int.eq_ofNat_of_zero_le (show 0 ≤ d by omega)
    exact ⟨w', d', rfl, rfl, mem_loadedDistricts.mpr (by omega)⟩
  have home : ∀ p : Payment, p.Drawn W → p.Home (load W draws) := by
    rintro p ⟨hw, hd, _⟩
    obtain ⟨w, d, sameW, sameD, there⟩ := district hw hd
    constructor
    · rw [sameW, load_warehouse W draws (by omega) (by omega)]
      exact Option.some_ne_none _
    · rw [sameW, sameD, load_district W draws there]
      exact Option.some_ne_none _
  have customer : ∀ p : Payment, p.Drawn W → ∀ cId : ℤ, 1 ≤ cId ∧ cId ≤ 3000 →
      lookup (load W draws).customer [p.cWId, p.cDId, cId] ≠ none := by
    rintro p ⟨_, _, hw, hd⟩ cId hc
    obtain ⟨w, d, sameW, sameD, there⟩ := district hw hd
    obtain ⟨c, rfl⟩ := Int.eq_ofNat_of_zero_le (show 0 ≤ cId by omega)
    rw [sameW, sameD]
    exact load_customer W draws ((mem_loadedIds (by omega)).mpr ⟨there, by omega, by omega⟩)
  cases c with
  | newOrder o =>
    refine ⟨load_stocked W draws generated.1, ?_⟩
    intro line member
    obtain ⟨wLow, wHigh⟩ := generated.2 line member
    obtain ⟨iLow, iHigh⟩ := generated.1.2.2.2.2.2.2.2.2 line member
    obtain ⟨w, hw⟩ := Int.eq_ofNat_of_zero_le (show 0 ≤ line.supware by omega)
    obtain ⟨i, hi⟩ := Int.eq_ofNat_of_zero_le (show 0 ≤ line.itemid by omega)
    rw [hw, hi]
    exact load_stock W draws (by omega) (by omega) (by omega) (by omega)
  | delivery wId carrierId => trivial
  | paymentById p cId => exact ⟨home p generated.1, customer p generated.1 cId generated.2⟩
  | paymentByName p cLast =>
    refine ⟨home p generated, fun cId member => ?_⟩
    obtain ⟨row, there, rfl⟩ := idsByName_mem member
    exact customer p generated row.cId (named row there)

end Loaded

/-- From the loaded database on no transaction fails a lookup, and when all have ended the
districts' amounts exceed their warehouse's by what the loader put, d_next_o_id follows the rows of order, and
the o_ol_cnt are the rows of orderline. -/
theorem tables_consistent (W : ℕ) (draws : Draws)
    (named : ∀ row ∈ draws.customerwdl, 1 ≤ row.cId ∧ row.cId ≤ 3000) (calls : List Call)
    (generated : ∀ c ∈ calls, c.Generated W) {moves : List ℕ} {pool : Pool State Label Outcome}
    (run : exec next (startPool (load W draws) calls) moves = some pool) :
    (∀ p ∈ pool.threads, p ≠ .ret .crashed) ∧
      ((∀ p ∈ pool.threads, ∃ a, p = .ret a) → ∀ wId : ℤ, 1 ≤ wId → wId ≤ W →
        Even (books pool.shared.db) wId 27000000 1) := by
  have served : ∀ c ∈ calls, c.Served (load W draws) := fun c member =>
    load_served W draws named (generated c member)
  have owes := start_owes served
  constructor
  · obtain ⟨left, owes', _⟩ := owes.exec run
    rintro _ member rfl
    exact owes'.result member rfl
  · intro finished wId low high
    have same := owes.finished run finished
    have added : Even (calls.map (Call.books (load W draws))).sum wId 0 0 := by
      apply Even.sum
      intro b member
      obtain ⟨c, there, rfl⟩ := List.mem_map.mp member
      exact c.books_even _ (generated c there) wId
    rw [same, add_comm]
    exact added.plus (load_even W draws low high)

def namedDraws : Draws := { sampleDraws with customerwdl := [⟨1, 1, [66], 7⟩] }

def mixedCalls : List Call :=
  [.newOrder (sampleOrder 3), .paymentByName ⟨1, 1, 1, 1, 25⟩ [66], .delivery 1 4,
    .paymentById ⟨1, 2, 1, 1, 40⟩ 3]

theorem tables_consistent_mixed : ∃ moves pool,
    exec next (startPool (load 1 namedDraws) mixedCalls) moves = some pool ∧
    (∀ p ∈ pool.threads, ∃ a, p = .ret a ∧ a ≠ .crashed) ∧
    Even (books pool.shared.db) 1 27000000 1 := by
  obtain ⟨moves, pool, run, finished⟩ := exec_finishes (startPool (load 1 namedDraws) mixedCalls)
  have named : ∀ row ∈ namedDraws.customerwdl, 1 ≤ row.cId ∧ row.cId ≤ 3000 := by
    simp [namedDraws]
  have generated : ∀ c ∈ mixedCalls, c.Generated 1 := by
    simp [mixedCalls, Call.Generated, Call.Drawn, Payment.Drawn, sampleOrder]
  obtain ⟨clear, ends⟩ := tables_consistent 1 namedDraws named mixedCalls generated run
  refine ⟨moves, pool, run, ?_, ends finished 1 (by decide) (by decide)⟩
  intro p member
  obtain ⟨a, rfl⟩ := finished p member
  exact ⟨a, rfl, fun crashed => clear _ member (congrArg Prog.ret crashed)⟩

end Tpcc
