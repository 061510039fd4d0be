import OsvBenchmarks.Library.Interleave
import OsvBenchmarks.Library.Table
import Mathlib.Algebra.Field.Rat
import Mathlib.Algebra.Ring.Int.Defs
import Mathlib.Data.List.Lex
import Mathlib.Data.Int.Order.Basic

/-!
The loader and the newOrder, delivery and payment transactions as programs of
adapter calls, with main's settings: order_wdc_index, tpcc_remove and
manually_handle_isolation_anomalies hold. Numeric is exact; ids are integers, so
runs have fewer than 2^31 - 3001 orders of a district, where s32 does not wrap;
columns that these transactions only copy are left out. The journal records what a
transaction has done; no call reads it.
-/
namespace Tpcc
open Interleave Table

/-- The fields of a key in the order of the schema; lists compare as folded keys do. -/
abbrev Key := List ℤ

def minInteger : ℤ := -2 ^ 31

structure Warehouse where
  wTax : ℚ
  wYtd : ℚ

structure District where
  dTax : ℚ
  dYtd : ℚ
  dNextOId : ℤ

structure Customer where
  cDiscount : ℚ
  cBalance : ℚ
  cYtdPayment : ℚ
  cPaymentCnt : ℚ
  cDeliveryCnt : ℚ
  deriving DecidableEq

structure CustomerWdl where
  cWId : ℤ
  cDId : ℤ
  cLast : List ℕ
  cId : ℤ

structure Order where
  oCId : ℤ
  oCarrierId : ℤ
  oOlCnt : ℤ

structure Orderline where
  olDeliveryD : ℤ
  olAmount : ℚ

structure Stock where
  sQuantity : ℚ
  sYtd : ℚ
  sOrderCnt : ℚ
  sRemoteCnt : ℚ

/-- The tables; customerwdl lists its rows in the order of their keys. -/
structure Database where
  warehouse : Rows Key Warehouse
  district : Rows Key District
  customer : Rows Key Customer
  customerwdl : List CustomerWdl
  history : List (Key × ℚ)
  neworder : Rows Key Unit
  order : Rows Key Order
  orderWdc : Rows Key Unit
  orderline : Rows Key Orderline
  item : Rows Key ℚ
  stock : Rows Key Stock

/-- What a transaction has done to orders and customers, by their keys. -/
inductive Event
  | ordered (order : Key)
  | erased (order : Key)
  | credited (order customer : Key) (total : ℚ)
  | paid (customer : Key) (amount : ℚ)

structure State where
  db : Database
  journal : List (ℕ × Event)

/-- The calls whose outcome decides how a transaction goes on. -/
inductive Label
  | erase (order : Key)
  | check (order : Key) (olCnt : ℤ)
  | credit (customer : Key)
  | store (customer : Key) (read : Customer)
  | other

abbrev Tx := Prog State Label

inductive Outcome
  | ordered (oId : ℤ)
  | delivered
  | paid
  | unpaid
  | crashed

def read {A : Type} (f : Database → A) : Tx A := Prog.atomic .other fun s => (f s.db, s)

def change (f : Database → Database) : Tx Unit :=
  Prog.atomic .other fun s => ((), { s with db := f s.db })

structure Line where
  supware : ℤ
  itemid : ℤ
  qty : ℤ

/-- newOrderRnd numbers the lines 1 .. ol_cnt. -/
structure NewOrder where
  wId : ℤ
  dId : ℤ
  cId : ℤ
  lines : List Line

/-- district.update1 of newOrder: d_tax and o_id = d_next_o_id++. -/
def takeOId (i : ℕ) (wId dId : ℤ) : Tx (Option (ℚ × ℤ)) :=
  Prog.atomic .other fun s =>
    match lookup s.db.district [wId, dId] with
    | none => (none, s)
    | some rec => (some (rec.dTax, rec.dNextOId),
        { db := { s.db with
            district := update [wId, dId] (fun r => { r with dNextOId := r.dNextOId + 1 })
              s.db.district }
          journal := (i, .ordered [wId, dId, rec.dNextOId]) :: s.journal })

def takeStock (wId : ℤ) (line : Line) : Tx Unit :=
  change fun db => { db with
    stock := update [line.supware, line.itemid] (fun rec =>
      { sQuantity :=
          if rec.sQuantity ≥ line.qty + 10 then rec.sQuantity - line.qty
          else rec.sQuantity + 91 - line.qty
        sRemoteCnt := rec.sRemoteCnt + if line.supware ≠ wId then 1 else 0
        sOrderCnt := rec.sOrderCnt + 1
        sYtd := rec.sYtd + line.qty }) db.stock }

/-- lookup1 asserts that the row is there; the switch over d_id exits outside 1 .. 10. -/
def insertLines (o : NewOrder) (oId : ℤ) (price : ℚ → ℚ → ℚ) (lineNumber : ℤ) :
    List Line → Tx Outcome
  | [] => return .ordered oId
  | line :: lines => do
    let some iPrice ← read fun db => lookup db.item [line.itemid] | return .crashed
    let some _ ← read fun db => lookup db.stock [o.wId, line.itemid] | return .crashed
    if 1 ≤ o.dId ∧ o.dId ≤ 10 then
      change fun db => { db with
        orderline := insert db.orderline [o.wId, o.dId, oId, lineNumber]
          ⟨0, price line.qty iPrice⟩ }
      insertLines o oId price (lineNumber + 1) lines
    else return .crashed

def newOrder (i : ℕ) (o : NewOrder) : Tx Outcome := do
  let some warehouse ← read fun db => lookup db.warehouse [o.wId] | return .crashed
  let some customer ← read fun db => lookup db.customer [o.wId, o.dId, o.cId] | return .crashed
  let some (dTax, oId) ← takeOId i o.wId o.dId | return .crashed
  change fun db => { db with
    order := insert db.order [o.wId, o.dId, oId] ⟨o.cId, 0, o.lines.length⟩ }
  change fun db => { db with
    orderWdc := insert db.orderWdc [o.wId, o.dId, o.cId, oId] () }
  change fun db => { db with neworder := insert db.neworder [o.wId, o.dId, oId] () }
  Prog.each (takeStock o.wId) o.lines
  insertLines o oId
    (fun qty iPrice => qty * iPrice * (1 + warehouse.wTax + dTax) * (1 - customer.cDiscount))
    1 o.lines

/-- The neworder scan of delivery. -/
def oldest (wId dId : ℤ) (db : Database) : ℤ :=
  match firstFrom [wId, dId, minInteger] db.neworder with
  | some ([w, d, oId], _) => if w = wId ∧ d = dId then oId else minInteger
  | _ => minInteger

/-- neworder.erase; delivery does not use its result. -/
def eraseNewOrder (i : ℕ) (order : Key) : Tx Unit :=
  Prog.atomic (.erase order) fun s =>
    if lookup s.db.neworder order = none then ((), s)
    else ((), { db := { s.db with neworder := erase s.db.neworder order }
                journal := (i, .erased order) :: s.journal })

/-- The orderline scan of delivery: is the last line of the order there? -/
def checkLines (order : Key) (olCnt : ℤ) : Tx Bool :=
  Prog.atomic (.check order olCnt) fun s =>
    match firstFrom (order ++ [olCnt]) s.db.orderline with
    | some (key, _) => (decide (key = order ++ [olCnt]), s)
    | none => (false, s)

/-- orderline.update1 of delivery: what it adds to ol_total. -/
def stampLine (order : Key) (datetime olNumber : ℤ) : Tx ℚ :=
  Prog.atomic .other fun s =>
    (match lookup s.db.orderline (order ++ [olNumber]) with
      | some rec => rec.olAmount
      | none => 0,
     { s with db := { s.db with
        orderline := update (order ++ [olNumber]) (fun rec => { rec with olDeliveryD := datetime })
          s.db.orderline } })

def stampLines (order : Key) (datetime : ℤ) (olTotal : ℚ) : List ℤ → Tx ℚ
  | [] => return olTotal
  | olNumber :: olNumbers => do
    let olAmount ← stampLine order datetime olNumber
    stampLines order datetime (olTotal + olAmount) olNumbers

/-- customer.update1 of delivery -/
def creditCustomer (i : ℕ) (order customer : Key) (olTotal : ℚ) : Tx Unit :=
  Prog.atomic (.credit customer) fun s =>
    if lookup s.db.customer customer = none then ((), s)
    else ((),
      { db := { s.db with
          customer := update customer (fun rec => { rec with
            cBalance := rec.cBalance + olTotal
            cDeliveryCnt := rec.cDeliveryCnt + 1 }) s.db.customer }
        journal := (i, .credited order customer olTotal) :: s.journal })

def lineNumbers (olCnt : ℤ) : List ℤ := (List.range olCnt.toNat).map fun n : ℕ => (n : ℤ) + 1

/-- delivery of one district, once the oldest order is known -/
def deliverOrder (i : ℕ) (wId carrierId datetime dId oId : ℤ) : Tx Unit := do
  eraseNewOrder i [wId, dId, oId]
  let first ← read fun db => firstFrom [wId, dId, oId] db.order
  let olCnt := match first with
    | some (_, rec) => rec.oOlCnt
    | none => minInteger
  if olCnt = minInteger then return
  let again ← read fun db => firstFrom [wId, dId, oId] db.order
  let some (key, rec) := again | return
  if key ≠ [wId, dId, oId] then return
  change fun db => { db with
    order := update [wId, dId, oId] (fun r => { r with oCarrierId := carrierId }) db.order }
  let isSafeToContinue ← checkLines [wId, dId, oId] rec.oOlCnt
  if isSafeToContinue then
    let olTotal ← stampLines [wId, dId, oId] datetime 0 (lineNumbers rec.oOlCnt)
    creditCustomer i [wId, dId, oId] [wId, dId, rec.oCId] olTotal

def deliverDistrict (i : ℕ) (wId carrierId datetime dId : ℤ) : Tx Unit := do
  let oId ← read (oldest wId dId)
  if oId = minInteger then return
  deliverOrder i wId carrierId datetime dId oId

def districts : List ℤ := [1, 2, 3, 4, 5, 6, 7, 8, 9, 10]

def delivery (i : ℕ) (wId carrierId datetime : ℤ) : Tx Outcome := do
  Prog.each (deliverDistrict i wId carrierId datetime) districts
  return .delivered

structure Payment where
  wId : ℤ
  dId : ℤ
  cWId : ℤ
  cDId : ℤ
  hAmount : ℚ

/-- customer.update1 of a payment: it stores what was computed from the earlier lookup. -/
def storePayment (i : ℕ) (key : Key) (rec : Customer) (hAmount : ℚ) : Tx Unit :=
  Prog.atomic (.store key rec) fun s =>
    ((), { db := { s.db with
            customer := update key (fun r => { r with
              cBalance := rec.cBalance - hAmount
              cYtdPayment := rec.cYtdPayment + hAmount
              cPaymentCnt := rec.cPaymentCnt + 1 }) s.db.customer }
           journal := (i, .paid key hAmount) :: s.journal })

/-- A payment from customer.lookup1 on. -/
def payCustomer (i : ℕ) (p : Payment) (cId : ℤ) : Tx Outcome := do
  let some rec ← read fun db => lookup db.customer [p.cWId, p.cDId, cId] | return .crashed
  storePayment i [p.cWId, p.cDId, cId] rec p.hAmount
  change fun db => { db with history := ([p.cWId, p.cDId, cId], p.hAmount) :: db.history }
  return .paid

/-- The part of both payments before they turn to the customer. -/
def payYtd (p : Payment) : Tx Bool := do
  let some _ ← read fun db => lookup db.warehouse [p.wId] | return false
  change fun db => { db with
    warehouse := update [p.wId] (fun r => { r with wYtd := r.wYtd + p.hAmount }) db.warehouse }
  let some _ ← read fun db => lookup db.district [p.wId, p.dId] | return false
  change fun db => { db with
    district := update [p.wId, p.dId] (fun r => { r with dYtd := r.dYtd + p.hAmount })
      db.district }
  return true

def paymentById (i : ℕ) (p : Payment) (cId : ℤ) : Tx Outcome := do
  if ← payYtd p then payCustomer i p cId else return .crashed

/-- The customerwdl scan: from (c_w_id, c_d_id, c_last, "") while the name matches. -/
def idsByName (p : Payment) (cLast : List ℕ) (db : Database) : List ℤ :=
  let before := fun r : CustomerWdl =>
    [r.cWId, r.cDId] < [p.cWId, p.cDId] ∨ [r.cWId, r.cDId] = [p.cWId, p.cDId] ∧ r.cLast < cLast
  let named := fun r : CustomerWdl => r.cWId = p.cWId ∧ r.cDId = p.cDId ∧ r.cLast = cLast
  ((db.customerwdl.dropWhile fun r => before r).takeWhile fun r => named r).map (·.cId)

def paymentByName (i : ℕ) (p : Payment) (cLast : List ℕ) : Tx Outcome := do
  if ← payYtd p then
    let ids ← read (idsByName p cLast)
    if ids.length = 0 then return .unpaid
    let index := if ids.length % 2 = 0 then ids.length / 2 - 1 else ids.length / 2
    payCustomer i p (ids.getD index 0)
  else return .crashed

def currentTimestamp : ℤ := 1

inductive Call
  | newOrder (o : NewOrder)
  | delivery (wId carrierId : ℤ)
  | paymentById (p : Payment) (cId : ℤ)
  | paymentByName (p : Payment) (cLast : List ℕ)

/-- Transaction number `i`. -/
def Call.program (i : ℕ) : Call → Tx Outcome
  | newOrder o => Tpcc.newOrder i o
  | delivery wId carrierId => Tpcc.delivery i wId carrierId currentTimestamp
  | paymentById p cId => Tpcc.paymentById i p cId
  | paymentByName p cLast => Tpcc.paymentByName i p cLast

def startPool (db : Database) (calls : List Call) : Pool State Label Outcome where
  shared := ⟨db, []⟩
  threads := calls.mapIdx Call.program

/-- What the loader draws, and the customers that its shuffle leaves in c_ids. -/
structure Draws where
  wTax : ℕ → ℚ
  dTax : ℕ → ℕ → ℚ
  cDiscount : ℕ → ℕ → ℕ → ℚ
  iPrice : ℕ → ℚ
  sQuantity : ℕ → ℕ → ℚ
  oCId : ℕ → ℕ → ℕ → ℤ
  oCarrierId : ℕ → ℕ → ℕ → ℕ
  oOlCnt : ℕ → ℕ → ℕ → ℕ
  olAmount : ℕ → ℕ → ℕ → ℕ → ℚ
  customerwdl : List CustomerWdl
  carrier_drawn : ∀ w d o, oCarrierId w d o < 10
  cnt_drawn : ∀ w d o, oOlCnt w d o < 10

/-- The pairs of a warehouse and a district, in the order in which they are loaded. -/
def loadedDistricts (warehouseCount : ℕ) : List (ℕ × ℕ) :=
  (List.range' 1 warehouseCount).flatMap fun w => (List.range' 1 10).map fun d => (w, d)

/-- ... with a number from `first` to `last` in each. -/
def loadedIds (warehouseCount first last : ℕ) : List (ℕ × ℕ × ℕ) :=
  (loadedDistricts warehouseCount).flatMap fun (w, d) =>
    (List.range' first (last + 1 - first)).map fun n => (w, d, n)

namespace Draws
variable (draws : Draws)

/-- The order and the lines that loadOrders inserts for o_id. -/
def order (w d o : ℕ) : Order where
  oCId := draws.oCId w d o
  oCarrierId := if o < 2101 then draws.oCarrierId w d o + 1 else 0
  oOlCnt := draws.oOlCnt w d o + 5

def orderline (w d o olNumber : ℕ) : Orderline where
  olDeliveryD := if o < 2101 then currentTimestamp else 0
  olAmount := if o < 2101 then 0 else draws.olAmount w d o olNumber

end Draws

def load (warehouseCount : ℕ) (draws : Draws) : Database where
  warehouse := (List.range' 1 warehouseCount).map fun w : ℕ => ([(w : ℤ)], ⟨draws.wTax w, 3000000⟩)
  district := (loadedDistricts warehouseCount).map fun (w, d) =>
    ([(w : ℤ), (d : ℤ)], ⟨draws.dTax w d, 3000000, 3001⟩)
  customer := (loadedIds warehouseCount 1 3000).map fun (w, d, c) =>
    ([(w : ℤ), (d : ℤ), (c : ℤ)], ⟨draws.cDiscount w d c, -10, 1, 0, 0⟩)
  customerwdl := draws.customerwdl
  history := (loadedIds warehouseCount 1 3000).map fun (w, d, c) =>
    ([(w : ℤ), (d : ℤ), (c : ℤ)], 10)
  neworder := (loadedIds warehouseCount 2100 3000).map fun (w, d, o) =>
    ([(w : ℤ), (d : ℤ), (o : ℤ)], ())
  order := (loadedIds warehouseCount 1 3000).map fun (w, d, o) =>
    ([(w : ℤ), (d : ℤ), (o : ℤ)], draws.order w d o)
  orderWdc := (loadedIds warehouseCount 1 3000).map fun (w, d, o) =>
    ([(w : ℤ), (d : ℤ), draws.oCId w d o, (o : ℤ)], ())
  orderline := (loadedIds warehouseCount 1 3000).flatMap fun (w, d, o) =>
    (List.range' 1 (draws.oOlCnt w d o + 5)).map fun olNumber : ℕ =>
      ([(w : ℤ), (d : ℤ), (o : ℤ), (olNumber : ℤ)], draws.orderline w d o olNumber)
  item := (List.range' 1 100000).map fun i : ℕ => ([(i : ℤ)], draws.iPrice i)
  stock := (List.range' 1 warehouseCount).flatMap fun w : ℕ => (List.range' 1 100000).map fun i : ℕ =>
    ([(w : ℤ), (i : ℤ)], ⟨draws.sQuantity w i, 0, 0, 0⟩)

/-- What newOrderRnd and deliveryRnd pass. -/
def Call.Drawn (warehouseCount : ℕ) : Call → Prop
  | newOrder o => 1 ≤ o.wId ∧ o.wId ≤ warehouseCount ∧ 1 ≤ o.dId ∧ o.dId ≤ 10 ∧
      1 ≤ o.cId ∧ o.cId ≤ 3000 ∧ 5 ≤ o.lines.length ∧ o.lines.length ≤ 15 ∧
      ∀ line ∈ o.lines, 1 ≤ line.itemid ∧ line.itemid ≤ 100000
  | delivery wId carrierId => 1 ≤ wId ∧ wId ≤ warehouseCount ∧ 1 ≤ carrierId ∧ carrierId ≤ 10
  | paymentById _ _ => True
  | paymentByName _ _ => True

end Tpcc
