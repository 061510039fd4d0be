import OsvBenchmarks.Library.Tally
import OsvBenchmarks.Tpcc.Payment
import Mathlib.Algebra.Group.Pi.Lemmas
import Mathlib.Tactic.Abel

/-!
What payments, orders and deliveries add up to. Whatever the interleaving, each transaction
adds the same to the sums and counts of the tables, and no transaction fails a lookup.
-/
namespace Tpcc
open Runs Interleave Table

/-- The year-to-date columns, the sum of a customer's history rows, the order ids of a
district and what its rows of order and orderline add up to. -/
inductive Account
  | warehouse (wId : ℤ)
  | district (wId dId : ℤ)
  | history (customer : Key)
  | supplied (wId itemid : ℤ)
  | supplies (wId itemid : ℤ)
  | remote (wId itemid : ℤ)
  | nextOId (wId dId : ℤ)
  | orders (wId dId : ℤ)
  | olCnt (wId dId : ℤ)
  | lines (wId dId : ℤ)
  deriving DecidableEq

section Columns
variable {R : Type}

/-- A column of one row; nothing, if there is no row. -/
def column (rows : Rows Key R) (field : R → ℚ) (k : Key) : ℚ := ((lookup rows k).map field).getD 0

def total (rows : Rows Key R) (field : R → ℚ) (wId dId : ℤ) : ℚ :=
  (rows.map fun e => if e.1.take 2 = [wId, dId] then field e.2 else 0).sum

theorem column_update {rows : Rows Key R} {field : R → ℚ} {k k' : Key} {f : R → R} {amount : ℚ}
    (there : lookup rows k ≠ none) (adds : ∀ r, field (f r) = field r + amount) :
    column (update k f rows) field k' = column rows field k' + if k = k' then amount else 0 := by
  rw [column, column, lookup_update]
  by_cases same : k = k'
  · subst same
    obtain ⟨r, found⟩ := Option.ne_none_iff_exists'.mp there
    simp [found, adds]
  · simp [same]

theorem column_update_same {rows : Rows Key R} {field : R → ℚ} {k k' : Key} {f : R → R}
    (same : ∀ r, field (f r) = field r) :
    column (update k f rows) field k' = column rows field k' := by
  rw [column, column, lookup_update]
  split
  · rw [Option.map_map]
    congr 2
    exact funext same
  · rfl

theorem total_insert (rows : Rows Key R) (field : R → ℚ) (k : Key) (r : R) (wId dId : ℤ) :
    total (insert rows k r) field wId dId =
      total rows field wId dId + if k.take 2 = [wId, dId] then field r else 0 := by
  rw [total, Table.insert, List.map_cons, List.sum_cons, add_comm]
  rfl

theorem total_update {rows : Rows Key R} {field : R → ℚ} {k : Key} {f : R → R}
    (same : ∀ r, field (f r) = field r) (wId dId : ℤ) :
    total (update k f rows) field wId dId = total rows field wId dId := by
  rw [total, map_update]
  · rfl
  · intro r
    rw [same]

end Columns

def books (db : Database) : Account → ℚ
  | .warehouse wId => column db.warehouse (fun r => r.wYtd) [wId]
  | .district wId dId => column db.district (fun r => r.dYtd) [wId, dId]
  | .history customer => (amountsOf db.history customer).sum
  | .supplied wId itemid => column db.stock (fun r => r.sYtd) [wId, itemid]
  | .supplies wId itemid => column db.stock (fun r => r.sOrderCnt) [wId, itemid]
  | .remote wId itemid => column db.stock (fun r => r.sRemoteCnt) [wId, itemid]
  | .nextOId wId dId => column db.district (fun r => r.dNextOId) [wId, dId]
  | .orders wId dId => total db.order (fun _ => 1) wId dId
  | .olCnt wId dId => total db.order (fun r => r.oOlCnt) wId dId
  | .lines wId dId => total db.orderline (fun _ => 1) wId dId

def Line.books (wId : ℤ) (line : Line) : Account → ℚ :=
  Pi.single (.supplied line.supware line.itemid) (line.qty : ℚ) +
    (Pi.single (.supplies line.supware line.itemid) 1 +
      Pi.single (.remote line.supware line.itemid) (if line.supware ≠ wId then 1 else 0))

def NewOrder.books (o : NewOrder) : Account → ℚ :=
  Pi.single (.nextOId o.wId o.dId) 1 +
    (Pi.single (.orders o.wId o.dId) 1 + Pi.single (.olCnt o.wId o.dId) (o.lines.length : ℚ) +
      ((o.lines.map (Line.books o.wId)).sum + Pi.single (.lines o.wId o.dId) (o.lines.length : ℚ)))

def Payment.ytd (p : Payment) : Account → ℚ :=
  Pi.single (.warehouse p.wId) p.hAmount + Pi.single (.district p.wId p.dId) p.hAmount

def recorded : Option (Key × ℚ) → Account → ℚ
  | none => 0
  | some (customer, hAmount) => Pi.single (.history customer) hAmount

def Call.books (db : Database) : Call → Account → ℚ
  | newOrder o => o.books
  | delivery _ _ => 0
  | paymentById p cId => p.ytd + recorded ((Call.paymentById p cId).pays db)
  | paymentByName p cLast => p.ytd + recorded ((Call.paymentByName p cLast).pays db)

structure RowsKept (base : Database) (s : State) : Prop where
  warehouse : ∀ k, lookup s.db.warehouse k = none ↔ lookup base.warehouse k = none
  district : ∀ k, lookup s.db.district k = none ↔ lookup base.district k = none
  customer : ∀ k, lookup s.db.customer k = none ↔ lookup base.customer k = none
  item : ∀ k, lookup s.db.item k = none ↔ lookup base.item k = none
  stock : ∀ k, lookup s.db.stock k = none ↔ lookup base.stock k = none
  names : s.db.customerwdl = base.customerwdl

def Call.Served (db : Database) : Call → Prop
  | newOrder o => Stocked db o ∧ ∀ line ∈ o.lines, lookup db.stock [line.supware, line.itemid] ≠ none
  | delivery _ _ => True
  | paymentById p cId => (Call.paymentById p cId).Existing db
  | paymentByName p cLast => (Call.paymentByName p cLast).Existing db

section Calls
variable {base : Database}

def Posts {A : Type} (base : Database) (post : A → Prop) (p : Tx A) (sum : Account → ℚ) : Prop :=
  Adds (RowsKept base) (fun s : State => books s.db) post p sum

theorem read_posts {A : Type} {f : Database → A} (post : A → Prop)
    (reads : ∀ s, RowsKept base s → post (f s.db)) : Posts base post (read f) 0 := by
  apply Adds.atomic
  intro s kept
  exact ⟨kept, (add_zero _).symm, reads s kept⟩

theorem change_posts {f : Database → Database} {sum : Account → ℚ}
    (keeps : ∀ s, RowsKept base s → RowsKept base { s with db := f s.db })
    (adds : ∀ s, RowsKept base s → books (f s.db) = books s.db + sum) :
    Posts base (fun _ => True) (change f) sum := by
  apply Adds.atomic
  intro s kept
  exact ⟨keeps s kept, adds s kept, trivial⟩

section Payments

theorem warehouse_posts {p : Payment} (home : lookup base.warehouse [p.wId] ≠ none) :
    Posts base (fun _ => True) (change fun db => { db with
      warehouse := update [p.wId] (fun r => { r with wYtd := r.wYtd + p.hAmount }) db.warehouse })
      (Pi.single (.warehouse p.wId) p.hAmount) := by
  apply change_posts
  · intro s kept
    exact { kept with warehouse := fun k => (lookup_update_none _ _ _ _).trans (kept.warehouse k) }
  · intro s kept
    have there := mt (kept.warehouse [p.wId]).mp home
    funext account
    cases account with
    | warehouse wId =>
      have column := @column_update _ s.db.warehouse (fun r => r.wYtd) [p.wId] [wId]
        (fun r => { r with wYtd := r.wYtd + p.hAmount }) p.hAmount there fun _ => rfl
      simp [books, column, Pi.single_apply, eq_comm]
    | _ => simp [books]

theorem district_posts {p : Payment} (home : lookup base.district [p.wId, p.dId] ≠ none) :
    Posts base (fun _ => True) (change fun db => { db with
      district := update [p.wId, p.dId] (fun r => { r with dYtd := r.dYtd + p.hAmount })
        db.district })
      (Pi.single (.district p.wId p.dId) p.hAmount) := by
  apply change_posts
  · intro s kept
    exact { kept with district := fun k => (lookup_update_none _ _ _ _).trans (kept.district k) }
  · intro s kept
    have there := mt (kept.district [p.wId, p.dId]).mp home
    funext account
    cases account with
    | district wId dId =>
      have column := @column_update _ s.db.district (fun r => r.dYtd) [p.wId, p.dId] [wId, dId]
        (fun r => { r with dYtd := r.dYtd + p.hAmount }) p.hAmount there fun _ => rfl
      simp [books, column, Pi.single_apply, eq_comm]
    | nextOId wId dId => simp [books, column_update_same]
    | _ => simp [books]

theorem history_posts (customer : Key) (hAmount : ℚ) :
    Posts base (fun _ => True) (change fun db => { db with
      history := (customer, hAmount) :: db.history })
      (Pi.single (.history customer) hAmount) := by
  apply change_posts
  · exact fun s kept => { kept with }
  · intro s _
    funext account
    cases account with
    | history customer' =>
      by_cases same : customer = customer'
      · simp [books, amountsOf, same, add_comm]
      · simp [books, amountsOf, same, eq_comm]
    | _ => simp [books]

theorem storePayment_posts (i : ℕ) (key : Key) (rec : Customer) (hAmount : ℚ) :
    Posts base (fun _ => True) (storePayment i key rec hAmount) 0 := by
  apply Adds.atomic
  intro s kept
  refine ⟨?_, ?_, trivial⟩
  · exact { kept with customer := fun k => (lookup_update_none _ _ _ _).trans (kept.customer k) }
  · funext account
    cases account with
    | _ => simp [books]

theorem payYtd_posts {p : Payment} (home : p.Home base) :
    Posts base (fun a => a = true) (payYtd p) p.ytd := by
  have parts : p.ytd = 0 + (Pi.single (.warehouse p.wId) p.hAmount +
      (0 + (Pi.single (.district p.wId p.dId) p.hAmount + 0))) := by
    simp [Payment.ytd]
  rw [payYtd, parts]
  apply Adds.bind (read_posts (fun a => a ≠ none) fun s kept => mt (kept.warehouse _).mp home.1)
  intro a found
  cases a with
  | none => exact absurd rfl found
  | some warehouse =>
    apply Adds.bind (warehouse_posts home.1)
    intro _ _
    apply Adds.bind (read_posts (fun a => a ≠ none) fun s kept => mt (kept.district _).mp home.2)
    intro a found
    cases a with
    | none => exact absurd rfl found
    | some district =>
      apply Adds.bind (district_posts home.2)
      intro _ _
      exact Adds.pure rfl

theorem payCustomer_posts (i : ℕ) (p : Payment) {cId : ℤ}
    (exists' : lookup base.customer [p.cWId, p.cDId, cId] ≠ none) :
    Posts base (fun a => a = .paid) (payCustomer i p cId)
      (Pi.single (.history [p.cWId, p.cDId, cId]) p.hAmount) := by
  have parts : (Pi.single (.history [p.cWId, p.cDId, cId]) p.hAmount : Account → ℚ) =
      0 + (0 + (Pi.single (.history [p.cWId, p.cDId, cId]) p.hAmount + 0)) := by
    simp
  rw [payCustomer, parts]
  apply Adds.bind (read_posts (fun a => a ≠ none) fun s kept => mt (kept.customer _).mp exists')
  intro a found
  cases a with
  | none => exact absurd rfl found
  | some rec =>
    apply Adds.bind (storePayment_posts i _ rec p.hAmount)
    intro _ _
    apply Adds.bind (history_posts _ _)
    intro _ _
    exact Adds.pure rfl

def Outcome.Fine (a : Outcome) : Prop := a ≠ .crashed

theorem paymentById_posts (i : ℕ) (p : Payment) {cId : ℤ}
    (existing : (Call.paymentById p cId).Existing base) :
    Posts base Outcome.Fine (paymentById i p cId) ((Call.paymentById p cId).books base) := by
  rw [paymentById, Call.books]
  apply Adds.bind (payYtd_posts existing.1)
  rintro _ rfl
  apply (payCustomer_posts i p existing.2).weaken
  rintro _ rfl
  exact Outcome.noConfusion

theorem paymentByName_posts (i : ℕ) (p : Payment) {cLast : List ℕ}
    (existing : (Call.paymentByName p cLast).Existing base) :
    Posts base Outcome.Fine (paymentByName i p cLast) ((Call.paymentByName p cLast).books base) := by
  rw [paymentByName, Call.books]
  apply Adds.bind (payYtd_posts existing.1)
  rintro _ rfl
  simp only [if_true]
  rw [← zero_add (recorded _)]
  apply Adds.bind (read_posts (fun ids => ids = idsByName p cLast base) fun s kept => by
    rw [idsByName, kept.names]
    rfl)
  rintro _ rfl
  by_cases none : (idsByName p cLast base).length = 0
  · simp only [none, if_true, Call.pays]
    exact Adds.pure Outcome.noConfusion
  · simp only [none, if_false, Call.pays]
    apply (payCustomer_posts i p (existing.2 _ (middle_mem none))).weaken
    rintro _ rfl
    exact Outcome.noConfusion

end Payments

section Orders

theorem takeOId_posts (i : ℕ) {wId dId : ℤ} (there : lookup base.district [wId, dId] ≠ none) :
    Posts base (fun a => a ≠ none) (takeOId i wId dId) (Pi.single (.nextOId wId dId) 1) := by
  apply Adds.atomic
  intro s kept
  have present := mt (kept.district [wId, dId]).mp there
  obtain ⟨rec, found⟩ := Option.ne_none_iff_exists'.mp present
  simp only [found]
  refine ⟨?_, ?_, Option.some_ne_none _⟩
  · exact { kept with district := fun k => (lookup_update_none _ _ _ _).trans (kept.district k) }
  · funext account
    cases account with
    | nextOId wId' dId' =>
      have column := @column_update _ s.db.district (fun r => (r.dNextOId : ℚ)) [wId, dId] [wId', dId']
        (fun r => { r with dNextOId := r.dNextOId + 1 }) 1 present fun r => by push_cast; rfl
      simp [books, column, Pi.single_apply, eq_comm]
    | district wId' dId' => simp [books, column_update_same]
    | _ => simp [books]

theorem order_posts (wId dId oId : ℤ) (rec : Order) :
    Posts base (fun _ => True) (change fun db => { db with
      order := insert db.order [wId, dId, oId] rec })
      (Pi.single (.orders wId dId) 1 + Pi.single (.olCnt wId dId) (rec.oOlCnt : ℚ)) := by
  apply change_posts
  · exact fun s kept => { kept with }
  · intro s _
    funext account
    cases account with
    | orders wId' dId' => simp [books, total_insert, Pi.single_apply, eq_comm]
    | olCnt wId' dId' => simp [books, total_insert, Pi.single_apply, eq_comm]
    | _ => simp [books]

theorem orderWdc_posts (k : Key) :
    Posts base (fun _ => True) (change fun db => { db with orderWdc := insert db.orderWdc k () }) 0 := by
  apply change_posts
  · exact fun s kept => { kept with }
  · exact fun s _ => (add_zero (books s.db)).symm

theorem neworder_posts (k : Key) :
    Posts base (fun _ => True) (change fun db => { db with neworder := insert db.neworder k () }) 0 := by
  apply change_posts
  · exact fun s kept => { kept with }
  · exact fun s _ => (add_zero (books s.db)).symm

theorem takeStock_posts (wId : ℤ) {line : Line}
    (there : lookup base.stock [line.supware, line.itemid] ≠ none) :
    Posts base (fun _ => True) (takeStock wId line) (line.books wId) := by
  apply change_posts
  · intro s kept
    exact { kept with stock := fun k => (lookup_update_none _ _ _ _).trans (kept.stock k) }
  · intro s kept
    have present := mt (kept.stock _).mp there
    funext account
    cases account with
    | supplied wId' itemid =>
      rw [books, column_update present fun _ => rfl]
      simp [books, Line.books, Pi.single_apply, eq_comm]
    | supplies wId' itemid =>
      rw [books, column_update present fun _ => rfl]
      simp [books, Line.books, Pi.single_apply, eq_comm]
    | remote wId' itemid =>
      rw [books, column_update present fun _ => rfl]
      simp [books, Line.books, Pi.single_apply, eq_comm]
    | _ => simp [books, Line.books]

theorem line_posts (wId dId oId number : ℤ) (rec : Orderline) :
    Posts base (fun _ => True) (change fun db => { db with
      orderline := insert db.orderline [wId, dId, oId, number] rec })
      (Pi.single (.lines wId dId) 1) := by
  apply change_posts
  · exact fun s kept => { kept with }
  · intro s _
    funext account
    cases account with
    | lines wId' dId' => simp [books, total_insert, Pi.single_apply, eq_comm]
    | _ => simp [books]

theorem insertLines_posts {o : NewOrder} (stocked : Stocked base o) (oId : ℤ) (price : ℚ → ℚ → ℚ)
    (lineNumber : ℤ) (lines : List Line) (among : ∀ line ∈ lines, line ∈ o.lines) :
    Posts base (fun a => a = .ordered oId) (insertLines o oId price lineNumber lines)
      (Pi.single (.lines o.wId o.dId) (lines.length : ℚ)) := by
  induction lines generalizing lineNumber with
  | nil =>
    have none : (Pi.single (.lines o.wId o.dId) (([] : List Line).length : ℚ) : Account → ℚ) = 0 := by
      simp
    rw [none]
    exact Adds.pure rfl
  | cons line lines ih =>
    have parts : (Pi.single (.lines o.wId o.dId) ((line :: lines).length : ℚ) : Account → ℚ) =
        0 + (0 + (Pi.single (.lines o.wId o.dId) 1 +
          Pi.single (.lines o.wId o.dId) (lines.length : ℚ))) := by
      rw [zero_add, zero_add, ← Pi.single_add, List.length_cons]
      push_cast
      rw [add_comm]
    obtain ⟨item, stock⟩ := stocked.items line (among line (by simp))
    rw [insertLines, parts]
    apply Adds.bind (read_posts (fun a => a ≠ none) fun s kept => mt (kept.item _).mp item)
    intro a found
    cases a with
    | none => exact absurd rfl found
    | some iPrice =>
      apply Adds.bind (read_posts (fun a => a ≠ none) fun s kept => mt (kept.stock _).mp stock)
      intro a found
      cases a with
      | none => exact absurd rfl found
      | some r =>
        simp only [stocked.districts, and_self, if_true]
        apply Adds.bind (line_posts _ _ _ _ _)
        intro _ _
        exact ih _ fun l member => among l (List.mem_cons_of_mem _ member)

theorem newOrder_posts (i : ℕ) {o : NewOrder} (served : (Call.newOrder o).Served base) :
    Posts base Outcome.Fine (newOrder i o) o.books := by
  obtain ⟨stocked, supplied⟩ := served
  have parts : o.books = 0 + (0 + (Pi.single (.nextOId o.wId o.dId) 1 +
      ((Pi.single (.orders o.wId o.dId) 1 + Pi.single (.olCnt o.wId o.dId) ((o.lines.length : ℤ) : ℚ)) +
        (0 + (0 + ((o.lines.map (Line.books o.wId)).sum +
          Pi.single (.lines o.wId o.dId) (o.lines.length : ℚ))))))) := by
    rw [zero_add, zero_add, zero_add, zero_add, Int.cast_natCast]
    rfl
  rw [newOrder, parts]
  apply Adds.bind (read_posts (fun a => a ≠ none) fun s kept => mt (kept.warehouse _).mp stocked.warehouse)
  intro a found
  cases a with
  | none => exact absurd rfl found
  | some warehouse =>
    apply Adds.bind (read_posts (fun a => a ≠ none) fun s kept => mt (kept.customer _).mp stocked.customer)
    intro a found
    cases a with
    | none => exact absurd rfl found
    | some customer =>
      apply Adds.bind (takeOId_posts i stocked.district)
      intro a found
      cases a with
      | none => exact absurd rfl found
      | some taken =>
        obtain ⟨dTax, oId⟩ := taken
        apply Adds.bind (order_posts _ _ _ _)
        intro _ _
        apply Adds.bind (orderWdc_posts _)
        intro _ _
        apply Adds.bind (neworder_posts _)
        intro _ _
        apply Adds.bind (Adds.each fun line member => takeStock_posts o.wId (supplied line member))
        intro _ _
        apply (insertLines_posts stocked oId _ 1 o.lines fun _ member => member).weaken
        rintro _ rfl
        exact Outcome.noConfusion

end Orders

section Deliveries

theorem DeliveryCall.same {i : ℕ} {l : Label} {effect : State → State} (call : DeliveryCall i l effect)
    (s : State) (kept : RowsKept base s) :
    RowsKept base (effect s) ∧ books (effect s).db = books s.db := by
  cases call with
  | read f => exact ⟨kept, rfl⟩
  | erase k =>
    simp only [eraseNewOrder, Prog.run_atomic]
    split
    · exact ⟨kept, rfl⟩
    · exact ⟨{ kept with }, rfl⟩
  | carry k carrierId =>
    refine ⟨{ kept with }, ?_⟩
    funext account
    cases account with
    | orders wId dId =>
      exact @total_update _ s.db.order (fun _ => 1) k (fun r => { r with oCarrierId := carrierId })
        (fun _ => rfl) wId dId
    | olCnt wId dId =>
      exact @total_update _ s.db.order (fun r => r.oOlCnt) k (fun r => { r with oCarrierId := carrierId })
        (fun _ => rfl) wId dId
    | _ => rfl
  | check k olCnt =>
    simp only [checkLines, Prog.run_atomic]
    split
    · exact ⟨kept, rfl⟩
    · exact ⟨kept, rfl⟩
  | stamp k datetime olNumber =>
    refine ⟨{ kept with }, ?_⟩
    funext account
    cases account with
    | lines wId dId =>
      exact @total_update _ s.db.orderline (fun _ => 1) (k ++ [olNumber])
        (fun r => { r with olDeliveryD := datetime }) (fun _ => rfl) wId dId
    | _ => rfl
  | credit k customer olTotal =>
    simp only [creditCustomer, Prog.run_atomic]
    split
    · exact ⟨kept, rfl⟩
    · refine ⟨?_, ?_⟩
      · exact { kept with
          customer := fun k => (lookup_update_none _ _ _ _).trans (kept.customer k) }
      · funext account
        cases account with
        | _ => rfl

theorem delivery_posts (i : ℕ) (wId carrierId datetime : ℤ) :
    Posts base Outcome.Fine (delivery i wId carrierId datetime) 0 := by
  have whole := delivery_calls i wId carrierId datetime
  rw [delivery] at whole ⊢
  have first : Posts base (fun _ => True) (Prog.each (deliverDistrict i wId carrierId datetime) districts) 0 :=
    Adds.calls whole.of_bind fun l effect call s kept => call.same s kept
  rw [← add_zero (0 : Account → ℚ)]
  apply Adds.bind first
  intro _ _
  exact Adds.pure Outcome.noConfusion

end Deliveries

theorem program_posts (i : ℕ) {c : Call} (served : c.Served base) :
    Posts base Outcome.Fine (c.program i) (c.books base) := by
  cases c with
  | newOrder o => exact newOrder_posts i served
  | delivery wId carrierId => exact delivery_posts i wId carrierId currentTimestamp
  | paymentById p cId => exact paymentById_posts i p served
  | paymentByName p cLast => exact paymentByName_posts i p served

end Calls

theorem start_owes {db : Database} {calls : List Call} (served : ∀ c ∈ calls, c.Served db) :
    Owes (RowsKept db) (fun s => books s.db) Outcome.Fine (startPool db calls)
      (calls.map (Call.books db)) := by
  constructor
  · exact ⟨fun _ => Iff.rfl, fun _ => Iff.rfl, fun _ => Iff.rfl, fun _ => Iff.rfl, fun _ => Iff.rfl, rfl⟩
  · simp [startPool]
  · intro i p sum here own
    rw [startPool, List.getElem?_mapIdx] at here
    rw [List.getElem?_map] at own
    obtain ⟨c, there, rfl⟩ := Option.map_eq_some_iff.mp here
    rw [there] at own
    cases own
    exact program_posts i (served c (List.mem_of_getElem? there))

/-- In every interleaving no lookup fails, and when all have ended the books hold what each of
the transactions adds and nothing else. -/
theorem books_balance (db : Database) (calls : List Call) (served : ∀ c ∈ calls, c.Served db)
    {moves : List ℕ} {pool : Pool State Label Outcome}
    (run : exec next (startPool db calls) moves = some pool) :
    (∀ p ∈ pool.threads, p ≠ .ret .crashed) ∧
      ((∀ p ∈ pool.threads, ∃ a, p = .ret a) →
        books pool.shared.db = books db + (calls.map (Call.books db)).sum) := by
  have owes := start_owes served
  constructor
  · obtain ⟨left, owes', _⟩ := owes.exec run
    rintro _ member rfl
    exact owes'.result member rfl
  · exact owes.finished run

def shop : Database := { smallDb with item := [([1], 5)], stock := [([1, 1], ⟨50, 0, 0, 0⟩)] }

def shopCalls : List Call := [.newOrder ⟨1, 1, 1, [⟨1, 1, 3⟩]⟩, pay 10, pay 20, .delivery 1 7]

/-- The second payment stores over the first, but not in the books. -/
theorem books_balance_shop : ∃ moves pool,
    exec next (startPool shop shopCalls) moves = some pool ∧
    (lookup pool.shared.db.customer [1, 1, 1]).map (·.cPaymentCnt) = some 1 ∧
    books pool.shared.db = books shop + (shopCalls.map (Call.books shop)).sum := by
  obtain ⟨pool, run, same⟩ := exec_observe next (startPool shop shopCalls)
    (List.replicate 10 0 ++ [1, 1, 1, 1, 1, 2, 2, 2, 2, 2, 1, 1, 2, 2] ++ List.replicate 17 3)
    (fun pool => (pool.threads.all Prog.finished,
      (lookup pool.shared.db.customer [1, 1, 1]).map (·.cPaymentCnt)))
    (true, some 1) (by decide +kernel)
  obtain ⟨done, count⟩ := Prod.mk.inj same
  have finished : ∀ p ∈ pool.threads, ∃ a, p = .ret a :=
    fun p member => p.finished_iff.mp (List.all_eq_true.mp done p member)
  have served : ∀ c ∈ shopCalls, c.Served shop := by
    have stocked : Stocked shop ⟨1, 1, 1, [⟨1, 1, 3⟩]⟩ := by
      constructor <;> simp [shop, smallDb, lookup]
    simp [shopCalls, pay, Call.Served, Call.Existing, Payment.Home, stocked]
    simp [shop, smallDb, lookup]
  exact ⟨_, pool, run, count, (books_balance shop shopCalls served run).2 finished⟩

end Tpcc
