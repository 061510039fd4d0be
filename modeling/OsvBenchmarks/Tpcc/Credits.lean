import OsvBenchmarks.Tpcc.Calls
import OsvBenchmarks.Tpcc.Delivery

/-!
What deliveries credit where no order is new: the sum of the order's lines, to the
order's customer, whatever other deliveries and payments do meanwhile. An order
that is complete is credited by each transaction that erases its neworder row.
-/
namespace Tpcc
open Runs Interleave Table

def customerOfOrder (db : Database) (k : Key) : Option Key :=
  (firstFrom k db.order).map fun e => customerKey k e.2.oCId

/-- The ol_amount of the order's lines, added up. -/
def orderTotal (db : Database) (k : Key) : ℚ :=
  match firstFrom k db.order with
  | some (_, r) => lineTotal (view ⟨db, []⟩ k) (lineNumbers r.oOlCnt)
  | none => 0

def Complete (db : Database) (k : Key) : Prop :=
  ∃ r, firstFrom k db.order = some (k, r) ∧ r.oOlCnt ≠ minInteger ∧
    (firstFrom (k ++ [r.oOlCnt]) db.orderline).map (·.1) = some (k ++ [r.oOlCnt]) ∧
    lookup db.customer (customerKey k r.oCId) ≠ none

/-- The orders of a customer that were credited, as often as they were. -/
def ordersTo (db : Database) (journal : List (ℕ × Event)) (customer : Key) : List Key :=
  journal.filterMap fun e =>
    match e.2 with
    | .credited k _ _ => if customerOfOrder db k = some customer then some k else none
    | .ordered _ => none
    | .erased _ => none
    | .paid _ _ => none

def deliveredTo (db : Database) (journal : List (ℕ × Event)) (customer : Key) : ℚ :=
  ((ordersTo db journal customer).map (orderTotal db)).sum

structure Fixed (base db : Database) : Prop where
  orders : (db.order.map fun e => (e.1, e.2.core)) = base.order.map fun e => (e.1, e.2.core)
  lines : (db.orderline.map fun e => (e.1, e.2.olAmount)) = base.orderline.map fun e => (e.1, e.2.olAmount)
  customer : ∀ k, lookup db.customer k = none ↔ lookup base.customer k = none

structure Due (base : Database) (s : State) : Prop where
  fixed : Fixed base s.db
  credits : ∀ i k c total, (i, .credited k c total) ∈ s.journal →
    customerOfOrder base k = some c ∧ total = orderTotal base k

namespace Credits

def Guar (i : ℕ) (s s' : State) : Prop := ∀ j, j ≠ i → ∀ e, (j, e) ∈ s'.journal ↔ (j, e) ∈ s.journal

def Rely (i : ℕ) (s s' : State) : Prop := ∀ e, (i, e) ∈ s'.journal ↔ (i, e) ∈ s.journal

theorem compatible (i j : ℕ) (differ : i ≠ j) (s s' : State) (guar : Guar j s s') : Rely i s s' :=
  guar i differ

end Credits

/-- Transaction `i` has credited the complete orders that it has erased, but for one. -/
def Credited (base : Database) (i : ℕ) (current : Option Key) (s : State) : Prop :=
  ∀ k, (i, .erased k) ∈ s.journal → Complete base k → some k ≠ current →
    ∃ c total, (i, .credited k c total) ∈ s.journal

variable {base : Database} {i : ℕ} {current : Option Key}

theorem Credited.stable (base : Database) (i : ℕ) (current : Option Key) :
    Stable (Due base) (Credits.Rely i) (Credited base i current) := by
  intro s s' _ _ credited rely k erased complete other
  obtain ⟨c, total, there⟩ := credited k ((rely _).mp erased) complete other
  exact ⟨c, total, (rely _).mpr there⟩

section Fixed
variable {db : Database}

theorem Fixed.firstOrder (fixed : Fixed base db) (k : Key) :
    ((firstFrom k db.order).map fun e => (e.1, e.2.core)) =
      (firstFrom k base.order).map fun e => (e.1, e.2.core) := by
  rw [← firstFrom_map Order.core, ← firstFrom_map Order.core, fixed.orders]

theorem Fixed.firstLine (fixed : Fixed base db) (k : Key) :
    (firstFrom k db.orderline).map (·.1) = (firstFrom k base.orderline).map (·.1) := by
  have same : ∀ t : Rows Key Orderline, (firstFrom k t).map (·.1) =
      (firstFrom k (t.map fun e => (e.1, e.2.olAmount))).map (·.1) := by
    intro t
    rw [firstFrom_map Orderline.olAmount, Option.map_map]
    rfl
  rw [same, same, fixed.lines]

theorem lineAmount_eq (db : Database) (journal : List (ℕ × Event)) (k : Key) (l : ℤ) :
    lineAmount (view ⟨db, journal⟩ k) l =
      ((lookup (db.orderline.map fun e => (e.1, e.2.olAmount)) (k ++ [l])).getD 0) := by
  rw [lookup_map, lookup_eq, lineAmount, view]
  dsimp only
  cases rowsAt db.orderline (k ++ [l]) <;> rfl

theorem Fixed.amount (fixed : Fixed base db) (journal : List (ℕ × Event)) (k : Key) (l : ℤ) :
    lineAmount (view ⟨db, journal⟩ k) l = lineAmount (view ⟨base, []⟩ k) l := by
  rw [lineAmount_eq, lineAmount_eq, fixed.lines]

end Fixed

section Holds

theorem read_due {A : Type} {f : Database → A} (fact : A → Prop)
    (reads : ∀ db, Fixed base db → fact (f db)) :
    Holds (Due base) (fun _ _ => True) (Credits.Rely i) (Credits.Guar i) (Credited base i current) (read f)
      fun a s => fact a ∧ Credited base i current s := by
  apply Holds.atomic
  · intro s due credited _
    exact ⟨due, fun _ _ _ => Iff.rfl, reads s.db due.fixed, credited⟩
  · rintro a s s' due due' ⟨known, credited⟩ rely
    exact ⟨known, Credited.stable base i current s s' due due' credited rely⟩

theorem change_due {f : Database → Database} (keeps : ∀ db, Fixed base db → Fixed base (f db)) :
    Holds (Due base) (fun _ _ => True) (Credits.Rely i) (Credits.Guar i) (Credited base i current) (change f)
      fun _ s => Credited base i current s := by
  apply Holds.atomic
  · intro s due credited _
    exact ⟨⟨keeps s.db due.fixed, due.credits⟩, fun _ _ _ => Iff.rfl, credited⟩
  · exact fun _ => Credited.stable base i current

theorem guar_entry (s : State) (db : Database) (e : Event) :
    Credits.Guar i s ⟨db, (i, e) :: s.journal⟩ := by
  intro j differ e'
  simp [differ]

section Delivery
variable {k : Key} {datetime : ℤ}

theorem eraseNewOrder_due : Holds (Due base) (fun _ _ => True) (Credits.Rely i) (Credits.Guar i)
    (Credited base i none) (eraseNewOrder i k) fun _ s => Credited base i (some k) s := by
  apply Holds.atomic
  · intro s due credited _
    split
    · exact ⟨due, fun _ _ _ => Iff.rfl, fun k' erased complete _ =>
        credited k' erased complete (Option.some_ne_none k')⟩
    · refine ⟨⟨⟨due.fixed.orders, due.fixed.lines, due.fixed.customer⟩, ?_⟩, guar_entry s _ _, ?_⟩
      · intro j k' c total there
        exact due.credits j k' c total (by simpa using there)
      · intro k' erased complete other
        have old : (i, Event.erased k') ∈ s.journal := by
          rcases List.mem_cons.mp erased with same | old
          · cases same
            exact absurd rfl other
          · exact old
        obtain ⟨c, total, there⟩ := credited k' old complete (Option.some_ne_none k')
        exact ⟨c, total, List.mem_cons_of_mem _ there⟩
  · exact fun _ => Credited.stable base i (some k)

theorem stampLine_due (l : ℤ) : Holds (Due base) (fun _ _ => True) (Credits.Rely i) (Credits.Guar i)
    (Credited base i current) (stampLine k datetime l) fun olAmount s =>
      olAmount = lineAmount (view ⟨base, []⟩ k) l ∧ Credited base i current s := by
  apply Holds.atomic
  · intro s due credited _
    have stamped : ((update (k ++ [l]) (fun rec => { rec with olDeliveryD := datetime })
        s.db.orderline).map fun e => (e.1, e.2.olAmount)) =
          s.db.orderline.map fun e => (e.1, e.2.olAmount) := map_update _ fun _ => rfl
    refine ⟨⟨⟨due.fixed.orders, ?_, due.fixed.customer⟩, due.credits⟩, fun _ _ _ => Iff.rfl, ?_, credited⟩
    · exact stamped.trans due.fixed.lines
    · rw [← due.fixed.amount [] k l, lineAmount_eq, lookup_map]
      cases lookup s.db.orderline (k ++ [l]) <;> rfl
  · rintro a s s' due due' ⟨known, credited⟩ rely
    exact ⟨known, Credited.stable base i current s s' due due' credited rely⟩

theorem stampLines_due (olTotal : ℚ) (ls : List ℤ) :
    Holds (Due base) (fun _ _ => True) (Credits.Rely i) (Credits.Guar i) (Credited base i current)
      (stampLines k datetime olTotal ls) fun total s =>
        total = olTotal + lineTotal (view ⟨base, []⟩ k) ls ∧ Credited base i current s := by
  induction ls generalizing olTotal with
  | nil => exact Holds.pure fun s _ credited => ⟨(add_zero olTotal).symm, credited⟩
  | cons l ls ih =>
    rw [stampLines]
    apply Holds.bind (stampLine_due l)
    intro olAmount
    by_cases known : olAmount = lineAmount (view ⟨base, []⟩ k) l
    · refine (ih (olTotal + olAmount)).weaken (fun _ _ h => h.2) fun total s _ h => ⟨?_, h.2⟩
      rw [h.1, known, lineTotal, lineTotal, List.map_cons, List.sum_cons, add_assoc]
    · exact Holds.never fun s _ here => known here.1

/-- The credit is noted where the customer exists, which the order then has. -/
theorem creditCustomer_due {r : Order} (first : firstFrom k base.order = some (k, r)) {total : ℚ}
    (sum : total = lineTotal (view ⟨base, []⟩ k) (lineNumbers r.oOlCnt)) :
    Holds (Due base) (fun _ _ => True) (Credits.Rely i) (Credits.Guar i) (Credited base i (some k))
      (creditCustomer i k (customerKey k r.oCId) total) fun _ s => Credited base i none s := by
  apply Holds.atomic
  · intro s due credited _
    split
    · rename_i gone
      refine ⟨due, fun _ _ _ => Iff.rfl, fun k' erased complete _ => ?_⟩
      by_cases same : k' = k
      · subst same
        obtain ⟨r', first', _, _, customer⟩ := complete
        rw [first] at first'
        cases first'
        exact absurd ((due.fixed.customer _).mp gone) customer
      · exact credited k' erased complete fun h => same (Option.some.inj h)
    · refine ⟨⟨⟨due.fixed.orders, due.fixed.lines, ?_⟩, ?_⟩, guar_entry s _ _, ?_⟩
      · exact fun c => (lookup_update_none _ _ _ _).trans (due.fixed.customer c)
      · intro j k' c total' there
        rcases List.mem_cons.mp there with same | old
        · cases same
          rw [customerOfOrder, orderTotal, first]
          exact ⟨rfl, sum⟩
        · exact due.credits j k' c total' old
      · intro k' erased complete _
        by_cases same : k' = k
        · subst same
          exact ⟨_, _, List.mem_cons_self⟩
        · have old : (i, Event.erased k') ∈ s.journal := by simpa using erased
          obtain ⟨c, total', there⟩ := credited k' old complete fun h => same (Option.some.inj h)
          exact ⟨c, total', List.mem_cons_of_mem _ there⟩
  · exact fun _ => Credited.stable base i none

theorem Credited.skip {s : State} (credited : Credited base i (some k) s) (not : ¬ Complete base k) :
    Credited base i none s := by
  intro k' erased complete _
  refine credited k' erased complete ?_
  rintro ⟨⟩
  exact not complete

theorem checkLines_due {olCnt : ℤ} : Holds (Due base) (fun _ _ => True) (Credits.Rely i) (Credits.Guar i)
    (Credited base i current) (checkLines k olCnt) fun safe s =>
      (safe = true ↔ (firstFrom (k ++ [olCnt]) base.orderline).map (·.1) = some (k ++ [olCnt])) ∧
      Credited base i current s := by
  apply Holds.atomic
  · intro s due credited _
    have line := due.fixed.firstLine (k ++ [olCnt])
    rw [← line]
    split
    · rename_i found
      exact ⟨due, fun _ _ _ => Iff.rfl, by simp [found], credited⟩
    · rename_i found
      exact ⟨due, fun _ _ _ => Iff.rfl, by simp [found], credited⟩
  · rintro safe s s' due due' ⟨known, credited⟩ rely
    exact ⟨known, Credited.stable base i current s s' due due' credited rely⟩

theorem deliverLines_due {w d o : ℤ} {r rec : Order} (carrierId datetime : ℤ)
    (first : firstFrom [w, d, o] base.order = some ([w, d, o], r)) (same : rec.core = r.core) :
    Holds (Due base) (fun _ _ => True) (Credits.Rely i) (Credits.Guar i)
      (Credited base i (some [w, d, o])) (do
        change fun db => { db with
          order := update [w, d, o] (fun r => { r with oCarrierId := carrierId }) db.order }
        let isSafeToContinue ← checkLines [w, d, o] rec.oOlCnt
        if isSafeToContinue then
          let olTotal ← stampLines [w, d, o] datetime 0 (lineNumbers rec.oOlCnt)
          creditCustomer i [w, d, o] [w, d, rec.oCId] olTotal)
      fun _ s => Credited base i none s := by
  obtain ⟨customer, cnt⟩ : rec.oCId = r.oCId ∧ rec.oOlCnt = r.oOlCnt := Prod.mk.inj same
  rw [customer, cnt]
  apply Holds.bind (change_due ?_)
  · intro _
    apply Holds.bind checkLines_due
    intro safe
    cases safe with
    | true =>
      apply Holds.bind ((stampLines_due 0 (lineNumbers r.oOlCnt)).weaken (fun _ _ h => h.2)
        fun _ _ _ h => h)
      intro total
      by_cases sum : total = lineTotal (view ⟨base, []⟩ [w, d, o]) (lineNumbers r.oOlCnt)
      · exact (creditCustomer_due first sum).weaken (fun _ _ h => h.2) fun _ _ _ h => h
      · exact Holds.never fun s _ here => sum (here.1.trans (zero_add _))
    | false =>
      refine Holds.pure fun s _ here => here.2.skip ?_
      rintro ⟨r', found, _, line, _⟩
      rw [first] at found
      cases found
      exact absurd (here.1.mpr line) Bool.false_ne_true
  · intro db fixed
    have carried : ((update [w, d, o] (fun r => { r with oCarrierId := carrierId }) db.order).map
        fun e => (e.1, e.2.core)) = db.order.map fun e => (e.1, e.2.core) := map_update _ fun _ => rfl
    exact ⟨carried.trans fixed.orders, fixed.lines, fixed.customer⟩

theorem deliverOrder_due (w carrierId datetime d o : ℤ) :
    Holds (Due base) (fun _ _ => True) (Credits.Rely i) (Credits.Guar i) (Credited base i none)
      (deliverOrder i w carrierId datetime d o) fun _ s => Credited base i none s := by
  have scan : Holds (Due base) (fun _ _ => True) (Credits.Rely i) (Credits.Guar i)
      (Credited base i (some [w, d, o])) (read fun db => firstFrom [w, d, o] db.order) fun a s =>
        (a.map fun e => (e.1, e.2.core)) =
          ((firstFrom [w, d, o] base.order).map fun e => (e.1, e.2.core)) ∧
        Credited base i (some [w, d, o]) s :=
    read_due (fun a : Option (Key × Order) => (a.map fun e => (e.1, e.2.core)) =
      (firstFrom [w, d, o] base.order).map fun e => (e.1, e.2.core)) fun db fixed => fixed.firstOrder _
  rw [deliverOrder]
  apply Holds.bind eraseNewOrder_due
  intro _
  apply Holds.bind scan
  intro first
  cases first with
  | none =>
    refine Holds.pure fun s _ here => here.2.skip ?_
    rintro ⟨r, found, _⟩
    have none := here.1
    rw [found] at none
    cases none
  | some e₁ =>
    obtain ⟨_, rec₁⟩ := e₁
    by_cases missing : rec₁.oOlCnt = minInteger
    · simp only [missing, if_true]
      refine Holds.pure fun s _ here => here.2.skip ?_
      rintro ⟨r, found, cnt, _⟩
      have same := here.1
      rw [found, Option.map_some, Option.map_some, Option.some.injEq, Prod.mk.injEq] at same
      exact cnt ((congrArg Prod.snd same.2).symm.trans missing)
    · simp only [missing, if_false]
      apply Holds.bind (scan.weaken (fun _ _ h => h.2) fun _ _ _ h => h)
      intro again
      cases again with
      | none =>
        refine Holds.pure fun s _ here => here.2.skip ?_
        rintro ⟨r, found, _⟩
        have none := here.1
        rw [found] at none
        cases none
      | some e =>
        obtain ⟨key, rec⟩ := e
        simp only
        by_cases other : key = [w, d, o]
        · rw [if_neg (not_not.mpr other)]
          subst other
          cases found : firstFrom [w, d, o] base.order with
          | none => exact Holds.never fun s _ here => by cases here.1
          | some e' =>
            obtain ⟨key', r⟩ := e'
            by_cases same : ([w, d, o], rec.core) = (key', r.core)
            · obtain ⟨rfl, core⟩ := Prod.mk.inj same
              exact (deliverLines_due carrierId datetime found core).weaken (fun _ _ h => h.2)
                fun _ _ _ h => h
            · exact Holds.never fun s _ here => same (Option.some.inj here.1)
        · rw [if_pos other]
          refine Holds.pure fun s _ here => here.2.skip ?_
          rintro ⟨r, found, _⟩
          have same := here.1
          rw [found, Option.map_some, Option.map_some, Option.some.injEq, Prod.mk.injEq] at same
          exact other same.1

theorem delivery_due (wId carrierId datetime : ℤ) :
    Holds (Due base) (fun _ _ => True) (Credits.Rely i) (Credits.Guar i) (Credited base i none)
      (delivery i wId carrierId datetime) fun _ s => Credited base i none s := by
  rw [delivery]
  apply Holds.bind (Holds.each ?_)
  · intro _
    exact Holds.pure fun _ _ here => here
  · intro d _
    rw [deliverDistrict]
    apply Holds.bind (read_due (fun _ => True) fun _ _ => trivial)
    intro o
    split
    · exact Holds.pure fun _ _ here => here.2
    · exact (deliverOrder_due wId carrierId datetime d o).weaken (fun _ _ h => h.2) fun _ _ _ h => h

end Delivery

inductive PaymentCall (i : ℕ) : Label → (State → State) → Prop
  | read {A : Type} (f : Database → A) : PaymentCall i .other fun s => ((read f).run s).2
  | change (f : Database → Database) (aside : ∀ db, Fixed db (f db)) :
      PaymentCall i .other fun s => ((change f).run s).2
  | store (c : Key) (rec : Customer) (hAmount : ℚ) :
      PaymentCall i (.store c rec) fun s => ((storePayment i c rec hAmount).run s).2

section Payments
variable (i : ℕ) (p : Payment)

theorem PaymentCall.reads {A : Type} (f : Database → A) : (Tpcc.read f).Calls (PaymentCall i) :=
  Prog.Calls.atomic (PaymentCall.read f)

theorem PaymentCall.changes (f : Database → Database) (aside : ∀ db, Fixed db (f db)) :
    (Tpcc.change f).Calls (PaymentCall i) :=
  Prog.Calls.atomic (PaymentCall.change f aside)

theorem payYtd_calls : (payYtd p).Calls (PaymentCall i) := by
  rw [payYtd]
  apply Prog.Calls.bind (PaymentCall.reads i _)
  intro a
  cases a with
  | none => exact Prog.Calls.pure _
  | some warehouse =>
    apply Prog.Calls.bind (PaymentCall.changes i _ (by exact fun _ => ⟨rfl, rfl, fun _ => Iff.rfl⟩))
    intro _
    apply Prog.Calls.bind (PaymentCall.reads i _)
    intro a
    cases a with
    | none => exact Prog.Calls.pure _
    | some district =>
      apply Prog.Calls.bind (PaymentCall.changes i _ (by exact fun _ => ⟨rfl, rfl, fun _ => Iff.rfl⟩))
      intro _
      exact Prog.Calls.pure _

theorem payCustomer_calls (cId : ℤ) : (payCustomer i p cId).Calls (PaymentCall i) := by
  rw [payCustomer]
  apply Prog.Calls.bind (PaymentCall.reads i _)
  intro a
  cases a with
  | none => exact Prog.Calls.pure _
  | some rec =>
    have stores : (storePayment i [p.cWId, p.cDId, cId] rec p.hAmount).Calls (PaymentCall i) :=
      Prog.Calls.atomic (PaymentCall.store _ rec _)
    apply Prog.Calls.bind stores
    intro _
    apply Prog.Calls.bind (PaymentCall.changes i _ (by exact fun _ => ⟨rfl, rfl, fun _ => Iff.rfl⟩))
    intro _
    exact Prog.Calls.pure _

theorem paymentById_calls (cId : ℤ) : (paymentById i p cId).Calls (PaymentCall i) := by
  rw [paymentById]
  apply Prog.Calls.bind (payYtd_calls i p)
  intro there
  split
  · exact payCustomer_calls i p cId
  · exact Prog.Calls.pure _

theorem paymentByName_calls (cLast : List ℕ) : (paymentByName i p cLast).Calls (PaymentCall i) := by
  rw [paymentByName]
  apply Prog.Calls.bind (payYtd_calls i p)
  intro there
  split
  · apply Prog.Calls.bind (PaymentCall.reads i _)
    intro ids
    by_cases none : ids.length = 0
    · simp only [none, if_true]
      exact Prog.Calls.pure _
    · simp only [none, if_false]
      exact payCustomer_calls i p _
  · exact Prog.Calls.pure _

variable {i p}

theorem PaymentCall.keeps {l : Label} {effect : State → State} (call : PaymentCall i l effect)
    {s : State} (due : Due base s) (credited : Credited base i none s) :
    Due base (effect s) ∧ Credits.Guar i s (effect s) ∧ Credited base i none (effect s) := by
  cases call with
  | read f => exact ⟨due, fun _ _ _ => Iff.rfl, credited⟩
  | change f aside =>
    have kept := aside s.db
    refine ⟨⟨⟨?_, ?_, ?_⟩, due.credits⟩, fun _ _ _ => Iff.rfl, credited⟩
    · exact kept.orders.trans due.fixed.orders
    · exact kept.lines.trans due.fixed.lines
    · exact fun k => (kept.customer k).trans (due.fixed.customer k)
  | store c rec hAmount =>
    refine ⟨⟨⟨due.fixed.orders, due.fixed.lines, ?_⟩, ?_⟩, guar_entry s _ _, ?_⟩
    · exact fun k => (lookup_update_none _ _ _ _).trans (due.fixed.customer k)
    · intro j k c' total there
      exact due.credits j k c' total (by simpa [storePayment] using there)
    · intro k erased complete other
      have old : (i, Event.erased k) ∈ s.journal := by simpa [storePayment] using erased
      obtain ⟨c', total, there⟩ := credited k old complete other
      exact ⟨c', total, List.mem_cons_of_mem _ there⟩

end Payments
end Holds

theorem start_due (db : Database) {calls : List Call} (old : ∀ c ∈ calls, ∀ o, c ≠ .newOrder o) :
    Proven (Due db) (fun _ _ => True) Credits.Rely Credits.Guar (fun i _ s => Credited db i none s)
      (startPool db calls) := by
  refine ⟨⟨⟨rfl, rfl, fun _ => Iff.rfl⟩, fun _ _ _ _ there => by cases there⟩, ?_⟩
  intro i p here
  rw [startPool, List.getElem?_mapIdx] at here
  obtain ⟨c, there, rfl⟩ := Option.map_eq_some_iff.mp here
  refine ⟨Credited db i none, ?_, Credited.stable db i none, ?_⟩
  · intro k erased
    cases erased
  cases c with
  | newOrder o => exact absurd rfl (old _ (List.mem_of_getElem? there) o)
  | delivery wId carrierId => exact delivery_due wId carrierId currentTimestamp
  | paymentById p cId =>
    exact Holds.calls (paymentById_calls i p cId) (Credited.stable db i none)
      fun _ _ call _ due credited => call.keeps due credited
  | paymentByName p cLast =>
    exact Holds.calls (paymentByName_calls i p cLast) (Credited.stable db i none)
      fun _ _ call _ due credited => call.keeps due credited

/-- In every interleaving of deliveries and payments the credits are the totals of their orders,
and a delivery that has ended has credited every complete order that it has erased. -/
theorem credits_due (db : Database) {calls : List Call} (old : ∀ c ∈ calls, ∀ o, c ≠ .newOrder o)
    {moves : List ℕ} {pool : Pool State Label Outcome}
    (run : exec next (startPool db calls) moves = some pool) :
    Due db pool.shared ∧
      ∀ i a, pool.threads[i]? = some (.ret a) → Credited db i none pool.shared := by
  have allowed : Allowed next (Meets fun _ _ => True) (startPool db calls) moves :=
    allowed_always (fun _ _ => trivial) _ _
  have proven := (start_due db old).exec Credits.compatible allowed run
  exact ⟨proven.1, fun i a done => proven.finished done⟩

/-- What has been credited to a customer, by the lines of the orders. -/
theorem Due.creditedTo {s : State} (due : Due base s) (c : Key) :
    creditedTo s.journal c = deliveredTo base s.journal c := by
  have all : ∀ journal : List (ℕ × Event), (∀ e ∈ journal, e ∈ s.journal) →
      Tpcc.creditedTo journal c = deliveredTo base journal c := by
    intro journal
    induction journal with
    | nil => exact fun _ => rfl
    | cons e journal ih =>
      intro inside
      have rest := ih fun e' member => inside e' (List.mem_cons_of_mem _ member)
      rw [Tpcc.creditedTo, deliveredTo, ordersTo] at rest ⊢
      have member := inside e List.mem_cons_self
      obtain ⟨j, event⟩ := e
      cases event with
      | credited k c' total =>
        obtain ⟨customer, sum⟩ := due.credits j k c' total member
        by_cases same : c' = c
        · subst same
          simp [customer, sum, rest]
        · simp [customer, same, rest]
      | ordered k => simpa using rest
      | erased k => simpa using rest
      | paid c' amount => simpa using rest
  exact all s.journal fun _ member => member

end Tpcc
