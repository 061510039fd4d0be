import OsvBenchmarks.Tpcc.Workload

/-!
Which calls newOrder and delivery make, whatever they read.
-/
namespace Tpcc
open Interleave Table

inductive NewOrderCall (i : ℕ) : Label → (State → State) → Prop
  | read {A : Type} (f : Database → A) : NewOrderCall i .other fun s => ((read f).run s).2
  | change (f : Database → Database) : NewOrderCall i .other fun s => ((change f).run s).2
  | take (wId dId : ℤ) : NewOrderCall i .other fun s => ((takeOId i wId dId).run s).2

inductive DeliveryCall (i : ℕ) : Label → (State → State) → Prop
  | read {A : Type} (f : Database → A) : DeliveryCall i .other fun s => ((read f).run s).2
  | erase (k : Key) : DeliveryCall i (.erase k) fun s => ((eraseNewOrder i k).run s).2
  | carry (k : Key) (carrierId : ℤ) : DeliveryCall i .other fun s => ((change fun db => { db with
      order := update k (fun r => { r with oCarrierId := carrierId }) db.order }).run s).2
  | check (k : Key) (olCnt : ℤ) : DeliveryCall i (.check k olCnt) fun s =>
      ((checkLines k olCnt).run s).2
  | stamp (k : Key) (datetime olNumber : ℤ) : DeliveryCall i .other fun s =>
      ((stampLine k datetime olNumber).run s).2
  | credit (k customer : Key) (olTotal : ℚ) : DeliveryCall i (.credit customer) fun s =>
      ((creditCustomer i k customer olTotal).run s).2

section NewOrderCalls
variable (i : ℕ)

section Made
variable {i : ℕ} {o : NewOrder} {made : Label → (State → State) → Prop}

def Unstocked (f : Database → Database) : Prop := ∀ db, (f db).stock = db.stock

/-- What newOrder calls: scans, its order id, changes elsewhere than in the stock, and the
stock of its own lines. -/
structure MadeBy (i : ℕ) (o : NewOrder) (made : Label → (State → State) → Prop) : Prop where
  reads : ∀ {A : Type} (f : Database → A), (read f).Calls made
  takes : (takeOId i o.wId o.dId).Calls made
  others : ∀ f, Unstocked f → (change f).Calls made
  stocks : ∀ line ∈ o.lines, (takeStock o.wId line).Calls made

theorem MadeBy.insertLines (this : MadeBy i o made) (oId : ℤ) (price : ℚ → ℚ → ℚ) (n : ℤ)
    (lines : List Line) : (insertLines o oId price n lines).Calls made := by
  induction lines generalizing n with
  | nil => exact Prog.Calls.pure _
  | cons line lines ih =>
    rw [Tpcc.insertLines]
    apply Prog.Calls.bind (this.reads _)
    intro a
    cases a with
    | none => exact Prog.Calls.pure _
    | some iPrice =>
      apply Prog.Calls.bind (this.reads _)
      intro a
      cases a with
      | none => exact Prog.Calls.pure _
      | some r =>
        simp only
        split
        · apply Prog.Calls.bind (this.others _ (by intro _; rfl))
          intro _
          exact ih _
        · exact Prog.Calls.pure _

theorem MadeBy.newOrder (this : MadeBy i o made) : (newOrder i o).Calls made := by
  rw [Tpcc.newOrder]
  apply Prog.Calls.bind (this.reads _)
  intro a
  cases a with
  | none => exact Prog.Calls.pure _
  | some warehouse =>
    apply Prog.Calls.bind (this.reads _)
    intro a
    cases a with
    | none => exact Prog.Calls.pure _
    | some customer =>
      apply Prog.Calls.bind this.takes
      intro a
      match a with
      | none => exact Prog.Calls.pure _
      | some (dTax, oId) =>
        apply Prog.Calls.bind (this.others _ (by intro _; rfl))
        intro _
        apply Prog.Calls.bind (this.others _ (by intro _; rfl))
        intro _
        apply Prog.Calls.bind (this.others _ (by intro _; rfl))
        intro _
        apply Prog.Calls.bind (Prog.Calls.each this.stocks)
        intro _
        exact this.insertLines oId _ 1 o.lines

end Made

theorem newOrder_calls (o : NewOrder) : (newOrder i o).Calls (NewOrderCall i) := by
  have changes : ∀ f, (change f).Calls (NewOrderCall i) :=
    fun f => Prog.Calls.atomic (NewOrderCall.change f)
  apply MadeBy.newOrder
  constructor
  · exact fun f => Prog.Calls.atomic (NewOrderCall.read f)
  · exact Prog.Calls.atomic (NewOrderCall.take _ _)
  · exact fun f _ => changes f
  · exact fun _ _ => changes _

end NewOrderCalls

section DeliveryCalls
variable (i : ℕ)

theorem scan_calls {A : Type} (f : Database → A) : (read f).Calls (DeliveryCall i) :=
  Prog.Calls.atomic (DeliveryCall.read f)

theorem stampLine_calls (k : Key) (datetime l : ℤ) :
    (stampLine k datetime l).Calls (DeliveryCall i) :=
  Prog.Calls.atomic (DeliveryCall.stamp k datetime l)

theorem stampLines_calls (k : Key) (datetime : ℤ) (olTotal : ℚ) (ls : List ℤ) :
    (stampLines k datetime olTotal ls).Calls (DeliveryCall i) := by
  induction ls generalizing olTotal with
  | nil => exact Prog.Calls.pure _
  | cons l ls ih =>
    rw [stampLines]
    apply Prog.Calls.bind (stampLine_calls i k datetime l)
    intro _
    exact ih _

theorem deliverOrder_calls (w carrierId datetime d o : ℤ) :
    (deliverOrder i w carrierId datetime d o).Calls (DeliveryCall i) := by
  have erases : (eraseNewOrder i [w, d, o]).Calls (DeliveryCall i) :=
    Prog.Calls.atomic (DeliveryCall.erase _)
  have carries : (change fun db => { db with
      order := update [w, d, o] (fun r => { r with oCarrierId := carrierId }) db.order }).Calls
      (DeliveryCall i) := Prog.Calls.atomic (DeliveryCall.carry _ carrierId)
  have checks : ∀ olCnt, (checkLines [w, d, o] olCnt).Calls (DeliveryCall i) :=
    fun olCnt => Prog.Calls.atomic (DeliveryCall.check _ olCnt)
  have credits : ∀ customer olTotal,
      (creditCustomer i [w, d, o] customer olTotal).Calls (DeliveryCall i) :=
    fun customer olTotal => Prog.Calls.atomic (DeliveryCall.credit _ customer olTotal)
  rw [deliverOrder]
  apply Prog.Calls.bind erases
  intro _
  apply Prog.Calls.bind (scan_calls i _)
  intro first
  match first with
  | none => exact Prog.Calls.pure _
  | some (_, found) =>
    by_cases missing : found.oOlCnt = minInteger
    · simp only [missing, if_true]
      exact Prog.Calls.pure _
    · simp only [missing, if_false]
      apply Prog.Calls.bind (scan_calls i _)
      intro again
      match again with
      | none => exact Prog.Calls.pure _
      | some (key, rec) =>
        simp only
        split
        · exact Prog.Calls.pure _
        · apply Prog.Calls.bind carries
          intro _
          apply Prog.Calls.bind (checks _)
          intro safe
          split
          · apply Prog.Calls.bind (stampLines_calls i _ _ _ _)
            intro olTotal
            exact credits _ _
          · exact Prog.Calls.pure _

theorem delivery_calls (wId carrierId datetime : ℤ) :
    (delivery i wId carrierId datetime).Calls (DeliveryCall i) := by
  rw [delivery]
  apply Prog.Calls.bind (Prog.Calls.each ?_)
  · intro _
    exact Prog.Calls.pure _
  · intro d _
    rw [deliverDistrict]
    apply Prog.Calls.bind (scan_calls i _)
    intro o
    split
    · exact Prog.Calls.pure _
    · exact deliverOrder_calls i _ _ _ _ _

end DeliveryCalls
end Tpcc
