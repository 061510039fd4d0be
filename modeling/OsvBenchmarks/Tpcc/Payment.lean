import OsvBenchmarks.Tpcc.Credits
import Mathlib.Tactic.Ring
import Mathlib.Data.List.Perm.Basic
import Mathlib.Data.List.Induction
import Mathlib.Data.List.GetD

/-!
Payments among payments and deliveries, on any database. A payment stores what it
has computed from an earlier lookup, so it is counted as long as the customer's
account is still what it was at that lookup. What deliveries add to the account is
what the lines of the delivered orders come to.
-/
namespace Tpcc
open Runs Interleave Table

/-- The payments of a journal: the transaction, the customer and the amount. -/
def payments (journal : List (ℕ × Event)) : List (ℕ × Key × ℚ) := journal.filterMap fun e =>
  match e.2 with
  | .paid c amount => some (e.1, c, amount)
  | .ordered _ => none
  | .erased _ => none
  | .credited _ _ _ => none

def amountsOf (paid : List (Key × ℚ)) (c : Key) : List ℚ := (paid.filter fun e => e.1 = c).map (·.2)

def paidBy (journal : List (ℕ × Event)) (i : ℕ) : List (Key × ℚ) :=
  ((payments journal).filter fun e => e.1 = i).map (·.2)

/-- The row in the middle, of those found by name. -/
def middle (ids : List ℤ) : ℤ :=
  ids.getD (if ids.length % 2 = 0 then ids.length / 2 - 1 else ids.length / 2) 0

def Call.pays (db : Database) : Call → Option (Key × ℚ)
  | newOrder _ => none
  | delivery _ _ => none
  | paymentById p cId => some ([p.cWId, p.cDId, cId], p.hAmount)
  | paymentByName p cLast =>
    if (idsByName p cLast db).length = 0 then none
    else some ([p.cWId, p.cDId, middle (idsByName p cLast db)], p.hAmount)

def Payment.Home (db : Database) (p : Payment) : Prop :=
  lookup db.warehouse [p.wId] ≠ none ∧ lookup db.district [p.wId, p.dId] ≠ none

def Call.Existing (db : Database) : Call → Prop
  | newOrder _ => False
  | delivery _ _ => True
  | paymentById p cId => p.Home db ∧ lookup db.customer [p.cWId, p.cDId, cId] ≠ none
  | paymentByName p cLast => p.Home db ∧ ∀ cId ∈ idsByName p cLast db,
      lookup db.customer [p.cWId, p.cDId, cId] ≠ none

def Customer.account (r : Customer) : ℚ × ℚ × ℚ := (r.cBalance, r.cYtdPayment, r.cPaymentCnt)

/-- A payment stores when the account is still as it has read it. -/
def Unchanged : Label → State → Prop
  | .store c read, s => ∀ r, lookup s.db.customer c = some r → r.account = read.account
  | .erase _, _ => True
  | .check _ _, _ => True
  | .credit _, _ => True
  | .other, _ => True

instance Unchanged.decidable : (l : Label) → (s : State) → Decidable (Unchanged l s)
  | .store c read, s =>
    match found : lookup s.db.customer c with
    | some r => decidable_of_iff (r.account = read.account) (by simp [Unchanged, found])
    | none => .isTrue (by simp [Unchanged, found])
  | .erase _, _ => .isTrue trivial
  | .check _ _, _ => .isTrue trivial
  | .credit _, _ => .isTrue trivial
  | .other, _ => .isTrue trivial

def accountAfter (r : Customer) (paid : List ℚ) (credited : ℚ) : ℚ × ℚ × ℚ :=
  (r.cBalance + credited - paid.sum, r.cYtdPayment + paid.sum, r.cPaymentCnt + paid.length)

def paidTo (journal : List (ℕ × Event)) (c : Key) : List ℚ :=
  amountsOf ((payments journal).map (·.2)) c

structure Ledger (n : ℕ) (base : Database) (s : State) : Prop where
  accounts : ∀ c, (lookup s.db.customer c).map Customer.account =
    (lookup base.customer c).map fun r =>
      accountAfter r (paidTo s.journal c) (creditedTo s.journal c)
  warehouse : ∀ k, lookup s.db.warehouse k = none ↔ lookup base.warehouse k = none
  district : ∀ k, lookup s.db.district k = none ↔ lookup base.district k = none
  names : s.db.customerwdl = base.customerwdl
  owners : ∀ e ∈ payments s.journal, e.1 < n

namespace Payment

def Guar (i : ℕ) (s s' : State) : Prop := ∀ j, j ≠ i → paidBy s'.journal j = paidBy s.journal j

def Rely (i : ℕ) (s s' : State) : Prop := paidBy s'.journal i = paidBy s.journal i

theorem compatible (i j : ℕ) (differ : i ≠ j) (s s' : State) (guar : Guar j s s') : Rely i s s' :=
  guar i differ

end Payment

theorem payments_paid (journal : List (ℕ × Event)) (i : ℕ) (c : Key) (amount : ℚ) :
    payments ((i, .paid c amount) :: journal) = (i, c, amount) :: payments journal := by
  rfl

theorem paidTo_paid (journal : List (ℕ × Event)) (i : ℕ) (c c' : Key) (amount : ℚ) :
    paidTo ((i, .paid c amount) :: journal) c' =
      if c = c' then amount :: paidTo journal c' else paidTo journal c' := by
  rw [paidTo, payments_paid, List.map_cons, amountsOf]
  by_cases same : c = c'
  · simp [same, paidTo, amountsOf]
  · simp [same, paidTo, amountsOf]

theorem creditedTo_paid (journal : List (ℕ × Event)) (i : ℕ) (c c' : Key) (amount : ℚ) :
    creditedTo ((i, .paid c amount) :: journal) c' = creditedTo journal c' := by
  simp [creditedTo]

theorem paidBy_paid (journal : List (ℕ × Event)) (i j : ℕ) (c : Key) (amount : ℚ) :
    paidBy ((i, .paid c amount) :: journal) j =
      if i = j then (c, amount) :: paidBy journal j else paidBy journal j := by
  rw [paidBy, payments_paid]
  by_cases same : i = j
  · simp [same, paidBy]
  · simp [same, paidBy]

section Calls
variable {n : ℕ} {base : Database} {i : ℕ} {paid : List (Key × ℚ)}

def PaidIs (i : ℕ) (paid : List (Key × ℚ)) (s : State) : Prop := paidBy s.journal i = paid

theorem PaidIs.stable (i : ℕ) (paid : List (Key × ℚ)) :
    Stable (Ledger n base) (Payment.Rely i) (PaidIs i paid) := by
  intro s s' _ _ here rely
  exact rely.trans here

structure Aside (s s' : State) : Prop where
  customer : s'.db.customer = s.db.customer
  warehouse : ∀ k, lookup s'.db.warehouse k = none ↔ lookup s.db.warehouse k = none
  district : ∀ k, lookup s'.db.district k = none ↔ lookup s.db.district k = none
  names : s'.db.customerwdl = s.db.customerwdl
  payments : payments s'.journal = payments s.journal
  credited : ∀ c, creditedTo s'.journal c = creditedTo s.journal c

theorem Aside.keeps {s s' : State} (aside : Aside s s') (ledger : Ledger n base s) :
    Ledger n base s' ∧ Payment.Guar i s s' ∧ ∀ j, paidBy s'.journal j = paidBy s.journal j := by
  have same : ∀ j, paidBy s'.journal j = paidBy s.journal j := by
    intro j
    rw [paidBy, paidBy, aside.payments]
  refine ⟨⟨?_, ?_, ?_, ?_, ?_⟩, fun j _ => same j, same⟩
  · intro c
    rw [aside.customer, aside.credited, paidTo, aside.payments]
    exact ledger.accounts c
  · exact fun k => (aside.warehouse k).trans (ledger.warehouse k)
  · exact fun k => (aside.district k).trans (ledger.district k)
  · exact aside.names.trans ledger.names
  · rw [aside.payments]
    exact ledger.owners

/-- What the calls of a delivery do to accounts: only the credit changes one. -/
theorem DeliveryCall.keeps {l : Label} {effect : State → State} (call : DeliveryCall i l effect)
    {s : State} (ledger : Ledger n base s) (here : PaidIs i paid s) :
    Ledger n base (effect s) ∧ Payment.Guar i s (effect s) ∧ PaidIs i paid (effect s) := by
  have aside : ∀ {s'}, Aside s s' →
      Ledger n base s' ∧ Payment.Guar i s s' ∧ PaidIs i paid s' := by
    intro s' aside
    obtain ⟨ledger, guar, same⟩ := aside.keeps ledger
    exact ⟨ledger, guar, (same i).trans here⟩
  cases call with
  | read f => exact aside ⟨rfl, fun _ => Iff.rfl, fun _ => Iff.rfl, rfl, rfl, fun _ => rfl⟩
  | erase k =>
    simp only [eraseNewOrder, Prog.run_atomic]
    split
    · exact aside ⟨rfl, fun _ => Iff.rfl, fun _ => Iff.rfl, rfl, rfl, fun _ => rfl⟩
    · exact aside ⟨rfl, fun _ => Iff.rfl, fun _ => Iff.rfl, rfl, rfl,
        fun c => creditedTo_erased i s.journal k c⟩
  | carry k carrierId =>
    exact aside ⟨rfl, fun _ => Iff.rfl, fun _ => Iff.rfl, rfl, rfl, fun _ => rfl⟩
  | check k olCnt =>
    simp only [checkLines, Prog.run_atomic]
    split
    · exact aside ⟨rfl, fun _ => Iff.rfl, fun _ => Iff.rfl, rfl, rfl, fun _ => rfl⟩
    · exact aside ⟨rfl, fun _ => Iff.rfl, fun _ => Iff.rfl, rfl, rfl, fun _ => rfl⟩
  | stamp k datetime l =>
    exact aside ⟨rfl, fun _ => Iff.rfl, fun _ => Iff.rfl, rfl, rfl, fun _ => rfl⟩
  | credit k customer olTotal =>
    simp only [creditCustomer, Prog.run_atomic]
    split
    · exact aside ⟨rfl, fun _ => Iff.rfl, fun _ => Iff.rfl, rfl, rfl, fun _ => rfl⟩
    · refine ⟨⟨?_, ledger.warehouse, ledger.district, ledger.names, ledger.owners⟩,
        fun _ _ => rfl, here⟩
      intro c
      have old := ledger.accounts c
      have same : paidTo ((i, .credited k customer olTotal) :: s.journal) c = paidTo s.journal c :=
        rfl
      rw [same, creditedTo_credited, lookup_update]
      by_cases at' : customer = c
      · subst at'
        rw [if_pos rfl, if_pos rfl, Option.map_map]
        match lookup s.db.customer customer, lookup base.customer customer, old with
        | some r, some r', h =>
          simp only [Option.map_some, Option.some.injEq, Customer.account, accountAfter,
            Prod.mk.injEq, Function.comp_apply] at h ⊢
          refine ⟨?_, h.2.1, h.2.2⟩
          rw [h.1]
          ring
        | none, none, _ => rfl
      · rw [if_neg at', if_neg at']
        exact old

theorem delivery_pays_nothing (wId carrierId datetime : ℤ) :
    Holds (Ledger n base) Unchanged (Payment.Rely i) (Payment.Guar i) (PaidIs i paid)
      (delivery i wId carrierId datetime) fun _ s => PaidIs i paid s :=
  Holds.calls (delivery_calls i wId carrierId datetime) (PaidIs.stable i paid)
    fun _ _ call _ ledger here => call.keeps ledger here

theorem lookUp_holds {A : Type} {f : Database → A} (fact : A → Prop)
    (reads : ∀ s, Ledger n base s → fact (f s.db)) :
    Holds (Ledger n base) Unchanged (Payment.Rely i) (Payment.Guar i) (PaidIs i paid) (read f)
      fun a s => fact a ∧ PaidIs i paid s := by
  apply Holds.atomic
  · intro s ledger here _
    exact ⟨ledger, fun _ _ => rfl, reads s ledger, here⟩
  · rintro a s s' ledger ledger' ⟨known, here⟩ rely
    exact ⟨known, PaidIs.stable i paid s s' ledger ledger' here rely⟩

theorem aside_holds {f : Database → Database}
    (aside : ∀ s, Aside s { s with db := f s.db }) :
    Holds (Ledger n base) Unchanged (Payment.Rely i) (Payment.Guar i) (PaidIs i paid) (change f)
      fun _ s => PaidIs i paid s := by
  apply Holds.atomic
  · intro s ledger here _
    obtain ⟨ledger, guar, same⟩ := (aside s).keeps ledger
    exact ⟨ledger, guar, (same i).trans here⟩
  · exact fun _ => PaidIs.stable i paid

/-- The store of a payment whose account nobody has changed since the lookup. -/
theorem storePayment_holds (mine : i < n) (c : Key) (rec : Customer) (amount : ℚ) :
    Holds (Ledger n base) Unchanged (Payment.Rely i) (Payment.Guar i) (PaidIs i [])
      (storePayment i c rec amount) fun _ s => PaidIs i [(c, amount)] s := by
  apply Holds.atomic
  · intro s ledger here same
    refine ⟨⟨?_, ledger.warehouse, ledger.district, ledger.names, ?_⟩, ?_, ?_⟩
    · intro c'
      have old := ledger.accounts c'
      rw [paidTo_paid, creditedTo_paid, lookup_update]
      by_cases at' : c = c'
      · subst at'
        rw [if_pos rfl, if_pos rfl, Option.map_map]
        have read : ∀ r, lookup s.db.customer c = some r → r.account = rec.account := same
        match found : lookup s.db.customer c, lookup base.customer c, old with
        | some r, some r', h =>
          have kept := read r found
          simp only [Option.map_some, Option.some.injEq, Customer.account, accountAfter,
            Prod.mk.injEq, Function.comp_apply, List.sum_cons, List.length_cons] at h kept ⊢
          rw [← kept.1, ← kept.2.1, ← kept.2.2, h.1, h.2.1, h.2.2]
          refine ⟨by ring, by ring, by push_cast; ring⟩
        | none, none, _ => rfl
      · rw [if_neg at', if_neg at']
        exact old
    · intro e member
      rcases List.mem_cons.mp member with rfl | member
      · exact mine
      · exact ledger.owners e member
    · intro j differ
      rw [paidBy_paid, if_neg fun h => differ h.symm]
    · have old : paidBy s.journal i = [] := here
      rw [PaidIs, paidBy_paid, if_pos rfl, old]
  · exact fun _ => PaidIs.stable i _

theorem payYtd_holds {p : Payment} (home : p.Home base) :
    Holds (Ledger n base) Unchanged (Payment.Rely i) (Payment.Guar i) (PaidIs i paid) (payYtd p)
      fun a s => a = true ∧ PaidIs i paid s := by
  rw [payYtd]
  apply Holds.bind (lookUp_holds (fun a => a ≠ none) ?_)
  · intro a
    cases a with
    | none => exact Holds.never fun _ _ here => here.1 rfl
    | some warehouse =>
      have wYtd : ∀ s : State, Aside s { s with db := { s.db with
          warehouse := update [p.wId] (fun r => { r with wYtd := r.wYtd + p.hAmount })
            s.db.warehouse } } := fun s =>
        ⟨rfl, fun _ => lookup_update_none _ _ _ _, fun _ => Iff.rfl, rfl, rfl, fun _ => rfl⟩
      apply Holds.bind ((aside_holds wYtd).weaken (fun _ _ h => h.2) fun _ _ _ h => h)
      intro _
      apply Holds.bind (lookUp_holds (fun a => a ≠ none) ?_)
      · intro a
        cases a with
        | none => exact Holds.never fun _ _ here => here.1 rfl
        | some district =>
          have dYtd : ∀ s : State, Aside s { s with db := { s.db with
              district := update [p.wId, p.dId] (fun r => { r with dYtd := r.dYtd + p.hAmount })
                s.db.district } } := fun s =>
            ⟨rfl, fun _ => Iff.rfl, fun _ => lookup_update_none _ _ _ _, rfl, rfl, fun _ => rfl⟩
          apply Holds.bind ((aside_holds dYtd).weaken (fun _ _ h => h.2) fun _ _ _ h => h)
          intro _
          exact Holds.pure fun s _ here => ⟨rfl, here⟩
      · intro s ledger
        exact mt (ledger.district _).mp home.2
  · intro s ledger
    exact mt (ledger.warehouse _).mp home.1

theorem payCustomer_holds (mine : i < n) (p : Payment) {cId : ℤ}
    (exists' : lookup base.customer [p.cWId, p.cDId, cId] ≠ none) :
    Holds (Ledger n base) Unchanged (Payment.Rely i) (Payment.Guar i) (PaidIs i [])
      (payCustomer i p cId) fun a s => a = .paid ∧ PaidIs i [([p.cWId, p.cDId, cId], p.hAmount)] s := by
  rw [payCustomer]
  apply Holds.bind (lookUp_holds (fun a => a ≠ none) ?_)
  · intro a
    cases a with
    | none => exact Holds.never fun _ _ here => here.1 rfl
    | some rec =>
      apply Holds.bind ((storePayment_holds mine [p.cWId, p.cDId, cId] rec p.hAmount).weaken
        (fun _ _ h => h.2) fun _ _ _ h => h)
      intro _
      have history : ∀ s : State, Aside s { s with db := { s.db with
          history := ([p.cWId, p.cDId, cId], p.hAmount) :: s.db.history } } := fun s =>
        ⟨rfl, fun _ => Iff.rfl, fun _ => Iff.rfl, rfl, rfl, fun _ => rfl⟩
      apply Holds.bind (aside_holds history)
      intro _
      exact Holds.pure fun s _ here => ⟨rfl, here⟩
  · intro s ledger none
    have account := ledger.accounts [p.cWId, p.cDId, cId]
    rw [none, Option.map_none] at account
    exact exists' (Option.map_eq_none_iff.mp account.symm)

theorem paymentById_holds (mine : i < n) (p : Payment) {cId : ℤ} (home : p.Home base)
    (exists' : lookup base.customer [p.cWId, p.cDId, cId] ≠ none) :
    Holds (Ledger n base) Unchanged (Payment.Rely i) (Payment.Guar i) (PaidIs i [])
      (paymentById i p cId) fun _ s => PaidIs i [([p.cWId, p.cDId, cId], p.hAmount)] s := by
  rw [paymentById]
  apply Holds.bind (payYtd_holds home)
  intro there
  cases there with
  | true =>
    exact (payCustomer_holds mine p exists').weaken (fun _ _ h => h.2) fun _ _ _ h => h.2
  | false =>
    apply Holds.never
    rintro s _ ⟨no, _⟩
    cases no

theorem middle_mem {ids : List ℤ} (some : ids.length ≠ 0) : middle ids ∈ ids := by
  have inside : (if ids.length % 2 = 0 then ids.length / 2 - 1 else ids.length / 2) < ids.length := by
    split <;> omega
  rw [middle, List.getD_eq_getElem _ _ inside]
  exact List.getElem_mem inside

theorem paymentByName_holds (mine : i < n) (p : Payment) {cLast : List ℕ} (home : p.Home base)
    (exist : ∀ cId ∈ idsByName p cLast base, lookup base.customer [p.cWId, p.cDId, cId] ≠ none) :
    Holds (Ledger n base) Unchanged (Payment.Rely i) (Payment.Guar i) (PaidIs i [])
      (paymentByName i p cLast) fun _ s =>
        PaidIs i ((Call.paymentByName p cLast).pays base).toList s := by
  rw [paymentByName]
  apply Holds.bind (payYtd_holds home)
  intro there
  cases there with
  | false =>
    apply Holds.never
    rintro s _ ⟨no, _⟩
    cases no
  | true =>
    simp only [if_true]
    apply Holds.bind ((lookUp_holds (fun ids => ids = idsByName p cLast base) ?_).weaken
      (fun _ _ h => h.2) fun _ _ _ h => h)
    · intro ids
      by_cases same : ids = idsByName p cLast base
      · subst same
        by_cases none : (idsByName p cLast base).length = 0
        · simp only [none, if_true, Call.pays]
          exact Holds.pure fun s _ here => here.2
        · simp only [none, if_false, Call.pays]
          exact (payCustomer_holds mine p (exist _ (middle_mem none))).weaken (fun _ _ h => h.2)
            fun _ _ _ h => h.2
      · exact Holds.never fun _ _ here => same here.1
    · intro s ledger
      simp only [idsByName, ledger.names]

end Calls

/-- When it has finished a transaction has made its payment and no other. -/
def Paid (db : Database) (calls : List Call) (i : ℕ) (s : State) : Prop :=
  ∀ c, calls[i]? = some c → paidBy s.journal i = (c.pays db).toList

section Start
variable {db : Database} {calls : List Call}

theorem start_ledger (n : ℕ) : Ledger n db ⟨db, []⟩ := by
  constructor
  · intro c
    have none : paidTo [] c = [] := rfl
    simp [none, accountAfter, creditedTo]
    rfl
  · exact fun _ => Iff.rfl
  · exact fun _ => Iff.rfl
  · rfl
  · intro _ none
    simp [payments] at none

theorem start_payments (existing : ∀ c ∈ calls, c.Existing db) :
    Proven (Ledger calls.length db) Unchanged Payment.Rely Payment.Guar
      (fun i _ s => Paid db calls i s) (startPool db calls) := by
  refine ⟨start_ledger _, ?_⟩
  intro i p here
  rw [startPool, List.getElem?_mapIdx] at here
  obtain ⟨c, there, rfl⟩ := Option.map_eq_some_iff.mp here
  have mine : i < calls.length := (List.getElem?_eq_some_iff.mp there).1
  refine ⟨PaidIs i [], rfl, PaidIs.stable i [], ?_⟩
  have exists' := existing c (List.mem_of_getElem? there)
  have ends : ∀ (a : Outcome) (s : State), PaidIs i (c.pays db).toList s → Paid db calls i s := by
    intro a s paid c' same
    rw [there] at same
    cases same
    exact paid
  cases c with
  | newOrder o => exact False.elim exists'
  | delivery wId carrierId =>
    exact (delivery_pays_nothing wId carrierId currentTimestamp).weaken (fun _ _ h => h)
      fun a s _ paid => ends a s paid
  | paymentById p cId =>
    exact (paymentById_holds mine p exists'.1 exists'.2).weaken (fun _ _ h => h)
      fun a s _ paid => ends a s paid
  | paymentByName p cLast =>
    exact (paymentByName_holds mine p exists'.1 exists'.2).weaken (fun _ _ h => h)
      fun a s _ paid => ends a s paid

end Start

/-- What numbered parties have put together is what each of them has put. -/
theorem perm_filterMap {A B : Type} {f : A → Option B} {as : List A} {put : List (ℕ × B)}
    (owners : ∀ e ∈ put, e.1 < as.length)
    (each : ∀ i a, as[i]? = some a → (put.filter fun e => e.1 = i).map (·.2) = (f a).toList) :
    (put.map (·.2)).Perm (as.filterMap f) := by
  induction as using List.reverseRecOn generalizing put with
  | nil =>
    match put, owners with
    | [], _ => exact List.Perm.refl _
    | e :: put, owners => exact absurd (owners e (by simp)) (Nat.not_lt_zero _)
  | append_singleton as a ih =>
    have last := each as.length a (by simp)
    have before : ((put.filter fun e => e.1 < as.length).map (·.2)).Perm (as.filterMap f) := by
      apply ih
      · intro e member
        simpa using (List.mem_filter.mp member).2
      · intro i b here
        have range : i < as.length := (List.getElem?_eq_some_iff.mp here).1
        rw [List.filter_filter, ← each i b (by rw [List.getElem?_append_left range, here])]
        congr 1
        apply List.filter_congr
        intro e _
        simp only [Bool.and_eq_decide, decide_eq_true_eq]
        by_cases same : e.1 = i
        · simp [same, range]
        · simp [same]
    have parts := (List.filter_append_perm (fun e : ℕ × B => decide (e.1 < as.length)) put).symm
    have rest : (put.filter fun e => !decide (e.1 < as.length)) =
        put.filter fun e => e.1 = as.length := by
      apply List.filter_congr
      intro e member
      have := owners e member
      rw [List.length_append, List.length_singleton] at this
      by_cases same : e.1 = as.length
      · simp [same]
      · have : e.1 < as.length := by omega
        simp [same, this]
    have whole := parts.map (·.2)
    rw [List.map_append, rest, last] at whole
    rw [List.filterMap_append]
    have single : [a].filterMap f = (f a).toList := by
      cases h : f a <;> simp [h]
    rw [single]
    exact whole.trans (before.append_right _)

/-- In a run in which every payment stores to the account that it has read, all payments and
the totals of all delivered orders are in the accounts in the end, and each transaction has
credited every complete order that it has taken. -/
theorem payments_counted (db : Database) (calls : List Call)
    (existing : ∀ c ∈ calls, c.Existing db) {moves : List ℕ} {pool : Pool State Label Outcome}
    (run : exec next (startPool db calls) moves = some pool)
    (unchanged : Allowed next (Meets Unchanged) (startPool db calls) moves)
    (finished : ∀ p ∈ pool.threads, ∃ a, p = .ret a) :
    (∀ c, (lookup pool.shared.db.customer c).map Customer.account =
      (lookup db.customer c).map fun r =>
        accountAfter r (amountsOf (calls.filterMap (Call.pays db)) c)
          (deliveredTo db pool.shared.journal c)) ∧
    ∀ i < calls.length, ∀ k, (i, .erased k) ∈ pool.shared.journal → Complete db k →
      ∃ c total, (i, .credited k c total) ∈ pool.shared.journal := by
  have proven := (start_payments existing).exec Payment.compatible unchanged run
  have old : ∀ c ∈ calls, ∀ o, c ≠ .newOrder o := by
    rintro _ member o rfl
    exact existing _ member
  obtain ⟨due, credited⟩ := credits_due db old run
  have length : pool.threads.length = calls.length := by
    rw [exec_threads run]
    simp [startPool]
  have ended : ∀ i < calls.length, ∃ a, pool.threads[i]? = some (.ret a) := by
    intro i range
    have there : pool.threads[i]? = some (pool.threads.get ⟨i, by omega⟩) :=
      List.getElem?_eq_getElem (by omega)
    obtain ⟨a, same⟩ := finished _ (List.mem_of_getElem? there)
    exact ⟨a, there.trans (congrArg some same)⟩
  constructor
  · intro c
    have all : ((payments pool.shared.journal).map (·.2)).Perm (calls.filterMap (Call.pays db)) := by
      apply perm_filterMap proven.1.owners
      intro i call here
      obtain ⟨a, done⟩ := ended i (List.getElem?_eq_some_iff.mp here).1
      exact proven.finished done call here
    have paid : (paidTo pool.shared.journal c).Perm
        (amountsOf (calls.filterMap (Call.pays db)) c) := (all.filter _).map _
    rw [proven.1.accounts c]
    congr 1
    funext r
    rw [accountAfter, accountAfter, paid.sum_eq, paid.length_eq, due.creditedTo]
  · intro i range k erased complete
    obtain ⟨a, done⟩ := ended i range
    exact credited i a done k erased complete (Option.some_ne_none k)

def smallDb : Database where
  warehouse := [([1], ⟨0, 0⟩)]
  district := [([1, 1], ⟨0, 0, 3001⟩)]
  customer := [([1, 1, 1], ⟨0, 0, 0, 0, 0⟩)]
  customerwdl := []
  history := []
  neworder := []
  order := []
  orderWdc := []
  orderline := []
  item := []
  stock := []

def orderedDb : Database :=
  { smallDb with
    neworder := [([1, 1, 3000], ())]
    order := [([1, 1, 3000], ⟨1, 0, 2⟩)]
    orderline := [([1, 1, 3000, 1], ⟨0, 3⟩), ([1, 1, 3000, 2], ⟨0, 4⟩)] }

def pay (hAmount : ℚ) : Call := .paymentById ⟨1, 1, 1, 1, hAmount⟩ 1

def payAndDeliver : List Call := [pay 10, .delivery 1 7, pay 20]

/-- The delivery runs between the first payment's lookup of its district and of the customer. -/
theorem payments_counted_three : ∃ moves pool,
    exec next (startPool orderedDb payAndDeliver) moves = some pool ∧
    Allowed next (Meets Unchanged) (startPool orderedDb payAndDeliver) moves ∧
    (lookup pool.shared.db.customer [1, 1, 1]).map Customer.account = some (-23, 30, 2) ∧
    (lookup pool.shared.db.customer [1, 1, 1]).map Customer.account =
      (lookup orderedDb.customer [1, 1, 1]).map fun r =>
        accountAfter r (amountsOf (payAndDeliver.filterMap (Call.pays orderedDb)) [1, 1, 1])
          (deliveredTo orderedDb pool.shared.journal [1, 1, 1]) := by
  obtain ⟨pool, run, same⟩ := exec_observe next (startPool orderedDb payAndDeliver)
    ([0, 0, 0] ++ List.replicate 18 1 ++ [0, 0, 0, 0, 2, 2, 2, 2, 2, 2, 2])
    (fun pool => (pool.threads.all Prog.finished,
      (lookup pool.shared.db.customer [1, 1, 1]).map Customer.account))
    (true, some (-23, 30, 2)) (by decide +kernel)
  obtain ⟨done, account⟩ := Prod.mk.inj same
  have unchanged : Allowed next (Meets Unchanged) (startPool orderedDb payAndDeliver)
      ([0, 0, 0] ++ List.replicate 18 1 ++ [0, 0, 0, 0, 2, 2, 2, 2, 2, 2, 2]) := by
    decide +kernel
  have existing : ∀ c ∈ payAndDeliver, c.Existing orderedDb := by
    simp [payAndDeliver, pay, Call.Existing, Payment.Home, orderedDb, smallDb, lookup]
  have finished : ∀ p ∈ pool.threads, ∃ a, p = .ret a :=
    fun p member => p.finished_iff.mp (List.all_eq_true.mp done p member)
  exact ⟨_, pool, run, unchanged, account,
    (payments_counted orderedDb _ existing run unchanged finished).1 [1, 1, 1]⟩

/-- Both payments look the account up before either stores it. -/
theorem payment_lost : ∃ moves pool,
    exec next (startPool smallDb [pay 10, pay 20]) moves = some pool ∧
    (∀ p ∈ pool.threads, ∃ a, p = .ret a) ∧
    (lookup pool.shared.db.customer [1, 1, 1]).map Customer.account = some (-20, 20, 1) := by
  obtain ⟨pool, run, same⟩ := exec_observe next (startPool smallDb [pay 10, pay 20])
    [0, 0, 0, 0, 0, 1, 1, 1, 1, 1, 0, 0, 1, 1]
    (fun pool => (pool.threads.all Prog.finished,
      (lookup pool.shared.db.customer [1, 1, 1]).map Customer.account))
    (true, some (-20, 20, 1)) (by decide +kernel)
  obtain ⟨done, account⟩ := Prod.mk.inj same
  refine ⟨_, pool, run, ?_, account⟩
  intro p member
  exact p.finished_iff.mp (List.all_eq_true.mp done p member)

end Tpcc
