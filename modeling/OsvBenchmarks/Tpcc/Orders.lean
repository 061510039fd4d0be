import OsvBenchmarks.Tpcc.Workload

/-!
What every call of newOrder and delivery keeps. A state is seen order by order:
who took its id, who erased its neworder row, who credited it, and its rows. A
call changes the view of one order only, and there as its transaction's part in
the order allows.
-/
namespace Tpcc
open Interleave Table

structure View where
  orderedBy : List ℕ
  erasedBy : List ℕ
  credits : List (ℕ × Key × ℚ)
  order : List Order
  neworder : List Unit
  orderWdc : ℤ → List Unit
  lines : ℤ → List Orderline

def orderedBy (journal : List (ℕ × Event)) (k : Key) : List ℕ := journal.filterMap fun e =>
  match e.2 with
  | .ordered k' => if k' = k then some e.1 else none
  | .erased _ => none
  | .credited _ _ _ => none
  | .paid _ _ => none

def erasedBy (journal : List (ℕ × Event)) (k : Key) : List ℕ := journal.filterMap fun e =>
  match e.2 with
  | .erased k' => if k' = k then some e.1 else none
  | .ordered _ => none
  | .credited _ _ _ => none
  | .paid _ _ => none

def credits (journal : List (ℕ × Event)) (k : Key) : List (ℕ × Key × ℚ) :=
  journal.filterMap fun e =>
    match e.2 with
    | .credited k' c total => if k' = k then some (e.1, c, total) else none
    | .ordered _ => none
    | .erased _ => none
    | .paid _ _ => none

/-- The order_wdc key of an order for a customer of its district. -/
def wdcRows (orderWdc : Rows Key Unit) : Key → ℤ → List Unit
  | [w, d, o], c => rowsAt orderWdc [w, d, c, o]
  | _, _ => []

def view (s : State) (k : Key) : View where
  orderedBy := orderedBy s.journal k
  erasedBy := erasedBy s.journal k
  credits := credits s.journal k
  order := rowsAt s.db.order k
  neworder := rowsAt s.db.neworder k
  orderWdc := wdcRows s.db.orderWdc k
  lines := fun l => rowsAt s.db.orderline (k ++ [l])

def LinesTo (lines : ℤ → List Orderline) (j : ℤ) : Prop :=
  ∀ l, (lines l).length = if 1 ≤ l ∧ l ≤ j then 1 else 0

structure View.Empty (v : View) : Prop where
  erasedBy : v.erasedBy = []
  order : v.order = []
  neworder : v.neworder = []
  orderWdc : ∀ c, v.orderWdc c = []

structure View.Good (v : View) : Prop where
  ordered_once : v.orderedBy.length ≤ 1
  erased_once : v.erasedBy.length ≤ 1
  news : v.neworder ≠ [] → v.neworder = [()] ∧ v.erasedBy = [] ∧ v.order ≠ []
  held : v.erasedBy ≠ [] → v.order ≠ []
  vacant : v.order = [] → LinesTo v.lines 0
  placed : v.order ≠ [] → ∃ r j, v.order = [r] ∧ 0 ≤ j ∧ j ≤ r.oOlCnt ∧ LinesTo v.lines j
  credited_once : v.credits.length ≤ 1
  credited_erased : ∀ c ∈ v.credits, c.1 ∈ v.erasedBy

def Order.core (r : Order) : ℤ × ℤ := (r.oCId, r.oOlCnt)

/-- What a call of transaction `i` may do to an order. -/
structure View.Step (i : ℕ) (v v' : View) : Prop where
  orderedBy : v'.orderedBy = v.orderedBy ∨ v'.orderedBy = i :: v.orderedBy
  erasedBy : v'.erasedBy = v.erasedBy ∨ v'.erasedBy = i :: v.erasedBy ∧ v.neworder ≠ []
  credits : v'.credits = v.credits ∨ ∃ c, v'.credits = c :: v.credits ∧ c.1 = i
  order : v'.order = v.order ∨ i ∈ v.erasedBy ∧ v'.order.map Order.core = v.order.map Order.core ∨
    i ∈ v.orderedBy ∧ v.order = []
  neworder : v'.neworder = v.neworder ∨ i ∈ v'.erasedBy ∨ i ∈ v.orderedBy ∧ v.neworder = []
  orderWdc : v'.orderWdc = v.orderWdc ∨ i ∈ v.orderedBy
  lines : ∀ l, v'.lines l = v.lines l ∨
    i ∈ v.erasedBy ∧ (v'.lines l).map (·.olAmount) = (v.lines l).map (·.olAmount) ∨
    i ∈ v.orderedBy ∧ v.lines l = []

theorem View.Step.refl (i : ℕ) (v : View) : v.Step i v := by
  constructor <;> intros <;> exact Or.inl rfl

def takenIds (journal : List (ℕ × Event)) (w d : ℤ) : List ℤ := journal.filterMap fun e =>
  match e.2 with
  | .ordered [w', d', o] => if w' = w ∧ d' = d then some o else none
  | .ordered _ => none
  | .erased _ => none
  | .credited _ _ _ => none
  | .paid _ _ => none

/-- 3000 + n, .., 3001 -/
def idsDown : ℕ → List ℤ
  | 0 => []
  | n + 1 => (3001 + n) :: idsDown n

def creditedTo (journal : List (ℕ × Event)) (customer : Key) : ℚ :=
  (journal.filterMap fun e =>
    match e.2 with
    | .credited _ c total => if c = customer then some total else none
    | .ordered _ => none
    | .erased _ => none
    | .paid _ _ => none).sum

/-- The tables that newOrder reads keep their rows. -/
structure Tables (base db : Database) : Prop where
  warehouse : db.warehouse = base.warehouse
  item : db.item = base.item
  district : ∀ k, lookup db.district k = none ↔ lookup base.district k = none
  customer : ∀ k, lookup db.customer k = none ↔ lookup base.customer k = none
  stock : ∀ k, lookup db.stock k = none ↔ lookup base.stock k = none

structure Inv (base : Database) (s : State) : Prop where
  good : ∀ k, (view s k).Good
  fresh : ∀ w d o, 3001 ≤ o → (view s [w, d, o]).orderedBy = [] → (view s [w, d, o]).Empty
  ids : ∀ w d, takenIds s.journal w d = idsDown (takenIds s.journal w d).length
  next : ∀ w d r, lookup s.db.district [w, d] = some r →
    r.dNextOId = 3001 + (takenIds s.journal w d).length
  balance : ∀ c, (lookup s.db.customer c).map (·.cBalance) =
    (lookup base.customer c).map (fun r => r.cBalance + creditedTo s.journal c)
  tables : Tables base s.db

/-- The guarantee of transaction `i`. -/
def Guar (i : ℕ) (s s' : State) : Prop := ∀ k, (view s k).Step i (view s' k)

def Rely (i : ℕ) (s s' : State) : Prop := ∃ j, j ≠ i ∧ Guar j s s'

theorem compatible (i j : ℕ) (differ : i ≠ j) (s s' : State) (guar : Guar j s s') : Rely i s s' :=
  ⟨j, fun h => differ h.symm, guar⟩

/-- The erasing of a delivery finds its row, its check finds the last line of the order
and its credit finds the customer. -/
def Undisturbed : Label → State → Prop
  | .erase k, s => rowsAt s.db.neworder k ≠ []
  | .check k olCnt, s => rowsAt s.db.orderline (k ++ [olCnt]) ≠ []
  | .credit c, s => lookup s.db.customer c ≠ none
  | .store _ _, _ => True
  | .other, _ => True

theorem line_key_inj {k k' : Key} {l l' : ℤ} : k ++ [l] = k' ++ [l'] ↔ k = k' ∧ l = l' := by
  constructor
  · intro same
    have parts := List.append_inj_left' same rfl
    subst parts
    simpa using same
  · rintro ⟨rfl, rfl⟩
    rfl

section Views
variable (s : State) (k k' : Key)

theorem view_insertOrder (r : Order) :
    view { s with db := { s.db with order := insert s.db.order k r } } k' =
      if k = k' then { view s k' with order := r :: (view s k').order } else view s k' := by
  by_cases same : k = k'
  · simp only [view, rowsAt_insert, if_pos same]
  · simp only [view, rowsAt_insert, if_neg same]

theorem view_updateOrder (f : Order → Order) :
    view { s with db := { s.db with order := update k f s.db.order } } k' =
      if k = k' then { view s k' with order := (view s k').order.modifyHead f } else view s k' := by
  by_cases same : k = k'
  · simp only [view, rowsAt_update, if_pos same]
  · simp only [view, rowsAt_update, if_neg same]

theorem view_insertNewOrder :
    view { s with db := { s.db with neworder := insert s.db.neworder k () } } k' =
      if k = k' then { view s k' with neworder := () :: (view s k').neworder }
      else view s k' := by
  by_cases same : k = k'
  · simp only [view, rowsAt_insert, if_pos same]
  · simp only [view, rowsAt_insert, if_neg same]

theorem view_insertWdc (w d c o : ℤ) :
    view { s with db := { s.db with orderWdc := insert s.db.orderWdc [w, d, c, o] () } } k' =
      if [w, d, o] = k' then
        { view s k' with orderWdc := fun c' =>
            if c = c' then () :: (view s k').orderWdc c' else (view s k').orderWdc c' }
      else view s k' := by
  by_cases same : [w, d, o] = k'
  · subst same
    rw [if_pos rfl]
    have rows : wdcRows (insert s.db.orderWdc [w, d, c, o] ()) [w, d, o] = fun c' =>
        if c = c' then () :: wdcRows s.db.orderWdc [w, d, o] c'
        else wdcRows s.db.orderWdc [w, d, o] c' := by
      funext c'
      by_cases customer : c = c'
      · simp [wdcRows, rowsAt_insert, customer]
      · simp [wdcRows, rowsAt_insert, customer]
    simp only [view, rows]
  · rw [if_neg same]
    have rows : wdcRows (insert s.db.orderWdc [w, d, c, o] ()) k' = wdcRows s.db.orderWdc k' := by
      funext c'
      unfold wdcRows
      split
      · rename_i w' d' o' _ _
        rw [rowsAt_insert, if_neg]
        intro h
        simp only [List.cons.injEq, and_true] at h
        exact same (by rw [h.1, h.2.1, h.2.2.2])
      · rfl
    simp only [view, rows]

theorem view_insertLine (l : ℤ) (r : Orderline) :
    view { s with db := { s.db with orderline := insert s.db.orderline (k ++ [l]) r } } k' =
      if k = k' then
        { view s k' with lines := fun l' =>
            if l = l' then r :: (view s k').lines l' else (view s k').lines l' }
      else view s k' := by
  by_cases same : k = k'
  · subst same
    rw [if_pos rfl]
    simp only [view, rowsAt_insert, line_key_inj, true_and]
  · simp only [view, rowsAt_insert, line_key_inj, same, false_and, if_false]

theorem view_updateLine (l : ℤ) (f : Orderline → Orderline) :
    view { s with db := { s.db with orderline := update (k ++ [l]) f s.db.orderline } } k' =
      if k = k' then
        { view s k' with lines := fun l' =>
            if l = l' then ((view s k').lines l').modifyHead f else (view s k').lines l' }
      else view s k' := by
  by_cases same : k = k'
  · subst same
    rw [if_pos rfl]
    simp only [view, rowsAt_update, line_key_inj, true_and]
  · simp only [view, rowsAt_update, line_key_inj, same, false_and, if_false]

theorem view_ordered (i : ℕ) (db : Database) (same : db.order = s.db.order)
    (news : db.neworder = s.db.neworder) (wdc : db.orderWdc = s.db.orderWdc)
    (lines : db.orderline = s.db.orderline) :
    view ⟨db, (i, .ordered k) :: s.journal⟩ k' =
      if k = k' then { view s k' with orderedBy := i :: (view s k').orderedBy } else view s k' := by
  by_cases at' : k = k'
  · subst at'
    simp [view, orderedBy, erasedBy, credits, same, news, lines, wdc]
  · simp [view, orderedBy, erasedBy, credits, same, news, lines, wdc, at']

theorem view_erased (i : ℕ) :
    view ⟨{ s.db with neworder := erase s.db.neworder k }, (i, .erased k) :: s.journal⟩ k' =
      if k = k' then
        { view s k' with
          erasedBy := i :: (view s k').erasedBy
          neworder := (view s k').neworder.tail }
      else view s k' := by
  by_cases at' : k = k'
  · subst at'
    simp [view, orderedBy, erasedBy, credits, rowsAt_erase]
  · simp [view, orderedBy, erasedBy, credits, rowsAt_erase, at']

theorem view_credited (i : ℕ) (c : Key) (total : ℚ) (customer : Rows Key Customer) :
    view ⟨{ s.db with customer := customer }, (i, .credited k c total) :: s.journal⟩ k' =
      if k = k' then { view s k' with credits := (i, c, total) :: (view s k').credits }
      else view s k' := by
  by_cases at' : k = k'
  · subst at'
    simp [view, orderedBy, erasedBy, credits]
  · simp [view, orderedBy, erasedBy, credits, at']

end Views

theorem guar_at {s s' : State} {i : ℕ} {k : Key} (others : ∀ k', k' ≠ k → view s' k' = view s k')
    (step : (view s k).Step i (view s' k)) : Guar i s s' := by
  intro k'
  by_cases same : k' = k
  · rw [same]
    exact step
  · rw [others k' same]
    exact View.Step.refl i _

theorem guar_refl (i : ℕ) (s : State) : Guar i s s := fun k => View.Step.refl i (view s k)

/-- The call changes rows of the order `k` and nothing else that matters here. -/
structure RowsOnly (k : Key) (s s' : State) : Prop where
  others : ∀ k', k' ≠ k → view s' k' = view s k'
  journal : s'.journal = s.journal
  district : s'.db.district = s.db.district
  customer : s'.db.customer = s.db.customer
  warehouse : s'.db.warehouse = s.db.warehouse
  item : s'.db.item = s.db.item
  stock : ∀ k, lookup s'.db.stock k = none ↔ lookup s.db.stock k = none

theorem RowsOnly.tables {base : Database} {k : Key} {s s' : State} (rows : RowsOnly k s s')
    (tables : Tables base s.db) : Tables base s'.db := by
  constructor
  · rw [rows.warehouse]
    exact tables.warehouse
  · rw [rows.item]
    exact tables.item
  · rw [rows.district]
    exact tables.district
  · rw [rows.customer]
    exact tables.customer
  · intro k
    exact (rows.stock k).trans (tables.stock k)

section At
variable {base : Database} {s s' : State} {k : Key} (inv : Inv base s)
  (others : ∀ k', k' ≠ k → view s' k' = view s k')
include inv others

theorem Inv.good_at (good : (view s' k).Good) (k' : Key) : (view s' k').Good := by
  by_cases same : k' = k
  · rw [same]
    exact good
  · rw [others k' same]
    exact inv.good k'

theorem Inv.fresh_at
    (fresh : ∀ w d o, k = [w, d, o] → 3001 ≤ o → (view s' k).orderedBy = [] → (view s' k).Empty)
    {w d o : ℤ} (high : 3001 ≤ o) (none : (view s' [w, d, o]).orderedBy = []) :
    (view s' [w, d, o]).Empty := by
  by_cases same : [w, d, o] = k
  · rw [same] at none ⊢
    exact fresh w d o same.symm high none
  · rw [others _ same] at none ⊢
    exact inv.fresh w d o high none

end At

theorem RowsOnly.inv {base : Database} {s s' : State} {k : Key} (rows : RowsOnly k s s')
    (inv : Inv base s) (good : (view s' k).Good)
    (fresh : ∀ w d o, k = [w, d, o] → 3001 ≤ o → (view s' k).orderedBy = [] →
      (view s' k).Empty) : Inv base s' := by
  constructor
  · exact inv.good_at rows.others good
  · intro w d o high none
    exact inv.fresh_at rows.others fresh high none
  · intro w d
    rw [rows.journal]
    exact inv.ids w d
  · intro w d r
    rw [rows.journal, rows.district]
    exact inv.next w d r
  · intro c
    rw [rows.customer, rows.journal]
    exact inv.balance c
  · exact rows.tables inv.tables

theorem insertOrder_rows (s : State) (k : Key) (r : Order) :
    RowsOnly k s { s with db := { s.db with order := insert s.db.order k r } } := by
  refine ⟨?_, rfl, rfl, rfl, rfl, rfl, fun _ => Iff.rfl⟩
  intro k' differ
  rw [view_insertOrder, if_neg fun h => differ h.symm]

theorem updateOrder_rows (s : State) (k : Key) (f : Order → Order) :
    RowsOnly k s { s with db := { s.db with order := update k f s.db.order } } := by
  refine ⟨?_, rfl, rfl, rfl, rfl, rfl, fun _ => Iff.rfl⟩
  intro k' differ
  rw [view_updateOrder, if_neg fun h => differ h.symm]

theorem insertNewOrder_rows (s : State) (k : Key) :
    RowsOnly k s { s with db := { s.db with neworder := insert s.db.neworder k () } } := by
  refine ⟨?_, rfl, rfl, rfl, rfl, rfl, fun _ => Iff.rfl⟩
  intro k' differ
  rw [view_insertNewOrder, if_neg fun h => differ h.symm]

theorem insertWdc_rows (s : State) (w d c o : ℤ) :
    RowsOnly [w, d, o] s
      { s with db := { s.db with orderWdc := insert s.db.orderWdc [w, d, c, o] () } } := by
  refine ⟨?_, rfl, rfl, rfl, rfl, rfl, fun _ => Iff.rfl⟩
  intro k' differ
  rw [view_insertWdc, if_neg fun h => differ h.symm]

theorem insertLine_rows (s : State) (k : Key) (l : ℤ) (r : Orderline) :
    RowsOnly k s
      { s with db := { s.db with orderline := insert s.db.orderline (k ++ [l]) r } } := by
  refine ⟨?_, rfl, rfl, rfl, rfl, rfl, fun _ => Iff.rfl⟩
  intro k' differ
  rw [view_insertLine, if_neg fun h => differ h.symm]

theorem updateLine_rows (s : State) (k : Key) (l : ℤ) (f : Orderline → Orderline) :
    RowsOnly k s
      { s with db := { s.db with orderline := update (k ++ [l]) f s.db.orderline } } := by
  refine ⟨?_, rfl, rfl, rfl, rfl, rfl, fun _ => Iff.rfl⟩
  intro k' differ
  rw [view_updateLine, if_neg fun h => differ h.symm]

theorem updateStock_rows (s : State) (k k' : Key) (f : Stock → Stock) :
    RowsOnly k' s { s with db := { s.db with stock := update k f s.db.stock } } :=
  ⟨fun _ _ => rfl, rfl, rfl, rfl, rfl, rfl, fun _ => lookup_update_none _ _ _ _⟩

theorem read_holds {base : Database} {i : ℕ} {A : Type} {f : Database → A} {pre : State → Prop}
    (fact : A → Prop) (stable : Stable (Inv base) (Rely i) pre)
    (reads : ∀ s, Inv base s → pre s → fact (f s.db)) :
    Holds (Inv base) Undisturbed (Rely i) (Guar i) pre (read f) fun a s => fact a ∧ pre s := by
  apply Holds.atomic
  · intro s inv here _
    exact ⟨inv, guar_refl i s, reads s inv here, here⟩
  · rintro a s s' inv inv' ⟨known, here⟩ rely
    exact ⟨known, stable s s' inv inv' here rely⟩

theorem change_holds {base : Database} {i : ℕ} {f : Database → Database} {pre post : State → Prop}
    (stable : Stable (Inv base) (Rely i) post)
    (step : ∀ s, Inv base s → pre s → Inv base { s with db := f s.db } ∧
      Guar i s { s with db := f s.db } ∧ post { s with db := f s.db }) :
    Holds (Inv base) Undisturbed (Rely i) (Guar i) pre (change f) fun _ s => post s := by
  apply Holds.atomic
  · intro s inv here _
    exact step s inv here
  · intro _
    exact stable

end Tpcc
