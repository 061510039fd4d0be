import OsvBenchmarks.Tpcc.OrderIds

/-!
Transactions that run alone, on any database: what a delivery makes of the order
that it has found, and a newOrder of the id that it takes.
-/
namespace Tpcc
open Interleave Table

theorem read_run {A : Type} (f : Database → A) (s : State) : (read f).run s = (f s.db, s) := by
  rfl

theorem change_run (f : Database → Database) (s : State) :
    (change f).run s = ((), { s with db := f s.db }) := by
  rfl

/-- Nothing but the rows of one order has changed, balances and stock apart. -/
structure Changes (k : Key) (s s' : State) : Prop where
  others : ∀ k', k' ≠ k → view s' k' = view s k'
  district : s'.db.district = s.db.district
  warehouse : s'.db.warehouse = s.db.warehouse
  item : s'.db.item = s.db.item
  stock : ∀ k', lookup s'.db.stock k' = none ↔ lookup s.db.stock k' = none
  customer : ∀ k', lookup s'.db.customer k' = none ↔ lookup s.db.customer k' = none

theorem Changes.refl (k : Key) (s : State) : Changes k s s :=
  ⟨fun _ _ => rfl, rfl, rfl, rfl, fun _ => Iff.rfl, fun _ => Iff.rfl⟩

theorem Changes.trans {k : Key} {s t u : State} (first : Changes k s t) (second : Changes k t u) :
    Changes k s u := by
  constructor
  · intro k' differ
    exact (second.others k' differ).trans (first.others k' differ)
  · exact second.district.trans first.district
  · exact second.warehouse.trans first.warehouse
  · exact second.item.trans first.item
  · exact fun k' => (second.stock k').trans (first.stock k')
  · exact fun k' => (second.customer k').trans (first.customer k')

theorem RowsOnly.changes {k : Key} {s s' : State} (rows : RowsOnly k s s') : Changes k s s' := by
  refine ⟨rows.others, rows.district, rows.warehouse, rows.item, rows.stock, ?_⟩
  intro k'
  rw [rows.customer]

theorem RowsOnly.refl (k : Key) (s : State) : RowsOnly k s s :=
  ⟨fun _ _ => rfl, rfl, rfl, rfl, rfl, rfl, fun _ => Iff.rfl⟩

theorem RowsOnly.trans {k : Key} {s t u : State} (first : RowsOnly k s t)
    (second : RowsOnly k t u) : RowsOnly k s u := by
  constructor
  · intro k' differ
    exact (second.others k' differ).trans (first.others k' differ)
  · exact second.journal.trans first.journal
  · exact second.district.trans first.district
  · exact second.customer.trans first.customer
  · exact second.warehouse.trans first.warehouse
  · exact second.item.trans first.item
  · exact fun k' => (second.stock k').trans (first.stock k')

section Steps
variable (i : ℕ) (k : Key) (s : State)

theorem eraseNewOrder_run : Changes k s ((eraseNewOrder i k).run s).2 ∧
    ∃ by', view ((eraseNewOrder i k).run s).2 k =
      { view s k with erasedBy := by', neworder := (view s k).neworder.tail } := by
  rw [eraseNewOrder, Prog.run_atomic]
  by_cases none : lookup s.db.neworder k = none
  · rw [if_pos none]
    refine ⟨Changes.refl k s, (view s k).erasedBy, ?_⟩
    have empty : (view s k).neworder = [] := by
      rw [lookup_eq, List.head?_eq_none_iff] at none
      exact none
    rw [empty, List.tail_nil, ← empty]
  · rw [if_neg none]
    refine ⟨⟨?_, rfl, rfl, rfl, fun _ => Iff.rfl, fun _ => Iff.rfl⟩, i :: (view s k).erasedBy, ?_⟩
    · intro k' differ
      rw [view_erased, if_neg fun h => differ h.symm]
    · rw [view_erased, if_pos rfl]

def Orderline.stamped (datetime : ℤ) (line : Orderline) : Orderline :=
  { line with olDeliveryD := datetime }

theorem stamped_twice (datetime : ℤ) :
    Orderline.stamped datetime ∘ Orderline.stamped datetime = Orderline.stamped datetime := by
  rfl

theorem lineAmount_stamped {v v' : View} {l : ℤ} (datetime : ℤ)
    (stamped : v'.lines l = v.lines l ∨
      v'.lines l = (v.lines l).modifyHead (Orderline.stamped datetime)) :
    lineAmount v' l = lineAmount v l := by
  rcases stamped with same | same
  · rw [lineAmount, lineAmount, same]
  · rw [lineAmount, lineAmount, same]
    cases v.lines l <;> rfl

theorem stampLine_run (datetime l : ℤ) :
    ((stampLine k datetime l).run s).1 = lineAmount (view s k) l ∧
    RowsOnly k s ((stampLine k datetime l).run s).2 ∧
    view ((stampLine k datetime l).run s).2 k = { view s k with
      lines := fun l' =>
        if l = l' then ((view s k).lines l').modifyHead (Orderline.stamped datetime)
        else (view s k).lines l' } := by
  rw [stampLine, Prog.run_atomic]
  refine ⟨?_, updateLine_rows s k l _, ?_⟩
  · simp only [lookup_eq, lineAmount, view]
    cases rowsAt s.db.orderline (k ++ [l]) <;> rfl
  · rw [view_updateLine, if_pos rfl]
    rfl

theorem stampLines_run (datetime : ℤ) (total : ℚ) (ls : List ℤ) :
    ((stampLines k datetime total ls).run s).1 = total + lineTotal (view s k) ls ∧
    RowsOnly k s ((stampLines k datetime total ls).run s).2 ∧
    view ((stampLines k datetime total ls).run s).2 k = { view s k with
      lines := fun l =>
        if l ∈ ls then ((view s k).lines l).modifyHead (Orderline.stamped datetime)
        else (view s k).lines l } := by
  induction ls generalizing s total with
  | nil =>
    refine ⟨?_, RowsOnly.refl k s, ?_⟩
    · simp [stampLines, lineTotal]
    · simp [stampLines]
  | cons l ls ih =>
    obtain ⟨amount, rows, here⟩ := stampLine_run k s datetime l
    rw [stampLines, Prog.run_bind, amount]
    obtain ⟨rest, more, there⟩ := ih ((stampLine k datetime l).run s).2
      (total + lineAmount (view s k) l)
    refine ⟨?_, ?_, ?_⟩
    · rw [rest, add_assoc, lineTotal, lineTotal, List.map_cons, List.sum_cons]
      congr 3
      apply List.map_congr_left
      intro l' _
      apply lineAmount_stamped datetime
      rw [here]
      by_cases same : l = l'
      · exact Or.inr (if_pos same)
      · exact Or.inl (if_neg same)
    · exact rows.trans more
    · rw [there, here]
      simp only [View.mk.injEq, true_and]
      funext l'
      by_cases same : l = l'
      · subst same
        by_cases again : l ∈ ls
        · simp [again, stamped_twice]
        · simp [again]
      · by_cases again : l' ∈ ls
        · simp [again, same]
        · have differ : ¬ l' = l := fun h => same h.symm
          simp [again, same, differ]

theorem creditCustomer_run (customer : Key) (total : ℚ) :
    Changes k s ((creditCustomer i k customer total).run s).2 ∧
    (lookup s.db.customer customer ≠ none → view ((creditCustomer i k customer total).run s).2 k =
      { view s k with credits := (i, customer, total) :: (view s k).credits }) ∧
    ∃ credits, view ((creditCustomer i k customer total).run s).2 k =
      { view s k with credits := credits } := by
  rw [creditCustomer, Prog.run_atomic]
  by_cases none : lookup s.db.customer customer = none
  · rw [if_pos none]
    exact ⟨Changes.refl k s, fun some => absurd none some, _, rfl⟩
  · rw [if_neg none]
    have here := view_credited s k k i customer total (update customer (fun rec => { rec with
      cBalance := rec.cBalance + total
      cDeliveryCnt := rec.cDeliveryCnt + 1 }) s.db.customer)
    rw [if_pos rfl] at here
    refine ⟨⟨?_, rfl, rfl, rfl, fun _ => Iff.rfl, ?_⟩, fun _ => here, _, here⟩
    · intro k' differ
      rw [view_credited, if_neg fun h => differ h.symm]
    · exact fun k' => lookup_update_none _ _ _ _

end Steps

/-- What is left of an order after a delivery has found it complete. -/
structure Served (i : ℕ) (carrierId datetime : ℤ) (k : Key) (r : Order) (s s' : State) : Prop where
  changes : Changes k s s'
  order : (view s' k).order = [{ r with oCarrierId := carrierId }]
  neworder : (view s' k).neworder = (view s k).neworder.tail
  lines : ∀ l, (view s' k).lines l = if l ∈ lineNumbers r.oOlCnt then
    ((view s k).lines l).modifyHead (Orderline.stamped datetime) else (view s k).lines l
  credits : lookup s.db.customer (customerKey k r.oCId) ≠ none → (view s' k).credits =
    (i, customerKey k r.oCId, lineTotal (view s k) (lineNumbers r.oOlCnt)) :: (view s k).credits

theorem firstFrom_single {R : Type} {t : Rows Key R} {k : Key} {r : R} (rows : rowsAt t k = [r]) :
    firstFrom k t = some (k, r) := by
  have present : r ∈ rowsAt t k := by
    rw [rows]
    exact List.mem_singleton.mpr rfl
  obtain ⟨r', first, member⟩ := firstFrom_present (mem_rowsAt.mp present)
  have same := mem_rowsAt.mpr member
  rw [rows, List.mem_singleton] at same
  rw [first, same]

section Order
variable {k : Key} {r : Order} {s : State}

theorem findOrder_run (order : (view s k).order = [r]) :
    (read fun db => firstFrom k db.order).run s = (some (k, r), s) := by
  have rows : rowsAt s.db.order k = [r] := order
  rw [read_run, firstFrom_single rows]

theorem carry_run (order : (view s k).order = [r]) (carrierId : ℤ) :
    RowsOnly k s ((change fun db => { db with
      order := update k (fun r => { r with oCarrierId := carrierId }) db.order }).run s).2 ∧
    view ((change fun db => { db with
      order := update k (fun r => { r with oCarrierId := carrierId }) db.order }).run s).2 k =
      { view s k with order := [{ r with oCarrierId := carrierId }] } := by
  rw [change_run]
  refine ⟨updateOrder_rows s k _, ?_⟩
  rw [view_updateOrder, if_pos rfl, order]
  rfl

theorem checkLines_run {cnt : ℤ} (last : (view s k).lines cnt ≠ []) :
    (checkLines k cnt).run s = (true, s) := by
  obtain ⟨line, member⟩ := List.exists_mem_of_ne_nil _ last
  obtain ⟨line', first, _⟩ := firstFrom_present (mem_rowsAt.mp member)
  rw [checkLines, Prog.run_atomic, first]
  simp

end Order

theorem stampLines_clear (k : Key) (datetime : ℤ) (total : ℚ) (ls : List ℤ) (s : State) :
    (stampLines k datetime total ls).Clear Undisturbed s := by
  induction ls generalizing total s with
  | nil => trivial
  | cons l ls ih =>
    rw [stampLines, Prog.clear_bind]
    exact ⟨⟨trivial, trivial⟩, ih _ _⟩

/-- Such a delivery is not disturbed either, if the row and the customer are there. -/
theorem deliverOrder_run (i : ℕ) (w carrierId datetime d o : ℤ) {s : State} {r : Order}
    (order : (view s [w, d, o]).order = [r]) (count : 1 ≤ r.oOlCnt)
    (last : (view s [w, d, o]).lines r.oOlCnt ≠ []) :
    Served i carrierId datetime [w, d, o] r s
      ((deliverOrder i w carrierId datetime d o).run s).2 ∧
    ((view s [w, d, o]).neworder ≠ [] → lookup s.db.customer [w, d, r.oCId] ≠ none →
      (deliverOrder i w carrierId datetime d o).Clear Undisturbed s) := by
  obtain ⟨k, key⟩ : ∃ k : Key, k = [w, d, o] := ⟨_, rfl⟩
  have customer : [w, d, r.oCId] = customerKey k r.oCId := by rw [key]; rfl
  obtain ⟨erasing, by', erased⟩ := eraseNewOrder_run i [w, d, o] s
  obtain ⟨t, ht⟩ : ∃ t, t = ((eraseNewOrder i [w, d, o]).run s).2 := ⟨_, rfl⟩
  have some' : ¬ r.oOlCnt = minInteger := by
    intro none
    rw [none] at count
    exact absurd count (by decide)
  rw [deliverOrder, Prog.run_bind, Prog.clear_bind]
  rw [← ht] at erasing erased ⊢
  rw [← key] at order last erasing erased ⊢
  have found : (view t k).order = [r] := by
    rw [erased]
    exact order
  obtain ⟨u, hu⟩ : ∃ u, u = ((change fun db => { db with
    order := update k (fun r => { r with oCarrierId := carrierId }) db.order }).run t).2 := ⟨_, rfl⟩
  obtain ⟨carrying, carried⟩ := carry_run found carrierId
  rw [← hu] at carrying carried
  have there : (view u k).lines r.oOlCnt ≠ [] := by
    rw [carried, erased]
    exact last
  obtain ⟨total, stamping, stamped⟩ := stampLines_run k u datetime 0 (lineNumbers r.oOlCnt)
  obtain ⟨x, hx⟩ : ∃ x, x = ((stampLines k datetime 0 (lineNumbers r.oOlCnt)).run u).2 := ⟨_, rfl⟩
  rw [← hx] at stamping stamped
  obtain ⟨crediting, credited, credits, anyway⟩ := creditCustomer_run i k x
    (customerKey k r.oCId) (0 + lineTotal (view u k) (lineNumbers r.oOlCnt))
  obtain ⟨y, hy⟩ : ∃ y, y = ((creditCustomer i k (customerKey k r.oCId)
    (0 + lineTotal (view u k) (lineNumbers r.oOlCnt))).run x).2 := ⟨_, rfl⟩
  rw [← hy] at crediting credited anyway
  have before := (erasing.trans carrying.changes).trans stamping.changes
  have still : lookup s.db.customer (customerKey k r.oCId) ≠ none →
      lookup x.db.customer (customerKey k r.oCId) ≠ none :=
    fun there none => there ((before.customer _).mp none)
  constructor
  · rw [Prog.run_bind, findOrder_run found]
    simp only [some', if_false]
    rw [Prog.run_bind, findOrder_run found]
    simp only [ne_eq, not_true_eq_false, if_false]
    rw [Prog.run_bind, ← hu, Prog.run_bind, checkLines_run there]
    simp only [if_true]
    rw [Prog.run_bind, ← hx, total, customer, ← hy]
    refine ⟨before.trans crediting, ?_, ?_, ?_, ?_⟩
    · rw [anyway, stamped, carried]
    · rw [anyway, stamped, carried, erased]
    · intro l
      rw [anyway, stamped, carried, erased]
    · intro there
      rw [credited (still there), stamped, carried, erased, zero_add]
      rfl
  · intro news present
    refine ⟨⟨news, trivial⟩, ?_⟩
    rw [Prog.clear_bind, findOrder_run found]
    refine ⟨⟨trivial, trivial⟩, ?_⟩
    simp only [some', if_false]
    rw [Prog.clear_bind, findOrder_run found]
    refine ⟨⟨trivial, trivial⟩, ?_⟩
    simp only [ne_eq, not_true_eq_false, if_false]
    rw [Prog.clear_bind, ← hu]
    refine ⟨⟨trivial, trivial⟩, ?_⟩
    rw [Prog.clear_bind, checkLines_run there]
    refine ⟨⟨there, trivial⟩, ?_⟩
    simp only [if_true]
    rw [Prog.clear_bind, ← hx, total, customer]
    refine ⟨?_, ?_⟩
    · exact stampLines_clear k datetime 0 (lineNumbers r.oOlCnt) u
    · rw [customer] at present
      exact ⟨still present, trivial⟩

/-- What a newOrder leaves under the id that it takes. -/
structure Ordered (o : NewOrder) (rec : District) (s s' : State) : Prop where
  others : ∀ k, k ≠ [o.wId, o.dId, rec.dNextOId] → view s' k = view s k
  order : (view s' [o.wId, o.dId, rec.dNextOId]).order =
    ⟨o.cId, 0, o.lines.length⟩ :: (view s [o.wId, o.dId, rec.dNextOId]).order
  neworder : (view s' [o.wId, o.dId, rec.dNextOId]).neworder =
    () :: (view s [o.wId, o.dId, rec.dNextOId]).neworder
  lines : ∀ l : ℤ, if 1 ≤ l ∧ l ≤ o.lines.length then
      ∃ amount, (view s' [o.wId, o.dId, rec.dNextOId]).lines l =
        ⟨0, amount⟩ :: (view s [o.wId, o.dId, rec.dNextOId]).lines l
    else (view s' [o.wId, o.dId, rec.dNextOId]).lines l =
      (view s [o.wId, o.dId, rec.dNextOId]).lines l
  district : s'.db.district =
    update [o.wId, o.dId] (fun r => { r with dNextOId := r.dNextOId + 1 }) s.db.district
  warehouse : s'.db.warehouse = s.db.warehouse
  item : s'.db.item = s.db.item
  stock : ∀ k', lookup s'.db.stock k' = none ↔ lookup s.db.stock k' = none
  customer : ∀ k', lookup s'.db.customer k' = none ↔ lookup s.db.customer k' = none

theorem takeStocks_run (wId : ℤ) (lines : List Line) (k : Key) (s : State) :
    RowsOnly k s ((Prog.each (takeStock wId) lines).run s).2 ∧
      view ((Prog.each (takeStock wId) lines).run s).2 k = view s k := by
  induction lines generalizing s with
  | nil => exact ⟨RowsOnly.refl k s, rfl⟩
  | cons line lines ih =>
    have step : RowsOnly k s ((takeStock wId line).run s).2 := updateStock_rows s _ k _
    obtain ⟨rows, same⟩ := ih ((takeStock wId line).run s).2
    have run : (Prog.each (takeStock wId) (line :: lines)).run s =
        (Prog.each (takeStock wId) lines).run ((takeStock wId line).run s).2 :=
      Prog.run_bind (takeStock wId line) (fun _ => Prog.each (takeStock wId) lines) s
    rw [run]
    exact ⟨step.trans rows, same⟩

theorem insertLines_run {o : NewOrder} (oId : ℤ) (price : ℚ → ℚ → ℚ) (n : ℤ) (lines : List Line)
    (s : State) (districts : 1 ≤ o.dId ∧ o.dId ≤ 10)
    (items : ∀ line ∈ lines, lookup s.db.item [line.itemid] ≠ none ∧
      lookup s.db.stock [o.wId, line.itemid] ≠ none) :
    RowsOnly [o.wId, o.dId, oId] s ((insertLines o oId price n lines).run s).2 ∧
    ∃ after, view ((insertLines o oId price n lines).run s).2 [o.wId, o.dId, oId] =
        { view s [o.wId, o.dId, oId] with lines := after } ∧
      ∀ l : ℤ, if n ≤ l ∧ l < n + lines.length then
          ∃ amount, after l = ⟨0, amount⟩ :: (view s [o.wId, o.dId, oId]).lines l
        else after l = (view s [o.wId, o.dId, oId]).lines l := by
  induction lines generalizing n s with
  | nil =>
    refine ⟨RowsOnly.refl _ s, (view s [o.wId, o.dId, oId]).lines, rfl, ?_⟩
    intro l
    rw [if_neg]
    simp only [List.length_nil]
    omega
  | cons line lines ih =>
    obtain ⟨item, stock⟩ := items line (by simp)
    obtain ⟨iPrice, hitem⟩ := Option.ne_none_iff_exists'.mp item
    obtain ⟨r, hstock⟩ := Option.ne_none_iff_exists'.mp stock
    obtain ⟨t, ht⟩ : ∃ t : State, t = { s with db := { s.db with
        orderline := insert s.db.orderline ([o.wId, o.dId, oId] ++ [n])
          ⟨0, price line.qty iPrice⟩ } } := ⟨_, rfl⟩
    have run : (insertLines o oId price n (line :: lines)).run s =
        (insertLines o oId price (n + 1) lines).run t := by
      rw [insertLines, Prog.run_bind, read_run]
      simp only [hitem]
      rw [Prog.run_bind, read_run]
      simp only [hstock, districts, and_self, if_true]
      rw [Prog.run_bind, change_run, ht]
      rfl
    have step : RowsOnly [o.wId, o.dId, oId] s t := by
      rw [ht]
      exact insertLine_rows s _ n _
    have here : view t [o.wId, o.dId, oId] = { view s [o.wId, o.dId, oId] with
        lines := fun l => if n = l then
          ⟨0, price line.qty iPrice⟩ :: (view s [o.wId, o.dId, oId]).lines l
          else (view s [o.wId, o.dId, oId]).lines l } := by
      rw [ht, view_insertLine, if_pos rfl]
    obtain ⟨rows, after, there, inserted⟩ := ih (n + 1) t (by
      intro line' member
      rw [step.item]
      have := items line' (List.mem_cons_of_mem _ member)
      exact ⟨this.1, fun none => this.2 ((step.stock _).mp none)⟩)
    rw [run]
    refine ⟨step.trans rows, after, ?_, ?_⟩
    · rw [there, here]
    · intro l
      have inserted := inserted l
      rw [here] at inserted
      rw [List.length_cons]
      by_cases first : n = l
      · subst first
        rw [if_neg (by omega)] at inserted
        rw [if_pos (by omega)]
        exact ⟨_, inserted.trans (if_pos rfl)⟩
      · simp only [first, if_false] at inserted
        by_cases later : n + 1 ≤ l ∧ l < n + 1 + lines.length
        · rw [if_pos later] at inserted
          rwa [if_pos (by omega)]
        · rw [if_neg later] at inserted
          rwa [if_neg (by omega)]

theorem newOrder_run (i : ℕ) {o : NewOrder} {s : State} (stocked : Stocked s.db o) {rec : District}
    (district : lookup s.db.district [o.wId, o.dId] = some rec) :
    Ordered o rec s ((newOrder i o).run s).2 := by
  obtain ⟨warehouse, hw⟩ := Option.ne_none_iff_exists'.mp stocked.warehouse
  obtain ⟨customer, hc⟩ := Option.ne_none_iff_exists'.mp stocked.customer
  obtain ⟨k, key⟩ : ∃ k : Key, k = [o.wId, o.dId, rec.dNextOId] := ⟨_, rfl⟩
  obtain ⟨t, ht⟩ : ∃ t : State, t = ⟨{ s.db with
      district := update [o.wId, o.dId] (fun r => { r with dNextOId := r.dNextOId + 1 })
        s.db.district }, (i, .ordered k) :: s.journal⟩ := ⟨_, rfl⟩
  obtain ⟨u, hu⟩ : ∃ u : State, u = { t with db := { t.db with
      order := insert t.db.order k ⟨o.cId, 0, o.lines.length⟩ } } := ⟨_, rfl⟩
  obtain ⟨v, hv⟩ : ∃ v : State, v = { u with db := { u.db with
      orderWdc := insert u.db.orderWdc [o.wId, o.dId, o.cId, rec.dNextOId] () } } := ⟨_, rfl⟩
  obtain ⟨x, hx⟩ : ∃ x : State, x = { v with db := { v.db with
      neworder := insert v.db.neworder k () } } := ⟨_, rfl⟩
  obtain ⟨price, run⟩ : ∃ price, ((newOrder i o).run s).2 =
      ((insertLines o rec.dNextOId price 1 o.lines).run
        ((Prog.each (takeStock o.wId) o.lines).run x).2).2 := by
    refine ⟨fun qty iPrice =>
      qty * iPrice * (1 + warehouse.wTax + rec.dTax) * (1 - customer.cDiscount), ?_⟩
    rw [newOrder, Prog.run_bind, read_run]
    simp only [hw]
    rw [Prog.run_bind, read_run]
    simp only [hc]
    rw [Prog.run_bind, takeOId, Prog.run_atomic]
    simp only [district]
    rw [Prog.run_bind, change_run, Prog.run_bind, change_run,
      Prog.run_bind, change_run, Prog.run_bind, hx, hv, hu, ht, key]
  have took : ∀ k', view t k' = if k = k' then
      { view s k' with orderedBy := i :: (view s k').orderedBy } else view s k' := by
    intro k'
    rw [ht]
    exact view_ordered s k k' i _ rfl rfl rfl rfl
  have ordering : RowsOnly k t u := by
    rw [hu]
    exact insertOrder_rows t k _
  have wdc : RowsOnly k u v := by
    rw [hv, key]
    exact insertWdc_rows u _ _ _ _
  have news : RowsOnly k v x := by
    rw [hx]
    exact insertNewOrder_rows v k
  have placed : (view x k).order = ⟨o.cId, 0, o.lines.length⟩ :: (view s k).order ∧
      (view x k).neworder = () :: (view s k).neworder ∧ (view x k).lines = (view s k).lines := by
    have hu' := view_insertOrder t k k ⟨o.cId, 0, o.lines.length⟩
    have hv' := view_insertWdc u k o.wId o.dId o.cId rec.dNextOId
    have hx' := view_insertNewOrder v k k
    rw [if_pos rfl, ← hx] at hx'
    rw [← key, if_pos rfl, ← hv] at hv'
    rw [if_pos rfl, ← hu, took, if_pos rfl] at hu'
    rw [hx', hv', hu']
    exact ⟨rfl, rfl, rfl⟩
  obtain ⟨stocks, same⟩ := takeStocks_run o.wId o.lines k x
  obtain ⟨y, hy⟩ : ∃ y, y = ((Prog.each (takeStock o.wId) o.lines).run x).2 := ⟨_, rfl⟩
  rw [← hy] at stocks same run
  have upto := ((ordering.trans wdc).trans news).trans stocks
  have items : ∀ line ∈ o.lines, lookup y.db.item [line.itemid] ≠ none ∧
      lookup y.db.stock [o.wId, line.itemid] ≠ none := by
    intro line member
    obtain ⟨item, stock⟩ := stocked.items line member
    have item' : t.db.item = s.db.item := by rw [ht]
    have stock' : t.db.stock = s.db.stock := by rw [ht]
    constructor
    · rwa [upto.item, item']
    · rw [← stock'] at stock
      exact mt (upto.stock _).mp stock
  obtain ⟨lining, after, there, inserted⟩ :=
    insertLines_run rec.dNextOId price 1 o.lines y stocked.districts items
  rw [← run, ← key] at lining there
  rw [← key] at inserted
  have whole := upto.trans lining
  obtain ⟨order, neworder, lines⟩ := placed
  constructor
  · intro k' differ
    rw [← key] at differ
    rw [whole.others k' differ, took, if_neg fun h => differ h.symm]
  · rw [← key, there, same]
    exact order
  · rw [← key, there, same]
    exact neworder
  · intro l
    have inserted := inserted l
    rw [same, lines] at inserted
    rw [← key, there]
    by_cases inside : 1 ≤ l ∧ l ≤ o.lines.length
    · rw [if_pos (by omega)] at inserted
      rwa [if_pos inside]
    · rw [if_neg (by omega)] at inserted
      rwa [if_neg inside]
  · rw [whole.district, ht]
  · rw [whole.warehouse, ht]
  · rw [whole.item, ht]
  · intro k'
    have here := whole.stock k'
    rwa [ht] at here
  · intro k'
    rw [whole.customer, ht]

end Tpcc
