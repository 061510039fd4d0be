import OsvBenchmarks.Tpcc.Orders

/-!
newOrder among other newOrders and deliveries: the id it takes is its own, and
the rows it inserts under it stay until the end.
-/
namespace Tpcc
open Interleave Table

variable {base : Database}

/-- How far transaction `i` has got with the order `k` whose id it has taken. -/
structure Placing (i : ℕ) (k : Key) (c cnt : ℤ) (order wdc news : Bool) (j : ℤ) (s : State) :
    Prop where
  mine : i ∈ (view s k).orderedBy
  only : ∀ k', i ∈ (view s k').orderedBy → k' = k
  order : (view s k).order.map Order.core = if order then [(c, cnt)] else []
  wdc : (view s k).orderWdc c = if wdc then [()] else []
  news : if news then (view s k).neworder = [()] ∨ (view s k).erasedBy ≠ []
    else (view s k).neworder = [] ∧ (view s k).erasedBy = []
  lines : LinesTo (view s k).lines j

theorem mem_unique {i j : ℕ} {is : List ℕ} (once : is.length ≤ 1) (hi : i ∈ is) (hj : j ∈ is) :
    i = j := by
  match is, once with
  | [k], _ =>
    rw [List.mem_singleton] at hi hj
    rw [hi, hj]
  | [], _ => cases hi

/-- Nobody else touches the rows of an order before they are there, or their number. -/
theorem Placing.stable (i : ℕ) (k : Key) (c cnt : ℤ) (order wdc news : Bool) (j : ℤ) :
    Stable (Inv base) (Rely i) (Placing i k c cnt order wdc news j) := by
  intro s s' inv inv' placing ⟨m, other, guar⟩
  obtain ⟨mine, only, orders, wdcs, newss, lines⟩ := placing
  have step := guar k
  have notMine : m ∉ (view s k).orderedBy := fun h =>
    other (mem_unique (inv.good k).ordered_once h mine)
  constructor
  · rcases step.orderedBy with same | more
    · rwa [same]
    · rw [more]
      exact List.mem_cons_of_mem _ mine
  · intro k' member
    rcases (guar k').orderedBy with same | more
    · rw [same] at member
      exact only k' member
    · rw [more] at member
      rcases List.mem_cons.mp member with h | h
      · exact absurd h.symm other
      · exact only k' h
  · rcases step.order with same | ⟨_, same⟩ | ⟨h, _⟩
    · rwa [same]
    · rwa [same]
    · exact absurd h notMine
  · rcases step.orderWdc with same | h
    · rwa [same]
    · exact absurd h notMine
  · have erased : (view s' k).erasedBy = (view s k).erasedBy ∨
        (view s' k).erasedBy ≠ [] ∧ (view s k).neworder ≠ [] := by
      rcases step.erasedBy with same | ⟨more, there⟩
      · exact Or.inl same
      · exact Or.inr ⟨by rw [more]; exact List.cons_ne_nil _ _, there⟩
    cases news with
    | true =>
      simp only [if_true] at newss ⊢
      rcases newss with there | gone
      · rcases step.neworder with same | h | ⟨h, _⟩
        · exact Or.inl (same.trans there)
        · exact Or.inr (List.ne_nil_of_mem h)
        · exact absurd h notMine
      · rcases erased with same | ⟨h, _⟩
        · exact Or.inr (same ▸ gone)
        · exact Or.inr h
    | false =>
      simp only [Bool.false_eq_true, if_false] at newss ⊢
      obtain ⟨none, kept⟩ := newss
      rcases erased with same | ⟨_, there⟩
      · have still : (view s' k).erasedBy = [] := same.trans kept
        refine ⟨?_, still⟩
        rcases step.neworder with same | h | ⟨h, _⟩
        · exact same.trans none
        · rw [still] at h
          cases h
        · exact absurd h notMine
      · exact absurd none there
  · intro l
    rw [← lines l]
    rcases step.lines l with same | ⟨_, same⟩ | ⟨h, _⟩
    · rw [same]
    · have := congrArg List.length same
      simpa using this
    · exact absurd h notMine

def Untaken (i : ℕ) (s : State) : Prop := ∀ k, i ∉ (view s k).orderedBy

theorem Untaken.stable (i : ℕ) : Stable (Inv base) (Rely i) (Untaken i) := by
  intro s s' _ _ untaken ⟨m, other, guar⟩ k member
  rcases (guar k).orderedBy with same | more
  · rw [same] at member
    exact untaken k member
  · rw [more] at member
    rcases List.mem_cons.mp member with h | h
    · exact other h.symm
    · exact untaken k h

theorem mem_idsDown {n : ℕ} {o : ℤ} : o ∈ idsDown n ↔ 3001 ≤ o ∧ o < 3001 + n := by
  induction n with
  | zero =>
    simp only [idsDown, List.not_mem_nil, false_iff]
    omega
  | succ n ih =>
    rw [idsDown, List.mem_cons, ih]
    omega

theorem orderedBy_nil {journal : List (ℕ × Event)} {w d o : ℤ} (free : o ∉ takenIds journal w d) :
    orderedBy journal [w, d, o] = [] := by
  rw [List.eq_nil_iff_forall_not_mem]
  intro i member
  apply free
  obtain ⟨e, there, found⟩ := List.mem_filterMap.mp member
  refine List.mem_filterMap.mpr ⟨e, there, ?_⟩
  split at found
  · rename_i k' event
    split at found
    · rename_i same
      rw [event, same]
      simp
    · cases found
  · cases found
  · cases found
  · cases found

theorem takenIds_ordered (i : ℕ) (journal : List (ℕ × Event)) (w d o w' d' : ℤ) :
    takenIds ((i, .ordered [w, d, o]) :: journal) w' d' =
      if w = w' ∧ d = d' then o :: takenIds journal w' d' else takenIds journal w' d' := by
  by_cases same : w = w' ∧ d = d' <;> simp [takenIds, same]

theorem creditedTo_ordered (i : ℕ) (journal : List (ℕ × Event)) (k c : Key) :
    creditedTo ((i, .ordered k) :: journal) c = creditedTo journal c := by
  simp [creditedTo]

/-- The order with its id taken by transaction `i`. -/
def View.take (v : View) (i : ℕ) : View := { v with orderedBy := i :: v.orderedBy }

theorem View.Good.take {v : View} (good : v.Good) (free : v.orderedBy = []) (i : ℕ) :
    (v.take i).Good where
  ordered_once := by simp [View.take, free]
  erased_once := good.erased_once
  news := good.news
  held := good.held
  vacant := good.vacant
  placed := good.placed
  credited_once := good.credited_once
  credited_erased := good.credited_erased

theorem View.Step.take (v : View) (i : ℕ) : v.Step i (v.take i) where
  orderedBy := Or.inr rfl
  erasedBy := Or.inl rfl
  credits := Or.inl rfl
  order := Or.inl rfl
  neworder := Or.inl rfl
  orderWdc := Or.inl rfl
  lines _ := Or.inl rfl

/-- The id `o` of the district, taken by transaction `i`. -/
structure Takes (i : ℕ) (w d o : ℤ) (s s' : State) : Prop where
  here : view s' [w, d, o] = (view s [w, d, o]).take i
  others : ∀ k', k' ≠ [w, d, o] → view s' k' = view s k'
  taken : ∀ w' d', takenIds s'.journal w' d' =
    if w = w' ∧ d = d' then o :: takenIds s.journal w' d' else takenIds s.journal w' d'
  credited : ∀ c, creditedTo s'.journal c = creditedTo s.journal c
  district : s'.db.district =
    update [w, d] (fun r => { r with dNextOId := r.dNextOId + 1 }) s.db.district
  customer : s'.db.customer = s.db.customer
  warehouse : s'.db.warehouse = s.db.warehouse
  item : s'.db.item = s.db.item
  stock : s'.db.stock = s.db.stock

theorem takeOId_takes (i : ℕ) (w d o : ℤ) (s : State) :
    Takes i w d o s ⟨{ s.db with
      district := update [w, d] (fun r => { r with dNextOId := r.dNextOId + 1 }) s.db.district },
      (i, .ordered [w, d, o]) :: s.journal⟩ where
  here := (view_ordered s _ _ i _ rfl rfl rfl rfl).trans (if_pos rfl)
  others _ differ :=
    (view_ordered s _ _ i _ rfl rfl rfl rfl).trans (if_neg fun h => differ h.symm)
  taken := takenIds_ordered i s.journal w d o
  credited := creditedTo_ordered i s.journal [w, d, o]
  district := rfl
  customer := rfl
  warehouse := rfl
  item := rfl
  stock := rfl

namespace Takes
variable {i : ℕ} {w d o : ℤ} {s s' : State} (takes : Takes i w d o s s') (inv : Inv base s)
include takes inv

theorem ids (next : o = 3001 + (takenIds s.journal w d).length) (w' d' : ℤ) :
    takenIds s'.journal w' d' = idsDown (takenIds s'.journal w' d').length := by
  rw [takes.taken]
  split
  · rename_i same
    obtain ⟨rfl, rfl⟩ := same
    rw [List.length_cons, idsDown, ← next, ← inv.ids]
  · exact inv.ids w' d'

theorem next {rec : District} (found : lookup s.db.district [w, d] = some rec) {w' d' : ℤ}
    {r : District} (result : lookup s'.db.district [w', d'] = some r) :
    r.dNextOId = 3001 + (takenIds s'.journal w' d').length := by
  rw [takes.taken]
  rw [takes.district, lookup_update] at result
  split
  · rename_i same
    obtain ⟨rfl, rfl⟩ := same
    have next := inv.next w d rec found
    rw [if_pos rfl, found, Option.map_some, Option.some.injEq] at result
    rw [← result, List.length_cons]
    simp only [next]
    omega
  · rename_i differ
    rw [if_neg] at result
    · exact inv.next w' d' r result
    · intro h
      simp only [List.cons.injEq, and_true] at h
      exact differ h

theorem tables : Tables base s'.db where
  warehouse := takes.warehouse.trans inv.tables.warehouse
  item := takes.item.trans inv.tables.item
  district k := by
    rw [takes.district]
    exact (lookup_update_none _ _ _ _).trans (inv.tables.district k)
  customer := by
    rw [takes.customer]
    exact inv.tables.customer
  stock := by
    rw [takes.stock]
    exact inv.tables.stock

theorem inv_next (free : (view s [w, d, o]).orderedBy = []) {rec : District}
    (found : lookup s.db.district [w, d] = some rec) (id : rec.dNextOId = o) : Inv base s' where
  good := by
    apply inv.good_at takes.others
    rw [takes.here]
    exact (inv.good _).take free i
  fresh w' d' o' high none := by
    refine inv.fresh_at takes.others (fun _ _ _ _ _ none => ?_) high none
    rw [takes.here] at none
    cases none
  ids := takes.ids inv (by rw [← id, inv.next w d rec found])
  next _ _ _ := takes.next inv found
  balance c := by
    rw [takes.customer, takes.credited]
    exact inv.balance c
  tables := takes.tables inv

theorem placing (untaken : Untaken i s) (free : (view s [w, d, o]).orderedBy = [])
    (high : 3001 ≤ o) (c cnt : ℤ) : Placing i [w, d, o] c cnt false false false 0 s' := by
  have empty := inv.fresh w d o high free
  constructor
  · rw [takes.here, View.take, free]
    exact List.mem_singleton.mpr rfl
  · intro k' member
    by_contra differ
    rw [takes.others k' differ] at member
    exact untaken k' member
  · rw [takes.here]
    simp [View.take, empty.order]
  · rw [takes.here]
    simp [View.take, empty.orderWdc]
  · rw [takes.here]
    simp [View.take, empty.neworder, empty.erasedBy]
  · rw [takes.here]
    exact (inv.good _).vacant empty.order

end Takes

theorem takeOId_holds (i : ℕ) (w d c cnt : ℤ) (there : lookup base.district [w, d] ≠ none) :
    Holds (Inv base) Undisturbed (Rely i) (Guar i) (Untaken i) (takeOId i w d)
      fun a s => ∃ dTax o, a = some (dTax, o) ∧
        Placing i [w, d, o] c cnt false false false 0 s := by
  apply Holds.atomic
  · intro s inv untaken _
    obtain ⟨rec, found⟩ := Option.ne_none_iff_exists'.mp (mt (inv.tables.district _).mp there)
    have next := inv.next w d rec found
    have free : (view s [w, d, rec.dNextOId]).orderedBy = [] := by
      apply orderedBy_nil
      rw [inv.ids w d, mem_idsDown, next]
      omega
    have takes := takeOId_takes i w d rec.dNextOId s
    simp only [found]
    refine ⟨takes.inv_next inv free found rfl, ?_, rec.dTax, rec.dNextOId, rfl,
      takes.placing inv untaken free (by omega) c cnt⟩
    apply guar_at takes.others
    rw [takes.here]
    exact View.Step.take _ i
  · rintro a s s' inv inv' ⟨dTax, o, rfl, placing⟩ rely
    exact ⟨dTax, o, rfl, Placing.stable i _ c cnt _ _ _ _ s s' inv inv' placing rely⟩

/-- A call of the transaction that took the id, on the rows of its order. -/
theorem Placing.call {i : ℕ} {w d o c cnt j j' : ℤ} {order order' wdc wdc' news news' : Bool}
    {s s' : State} (inv : Inv base s) (placing : Placing i [w, d, o] c cnt order wdc news j s)
    (rows : RowsOnly [w, d, o] s s') {v : View} (here : view s' [w, d, o] = v)
    (orderedBy : v.orderedBy = (view s [w, d, o]).orderedBy)
    (erasedBy : v.erasedBy = (view s [w, d, o]).erasedBy)
    (credits : v.credits = (view s [w, d, o]).credits)
    (good : v.order = (view s [w, d, o]).order ∧ v.neworder = (view s [w, d, o]).neworder ∧
      v.lines = (view s [w, d, o]).lines ∨ v.Good)
    (orders : v.order = (view s [w, d, o]).order ∨ (view s [w, d, o]).order = [])
    (newss : v.neworder = (view s [w, d, o]).neworder ∨ (view s [w, d, o]).neworder = [])
    (lines : ∀ l, v.lines l = (view s [w, d, o]).lines l ∨ (view s [w, d, o]).lines l = [])
    (order_placed : v.order.map Order.core = if order' then [(c, cnt)] else [])
    (wdc_placed : v.orderWdc c = if wdc' then [()] else [])
    (news_placed : if news' then v.neworder = [()] ∨ v.erasedBy ≠ []
      else v.neworder = [] ∧ v.erasedBy = [])
    (lines_placed : LinesTo v.lines j') :
    Inv base s' ∧ Guar i s s' ∧ Placing i [w, d, o] c cnt order' wdc' news' j' s' := by
  subst here
  have mine := placing.mine
  refine ⟨?_, ?_, ?_⟩
  · apply rows.inv inv
    · rcases good with ⟨h1, h2, h3⟩ | good
      · have old := inv.good [w, d, o]
        constructor
        · rw [orderedBy]
          exact old.ordered_once
        · rw [erasedBy]
          exact old.erased_once
        · rw [h1, h2, erasedBy]
          exact old.news
        · rw [h1, erasedBy]
          exact old.held
        · rw [h1, h3]
          exact old.vacant
        · rw [h1, h3]
          exact old.placed
        · rw [credits]
          exact old.credited_once
        · rw [credits, erasedBy]
          exact old.credited_erased
      · exact good
    · intro w' d' o' _ _ free
      rw [orderedBy] at free
      rw [free] at mine
      cases mine
  · apply guar_at rows.others
    constructor
    · exact Or.inl orderedBy
    · exact Or.inl erasedBy
    · exact Or.inl credits
    · exact orders.imp_right fun h => Or.inr ⟨mine, h⟩
    · exact newss.imp_right fun h => Or.inr ⟨mine, h⟩
    · exact Or.inr mine
    · intro l
      exact (lines l).imp_right fun h => Or.inr ⟨mine, h⟩
  · constructor
    · rwa [orderedBy]
    · intro k' member
      by_cases same : k' = [w, d, o]
      · exact same
      · rw [rows.others k' same] at member
        exact placing.only k' member
    · exact order_placed
    · exact wdc_placed
    · exact news_placed
    · exact lines_placed

section Inserts
variable {i : ℕ} {w d o c cnt j : ℤ}

theorem insertOrder_holds (positive : 0 ≤ cnt) :
    Holds (Inv base) Undisturbed (Rely i) (Guar i)
      (Placing i [w, d, o] c cnt false false false 0)
      (change fun db => { db with order := insert db.order [w, d, o] ⟨c, 0, cnt⟩ })
      fun _ s => Placing i [w, d, o] c cnt true false false 0 s := by
  apply change_holds (Placing.stable i _ c cnt _ _ _ _)
  intro s inv placing
  have here := view_insertOrder s [w, d, o] [w, d, o] ⟨c, 0, cnt⟩
  rw [if_pos rfl] at here
  have none : (view s [w, d, o]).order = [] := by simpa using placing.order
  have news := placing.news
  simp only [Bool.false_eq_true, if_false] at news
  have old := inv.good [w, d, o]
  apply placing.call inv (insertOrder_rows s _ _) here rfl rfl rfl
  · right
    constructor
    · exact old.ordered_once
    · exact old.erased_once
    · exact fun h => absurd news.1 h
    · exact fun h => absurd news.2 h
    · exact fun h => absurd h (List.cons_ne_nil _ _)
    · exact fun _ => ⟨_, 0, by rw [none], by omega, positive, placing.lines⟩
    · exact old.credited_once
    · exact old.credited_erased
  · exact Or.inr none
  · exact Or.inl rfl
  · exact fun _ => Or.inl rfl
  · rw [none]
    rfl
  · exact placing.wdc
  · exact placing.news
  · exact placing.lines

theorem insertWdc_holds :
    Holds (Inv base) Undisturbed (Rely i) (Guar i)
      (Placing i [w, d, o] c cnt true false false 0)
      (change fun db => { db with orderWdc := insert db.orderWdc [w, d, c, o] () })
      fun _ s => Placing i [w, d, o] c cnt true true false 0 s := by
  apply change_holds (Placing.stable i _ c cnt _ _ _ _)
  intro s inv placing
  have here := view_insertWdc s [w, d, o] w d c o
  rw [if_pos rfl] at here
  have none : (view s [w, d, o]).orderWdc c = [] := by simpa using placing.wdc
  apply placing.call inv (insertWdc_rows s w d c o) here rfl rfl rfl
  · exact Or.inl ⟨rfl, rfl, rfl⟩
  · exact Or.inl rfl
  · exact Or.inl rfl
  · exact fun _ => Or.inl rfl
  · exact placing.order
  · simp [none]
  · exact placing.news
  · exact placing.lines

theorem insertNewOrder_holds :
    Holds (Inv base) Undisturbed (Rely i) (Guar i)
      (Placing i [w, d, o] c cnt true true false 0)
      (change fun db => { db with neworder := insert db.neworder [w, d, o] () })
      fun _ s => Placing i [w, d, o] c cnt true true true 0 s := by
  apply change_holds (Placing.stable i _ c cnt _ _ _ _)
  intro s inv placing
  have here := view_insertNewOrder s [w, d, o] [w, d, o]
  rw [if_pos rfl] at here
  have news := placing.news
  simp only [Bool.false_eq_true, if_false] at news
  have there : (view s [w, d, o]).order ≠ [] := by
    intro none
    have := placing.order
    rw [none] at this
    cases this
  have old := inv.good [w, d, o]
  apply placing.call inv (insertNewOrder_rows s _) here rfl rfl rfl
  · right
    constructor
    · exact old.ordered_once
    · exact old.erased_once
    · intro _
      refine ⟨?_, news.2, there⟩
      rw [news.1]
    · exact old.held
    · exact old.vacant
    · exact old.placed
    · exact old.credited_once
    · exact old.credited_erased
  · exact Or.inl rfl
  · exact Or.inr news.1
  · exact fun _ => Or.inl rfl
  · exact placing.order
  · exact placing.wdc
  · simp [news.1]
  · exact placing.lines

theorem insertLine_holds (positive : 0 ≤ j) (more : j < cnt) (amount : ℚ) :
    Holds (Inv base) Undisturbed (Rely i) (Guar i)
      (Placing i [w, d, o] c cnt true true true j)
      (change fun db => { db with
        orderline := insert db.orderline ([w, d, o] ++ [j + 1]) ⟨0, amount⟩ })
      fun _ s => Placing i [w, d, o] c cnt true true true (j + 1) s := by
  apply change_holds (Placing.stable i _ c cnt _ _ _ _)
  intro s inv placing
  have here := view_insertLine s [w, d, o] [w, d, o] (j + 1) ⟨0, amount⟩
  rw [if_pos rfl] at here
  have vacant : (view s [w, d, o]).lines (j + 1) = [] := by
    have len := placing.lines (j + 1)
    rw [if_neg (by omega)] at len
    exact List.eq_nil_of_length_eq_zero len
  have lines : LinesTo (fun l' => if j + 1 = l' then
      (⟨0, amount⟩ : Orderline) :: (view s [w, d, o]).lines l'
      else (view s [w, d, o]).lines l') (j + 1) := by
    intro l
    by_cases last : j + 1 = l
    · subst last
      simp only [if_true, vacant, List.length_singleton]
      rw [if_pos (by omega)]
    · simp only [last, if_false]
      rw [placing.lines l]
      by_cases inside : 1 ≤ l ∧ l ≤ j
      · rw [if_pos inside, if_pos (by omega)]
      · rw [if_neg inside, if_neg (by omega)]
  have there : ∃ r, (view s [w, d, o]).order = [r] ∧ r.core = (c, cnt) := by
    have core := placing.order
    rw [if_pos rfl] at core
    match (view s [w, d, o]).order, core with
    | [r], h => exact ⟨r, rfl, by simpa using h⟩
  obtain ⟨r, order, core⟩ := there
  have count : r.oOlCnt = cnt := congrArg Prod.snd core
  have old := inv.good [w, d, o]
  apply placing.call inv (insertLine_rows s _ _ _) here rfl rfl rfl
  · right
    constructor
    · exact old.ordered_once
    · exact old.erased_once
    · exact old.news
    · exact old.held
    · intro none
      rw [order] at none
      cases none
    · exact fun _ => ⟨r, j + 1, order, by omega, by omega, lines⟩
    · exact old.credited_once
    · exact old.credited_erased
  · exact Or.inl rfl
  · exact Or.inl rfl
  · intro l
    by_cases last : j + 1 = l
    · subst last
      exact Or.inr vacant
    · left
      simp only [last, if_false]
  · exact placing.order
  · exact placing.wdc
  · exact placing.news
  · exact lines

theorem takeStock_holds (wId : ℤ) (line : Line) :
    Holds (Inv base) Undisturbed (Rely i) (Guar i)
      (Placing i [w, d, o] c cnt true true true j) (takeStock wId line)
      fun _ s => Placing i [w, d, o] c cnt true true true j s := by
  apply change_holds (Placing.stable i _ c cnt _ _ _ _)
  intro s inv placing
  apply placing.call inv (updateStock_rows s _ [w, d, o] _) rfl rfl rfl rfl
  · exact Or.inl ⟨rfl, rfl, rfl⟩
  · exact Or.inl rfl
  · exact Or.inl rfl
  · exact fun _ => Or.inl rfl
  · exact placing.order
  · exact placing.wdc
  · exact placing.news
  · exact placing.lines

end Inserts

/-- The rows that newOrder looks up are loaded. -/
structure Stocked (base : Database) (o : NewOrder) : Prop where
  warehouse : lookup base.warehouse [o.wId] ≠ none
  customer : lookup base.customer [o.wId, o.dId, o.cId] ≠ none
  district : lookup base.district [o.wId, o.dId] ≠ none
  districts : 1 ≤ o.dId ∧ o.dId ≤ 10
  items : ∀ line ∈ o.lines, lookup base.item [line.itemid] ≠ none ∧
    lookup base.stock [o.wId, line.itemid] ≠ none

theorem insertLines_holds {i : ℕ} {o : NewOrder} (stocked : Stocked base o) (oId : ℤ)
    (price : ℚ → ℚ → ℚ) (lines : List Line) {j : ℤ} (positive : 0 ≤ j)
    (count : j + lines.length = o.lines.length) (among : ∀ line ∈ lines, line ∈ o.lines) :
    Holds (Inv base) Undisturbed (Rely i) (Guar i)
      (Placing i [o.wId, o.dId, oId] o.cId o.lines.length true true true j)
      (insertLines o oId price (j + 1) lines)
      fun a s => a = .ordered oId ∧
        Placing i [o.wId, o.dId, oId] o.cId o.lines.length true true true o.lines.length s := by
  induction lines generalizing j with
  | nil =>
    apply Holds.pure
    intro s _ placing
    have : j = o.lines.length := by simpa using count
    rw [this] at placing
    exact ⟨rfl, placing⟩
  | cons line lines ih =>
    rw [List.length_cons] at count
    obtain ⟨item, stock⟩ := stocked.items line (among line (by simp))
    have stable : Stable (Inv base) (Rely i)
        (Placing i [o.wId, o.dId, oId] o.cId o.lines.length true true true j) :=
      Placing.stable i _ _ _ true true true j
    rw [insertLines]
    apply Holds.bind (read_holds (fun a => a ≠ none) stable ?_)
    · intro a
      cases a with
      | none => exact Holds.never fun _ _ here => here.1 rfl
      | some iPrice =>
        apply Holds.bind (read_holds (fun a => a ≠ none)
          stable ?_
          |>.weaken (fun _ _ here => here.2) fun _ _ _ h => h)
        · intro a
          cases a with
          | none => exact Holds.never fun _ _ here => here.1 rfl
          | some r =>
            simp only [stocked.districts, and_self, if_true]
            apply Holds.bind ((insertLine_holds positive (by omega)
              (price line.qty iPrice)).weaken (fun _ _ here => here.2) fun _ _ _ h => h)
            intro _
            exact ih (by omega) (by omega) fun l member => among l (List.mem_cons_of_mem _ member)
        · intro s inv _
          exact mt (inv.tables.stock _).mp stock
    · intro s inv _
      rw [inv.tables.item]
      exact item

/-- newOrder, whatever the other transactions do between its calls. -/
theorem newOrder_holds (i : ℕ) {o : NewOrder} (stocked : Stocked base o) :
    Holds (Inv base) Undisturbed (Rely i) (Guar i) (Untaken i) (newOrder i o)
      fun a s => ∃ oId, a = .ordered oId ∧
        Placing i [o.wId, o.dId, oId] o.cId o.lines.length true true true o.lines.length s := by
  rw [newOrder]
  apply Holds.bind (read_holds (fun a => a ≠ none) (Untaken.stable i) ?_)
  · intro a
    cases a with
    | none => exact Holds.never fun _ _ here => here.1 rfl
    | some warehouse =>
      apply Holds.bind ((read_holds (fun a => a ≠ none) (Untaken.stable i) ?_).weaken
        (fun _ _ here => here.2) fun _ _ _ h => h)
      · intro a
        cases a with
        | none => exact Holds.never fun _ _ here => here.1 rfl
        | some customer =>
          apply Holds.bind ((takeOId_holds i o.wId o.dId o.cId o.lines.length
            stocked.district).weaken (fun _ _ here => here.2) fun _ _ _ h => h)
          intro a
          match a with
          | none =>
            apply Holds.never
            rintro s _ ⟨_, _, none, _⟩
            cases none
          | some (dTax, oId) =>
            have mine : ∀ s, (∃ tax id, some (dTax, oId) = some (tax, id) ∧
                Placing i [o.wId, o.dId, id] o.cId o.lines.length false false false 0 s) →
                Placing i [o.wId, o.dId, oId] o.cId o.lines.length false false false 0 s := by
              rintro s ⟨_, _, same, placing⟩
              cases same
              exact placing
            apply Holds.bind ((insertOrder_holds (by omega)).weaken (fun s _ => mine s)
              fun _ _ _ h => h)
            intro _
            apply Holds.bind insertWdc_holds
            intro _
            apply Holds.bind insertNewOrder_holds
            intro _
            apply Holds.bind (Holds.each fun line _ => takeStock_holds o.wId line)
            intro _
            have rest := insertLines_holds (i := i) stocked oId
              (fun qty iPrice => qty * iPrice * (1 + warehouse.wTax + dTax) *
                (1 - customer.cDiscount)) o.lines (Int.le_refl 0) (by omega) fun _ member => member
            exact rest.weaken (fun _ _ here => here) fun a s _ done => ⟨oId, done⟩
      · intro s inv _
        exact mt (inv.tables.customer _).mp stocked.customer
  · intro s inv _
    rw [inv.tables.warehouse]
    exact stocked.warehouse

end Tpcc
