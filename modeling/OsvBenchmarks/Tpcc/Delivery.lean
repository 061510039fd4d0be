import OsvBenchmarks.Tpcc.NewOrder
import Mathlib.Algebra.BigOperators.Group.List.Basic
import Mathlib.Algebra.Field.Rat

/-!
delivery among other deliveries and newOrders. As long as every neworder row that
a delivery erases is still there and the order's lines are complete when it
checks them, it is the only one to deliver the order, and it delivers all of it.
-/
namespace Tpcc
open Interleave Table

variable {base : Database}

def customerKey : Key → ℤ → Key
  | [w, d, _], c => [w, d, c]
  | _, _ => []

def lineAmount (v : View) (l : ℤ) : ℚ :=
  match v.lines l with
  | line :: _ => line.olAmount
  | [] => 0

def lineTotal (v : View) (ls : List ℤ) : ℚ := (ls.map (lineAmount v)).sum

/-- Transaction `i` has delivered the order: carrier, lines and customer. -/
def Delivered (i : ℕ) (carrierId datetime : ℤ) (k : Key) (v : View) : Prop :=
  ∃ r, v.order = [r] ∧ r.oCarrierId = carrierId ∧
    (∀ l, 1 ≤ l → l ≤ r.oOlCnt → ∃ line, v.lines l = [line] ∧ line.olDeliveryD = datetime) ∧
    (i, customerKey k r.oCId, lineTotal v (lineNumbers r.oOlCnt)) ∈ v.credits

/-- How far transaction `i` has got with the order `k` that it has erased: `done` are the
lines stamped so far. -/
structure Delivering (i : ℕ) (carrierId datetime : ℤ) (k : Key) (c cnt : ℤ)
    (carried checked : Bool) (done : List ℤ) (total : ℚ) (s : State) : Prop where
  mine : i ∈ (view s k).erasedBy
  others : ∀ k', k' ≠ k → i ∈ (view s k').erasedBy →
    Delivered i carrierId datetime k' (view s k')
  order : ∃ r, (view s k).order = [r] ∧ r.core = (c, cnt) ∧
    (carried = true → r.oCarrierId = carrierId)
  uncredited : ∀ x ∈ (view s k).credits, x.1 ≠ i
  inside : ∀ l ∈ done, 1 ≤ l ∧ l ≤ cnt
  complete : done ≠ [] → checked = true
  lines : checked = true → ∀ l, 1 ≤ l → l ≤ cnt →
    ∃ line, (view s k).lines l = [line] ∧ (l ∈ done → line.olDeliveryD = datetime)
  total : total = lineTotal (view s k) done

/-- Every order that transaction `i` has erased is delivered. -/
def Settled (i : ℕ) (carrierId datetime : ℤ) (s : State) : Prop :=
  ∀ k, i ∈ (view s k).erasedBy → Delivered i carrierId datetime k (view s k)

theorem mem_lineNumbers {l cnt : ℤ} : l ∈ lineNumbers cnt ↔ 1 ≤ l ∧ l ≤ cnt := by
  simp only [lineNumbers, List.mem_map, List.mem_range]
  constructor
  · rintro ⟨n, bound, rfl⟩
    omega
  · rintro ⟨low, high⟩
    exact ⟨(l - 1).toNat, by omega, by omega⟩

theorem lineTotal_congr {v v' : View} {ls : List ℤ} (same : ∀ l ∈ ls, v'.lines l = v.lines l) :
    lineTotal v' ls = lineTotal v ls := by
  have each : ∀ l ∈ ls, lineAmount v' l = lineAmount v l := by
    intro l member
    rw [lineAmount, lineAmount, same l member]
  rw [lineTotal, lineTotal, List.map_congr_left each]

/-- What the eraser of an order relies on: nobody else changes the rows it finds. -/
theorem View.Step.kept {m i : ℕ} {v v' : View} (step : v.Step m v') (differ : m ≠ i)
    (good : v.Good) (mine : i ∈ v.erasedBy) :
    i ∈ v'.erasedBy ∧ v'.order = v.order ∧ (∀ l, v.lines l ≠ [] → v'.lines l = v.lines l) ∧
      (v'.credits = v.credits ∨ ∃ x, v'.credits = x :: v.credits ∧ x.1 = m) := by
  have notHeld : m ∉ v.erasedBy := fun h => differ (mem_unique good.erased_once h mine)
  have there : v.order ≠ [] := good.held (List.ne_nil_of_mem mine)
  refine ⟨?_, ?_, ?_, step.credits⟩
  · rcases step.erasedBy with same | ⟨more, _⟩
    · rwa [same]
    · rw [more]
      exact List.mem_cons_of_mem _ mine
  · rcases step.order with same | ⟨h, _⟩ | ⟨_, none⟩
    · exact same
    · exact absurd h notHeld
    · exact absurd none there
  · intro l line
    rcases step.lines l with same | ⟨h, _⟩ | ⟨_, none⟩
    · exact same
    · exact absurd h notHeld
    · exact absurd none line

theorem Delivered.stable {i m : ℕ} {carrierId datetime : ℤ} {k : Key} {v v' : View}
    (delivered : Delivered i carrierId datetime k v) (step : v.Step m v') (differ : m ≠ i)
    (good : v.Good) (mine : i ∈ v.erasedBy) : Delivered i carrierId datetime k v' := by
  obtain ⟨r, order, carrier, lines, credit⟩ := delivered
  obtain ⟨_, orders, kept, credits⟩ := step.kept differ good mine
  have same : ∀ l ∈ lineNumbers r.oOlCnt, v'.lines l = v.lines l := by
    intro l member
    rw [mem_lineNumbers] at member
    obtain ⟨line, here, _⟩ := lines l member.1 member.2
    exact kept l (by rw [here]; exact List.cons_ne_nil _ _)
  refine ⟨r, orders.trans order, carrier, ?_, ?_⟩
  · intro l low high
    rw [same l (mem_lineNumbers.mpr ⟨low, high⟩)]
    exact lines l low high
  · rw [lineTotal_congr same]
    rcases credits with h | ⟨x, h, _⟩
    · rwa [h]
    · rw [h]
      exact List.mem_cons_of_mem _ credit

theorem erasedBy_of_step {m i : ℕ} {v v' : View} (step : v.Step m v') (differ : m ≠ i)
    (after : i ∈ v'.erasedBy) : i ∈ v.erasedBy := by
  rcases step.erasedBy with same | ⟨more, _⟩
  · rwa [same] at after
  · rw [more] at after
    rcases List.mem_cons.mp after with h | h
    · exact absurd h.symm differ
    · exact h

theorem Settled.stable (i : ℕ) (carrierId datetime : ℤ) :
    Stable (Inv base) (Rely i) (Settled i carrierId datetime) := by
  intro s s' inv _ settled ⟨m, differ, guar⟩ k mine'
  have mine := erasedBy_of_step (guar k) differ mine'
  exact (settled k mine).stable (guar k) differ (inv.good k) mine

theorem Delivering.stable (i : ℕ) (carrierId datetime : ℤ) (k : Key) (c cnt : ℤ)
    (carried checked : Bool) (done : List ℤ) (total : ℚ) :
    Stable (Inv base) (Rely i)
      (Delivering i carrierId datetime k c cnt carried checked done total) := by
  intro s s' inv _ delivering ⟨m, differ, guar⟩
  obtain ⟨mine, others, order, uncredited, inside, complete, lines, sum⟩ := delivering
  obtain ⟨mine', orders, kept, credits⟩ := (guar k).kept differ (inv.good k) mine
  have same : checked = true → ∀ l, 1 ≤ l → l ≤ cnt →
      (view s' k).lines l = (view s k).lines l := by
    intro there l low high
    obtain ⟨line, here, _⟩ := lines there l low high
    exact kept l (by rw [here]; exact List.cons_ne_nil _ _)
  constructor
  · exact mine'
  · intro k' other after
    have before := erasedBy_of_step (guar k') differ after
    exact (others k' other before).stable (guar k') differ (inv.good k') before
  · rwa [orders]
  · rcases credits with h | ⟨x, h, by_m⟩
    · rwa [h]
    · rw [h]
      intro y member
      rcases List.mem_cons.mp member with rfl | member
      · rw [by_m]
        exact differ
      · exact uncredited y member
  · exact inside
  · exact complete
  · intro there l low high
    rw [same there l low high]
    exact lines there l low high
  · rw [sum]
    symm
    apply lineTotal_congr
    intro l member
    obtain ⟨low, high⟩ := inside l member
    exact same (complete (List.ne_nil_of_mem member)) l low high

theorem takenIds_erased (i : ℕ) (journal : List (ℕ × Event)) (k : Key) (w d : ℤ) :
    takenIds ((i, .erased k) :: journal) w d = takenIds journal w d := by
  simp [takenIds]

theorem creditedTo_erased (i : ℕ) (journal : List (ℕ × Event)) (k c : Key) :
    creditedTo ((i, .erased k) :: journal) c = creditedTo journal c := by
  simp [creditedTo]

theorem takenIds_credited (i : ℕ) (journal : List (ℕ × Event)) (k c : Key) (total : ℚ) (w d : ℤ) :
    takenIds ((i, .credited k c total) :: journal) w d = takenIds journal w d := by
  simp [takenIds]

theorem creditedTo_credited (i : ℕ) (journal : List (ℕ × Event)) (k c c' : Key) (total : ℚ) :
    creditedTo ((i, .credited k c total) :: journal) c' =
      if c = c' then total + creditedTo journal c' else creditedTo journal c' := by
  by_cases same : c = c' <;> simp [creditedTo, same]

section Calls
variable {i : ℕ} {carrierId datetime : ℤ} {k : Key}

/-- The order with its neworder row erased by transaction `i`. -/
def View.erased (v : View) (i : ℕ) : View :=
  { v with
    erasedBy := i :: v.erasedBy
    neworder := v.neworder.tail }

theorem View.Good.erased {v : View} (good : v.Good) (news : v.neworder ≠ []) (i : ℕ) :
    (v.erased i).Good := by
  obtain ⟨one, unerased, ordered⟩ := good.news news
  constructor
  · exact good.ordered_once
  · simp [View.erased, unerased]
  · exact fun some => absurd (by simp [View.erased, one]) some
  · exact fun _ => ordered
  · exact good.vacant
  · exact good.placed
  · exact good.credited_once
  · exact fun x member => List.mem_cons_of_mem _ (good.credited_erased x member)

theorem View.Step.erased {v : View} (news : v.neworder ≠ []) (i : ℕ) :
    v.Step i (v.erased i) where
  orderedBy := Or.inl rfl
  erasedBy := Or.inr ⟨rfl, news⟩
  credits := Or.inl rfl
  order := Or.inl rfl
  neworder := Or.inr (Or.inl (List.mem_cons_self ..))
  orderWdc := Or.inl rfl
  lines _ := Or.inl rfl

theorem View.Good.uncredited {v : View} (good : v.Good) (unerased : v.erasedBy = []) :
    v.credits = [] := by
  rw [List.eq_nil_iff_forall_not_mem]
  intro x member
  have := good.credited_erased x member
  rw [unerased] at this
  cases this

theorem Inv.erased {s s' : State} (inv : Inv base s) (news : (view s k).neworder ≠ [])
    (new : s' = ⟨{ s.db with neworder := erase s.db.neworder k }, (i, .erased k) :: s.journal⟩)
    (here : view s' k = (view s k).erased i)
    (others : ∀ k', k' ≠ k → view s' k' = view s k') : Inv base s' where
  good := by
    apply inv.good_at others
    rw [here]
    exact (inv.good k).erased news i
  fresh w d o high none := by
    refine inv.fresh_at others (fun w d o key high none => ?_) high none
    rw [here] at none
    have empty := inv.fresh w d o high (by rw [← key]; exact none)
    rw [← key] at empty
    exact absurd empty.neworder news
  ids w d := by
    rw [new, takenIds_erased]
    exact inv.ids w d
  next w d r result := by
    rw [new, takenIds_erased]
    rw [new] at result
    exact inv.next w d r result
  balance c := by
    rw [new, creditedTo_erased]
    exact inv.balance c
  tables := by
    obtain ⟨h1, h2, h3, h4, h5⟩ := inv.tables
    rw [new]
    exact ⟨h1, h2, h3, h4, h5⟩

/-- The row is still there, so nobody else has erased it, or will. -/
theorem eraseNewOrder_holds :
    Holds (Inv base) Undisturbed (Rely i) (Guar i) (Settled i carrierId datetime)
      (eraseNewOrder i k)
      fun _ s => ∃ c cnt, 0 ≤ cnt ∧
        Delivering i carrierId datetime k c cnt false false [] 0 s := by
  apply Holds.atomic
  · intro s inv settled there
    have good := inv.good k
    have news : (view s k).neworder ≠ [] := there
    obtain ⟨_, unerased, ordered⟩ := good.news news
    obtain ⟨r, j, order, low, high, _⟩ := good.placed ordered
    have found : lookup s.db.neworder k ≠ none := by
      rw [lookup_eq]
      intro none
      rw [List.head?_eq_none_iff] at none
      exact there none
    simp only [found, if_false]
    obtain ⟨s', new⟩ : ∃ s' : State, s' =
      ⟨{ s.db with neworder := erase s.db.neworder k }, (i, .erased k) :: s.journal⟩ := ⟨_, rfl⟩
    have here : view s' k = (view s k).erased i := by
      rw [new, view_erased, if_pos rfl]
      rfl
    have others : ∀ k', k' ≠ k → view s' k' = view s k' := by
      intro k' differ
      rw [new, view_erased, if_neg fun h => differ h.symm]
    rw [← new]
    refine ⟨inv.erased news new here others, ?_, r.oCId, r.oOlCnt, by omega, ?_⟩
    · apply guar_at others
      rw [here]
      exact View.Step.erased news i
    · constructor
      · rw [here]
        exact List.mem_cons_self ..
      · intro k' differ after
        rw [others k' differ] at after ⊢
        exact settled k' after
      · rw [here]
        exact ⟨r, order, rfl, by simp⟩
      · rw [here]
        simp [View.erased, good.uncredited unerased]
      · simp
      · simp
      · simp
      · simp [lineTotal]
  · rintro _ s s' inv inv' ⟨c, cnt, positive, delivering⟩ rely
    exact ⟨c, cnt, positive, Delivering.stable i _ _ k c cnt _ _ _ _ s s' inv inv' delivering rely⟩

theorem findOrder_holds (carrierId datetime : ℤ) :
    Holds (Inv base) Undisturbed (Rely i) (Guar i)
      (fun s => ∃ c cnt, 0 ≤ cnt ∧ Delivering i carrierId datetime k c cnt false false [] 0 s)
      (read fun db => firstFrom k db.order)
      fun a s => ∃ r, a = some (k, r) ∧ 0 ≤ r.oOlCnt ∧
        Delivering i carrierId datetime k r.oCId r.oOlCnt false false [] 0 s := by
  apply Holds.atomic
  · rintro s inv ⟨c, cnt, positive, delivering⟩ _
    refine ⟨inv, guar_refl i s, ?_⟩
    obtain ⟨r, order, core, _⟩ := delivering.order
    have rows : rowsAt s.db.order k = [r] := order
    have present : r ∈ rowsAt s.db.order k := by rw [rows]; exact List.mem_singleton.mpr rfl
    obtain ⟨r', first, member⟩ := firstFrom_present (mem_rowsAt.mp present)
    have same := mem_rowsAt.mpr member
    rw [rows, List.mem_singleton] at same
    subst same
    have customer : r'.oCId = c := congrArg Prod.fst core
    have count : r'.oOlCnt = cnt := congrArg Prod.snd core
    refine ⟨r', first, ?_, ?_⟩
    · rwa [count]
    · rwa [customer, count]
  · rintro a s s' inv inv' ⟨r, first, positive, delivering⟩ rely
    exact ⟨r, first, positive,
      Delivering.stable i _ _ k _ _ _ _ _ _ s s' inv inv' delivering rely⟩

theorem Inv.erased_ordered {s : State} (inv : Inv base s) (mine : i ∈ (view s k).erasedBy)
    {w d o : ℤ} (key : k = [w, d, o]) (high : 3001 ≤ o) : (view s k).orderedBy ≠ [] := by
  intro none
  subst key
  have empty := inv.fresh w d o high none
  exact (inv.good _).held (List.ne_nil_of_mem mine) empty.order

theorem carry_holds (carrierId datetime : ℤ) {c cnt : ℤ} :
    Holds (Inv base) Undisturbed (Rely i) (Guar i)
      (Delivering i carrierId datetime k c cnt false false [] 0)
      (change fun db => { db with
        order := update k (fun r => { r with oCarrierId := carrierId }) db.order })
      fun _ s => Delivering i carrierId datetime k c cnt true false [] 0 s := by
  apply change_holds (Delivering.stable i _ _ k _ _ _ _ _ _)
  intro s inv delivering
  obtain ⟨mine, others, ⟨r, order, core, _⟩, uncredited, inside, complete, lines, sum⟩ := delivering
  obtain ⟨s', new⟩ : ∃ s' : State, s' = { s with db := { s.db with
      order := update k (fun r => { r with oCarrierId := carrierId }) s.db.order } } := ⟨_, rfl⟩
  have rows : RowsOnly k s s' := by
    rw [new]
    exact updateOrder_rows s k _
  have here : view s' k = { view s k with order := [{ r with oCarrierId := carrierId }] } := by
    rw [new, view_updateOrder, if_pos rfl, order]
    rfl
  have good := inv.good k
  rw [← new]
  refine ⟨?_, ?_, ?_⟩
  · apply rows.inv inv
    · rw [here]
      constructor
      · exact good.ordered_once
      · exact good.erased_once
      · exact fun h => ⟨(good.news h).1, (good.news h).2.1, List.cons_ne_nil _ _⟩
      · exact fun _ => List.cons_ne_nil _ _
      · exact fun h => absurd h (List.cons_ne_nil _ _)
      · intro _
        obtain ⟨r', j, same, low, high, placed⟩ := good.placed (by
          rw [order]
          exact List.cons_ne_nil _ _)
        rw [order, List.cons.injEq] at same
        obtain rfl := same.1
        exact ⟨_, j, rfl, low, high, placed⟩
      · exact good.credited_once
      · exact good.credited_erased
    · intro w d o key high none
      rw [here] at none
      exact absurd none (inv.erased_ordered mine key high)
  · apply guar_at rows.others
    rw [here]
    constructor
    · exact Or.inl rfl
    · exact Or.inl rfl
    · exact Or.inl rfl
    · refine Or.inr (Or.inl ⟨mine, ?_⟩)
      rw [order]
      rfl
    · exact Or.inl rfl
    · exact Or.inl rfl
    · exact fun _ => Or.inl rfl
  · constructor
    · rw [here]
      exact mine
    · intro k' differ after
      rw [rows.others k' differ] at after ⊢
      exact others k' differ after
    · rw [here]
      exact ⟨_, rfl, core, fun _ => rfl⟩
    · rw [here]
      exact uncredited
    · exact inside
    · exact complete
    · rw [here]
      exact lines
    · rw [here, sum]
      rfl

theorem checkLines_holds {c cnt : ℤ} :
    Holds (Inv base) Undisturbed (Rely i) (Guar i)
      (Delivering i carrierId datetime k c cnt true false [] 0) (checkLines k cnt)
      fun a s => a = true ∧ Delivering i carrierId datetime k c cnt true true [] 0 s := by
  apply Holds.atomic
  · intro s inv delivering there
    obtain ⟨line, member⟩ := List.exists_mem_of_ne_nil _ there
    obtain ⟨line', first, _⟩ := firstFrom_present (mem_rowsAt.mp member)
    simp only [first, decide_true]
    refine ⟨inv, guar_refl i s, trivial, ?_⟩
    obtain ⟨mine, others, ⟨r, order, core, carried⟩, uncredited, inside, _, _, sum⟩ := delivering
    obtain ⟨r', j, same, low, high, placed⟩ := (inv.good k).placed (by
      rw [order]
      exact List.cons_ne_nil _ _)
    rw [order, List.cons.injEq] at same
    obtain rfl := same.1
    have count : r.oOlCnt = cnt := congrArg Prod.snd core
    have last : 1 ≤ cnt ∧ cnt ≤ j := by
      by_contra out
      have len := placed cnt
      rw [if_neg out] at len
      exact there (List.eq_nil_of_length_eq_zero len)
    refine ⟨mine, others, ⟨r, order, core, carried⟩, uncredited, inside, fun h => absurd rfl h, ?_,
      sum⟩
    intro _ l first last
    have len := placed l
    rw [if_pos ⟨first, by omega⟩, List.length_eq_one_iff] at len
    obtain ⟨line, here⟩ := len
    exact ⟨line, here, fun h => by cases h⟩
  · rintro a s s' inv inv' ⟨safe, delivering⟩ rely
    exact ⟨safe, Delivering.stable i _ _ k _ _ _ _ _ _ s s' inv inv' delivering rely⟩

theorem lineTotal_snoc (v : View) (done : List ℤ) (l : ℤ) :
    lineTotal v (done ++ [l]) = lineTotal v done + lineAmount v l := by
  simp [lineTotal]

/-- The order with line `l` stamped. -/
def View.stamp (v : View) (datetime l : ℤ) : View :=
  { v with lines := fun l' =>
      if l = l' then (v.lines l').modifyHead fun rec => { rec with olDeliveryD := datetime }
      else v.lines l' }

section Stamp
variable {v : View} {l : ℤ}

@[simp] theorem stamp_length (datetime l l' : ℤ) :
    ((v.stamp datetime l).lines l').length = (v.lines l').length := by
  by_cases same : l = l'
  · simp [View.stamp, same]
  · simp [View.stamp, same]

@[simp] theorem stamp_amounts (datetime l l' : ℤ) :
    ((v.stamp datetime l).lines l').map (·.olAmount) = (v.lines l').map (·.olAmount) := by
  by_cases same : l = l'
  · subst same
    cases here : v.lines l with
    | nil => simp [View.stamp, here]
    | cons line rest => simp [View.stamp, here]
  · simp [View.stamp, same]

@[simp] theorem stamp_amount (datetime l l' : ℤ) :
    lineAmount (v.stamp datetime l) l' = lineAmount v l' := by
  by_cases same : l = l'
  · subst same
    cases here : v.lines l with
    | nil => simp [lineAmount, View.stamp, here]
    | cons line rest => simp [lineAmount, View.stamp, here]
  · simp [lineAmount, View.stamp, same]

@[simp] theorem stamp_total (datetime l : ℤ) (ls : List ℤ) :
    lineTotal (v.stamp datetime l) ls = lineTotal v ls := by
  rw [lineTotal, lineTotal, List.map_congr_left fun l' _ => stamp_amount datetime l l']

theorem stamp_self {line : Orderline} (there : v.lines l = [line]) (datetime : ℤ) :
    (v.stamp datetime l).lines l = [{ line with olDeliveryD := datetime }] := by
  simp [View.stamp, there]

theorem stamp_ne {l' : ℤ} (differ : l ≠ l') (datetime : ℤ) :
    (v.stamp datetime l).lines l' = v.lines l' := if_neg differ

theorem View.Good.stamp (good : v.Good) (datetime l : ℤ) : (v.stamp datetime l).Good where
  ordered_once := good.ordered_once
  erased_once := good.erased_once
  news := good.news
  held := good.held
  vacant none l' := by
    rw [stamp_length]
    exact good.vacant none l'
  placed some := by
    obtain ⟨r, j, one, least, most, placed⟩ := good.placed some
    refine ⟨r, j, one, least, most, ?_⟩
    intro l'
    rw [stamp_length]
    exact placed l'
  credited_once := good.credited_once
  credited_erased := good.credited_erased

theorem View.Step.stamp (mine : i ∈ v.erasedBy) (datetime l : ℤ) :
    v.Step i (v.stamp datetime l) where
  orderedBy := Or.inl rfl
  erasedBy := Or.inl rfl
  credits := Or.inl rfl
  order := Or.inl rfl
  neworder := Or.inl rfl
  orderWdc := Or.inl rfl
  lines l' := Or.inr (Or.inl ⟨mine, stamp_amounts datetime l l'⟩)

end Stamp

theorem Delivering.stamp {c cnt : ℤ} {done : List ℤ} {total : ℚ} {l : ℤ} {s s' : State}
    (delivering : Delivering i carrierId datetime k c cnt true true done total s)
    (rows : RowsOnly k s s') (here : view s' k = (view s k).stamp datetime l) (low : 1 ≤ l)
    (high : l ≤ cnt) :
    Delivering i carrierId datetime k c cnt true true (done ++ [l])
      (total + lineAmount (view s k) l) s' := by
  obtain ⟨mine, others, order, uncredited, inside, _, lines, sum⟩ := delivering
  constructor
  · rw [here]
    exact mine
  · intro k' differ after
    rw [rows.others k' differ] at after ⊢
    exact others k' differ after
  · rw [here]
    exact order
  · rw [here]
    exact uncredited
  · intro l' member
    rcases List.mem_append.mp member with member | member
    · exact inside l' member
    · rw [List.mem_singleton.mp member]
      exact ⟨low, high⟩
  · exact fun _ => rfl
  · intro _ l' first last
    obtain ⟨line, there, stamped⟩ := lines rfl l' first last
    rw [here]
    by_cases same : l = l'
    · subst same
      exact ⟨_, stamp_self there datetime, fun _ => rfl⟩
    · refine ⟨line, (stamp_ne same datetime).trans there, ?_⟩
      intro member
      rcases List.mem_append.mp member with member | member
      · exact stamped member
      · exact absurd (List.mem_singleton.mp member).symm same
  · rw [here, lineTotal_snoc, stamp_total, stamp_amount, sum]

theorem stampLine_holds {c cnt : ℤ} {done : List ℤ} {total : ℚ} {l : ℤ} (low : 1 ≤ l)
    (high : l ≤ cnt) :
    Holds (Inv base) Undisturbed (Rely i) (Guar i)
      (Delivering i carrierId datetime k c cnt true true done total) (stampLine k datetime l)
      fun amount s =>
        Delivering i carrierId datetime k c cnt true true (done ++ [l]) (total + amount) s := by
  apply Holds.atomic
  · intro s inv delivering _
    obtain ⟨line, there, _⟩ := delivering.lines rfl l low high
    have found : lookup s.db.orderline (k ++ [l]) = some line := by
      rw [lookup_eq]
      exact congrArg List.head? there
    simp only [found]
    obtain ⟨s', new⟩ : ∃ s' : State, s' = { s with db := { s.db with
        orderline := update (k ++ [l]) (fun rec => { rec with olDeliveryD := datetime })
          s.db.orderline } } := ⟨_, rfl⟩
    have rows : RowsOnly k s s' := by
      rw [new]
      exact updateLine_rows s k l _
    have here : view s' k = (view s k).stamp datetime l := by
      rw [new, view_updateLine, if_pos rfl]
      rfl
    have mine := delivering.mine
    rw [← new]
    refine ⟨?_, ?_, ?_⟩
    · apply rows.inv inv
      · rw [here]
        exact (inv.good k).stamp datetime l
      · intro w d o key fresh none
        rw [here] at none
        exact absurd none (inv.erased_ordered mine key fresh)
    · apply guar_at rows.others
      rw [here]
      exact View.Step.stamp mine datetime l
    · have amount : lineAmount (view s k) l = line.olAmount := by rw [lineAmount, there]
      rw [← amount]
      exact delivering.stamp rows here low high
  · intro amount
    exact Delivering.stable i _ _ k _ _ _ _ _ _

theorem stampLines_holds {c cnt : ℤ} {done : List ℤ} {total : ℚ} {ls : List ℤ}
    (inside : ∀ l ∈ ls, 1 ≤ l ∧ l ≤ cnt) :
    Holds (Inv base) Undisturbed (Rely i) (Guar i)
      (Delivering i carrierId datetime k c cnt true true done total)
      (stampLines k datetime total ls)
      fun all s => Delivering i carrierId datetime k c cnt true true (done ++ ls) all s := by
  induction ls generalizing done total with
  | nil =>
    apply Holds.pure
    intro s _ here
    rwa [List.append_nil]
  | cons l ls ih =>
    obtain ⟨low, high⟩ := inside l (by simp)
    rw [stampLines]
    apply Holds.bind (stampLine_holds low high)
    intro amount
    have rest := @ih (done ++ [l]) (total + amount)
      fun l' member => inside l' (List.mem_cons_of_mem _ member)
    rwa [List.append_assoc] at rest

/-- The order with its total credited to the customer by transaction `i`. -/
def View.credit (v : View) (i : ℕ) (customer : Key) (total : ℚ) : View :=
  { v with credits := (i, customer, total) :: v.credits }

theorem View.Good.credit {v : View} (good : v.Good) (mine : i ∈ v.erasedBy)
    (nobody : v.credits = []) (customer : Key) (total : ℚ) : (v.credit i customer total).Good where
  ordered_once := good.ordered_once
  erased_once := good.erased_once
  news := good.news
  held := good.held
  vacant := good.vacant
  placed := good.placed
  credited_once := by simp [View.credit, nobody]
  credited_erased x member := by
    rw [View.credit, nobody] at member
    rw [List.mem_singleton.mp member]
    exact mine

theorem View.Step.credit (v : View) (i : ℕ) (customer : Key) (total : ℚ) :
    v.Step i (v.credit i customer total) where
  orderedBy := Or.inl rfl
  erasedBy := Or.inl rfl
  credits := Or.inr ⟨_, rfl, rfl⟩
  order := Or.inl rfl
  neworder := Or.inl rfl
  orderWdc := Or.inl rfl
  lines _ := Or.inl rfl

section Credit
variable {s s' : State} {customer : Key} {total : ℚ}
  (new : s' = ⟨{ s.db with customer := update customer (fun rec => { rec with
      cBalance := rec.cBalance + total
      cDeliveryCnt := rec.cDeliveryCnt + 1 }) s.db.customer },
    (i, .credited k customer total) :: s.journal⟩)
include new

theorem Inv.balance_credited (inv : Inv base s) (c : Key) :
    (lookup s'.db.customer c).map (·.cBalance) =
      (lookup base.customer c).map fun r => r.cBalance + creditedTo s'.journal c := by
  have old := inv.balance c
  rw [new, creditedTo_credited]
  simp only [lookup_update]
  split
  · rename_i same
    subst same
    rw [Option.map_map]
    calc (lookup s.db.customer customer).map (fun a => a.cBalance + total)
        = ((lookup s.db.customer customer).map (·.cBalance)).map (· + total) := by
          rw [Option.map_map]
          rfl
      _ = (lookup base.customer customer).map fun b =>
            b.cBalance + creditedTo s.journal customer + total := by
          rw [old, Option.map_map]
          rfl
      _ = _ := by simp only [add_assoc, add_comm total]
  · exact old

theorem Inv.credited (inv : Inv base s) (mine : i ∈ (view s k).erasedBy)
    (nobody : (view s k).credits = []) (here : view s' k = (view s k).credit i customer total)
    (others : ∀ k', k' ≠ k → view s' k' = view s k') : Inv base s' where
  good := by
    apply inv.good_at others
    rw [here]
    exact (inv.good k).credit mine nobody customer total
  fresh w d o high none := by
    refine inv.fresh_at others (fun w d o key high none => ?_) high none
    rw [here] at none
    exact absurd none (inv.erased_ordered mine key high)
  ids w d := by
    rw [new, takenIds_credited]
    exact inv.ids w d
  next w d r result := by
    rw [new, takenIds_credited]
    rw [new] at result
    exact inv.next w d r result
  balance := inv.balance_credited new
  tables := by
    obtain ⟨h1, h2, h3, h4, h5⟩ := inv.tables
    rw [new]
    exact ⟨h1, h2, h3, fun c => (lookup_update_none _ _ _ _).trans (h4 c), h5⟩

end Credit

theorem Delivering.settled {c cnt : ℤ} {total : ℚ} {s s' : State}
    (delivering : Delivering i carrierId datetime k c cnt true true (lineNumbers cnt) total s)
    (here : view s' k = (view s k).credit i (customerKey k c) total)
    (others : ∀ k', k' ≠ k → view s' k' = view s k') : Settled i carrierId datetime s' := by
  obtain ⟨_, before, ⟨r, order, core, carried⟩, _, _, _, lines, sum⟩ := delivering
  intro k' erased
  by_cases same : k' = k
  · rw [same, here]
    have customer : r.oCId = c := congrArg Prod.fst core
    have count : r.oOlCnt = cnt := congrArg Prod.snd core
    refine ⟨r, order, carried rfl, ?_, ?_⟩
    · intro l low high
      obtain ⟨line, at_l, stamped⟩ := lines rfl l low (by omega)
      exact ⟨line, at_l, stamped (mem_lineNumbers.mpr ⟨low, by omega⟩)⟩
    · rw [customer, count, sum]
      exact List.mem_cons_self ..
  · rw [others k' same] at erased ⊢
    exact before k' same erased

theorem creditCustomer_holds {c cnt : ℤ} {total : ℚ} :
    Holds (Inv base) Undisturbed (Rely i) (Guar i)
      (Delivering i carrierId datetime k c cnt true true (lineNumbers cnt) total)
      (creditCustomer i k (customerKey k c) total) fun _ s => Settled i carrierId datetime s := by
  apply Holds.atomic
  · intro s inv delivering there
    have found : lookup s.db.customer (customerKey k c) ≠ none := there
    simp only [found, if_false]
    have good := inv.good k
    have nobody : (view s k).credits = [] := by
      rw [List.eq_nil_iff_forall_not_mem]
      intro x member
      exact delivering.uncredited x member
        (mem_unique good.erased_once (good.credited_erased x member) delivering.mine)
    obtain ⟨s', new⟩ : ∃ s' : State, s' =
      ⟨{ s.db with customer := update (customerKey k c) (fun rec => { rec with
          cBalance := rec.cBalance + total
          cDeliveryCnt := rec.cDeliveryCnt + 1 }) s.db.customer },
        (i, .credited k (customerKey k c) total) :: s.journal⟩ := ⟨_, rfl⟩
    have here : view s' k = (view s k).credit i (customerKey k c) total := by
      rw [new, view_credited, if_pos rfl]
      rfl
    have others : ∀ k', k' ≠ k → view s' k' = view s k' := by
      intro k' differ
      rw [new, view_credited, if_neg fun h => differ h.symm]
    rw [← new]
    refine ⟨inv.credited new delivering.mine nobody here others, ?_,
      delivering.settled here others⟩
    apply guar_at others
    rw [here]
    exact View.Step.credit _ i _ _
  · intro _
    exact Settled.stable i carrierId datetime

end Calls

theorem deliverOrder_holds (i : ℕ) (w carrierId datetime d o : ℤ) :
    Holds (Inv base) Undisturbed (Rely i) (Guar i) (Settled i carrierId datetime)
      (deliverOrder i w carrierId datetime d o) fun _ s => Settled i carrierId datetime s := by
  rw [deliverOrder]
  apply Holds.bind eraseNewOrder_holds
  intro _
  apply Holds.bind (findOrder_holds carrierId datetime)
  intro first
  match first with
  | none =>
    apply Holds.never
    rintro s _ ⟨_, none, _⟩
    cases none
  | some (key, rec) =>
    by_cases missing : rec.oOlCnt = minInteger
    · apply Holds.never
      rintro s _ ⟨r, same, positive, _⟩
      cases same
      rw [missing] at positive
      exact absurd positive (by decide)
    · simp only [missing, if_false]
      apply Holds.bind ((findOrder_holds carrierId datetime).weaken ?_ fun _ _ _ h => h)
      · intro again
        match again with
        | none =>
          apply Holds.never
          rintro s _ ⟨_, none, _⟩
          cases none
        | some (key, rec) =>
          by_cases other : key = [w, d, o]
          · subst other
            simp only [ne_eq, not_true_eq_false, if_false]
            apply Holds.bind ((carry_holds carrierId datetime).weaken ?_ fun _ _ _ h => h)
            · intro _
              apply Holds.bind checkLines_holds
              intro safe
              cases safe with
              | false =>
                apply Holds.never
                rintro s _ ⟨h, _⟩
                cases h
              | true =>
                simp only [if_true]
                have numbers : ∀ l ∈ lineNumbers rec.oOlCnt, 1 ≤ l ∧ l ≤ rec.oOlCnt :=
                  fun l member => mem_lineNumbers.mp member
                apply Holds.bind ((stampLines_holds numbers).weaken (fun _ _ h => h.2)
                  fun _ _ _ h => h)
                intro total
                exact creditCustomer_holds
            · rintro s _ ⟨r, same, _, delivering⟩
              cases same
              exact delivering
          · apply Holds.never
            rintro s _ ⟨r, same, _⟩
            cases same
            exact other rfl
      · rintro s _ ⟨r, _, positive, delivering⟩
        exact ⟨_, _, positive, delivering⟩

theorem delivery_holds (i : ℕ) (w carrierId datetime : ℤ) :
    Holds (Inv base) Undisturbed (Rely i) (Guar i) (Settled i carrierId datetime)
      (delivery i w carrierId datetime)
      fun a s => a = .delivered ∧ Settled i carrierId datetime s := by
  rw [delivery]
  apply Holds.bind (Holds.each ?_)
  · intro _
    exact Holds.pure fun s _ settled => ⟨rfl, settled⟩
  · intro d _
    rw [deliverDistrict]
    apply Holds.bind (read_holds (fun _ => True) (Settled.stable i carrierId datetime)
      fun _ _ _ => trivial)
    intro o
    by_cases none : o = minInteger
    · rw [if_pos none]
      exact Holds.pure fun s _ h => h.2
    · rw [if_neg none]
      exact (deliverOrder_holds i w carrierId datetime d o).weaken (fun _ _ h => h.2)
        fun _ _ _ h => h

end Tpcc
