import OsvBenchmarks.Tpcc.Load
import OsvBenchmarks.Tpcc.Calls
import Mathlib.Data.Set.Function

/-!
Runs of newOrders and deliveries from the loaded database, call by call in any
order: what the journal records, what each transaction has reached when it has
finished, and which ids the newOrders of one district obtain.
-/
namespace Tpcc
open Runs Interleave Table

def Recorded (calls : List Call) : ℕ × Event → Prop
  | (i, .ordered _) => ∃ o, calls[i]? = some (.newOrder o)
  | (i, .erased _) => ∃ wId carrierId, calls[i]? = some (.delivery wId carrierId)
  | (i, .credited _ _ _) => ∃ wId carrierId, calls[i]? = some (.delivery wId carrierId)
  | (_, .paid _ _) => True

def Logs (calls : List Call) (effect : State → State) : Prop :=
  ∀ s, ∃ new, (effect s).journal = new ++ s.journal ∧ ∀ e ∈ new, Recorded calls e

theorem Logs.quiet {calls : List Call} {effect : State → State}
    (same : ∀ s, (effect s).journal = s.journal) : Logs calls effect :=
  fun s => ⟨[], same s, fun _ none => absurd none List.not_mem_nil⟩

theorem Logs.one {calls : List Call} {effect : State → State}
    (one : ∀ s, (effect s).journal = s.journal ∨
      ∃ e, (effect s).journal = e :: s.journal ∧ Recorded calls e) : Logs calls effect := by
  intro s
  rcases one s with same | ⟨e, more, recorded⟩
  · exact ⟨[], same, fun _ none => absurd none List.not_mem_nil⟩
  · refine ⟨[e], more, ?_⟩
    intro e' member
    rwa [List.mem_singleton.mp member]

theorem NewOrderCall.logs {calls : List Call} {i : ℕ} {o : NewOrder}
    (this : calls[i]? = some (.newOrder o)) {l : Label} {effect : State → State}
    (call : NewOrderCall i l effect) : Logs calls effect := by
  cases call with
  | read f => exact Logs.quiet fun _ => rfl
  | change f => exact Logs.quiet fun _ => rfl
  | take wId dId =>
    apply Logs.one
    intro s
    rw [takeOId, Prog.run_atomic]
    cases lookup s.db.district [wId, dId] with
    | none => exact Or.inl rfl
    | some rec => exact Or.inr ⟨_, rfl, o, this⟩

theorem NewOrderCall.other {i : ℕ} {l : Label} {effect : State → State}
    (call : NewOrderCall i l effect) : l = .other := by
  cases call <;> rfl

theorem DeliveryCall.logs {calls : List Call} {i : ℕ} {wId carrierId : ℤ}
    (this : calls[i]? = some (.delivery wId carrierId)) {l : Label} {effect : State → State}
    (call : DeliveryCall i l effect) : Logs calls effect := by
  cases call with
  | read f => exact Logs.quiet fun _ => rfl
  | erase k =>
    apply Logs.one
    intro s
    rw [eraseNewOrder, Prog.run_atomic]
    by_cases none : lookup s.db.neworder k = none
    · exact Or.inl (by rw [if_pos none])
    · exact Or.inr ⟨(i, .erased k), by rw [if_neg none], wId, carrierId, this⟩
  | carry k carrierId => exact Logs.quiet fun _ => rfl
  | check k olCnt =>
    apply Logs.quiet
    intro s
    rw [checkLines, Prog.run_atomic]
    split <;> rfl
  | stamp k datetime l => exact Logs.quiet fun _ => rfl
  | credit k customer olTotal =>
    apply Logs.one
    intro s
    rw [creditCustomer, Prog.run_atomic]
    by_cases none : lookup s.db.customer customer = none
    · exact Or.inl (by rw [if_pos none])
    · exact Or.inr ⟨(i, .credited k customer olTotal), by rw [if_neg none], wId, carrierId, this⟩

def Call.OfOrders : Call → Prop
  | newOrder _ => True
  | delivery _ _ => True
  | paymentById _ _ => False
  | paymentByName _ _ => False

/-- What transaction `i` has reached when it has finished. -/
def Ends (calls : List Call) (i : ℕ) (a : Outcome) (s : State) : Prop :=
  match calls[i]? with
  | some (.newOrder o) => ∃ oId, a = .ordered oId ∧
      Placing i [o.wId, o.dId, oId] o.cId o.lines.length true true true o.lines.length s
  | some (.delivery _ carrierId) => a = .delivered ∧ Settled i carrierId currentTimestamp s
  | some (.paymentById _ _) => True
  | some (.paymentByName _ _) => True
  | none => True

section Start
variable {W : ℕ} (draws : Draws) {calls : List Call}

theorem startPool_threads {db : Database} {i : ℕ} {p : Tx Outcome}
    (here : (startPool db calls).threads[i]? = some p) :
    ∃ c, calls[i]? = some c ∧ p = c.program i := by
  rw [startPool, List.getElem?_mapIdx] at here
  obtain ⟨c, there, rfl⟩ := Option.map_eq_some_iff.mp here
  exact ⟨c, there, rfl⟩

theorem start_proven (drawn : ∀ c ∈ calls, c.Drawn W ∧ c.OfOrders) :
    Proven (Inv (load W draws)) Undisturbed Rely Guar (Ends calls)
      (startPool (load W draws) calls) := by
  refine ⟨load_inv W draws, ?_⟩
  intro i p here
  obtain ⟨c, there, rfl⟩ := startPool_threads here
  obtain ⟨drawn, orders⟩ := drawn c (List.mem_of_getElem? there)
  cases c with
  | newOrder o =>
    refine ⟨Untaken i, fun _ => List.not_mem_nil, Untaken.stable i, ?_⟩
    apply (newOrder_holds i (load_stocked W draws drawn)).weaken fun _ _ h => h
    intro a s _ done
    rw [Ends, there]
    exact done
  | delivery wId carrierId =>
    refine ⟨Settled i carrierId currentTimestamp, fun _ none => absurd none List.not_mem_nil,
      Settled.stable i _ _, ?_⟩
    apply (delivery_holds i wId carrierId currentTimestamp).weaken fun _ _ h => h
    intro a s _ done
    rw [Ends, there]
    exact done
  | paymentById p cId => exact False.elim orders
  | paymentByName p cLast => exact False.elim orders

theorem start_logs {db : Database} (orders : ∀ c ∈ calls, c.OfOrders) :
    ∀ p ∈ (startPool db calls).threads, p.Calls fun _ effect => Logs calls effect := by
  intro p member
  obtain ⟨i, here⟩ := List.mem_iff_getElem?.mp member
  obtain ⟨c, there, rfl⟩ := startPool_threads here
  have order := orders c (List.mem_of_getElem? there)
  cases c with
  | newOrder o => exact (newOrder_calls i o).mono fun _ _ call => call.logs there
  | delivery wId carrierId => exact (delivery_calls i _ _ _).mono fun _ _ call => call.logs there
  | paymentById p cId => exact False.elim order
  | paymentByName p cLast => exact False.elim order

theorem run_recorded {db : Database} (orders : ∀ c ∈ calls, c.OfOrders) {moves : List ℕ}
    {pool : Pool State Label Outcome} (run : exec next (startPool db calls) moves = some pool) :
    ∀ e ∈ pool.shared.journal, Recorded calls e := by
  apply (exec_calls (I := fun s : State => ∀ e ∈ s.journal, Recorded calls e) _
    (start_logs orders) (fun _ none => absurd none List.not_mem_nil) run).1
  intro l effect logs s before e member
  obtain ⟨new, same, recorded⟩ := logs s
  rw [same] at member
  rcases List.mem_append.mp member with member | member
  · exact recorded e member
  · exact before e member

end Start

theorem mem_orderedBy {journal : List (ℕ × Event)} {i : ℕ} {k : Key} :
    i ∈ orderedBy journal k ↔ (i, .ordered k) ∈ journal := by
  simp only [orderedBy, List.mem_filterMap]
  constructor
  · rintro ⟨⟨j, e⟩, member, found⟩
    cases e with
    | ordered k' =>
      simp only [Option.ite_none_right_eq_some, Option.some.injEq] at found
      obtain ⟨rfl, rfl⟩ := found
      exact member
    | erased _ => cases found
    | credited _ _ _ => cases found
    | paid _ _ => cases found
  · intro member
    exact ⟨_, member, by simp⟩

theorem mem_erasedBy {journal : List (ℕ × Event)} {i : ℕ} {k : Key} :
    i ∈ erasedBy journal k ↔ (i, .erased k) ∈ journal := by
  simp only [erasedBy, List.mem_filterMap]
  constructor
  · rintro ⟨⟨j, e⟩, member, found⟩
    cases e with
    | erased k' =>
      simp only [Option.ite_none_right_eq_some, Option.some.injEq] at found
      obtain ⟨rfl, rfl⟩ := found
      exact member
    | ordered _ => cases found
    | credited _ _ _ => cases found
    | paid _ _ => cases found
  · intro member
    exact ⟨_, member, by simp⟩

theorem taken_ordered {journal : List (ℕ × Event)} {w d o : ℤ} (taken : o ∈ takenIds journal w d) :
    ∃ i, i ∈ orderedBy journal [w, d, o] := by
  obtain ⟨⟨i, e⟩, member, found⟩ := List.mem_filterMap.mp taken
  refine ⟨i, mem_orderedBy.mpr ?_⟩
  simp only at found
  split at found
  · split at found
    · rename_i same
      cases found
      obtain ⟨rfl, rfl⟩ := same
      exact member
    · cases found
  all_goals cases found

theorem idsDown_nodup (n : ℕ) : (idsDown n).Nodup := by
  induction n with
  | zero => exact List.nodup_nil
  | succ n ih =>
    rw [idsDown, List.nodup_cons, mem_idsDown]
    exact ⟨by omega, ih⟩

/-- Every newOrder has placed its order under the id `oId i`, and nothing else is logged. -/
structure AllPlaced (base : Database) (w d : ℤ) (orders : List NewOrder) (oId : ℕ → ℤ)
    (pool : Pool State Label Outcome) : Prop where
  inv : Inv base pool.shared
  recorded : ∀ e ∈ pool.shared.journal, Recorded (orders.map .newOrder) e
  ends : ∀ i o, orders[i]? = some o → pool.threads[i]? = some (.ret (.ordered (oId i))) ∧
    Placing i [w, d, oId i] o.cId o.lines.length true true true o.lines.length pool.shared

namespace AllPlaced
variable {base : Database} {w d : ℤ} {orders : List NewOrder} {oId : ℕ → ℤ}
  {pool : Pool State Label Outcome} (placed : AllPlaced base w d orders oId pool)
include placed

theorem placing {i : ℕ} (range : i < orders.length) :
    i ∈ orderedBy pool.shared.journal [w, d, oId i] ∧
      ∀ k, i ∈ orderedBy pool.shared.journal k → k = [w, d, oId i] := by
  have placing := (placed.ends i _ (List.getElem?_eq_getElem range)).2
  exact ⟨placing.mine, placing.only⟩

theorem unerased (k : Key) : erasedBy pool.shared.journal k = [] := by
  rw [List.eq_nil_iff_forall_not_mem]
  intro i member
  obtain ⟨wId, carrierId, call⟩ := placed.recorded _ (mem_erasedBy.mp member)
  obtain ⟨o, _, same⟩ := List.mem_map.mp (List.mem_of_getElem? call)
  cases same

theorem taken {i : ℕ} (range : i < orders.length) : oId i ∈ takenIds pool.shared.journal w d := by
  by_contra free
  have member := (placed.placing range).1
  rw [orderedBy_nil free] at member
  cases member

theorem injective {i j : ℕ} (hi : i < orders.length) (hj : j < orders.length)
    (same : oId i = oId j) : i = j := by
  have one := (placed.placing hi).1
  have two := (placed.placing hj).1
  rw [← same] at two
  exact mem_unique (placed.inv.good [w, d, oId i]).ordered_once one two

theorem onto {o : ℤ} (taken : o ∈ takenIds pool.shared.journal w d) :
    ∃ i < orders.length, oId i = o := by
  obtain ⟨i, member⟩ := taken_ordered taken
  obtain ⟨_, call⟩ := placed.recorded _ (mem_orderedBy.mp member)
  have range : i < orders.length := by
    have := (List.getElem?_eq_some_iff.mp call).1
    rwa [List.length_map] at this
  have same := (placed.placing range).2 _ member
  simp only [List.cons.injEq, and_true, true_and] at same
  exact ⟨i, range, same.symm⟩

theorem count : (takenIds pool.shared.journal w d).length = orders.length := by
  have perm : ((List.range orders.length).map oId).Perm (takenIds pool.shared.journal w d) := by
    rw [List.perm_ext_iff_of_nodup]
    · intro o
      simp only [List.mem_map, List.mem_range]
      constructor
      · rintro ⟨i, range, rfl⟩
        exact placed.taken range
      · exact placed.onto
    · apply List.Nodup.map_on _ List.nodup_range
      intro i hi j hj same
      exact placed.injective (List.mem_range.mp hi) (List.mem_range.mp hj) same
    · rw [placed.inv.ids w d]
      exact idsDown_nodup _
  rw [← perm.length_eq, List.length_map, List.length_range]

/-- The ids given out are those after the loaded ones. -/
theorem mem_taken {o : ℤ} :
    o ∈ takenIds pool.shared.journal w d ↔ 3001 ≤ o ∧ o ≤ 3000 + orders.length := by
  have ids := placed.inv.ids w d
  rw [placed.count] at ids
  rw [ids, mem_idsDown]
  omega

theorem bijective :
    Set.BijOn oId {i | i < orders.length} {o | 3001 ≤ o ∧ o ≤ 3000 + orders.length} := by
  refine ⟨?_, ?_, ?_⟩
  · intro i range
    exact placed.mem_taken.mp (placed.taken range)
  · intro i hi j hj same
    exact placed.injective hi hj same
  · intro o range
    exact placed.onto (placed.mem_taken.mpr range)

theorem complete {i : ℕ} {o : NewOrder} (here : orders[i]? = some o) :
    (∃ r, rowsAt pool.shared.db.order [w, d, oId i] = [r] ∧ r.oCId = o.cId ∧
      r.oOlCnt = o.lines.length ∧
      ∀ l, (rowsAt pool.shared.db.orderline [w, d, oId i, l]).length =
        if 1 ≤ l ∧ l ≤ r.oOlCnt then 1 else 0) ∧
    rowsAt pool.shared.db.orderWdc [w, d, o.cId, oId i] = [()] ∧
    rowsAt pool.shared.db.neworder [w, d, oId i] = [()] := by
  have placing := (placed.ends i o here).2
  refine ⟨?_, ?_, ?_⟩
  · have core := placing.order
    simp only [if_true] at core
    obtain ⟨r, rows, same⟩ := List.map_eq_singleton_iff.mp core
    have customer : r.oCId = o.cId := congrArg Prod.fst same
    have count : r.oOlCnt = o.lines.length := congrArg Prod.snd same
    refine ⟨r, rows, customer, count, ?_⟩
    intro l
    rw [count]
    exact placing.lines l
  · exact placing.wdc
  · have news := placing.news
    simp only [if_true] at news
    rcases news with there | gone
    · exact there
    · exact absurd (placed.unerased _) gone

end AllPlaced

theorem orders_placed (W : ℕ) (draws : Draws) (w d : ℤ) (orders : List NewOrder)
    (drawn : ∀ o ∈ orders, o.wId = w ∧ o.dId = d ∧ (Call.newOrder o).Drawn W)
    {moves : List ℕ} {pool : Pool State Label Outcome}
    (run : exec next (startPool (load W draws) (orders.map .newOrder)) moves = some pool)
    (finished : ∀ p ∈ pool.threads, ∃ a, p = .ret a) :
    ∃ oId, AllPlaced (load W draws) w d orders oId pool := by
  have threads : ∀ p ∈ (startPool (load W draws) (orders.map Call.newOrder)).threads,
      p.Calls fun l _ => l = .other := by
    intro p member
    obtain ⟨i, here⟩ := List.mem_iff_getElem?.mp member
    obtain ⟨c, there, rfl⟩ := startPool_threads here
    obtain ⟨o, _, rfl⟩ := List.mem_map.mp (List.mem_of_getElem? there)
    exact (newOrder_calls i o).mono fun _ _ call => call.other
  have calls : ∀ c ∈ orders.map Call.newOrder, c.Drawn W ∧ c.OfOrders := by
    intro c member
    obtain ⟨o, inside, rfl⟩ := List.mem_map.mp member
    exact ⟨(drawn o inside).2.2, trivial⟩
  have allowed : Allowed next (Meets Undisturbed)
      (startPool (load W draws) (orders.map Call.newOrder)) moves := by
    apply allowed_calls _ threads
    rintro l effect s rfl
    trivial
  have proven := (start_proven draws calls).exec compatible allowed run
  have length : pool.threads.length = orders.length := by
    rw [exec_threads run]
    simp [startPool]
  have ends : ∀ i, ∃ oId, ∀ o, orders[i]? = some o →
      pool.threads[i]? = some (.ret (.ordered oId)) ∧
      Placing i [w, d, oId] o.cId o.lines.length true true true o.lines.length pool.shared := by
    intro i
    cases here : orders[i]? with
    | none => exact ⟨0, fun _ none => by cases none⟩
    | some o =>
      obtain ⟨p, there⟩ : ∃ p, pool.threads[i]? = some p := by
        have range := (List.getElem?_eq_some_iff.mp here).1
        exact ⟨_, List.getElem?_eq_getElem (by omega)⟩
      obtain ⟨a, rfl⟩ := finished p (List.mem_of_getElem? there)
      have done := proven.finished there
      have call : (orders.map Call.newOrder)[i]? = some (.newOrder o) := by
        rw [List.getElem?_map, here]
        rfl
      rw [Ends, call] at done
      obtain ⟨oId, rfl, placing⟩ := done
      obtain ⟨rfl, rfl, _⟩ := drawn o (List.mem_of_getElem? here)
      refine ⟨oId, ?_⟩
      rintro o' same
      cases same
      exact ⟨there, placing⟩
  choose oId ends using ends
  exact ⟨oId, proven.1, run_recorded (fun c member => (calls c member).2) run, ends⟩

/-- The newOrders of one district obtain the ids after the loaded ones, each its own, and
leave complete orders. -/
theorem order_ids_complete (W : ℕ) (draws : Draws) (w d : ℤ) (orders : List NewOrder)
    (drawn : ∀ o ∈ orders, o.wId = w ∧ o.dId = d ∧ (Call.newOrder o).Drawn W)
    {moves : List ℕ} {pool : Pool State Label Outcome}
    (run : exec next (startPool (load W draws) (orders.map .newOrder)) moves = some pool)
    (finished : ∀ p ∈ pool.threads, ∃ a, p = .ret a) :
    ∃ oId : ℕ → ℤ,
      (∀ i < orders.length, pool.threads[i]? = some (.ret (.ordered (oId i)))) ∧
      Set.BijOn oId {i | i < orders.length} {o | 3001 ≤ o ∧ o ≤ 3000 + orders.length} ∧
      ∀ i o, orders[i]? = some o →
        (∃ r, rowsAt pool.shared.db.order [w, d, oId i] = [r] ∧ r.oCId = o.cId ∧
          r.oOlCnt = o.lines.length ∧
          ∀ l, (rowsAt pool.shared.db.orderline [w, d, oId i, l]).length =
            if 1 ≤ l ∧ l ≤ r.oOlCnt then 1 else 0) ∧
        rowsAt pool.shared.db.orderWdc [w, d, o.cId, oId i] = [()] ∧
        rowsAt pool.shared.db.neworder [w, d, oId i] = [()] := by
  obtain ⟨oId, placed⟩ := orders_placed W draws w d orders drawn run finished
  refine ⟨oId, ?_, placed.bijective, fun i o here => placed.complete here⟩
  intro i range
  exact (placed.ends i _ (List.getElem?_eq_getElem range)).1

/-- A load for runs on fixed inputs. -/
def sampleDraws : Draws where
  wTax := fun _ => 0
  dTax := fun _ _ => 0
  cDiscount := fun _ _ _ => 0
  iPrice := fun _ => 1
  sQuantity := fun _ _ => 50
  oCId := fun _ _ o => o
  oCarrierId := fun _ _ _ => 0
  oOlCnt := fun _ _ _ => 0
  olAmount := fun _ _ _ _ => 10
  customerwdl := []
  carrier_drawn := fun _ _ _ => by omega
  cnt_drawn := fun _ _ _ => by omega

def sampleOrder (cId : ℤ) : NewOrder := ⟨1, 1, cId, List.replicate 5 ⟨1, 7, 2⟩⟩

/-- Two newOrders of one district, both begun before either takes its id. -/
theorem order_ids_complete_two : ∃ moves pool,
    exec next (startPool (load 1 sampleDraws) ([sampleOrder 1, sampleOrder 2].map .newOrder))
      (0 :: 1 :: moves) = some pool ∧ (∀ p ∈ pool.threads, ∃ a, p = .ret a) ∧
    ∃ oId : ℕ → ℤ, Set.BijOn oId {i | i < 2} {o | 3001 ≤ o ∧ o ≤ 3002} := by
  obtain ⟨begun, first⟩ : ∃ begun, exec next
      (startPool (load 1 sampleDraws) ([sampleOrder 1, sampleOrder 2].map .newOrder)) [0, 1] =
      some begun := ⟨_, rfl⟩
  obtain ⟨moves, pool, rest, finished⟩ := exec_finishes begun
  have run := exec_append_iff.mpr ⟨begun, first, rest⟩
  have drawn : ∀ o ∈ [sampleOrder 1, sampleOrder 2],
      o.wId = 1 ∧ o.dId = 1 ∧ (Call.newOrder o).Drawn 1 := by
    simp [sampleOrder, Call.Drawn]
  obtain ⟨oId, _, ids, _⟩ := order_ids_complete 1 sampleDraws 1 1 _ drawn run finished
  exact ⟨moves, pool, run, finished, oId, ids⟩

end Tpcc
