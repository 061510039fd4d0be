import OsvBenchmarks.Tpcc.Undelivered
import Mathlib.Tactic.NormNum

/-!
Deliveries and newOrders call by call in any order, from the loaded database: as
long as no call is disturbed each erased order is delivered once and whole. Two
deliveries that have scanned the same neworder row both deliver its order.
-/
namespace Tpcc
open Runs Interleave Table

/-- In a run in which no call is disturbed no order is credited twice, the balances are what
the credits make them, and in the end every erased order is delivered. -/
theorem delivered_once_undisturbed (W : ℕ) (draws : Draws) (calls : List Call)
    (drawn : ∀ c ∈ calls, c.Drawn W ∧ c.OfOrders) {moves : List ℕ}
    {pool : Pool State Label Outcome}
    (run : exec next (startPool (load W draws) calls) moves = some pool)
    (undisturbed : Allowed next (Meets Undisturbed) (startPool (load W draws) calls) moves) :
    (∀ k, (credits pool.shared.journal k).length ≤ 1) ∧
    (∀ c, (lookup pool.shared.db.customer c).map (·.cBalance) =
      (lookup (load W draws).customer c).map fun r =>
        r.cBalance + creditedTo pool.shared.journal c) ∧
    ((∀ p ∈ pool.threads, ∃ a, p = .ret a) → ∀ i k, i ∈ erasedBy pool.shared.journal k →
      ∃ wId carrierId, calls[i]? = some (.delivery wId carrierId) ∧
        Delivered i carrierId currentTimestamp k (view pool.shared k)) := by
  have proven := (start_proven draws drawn).exec compatible undisturbed run
  refine ⟨fun k => (proven.1.good k).credited_once, proven.1.balance, ?_⟩
  intro finished i k erased
  obtain ⟨wId, carrierId, call⟩ :=
    run_recorded (fun c member => (drawn c member).2) run _ (mem_erasedBy.mp erased)
  obtain ⟨p, here⟩ : ∃ p, pool.threads[i]? = some p := by
    have range := (List.getElem?_eq_some_iff.mp call).1
    have length : pool.threads.length = calls.length := by
      rw [exec_threads run]
      simp [startPool]
    exact ⟨_, List.getElem?_eq_getElem (by omega)⟩
  obtain ⟨a, rfl⟩ := finished p (List.mem_of_getElem? here)
  have ends := proven.finished here
  rw [Ends, call] at ends
  exact ⟨wId, carrierId, call, ends.2 k erased⟩

def laterDistricts (i : ℕ) (wId carrierId datetime : ℤ) : Tx Outcome := do
  Prog.each (deliverDistrict i wId carrierId datetime) [2, 3, 4, 5, 6, 7, 8, 9, 10]
  return .delivered

theorem delivery_first (i : ℕ) (wId carrierId datetime : ℤ) :
    delivery i wId carrierId datetime =
      deliverDistrict i wId carrierId datetime 1 >>=
        fun _ => laterDistricts i wId carrierId datetime :=
  Prog.bind_assoc (deliverDistrict i wId carrierId datetime 1)
    (fun _ => Prog.each (deliverDistrict i wId carrierId datetime) [2, 3, 4, 5, 6, 7, 8, 9, 10])
    fun _ => pure Outcome.delivered

theorem deliverDistrict_found {i : ℕ} {wId carrierId datetime dId oId : ℤ} {s : State}
    (found : oldest wId dId s.db = oId) (some : oId ≠ minInteger) :
    ((deliverDistrict i wId carrierId datetime dId).run s).2 =
      ((deliverOrder i wId carrierId datetime dId oId).run s).2 := by
  rw [deliverDistrict, Prog.run_bind, read_run, found]
  simp only [some, if_false]

/-- After its scan a delivery goes on with the order that it has found. -/
theorem exec_scan {pool : Pool State Label Outcome} {i j : ℕ} {wId carrierId datetime dId oId : ℤ}
    {f : Unit → Tx Outcome}
    (here : pool.threads[i]? = some (deliverDistrict j wId carrierId datetime dId >>= f))
    (found : oldest wId dId pool.shared.db = oId) (some : oId ≠ minInteger) :
    ∃ moves, exec next pool moves = Option.some ⟨pool.shared,
      pool.threads.set i (deliverOrder j wId carrierId datetime dId oId >>= f)⟩ := by
  rw [deliverDistrict, Prog.bind_assoc] at here
  obtain ⟨moves, run⟩ := exec_part here
  rw [read_run, found] at run
  simp only [some, if_false] at run
  exact ⟨moves, run⟩

theorem mem_credits {journal : List (ℕ × Event)} {i : ℕ} {k c : Key} {total : ℚ} :
    (i, c, total) ∈ credits journal k ↔ (i, .credited k c total) ∈ journal := by
  simp only [credits, List.mem_filterMap]
  constructor
  · rintro ⟨⟨j, e⟩, member, found⟩
    cases e with
    | credited k' c' total' =>
      simp only [Option.ite_none_right_eq_some, Option.some.injEq, Prod.mk.injEq] at found
      obtain ⟨rfl, rfl, rfl, rfl⟩ := found
      exact member
    | ordered _ => cases found
    | erased _ => cases found
    | paid _ _ => cases found
  · intro member
    exact ⟨_, member, by simp⟩

theorem exec_credits {calls : List Call} {pool pool' : Pool State Label Outcome} {moves : List ℕ}
    (logs : ∀ p ∈ pool.threads, p.Calls fun _ effect => Logs calls effect) (run : exec next pool moves = some pool')
    {i : ℕ} {k c : Key} {total : ℚ} (credited : (i, c, total) ∈ credits pool.shared.journal k) :
    (i, c, total) ∈ credits pool'.shared.journal k := by
  rw [mem_credits] at credited ⊢
  apply (exec_calls (I := fun s : State => (i, Event.credited k c total) ∈ s.journal) _ logs
    credited run).1
  intro l effect made s before
  obtain ⟨new, same, _⟩ := made s
  rw [same]
  exact List.mem_append_right new before

theorem Served.total {i : ℕ} {carrierId datetime : ℤ} {k : Key} {r : Order} {s s' : State}
    (served : Served i carrierId datetime k r s s') (ls : List ℤ) :
    lineTotal (view s' k) ls = lineTotal (view s k) ls := by
  have amounts : ∀ l ∈ ls, lineAmount (view s' k) l = lineAmount (view s k) l := by
    intro l _
    apply lineAmount_stamped datetime
    rw [served.lines]
    split
    · exact Or.inr rfl
    · exact Or.inl rfl
  rw [lineTotal, lineTotal, List.map_congr_left amounts]

/-- Two deliveries that have found the same order, one after the other, both credit it. -/
theorem served_twice {s t u : State} {w d o : ℤ} {r : Order} {carried stamped : Bool}
    (shows : (view s [w, d, o]).Shows true carried stamped) (order : (view s [w, d, o]).order = [r])
    (customer : lookup s.db.customer [w, d, r.oCId] ≠ none) {i j : ℕ} {carrierId carrierId' : ℤ}
    (carrier : carrierId ≠ 0)
    (one : t = ((deliverOrder i w carrierId currentTimestamp d o).run s).2)
    (two : u = ((deliverOrder j w carrierId' currentTimestamp d o).run t).2) :
    (i, [w, d, r.oCId], lineTotal (view s [w, d, o]) (lineNumbers r.oOlCnt)) ∈
      credits u.journal [w, d, o] ∧
    (j, [w, d, r.oCId], lineTotal (view s [w, d, o]) (lineNumbers r.oOlCnt)) ∈
      credits u.journal [w, d, o] := by
  obtain ⟨r', order', served, _⟩ := shows.served i carrierId currentTimestamp
  rw [order, List.cons.injEq] at order'
  obtain rfl := order'.1
  rw [← one] at served
  have after := served.shows order shows carrier (by decide)
  obtain ⟨r', order', again, _⟩ := after.served j carrierId' currentTimestamp
  rw [served.order, List.cons.injEq] at order'
  obtain rfl := order'.1
  rw [← two] at again
  have still : lookup t.db.customer [w, d, r.oCId] ≠ none :=
    fun none => customer ((served.changes.customer _).mp none)
  have last : credits u.journal [w, d, o] = _ := again.credits still
  have before : credits t.journal [w, d, o] = _ := served.credits customer
  have same : (view t [w, d, o]).credits = credits t.journal [w, d, o] := rfl
  rw [last, same, before, served.total]
  constructor
  · exact List.mem_cons_of_mem _ List.mem_cons_self
  · exact List.mem_cons_self

theorem sample_total : lineTotal (view ⟨load 1 sampleDraws, []⟩ [1, 1, 2101]) (lineNumbers 5) = 50 := by
  have order : (1, 1, 2101) ∈ loadedIds 1 1 3000 := by
    rw [mem_loadedIds (by omega), mem_loadedDistricts]
    omega
  have amount : ∀ l ∈ lineNumbers 5, lineAmount (view ⟨load 1 sampleDraws, []⟩ [1, 1, 2101]) l = 10 := by
    intro l member
    have rows := rowsAt_loadedLines 1 sampleDraws order l
    have count : (sampleDraws.order 1 1 2101).oOlCnt = 5 := by rfl
    rw [count, if_pos (mem_lineNumbers.mp member)] at rows
    have line : (view ⟨load 1 sampleDraws, []⟩ [1, 1, 2101]).lines l =
        [sampleDraws.orderline 1 1 2101 l.toNat] := by
      simp only [view]
      exact rows
    rw [lineAmount, line]
    rfl
  have five : lineNumbers 5 = [1, 2, 3, 4, 5] := by decide
  rw [lineTotal, List.map_congr_left amount, five]
  norm_num

theorem sample_loaded :
    (view ⟨load 1 sampleDraws, []⟩ [1, 1, 2101]).order = [⟨2101, 0, 5⟩] ∧
      (view ⟨load 1 sampleDraws, []⟩ [1, 1, 2101]).Shows true false false ∧
      lookup (load 1 sampleDraws).customer [1, 1, 2101] ≠ none := by
  have member : (1, 1, 2101) ∈ loadedIds 1 1 3000 := by
    rw [mem_loadedIds (by omega), mem_loadedDistricts]
    omega
  exact ⟨(view_loaded 1 sampleDraws member).1, loaded_shows 1 sampleDraws member,
    load_customer 1 sampleDraws member⟩

/-- The first delivery takes order 2100, so that the next ones find order 2101. -/
theorem sample_first {s t : State} (start : s = ⟨load 1 sampleDraws, []⟩)
    (ran : t = ((deliverDistrict 0 1 1 currentTimestamp 1).run s).2) :
    oldest 1 1 t.db = 2101 ∧ view t [1, 1, 2101] = view s [1, 1, 2101] ∧
      lookup t.db.customer [1, 1, 2101] ≠ none := by
  have inside : Inside 1 1 1 := ⟨by decide, by decide, by decide, by decide⟩
  have sound := load_sound 1 sampleDraws
  obtain ⟨_, open', customer⟩ := sample_loaded
  have base : s.db.customer = (load 1 sampleDraws).customer := by rw [start]
  rw [← start] at sound open'
  rw [← base] at customer
  have shows := (sound.first 1 1 inside).1 fun no => no
  have first : oldest 1 1 s.db = 2100 := by
    have news : (view s [1, 1, 2100]).neworder ≠ [] := by
      rw [shows.neworder]
      exact List.cons_ne_nil _ _
    have bounds := oldest_least sound.keys news
    omega
  obtain ⟨_, _, served, _⟩ := shows.served 0 1 currentTimestamp
  have carrier : (1 : ℤ) ≠ 0 := by decide
  have after := sound.deliverDistrict 0 inside carrier
  rw [← deliverDistrict_found first (by decide), ← ran] at served
  rw [← ran] at after
  have here := served.changes.others [1, 1, 2101] (by decide)
  refine ⟨?_, here, fun none => customer ((served.changes.customer _).mp none)⟩
  have news : (view t [1, 1, 2101]).neworder ≠ [] := by
    rw [here, open'.neworder]
    exact List.cons_ne_nil _ _
  have bounds := oldest_least after.keys news
  have gone : oldest 1 1 t.db ≠ 2100 := by
    intro same
    have there := oldest_there bounds.1
    rw [same, ((after.first 1 1 inside).2 (Or.inr ⟨rfl, rfl⟩)).neworder] at there
    exact there rfl
  omega

/-- The first delivery serves a district, the others scan it, then each serves what it has
found. -/
theorem exec_overlap {s t u v : State} {w c₀ c₁ c₂ d o : ℤ} {a b c : Unit → Tx Outcome}
    (ht : t = ((deliverDistrict 0 w c₀ currentTimestamp d).run s).2)
    (found : oldest w d t.db = o) (some : o ≠ minInteger)
    (hu : u = ((deliverOrder 1 w c₁ currentTimestamp d o).run t).2)
    (hv : v = ((deliverOrder 2 w c₂ currentTimestamp d o).run u).2) :
    ∃ moves, exec next (⟨s, [deliverDistrict 0 w c₀ currentTimestamp d >>= a,
        deliverDistrict 1 w c₁ currentTimestamp d >>= b,
        deliverDistrict 2 w c₂ currentTimestamp d >>= c]⟩ : Pool State Label Outcome) moves =
      Option.some ⟨v, [a (), b (), c ()]⟩ := by
  obtain ⟨m1, run1⟩ := @exec_part _ _ _ _ ⟨s, [deliverDistrict 0 w c₀ currentTimestamp d >>= a,
    deliverDistrict 1 w c₁ currentTimestamp d >>= b,
    deliverDistrict 2 w c₂ currentTimestamp d >>= c]⟩ 0 _ _ rfl
  simp only [← ht, List.set_cons_zero] at run1
  obtain ⟨m2, run2⟩ := @exec_scan ⟨t, [a (), deliverDistrict 1 w c₁ currentTimestamp d >>= b,
    deliverDistrict 2 w c₂ currentTimestamp d >>= c]⟩ 1 1 _ _ _ _ _ _ rfl found some
  simp only [List.set_cons_zero, List.set_cons_succ] at run2
  obtain ⟨m3, run3⟩ := @exec_scan ⟨t, [a (), deliverOrder 1 w c₁ currentTimestamp d o >>= b,
    deliverDistrict 2 w c₂ currentTimestamp d >>= c]⟩ 2 2 _ _ _ _ _ _ rfl found some
  simp only [List.set_cons_zero, List.set_cons_succ] at run3
  obtain ⟨m4, run4⟩ := @exec_part _ _ _ _ ⟨t, [a (), deliverOrder 1 w c₁ currentTimestamp d o >>= b,
    deliverOrder 2 w c₂ currentTimestamp d o >>= c]⟩ 1 _ _ rfl
  simp only [← hu, List.set_cons_zero, List.set_cons_succ] at run4
  obtain ⟨m5, run5⟩ := @exec_part _ _ _ _ ⟨u, [a (), b (),
    deliverOrder 2 w c₂ currentTimestamp d o >>= c]⟩ 2 _ _ rfl
  simp only [← hv, List.set_cons_zero, List.set_cons_succ] at run5
  refine ⟨m1 ++ (m2 ++ (m3 ++ (m4 ++ m5))), ?_⟩
  rw [exec_append, run1, Option.bind_some, exec_append, run2, Option.bind_some, exec_append, run3,
    Option.bind_some, exec_append, run4, Option.bind_some, run5]

/-- After a first delivery two others scan, and only then they erase what both have found:
order 2101 is credited by both. -/
theorem delivered_twice : ∃ moves pool,
    exec next (startPool (load 1 sampleDraws) [.delivery 1 1, .delivery 1 2, .delivery 1 3]) moves =
      some pool ∧ (∀ p ∈ pool.threads, ∃ a, p = .ret a) ∧
    (1, [1, 1, 2101], 50) ∈ credits pool.shared.journal [1, 1, 2101] ∧
    (2, [1, 1, 2101], 50) ∈ credits pool.shared.journal [1, 1, 2101] := by
  obtain ⟨s, hs⟩ : ∃ s : State, s = ⟨load 1 sampleDraws, []⟩ := ⟨_, rfl⟩
  obtain ⟨later, hl⟩ : ∃ later : ℕ → ℤ → Unit → Tx Outcome,
      later = fun i carrierId _ => laterDistricts i 1 carrierId currentTimestamp := ⟨_, rfl⟩
  have start : startPool (load 1 sampleDraws) [.delivery 1 1, .delivery 1 2, .delivery 1 3] =
      ⟨s, [deliverDistrict 0 1 1 currentTimestamp 1 >>= later 0 1,
         deliverDistrict 1 1 2 currentTimestamp 1 >>= later 1 2,
         deliverDistrict 2 1 3 currentTimestamp 1 >>= later 2 3]⟩ := by
    rw [hl, hs, ← delivery_first, ← delivery_first, ← delivery_first]
    rfl
  have logs := @start_logs [.delivery 1 1, .delivery 1 2, .delivery 1 3] (load 1 sampleDraws)
    (by simp [Call.OfOrders])
  rw [start] at logs ⊢
  obtain ⟨order, open', _⟩ := sample_loaded
  have total := sample_total
  rw [← hs] at order open' total
  obtain ⟨t, ht⟩ : ∃ t, t = ((deliverDistrict 0 1 1 currentTimestamp 1).run s).2 := ⟨_, rfl⟩
  obtain ⟨found, same, customer⟩ := sample_first hs ht
  obtain ⟨u, hu⟩ : ∃ u, u = ((deliverOrder 1 1 2 currentTimestamp 1 2101).run t).2 := ⟨_, rfl⟩
  obtain ⟨v, hv⟩ : ∃ v, v = ((deliverOrder 2 1 3 currentTimestamp 1 2101).run u).2 := ⟨_, rfl⟩
  rw [← same] at order open' total
  obtain ⟨one, two⟩ := served_twice open' order customer (by decide) hu hv
  rw [total] at one two
  obtain ⟨moves, run⟩ := exec_overlap (a := later 0 1) (b := later 1 2) (c := later 2 3) ht found
    (by decide) hu hv
  obtain ⟨more, pool, rest, finished⟩ := exec_finishes
    (⟨v, [later 0 1 (), later 1 2 (), later 2 3 ()]⟩ : Pool State Label Outcome)
  have logs' := (exec_calls (I := fun _ => True) (fun _ _ _ _ _ => trivial) logs trivial run).2
  exact ⟨moves ++ more, pool, exec_append_iff.mpr ⟨_, run, rest⟩, finished,
    exec_credits logs' rest one, exec_credits logs' rest two⟩

theorem delivered_once_first : ∃ moves pool,
    exec next (startPool (load 1 sampleDraws) [.delivery 1 1, .newOrder (sampleOrder 1)])
      (1 :: moves) = some pool ∧
    Allowed next (Meets Undisturbed)
      (startPool (load 1 sampleDraws) [.delivery 1 1, .newOrder (sampleOrder 1)]) (1 :: moves) ∧
    (0, [1, 1, 2100]) ∈ (credits pool.shared.journal [1, 1, 2100]).map (fun c => (c.1, c.2.1)) ∧
    (credits pool.shared.journal [1, 1, 2100]).length ≤ 1 := by
  obtain ⟨s, hs⟩ : ∃ s : State, s = ⟨load 1 sampleDraws, []⟩ := ⟨_, rfl⟩
  have drawn : ∀ c ∈ [Call.delivery 1 1, .newOrder (sampleOrder 1)], c.Drawn 1 ∧ c.OfOrders := by
    simp [Call.Drawn, Call.OfOrders, sampleOrder]
  have inside : Inside 1 1 1 := ⟨by decide, by decide, by decide, by decide⟩
  have sound := load_sound 1 sampleDraws
  have member : (1, 1, 2100) ∈ loadedIds 1 1 3000 := by
    rw [mem_loadedIds (by omega), mem_loadedDistricts]
    omega
  have order : (view ⟨load 1 sampleDraws, []⟩ [1, 1, 2100]).order = [⟨2100, 1, 5⟩] :=
    (view_loaded 1 sampleDraws member).1
  have customer : lookup (load 1 sampleDraws).customer [1, 1, 2100] ≠ none :=
    load_customer 1 sampleDraws member
  have base : s.db.customer = (load 1 sampleDraws).customer := by rw [hs]
  rw [← hs] at sound order
  rw [← base] at customer
  have shows := (sound.first 1 1 inside).1 fun no => no
  have news : (view s [1, 1, 2100]).neworder ≠ [] := by
    rw [shows.neworder]
    exact List.cons_ne_nil _ _
  have first : oldest 1 1 s.db = 2100 := by
    have bounds := oldest_least sound.keys news
    omega
  obtain ⟨r, order', served, clear⟩ := shows.served 0 1 currentTimestamp
  rw [order, List.cons.injEq] at order'
  obtain rfl := order'.1
  have undisturbed : (deliverDistrict 0 1 1 currentTimestamp 1).Clear Undisturbed s := by
    have some' : ¬ (2100 : ℤ) = minInteger := by decide
    rw [deliverDistrict, Prog.clear_bind, read_run, first]
    simp only [some', if_false]
    exact ⟨⟨trivial, trivial⟩, clear news customer⟩
  obtain ⟨whole, split⟩ : ∃ whole : Tx Outcome, whole = deliverDistrict 0 1 1 currentTimestamp 1 >>=
      fun _ => laterDistricts 0 1 1 currentTimestamp := ⟨_, rfl⟩
  have start : startPool (load 1 sampleDraws) [.delivery 1 1, .newOrder (sampleOrder 1)] =
      ⟨s, [whole, newOrder 1 (sampleOrder 1)]⟩ := by
    rw [hs, split, ← delivery_first]
    rfl
  obtain ⟨begun, begins⟩ : ∃ begun, next (⟨s, [whole, newOrder 1 (sampleOrder 1)]⟩ :
      Pool State Label Outcome) 1 = some ⟨s, [whole, begun]⟩ := ⟨_, rfl⟩
  obtain ⟨moves, allowed, run⟩ := @exec_clear _ _ _ _ Undisturbed ⟨s, [whole, begun]⟩ 0 _ _
    (congrArg some split) undisturbed
  have run := exec_cons_iff.mpr ⟨_, begins, run⟩
  have allowed : Allowed next (Meets Undisturbed) ⟨s, [whole, newOrder 1 (sampleOrder 1)]⟩
      (1 :: moves) := by
    refine ⟨trivial, fun _ moved => ?_⟩
    rw [begins] at moved
    cases moved
    exact allowed
  rw [← start] at allowed run
  refine ⟨moves, _, run, allowed, ?_,
    (delivered_once_undisturbed 1 sampleDraws _ drawn run allowed).1 _⟩
  rw [← deliverDistrict_found first (by decide)] at served
  have credited : credits ((deliverDistrict 0 1 1 currentTimestamp 1).run s).2.journal [1, 1, 2100] =
      _ := served.credits customer
  change _ ∈ List.map _ (credits ((deliverDistrict 0 1 1 currentTimestamp 1).run s).2.journal _)
  rw [credited, List.map_cons]
  exact List.mem_cons_self

end Tpcc
