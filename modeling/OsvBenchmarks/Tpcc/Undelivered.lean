import OsvBenchmarks.Tpcc.Serial

/-!
newOrders and deliveries run one at a time from the loaded database. An order is
open or delivered in all of its tables alike, but for order 2100 of a district,
which the loader makes both until its first delivery.
-/
namespace Tpcc
open Interleave Table

/-- Transactions one after the other, numbered from `i`. -/
def serial (i : ℕ) : List Call → State → State
  | [], s => s
  | c :: cs, s => serial (i + 1) cs ((c.program i).run s).2

/-- What the tables say of an order: its neworder row, its carrier and its lines. -/
structure View.Shows (v : View) (news carried stamped : Bool) : Prop where
  order : ∃ r, v.order = [r] ∧ 1 ≤ r.oOlCnt ∧ (r.oCarrierId = 0 ↔ carried = false) ∧
    ∀ l, if 1 ≤ l ∧ l ≤ r.oOlCnt then
        ∃ line, v.lines l = [line] ∧ (line.olDeliveryD = 0 ↔ stamped = false)
      else v.lines l = []
  neworder : v.neworder = if news then [()] else []

def Inside (W : ℕ) (w d : ℤ) : Prop := 1 ≤ w ∧ w ≤ W ∧ 1 ≤ d ∧ d ≤ 10

/-- What holds between two transactions; `delivered` are the districts that a delivery
has visited. -/
structure Sound (W : ℕ) (base : Database) (delivered : ℤ → ℤ → Prop) (s : State) : Prop where
  first : ∀ w d, Inside W w d →
    (¬ delivered w d → (view s [w, d, 2100]).Shows true true true) ∧
    (delivered w d → (view s [w, d, 2100]).Shows false true true)
  rest : ∀ k, (∀ w d, Inside W w d → k ≠ [w, d, 2100]) →
    (view s k).Vacant ∨ (view s k).Shows true false false ∨ (view s k).Shows false true true
  keys : ∀ k, (view s k).neworder ≠ [] → ∃ w d o, k = [w, d, o] ∧ 2100 ≤ o
  inside : ∀ w d o, (view s [w, d, o]).order ≠ [] → Inside W w d
  next : ∀ w d, Inside W w d → ∃ rec, lookup s.db.district [w, d] = some rec ∧
    3001 ≤ rec.dNextOId ∧ ∀ o, rec.dNextOId ≤ o → (view s [w, d, o]).Vacant
  tables : Tables base s.db

theorem View.Shows.congr {v v' : View} {news carried stamped : Bool}
    (shows : v.Shows news carried stamped) (same : v' = v) : v'.Shows news carried stamped := by
  rwa [same]

theorem key_between {w d a w' d' b c : ℤ} (above : [w, d, a] ≤ [w', d', b])
    (below : [w', d', b] ≤ [w, d, c]) : w' = w ∧ d' = d ∧ b ≤ c := by
  rw [← not_lt] at above below
  rw [List.cons_lt_cons_iff, List.cons_lt_cons_iff, List.cons_lt_cons_iff] at above below
  have same : ¬ ([] : List ℤ) < [] := lt_irrefl _
  omega

theorem oldest_there {s : State} {w d : ℤ} (some : oldest w d s.db ≠ minInteger) :
    (view s [w, d, oldest w d s.db]).neworder ≠ [] := by
  unfold oldest at some ⊢
  split
  · rename_i w' d' o' r first
    simp only [first] at some
    split
    · rename_i same
      obtain ⟨rfl, rfl⟩ := same
      exact List.ne_nil_of_mem (mem_rowsAt.mpr (firstFrom_mem first).1)
    · rename_i differ
      rw [if_neg differ] at some
      exact absurd rfl some
  · rename_i other
    split at some
    · rename_i first
      exact absurd first (other _ _ _ _)
    · exact absurd rfl some

theorem oldest_least {s : State} {w d o : ℤ}
    (keys : ∀ k, (view s k).neworder ≠ [] → ∃ w d o, k = [w, d, o] ∧ 2100 ≤ o)
    (there : (view s [w, d, o]).neworder ≠ []) :
    oldest w d s.db ≠ minInteger ∧ 2100 ≤ oldest w d s.db ∧ oldest w d s.db ≤ o := by
  have low : [w, d, minInteger] ≤ [w, d, o] := by
    obtain ⟨_, _, _, same, high⟩ := keys _ there
    simp only [List.cons.injEq, and_true] at same
    rw [← not_lt, List.cons_lt_cons_iff, List.cons_lt_cons_iff, List.cons_lt_cons_iff]
    have : ¬ ([] : List ℤ) < [] := lt_irrefl _
    have : minInteger < 0 := by decide
    omega
  obtain ⟨⟨⟩, row⟩ := List.exists_mem_of_ne_nil _ there
  obtain ⟨⟨k, ⟨⟩⟩, first, below⟩ := firstFrom_le (mem_rowsAt.mp row) low
  obtain ⟨member, above⟩ := firstFrom_mem first
  obtain ⟨w', d', o', rfl, high⟩ := keys k (List.ne_nil_of_mem (mem_rowsAt.mpr member))
  obtain ⟨rfl, rfl, le⟩ := key_between above below
  have found : oldest w' d' s.db = o' := by
    simp [oldest, first]
  rw [found]
  refine ⟨?_, high, le⟩
  have : minInteger < 0 := by decide
  omega

/-- A delivery turns an order that is complete into a delivered one. -/
theorem Served.shows {i : ℕ} {carrierId datetime : ℤ} {k : Key} {r : Order} {s s' : State}
    {carried stamped : Bool} (served : Served i carrierId datetime k r s s')
    (order : (view s k).order = [r]) (shows : (view s k).Shows true carried stamped)
    (carrier : carrierId ≠ 0) (time : datetime ≠ 0) : (view s' k).Shows false true true := by
  obtain ⟨⟨r', same, count, _, lines⟩, news⟩ := shows
  rw [order, List.cons.injEq] at same
  obtain rfl := same.1
  constructor
  · refine ⟨_, served.order, count, by simp [carrier], ?_⟩
    intro l
    have here := served.lines l
    have before := lines l
    simp only at before ⊢
    by_cases inside : 1 ≤ l ∧ l ≤ r.oOlCnt
    · rw [if_pos (mem_lineNumbers.mpr inside)] at here
      rw [if_pos inside] at before ⊢
      obtain ⟨line, there, _⟩ := before
      rw [there] at here
      exact ⟨_, here, by simp [Orderline.stamped, time]⟩
    · rw [if_neg (mt mem_lineNumbers.mp inside)] at here
      rw [if_neg inside] at before ⊢
      rw [here, before]
  · rw [served.neworder, news]
    rfl

theorem View.Shows.served {s : State} {w d o : ℤ} {news carried stamped : Bool}
    (shows : (view s [w, d, o]).Shows news carried stamped) (i : ℕ) (carrierId datetime : ℤ) :
    ∃ r, (view s [w, d, o]).order = [r] ∧ Served i carrierId datetime [w, d, o] r s
      ((deliverOrder i w carrierId datetime d o).run s).2 ∧
      ((view s [w, d, o]).neworder ≠ [] → lookup s.db.customer [w, d, r.oCId] ≠ none →
        (deliverOrder i w carrierId datetime d o).Clear Undisturbed s) := by
  obtain ⟨r, order, count, _, lines⟩ := shows.order
  refine ⟨r, order, deliverOrder_run i w carrierId datetime d o order count ?_⟩
  have line := lines r.oOlCnt
  rw [if_pos ⟨count, Int.le_refl _⟩] at line
  obtain ⟨line, there, _⟩ := line
  rw [there]
  exact List.cons_ne_nil _ _

section Steps
variable {W : ℕ} {base : Database} {delivered : ℤ → ℤ → Prop} {s : State}

theorem Sound.oldest_shows (sound : Sound W base delivered s) {w d o : ℤ}
    (news : (view s [w, d, o]).neworder ≠ []) :
    ∃ carried stamped, (view s [w, d, o]).Shows true carried stamped := by
  by_cases first : Inside W w d ∧ o = 2100
  · obtain ⟨inside, rfl⟩ := first
    by_cases gone : delivered w d
    · exact absurd ((sound.first w d inside).2 gone).neworder news
    · exact ⟨_, _, (sound.first w d inside).1 gone⟩
  · have other : ∀ w' d', Inside W w' d' → [w, d, o] ≠ [w', d', 2100] := by
      intro w' d' inside same
      simp only [List.cons.injEq, and_true] at same
      obtain ⟨rfl, rfl, rfl⟩ := same
      exact first ⟨inside, rfl⟩
    rcases sound.rest _ other with vacant | shows | shows
    · exact absurd vacant.neworder news
    · exact ⟨_, _, shows⟩
    · exact absurd shows.neworder news

theorem Sound.deliverDistrict (sound : Sound W base delivered s) (i : ℕ) {w carrierId d : ℤ}
    (inside : Inside W w d) (carrier : carrierId ≠ 0) :
    Sound W base (fun w' d' => delivered w' d' ∨ w' = w ∧ d' = d)
      ((deliverDistrict i w carrierId currentTimestamp d).run s).2 := by
  have oldest_first : ¬ delivered w d → oldest w d s.db = 2100 := by
    intro unvisited
    have there : (view s [w, d, 2100]).neworder ≠ [] := by
      rw [((sound.first w d inside).1 unvisited).neworder]
      exact List.cons_ne_nil _ _
    have := oldest_least sound.keys there
    omega
  rw [Tpcc.deliverDistrict, Prog.run_bind, read_run]
  by_cases none : oldest w d s.db = minInteger
  · simp only [none, if_true]
    have visited : delivered w d := by
      by_contra unvisited
      rw [oldest_first unvisited] at none
      exact absurd none (by decide)
    have same : (fun w' d' => delivered w' d' ∨ w' = w ∧ d' = d) = delivered := by
      funext w' d'
      apply propext
      constructor
      · rintro (h | ⟨rfl, rfl⟩)
        · exact h
        · exact visited
      · exact Or.inl
    rw [same]
    exact sound
  · simp only [none, if_false]
    have news := oldest_there none
    obtain ⟨o, ho⟩ : ∃ o, o = oldest w d s.db := ⟨_, rfl⟩
    rw [← ho] at news oldest_first ⊢
    obtain ⟨carried, stamped, shows⟩ := sound.oldest_shows news
    obtain ⟨r, order, served, _⟩ := shows.served i carrierId currentTimestamp
    obtain ⟨s', hs⟩ : ∃ s', s' = ((deliverOrder i w carrierId currentTimestamp d o).run s).2 :=
      ⟨_, rfl⟩
    rw [← hs] at served ⊢
    have after := served.shows order shows carrier (by decide)
    have changes := served.changes
    constructor
    · intro w' d' inside'
      by_cases here : w' = w ∧ d' = d
      · obtain ⟨rfl, rfl⟩ := here
        refine ⟨fun h => absurd (Or.inr ⟨rfl, rfl⟩) h, fun _ => ?_⟩
        by_cases visited : delivered w' d'
        · by_cases again : o = 2100
          · rw [again] at after
            exact after
          · have differ : [w', d', 2100] ≠ [w', d', o] := by
              intro same
              simp only [List.cons.injEq, and_true, true_and] at same
              exact again same.symm
            exact ((sound.first w' d' inside).2 visited).congr (changes.others _ differ)
        · rw [oldest_first visited] at after
          exact after
      · have differ : [w', d', 2100] ≠ [w, d, o] := by
          intro same
          simp only [List.cons.injEq, and_true] at same
          exact here ⟨same.1, same.2.1⟩
        rw [changes.others _ differ]
        have before := sound.first w' d' inside'
        refine ⟨fun h => before.1 fun old => h (Or.inl old), ?_⟩
        rintro (old | new)
        · exact before.2 old
        · exact absurd new here
    · intro k other
      by_cases same : k = [w, d, o]
      · rw [same]
        exact Or.inr (Or.inr after)
      · rw [changes.others k same]
        exact sound.rest k other
    · intro k
      by_cases same : k = [w, d, o]
      · rw [same, after.neworder]
        exact fun h => absurd rfl h
      · rw [changes.others k same]
        exact sound.keys k
    · intro w' d' o'
      by_cases same : [w', d', o'] = [w, d, o]
      · simp only [List.cons.injEq, and_true] at same
        obtain ⟨rfl, rfl, rfl⟩ := same
        exact fun _ => inside
      · rw [changes.others _ same]
        exact sound.inside w' d' o'
    · intro w' d' inside'
      obtain ⟨rec, found, high, vacant⟩ := sound.next w' d' inside'
      refine ⟨rec, by rw [changes.district, found], high, ?_⟩
      intro o' above
      have differ : [w', d', o'] ≠ [w, d, o] := by
        intro same
        rw [← same] at news
        exact news (vacant o' above).neworder
      rw [changes.others _ differ]
      exact vacant o' above
    · obtain ⟨h1, h2, h3, h4, h5⟩ := sound.tables
      constructor
      · exact changes.warehouse.trans h1
      · exact changes.item.trans h2
      · intro k
        rw [changes.district]
        exact h3 k
      · exact fun k => (changes.customer k).trans (h4 k)
      · exact fun k => (changes.stock k).trans (h5 k)

theorem Sound.each (i : ℕ) {w carrierId : ℤ} (carrier : carrierId ≠ 0) (ds : List ℤ)
    (inside : ∀ d ∈ ds, Inside W w d) (sound : Sound W base delivered s) :
    Sound W base (fun w' d' => delivered w' d' ∨ w' = w ∧ d' ∈ ds)
      ((Prog.each (Tpcc.deliverDistrict i w carrierId currentTimestamp) ds).run s).2 := by
  induction ds generalizing s delivered with
  | nil =>
    have same : (fun w' d' => delivered w' d' ∨ w' = w ∧ d' ∈ ([] : List ℤ)) = delivered := by
      funext w' d'
      simp
    rw [same]
    exact sound
  | cons d ds ih =>
    have step := sound.deliverDistrict i (inside d (by simp)) carrier
    have rest := ih (fun d' member => inside d' (List.mem_cons_of_mem _ member)) step
    have same : (fun w' d' => delivered w' d' ∨ w' = w ∧ d' ∈ d :: ds) =
        fun w' d' => (delivered w' d' ∨ w' = w ∧ d' = d) ∨ w' = w ∧ d' ∈ ds := by
      funext w' d'
      apply propext
      rw [List.mem_cons, and_or_left, or_assoc]
    have run : (Prog.each (Tpcc.deliverDistrict i w carrierId currentTimestamp) (d :: ds)).run s =
        (Prog.each (Tpcc.deliverDistrict i w carrierId currentTimestamp) ds).run
          ((Tpcc.deliverDistrict i w carrierId currentTimestamp d).run s).2 :=
      Prog.run_bind (Tpcc.deliverDistrict i w carrierId currentTimestamp d) (fun _ => Prog.each
        (Tpcc.deliverDistrict i w carrierId currentTimestamp) ds) s
    rw [same, run]
    exact rest

theorem mem_districts {d : ℤ} : d ∈ districts ↔ 1 ≤ d ∧ d ≤ 10 := by
  simp only [districts, List.mem_cons, List.not_mem_nil, or_false]
  omega

theorem Sound.delivery (sound : Sound W base delivered s) (i : ℕ) {w carrierId : ℤ}
    (drawn : (Call.delivery w carrierId).Drawn W) :
    Sound W base (fun w' d' => delivered w' d' ∨ w' = w ∧ d' ∈ districts)
      ((delivery i w carrierId currentTimestamp).run s).2 := by
  obtain ⟨low, high, carrier, _⟩ := drawn
  have all : ∀ d ∈ districts, Inside W w d := by
    intro d member
    obtain ⟨first, last⟩ := mem_districts.mp member
    exact ⟨low, high, first, last⟩
  rw [Tpcc.delivery, Prog.run_bind]
  exact sound.each i (by omega) districts all

theorem Sound.newOrder (sound : Sound W base delivered s) (i : ℕ) {o : NewOrder}
    (stocked : Stocked base o) (drawn : (Call.newOrder o).Drawn W) :
    Sound W base delivered ((newOrder i o).run s).2 := by
  obtain ⟨wLow, wHigh, dLow, dHigh, _, _, count, _, _⟩ := drawn
  obtain ⟨rec, found, high, vacant⟩ := sound.next o.wId o.dId ⟨wLow, wHigh, dLow, dHigh⟩
  obtain ⟨h1, h2, h3, h4, h5⟩ := sound.tables
  have here : Stocked s.db o := by
    constructor
    · rw [h1]
      exact stocked.warehouse
    · exact mt (h4 _).mp stocked.customer
    · exact mt (h3 _).mp stocked.district
    · exact stocked.districts
    · intro line member
      rw [h2]
      exact ⟨(stocked.items line member).1, mt (h5 _).mp (stocked.items line member).2⟩
  have ordered := newOrder_run i here found
  have fresh := vacant rec.dNextOId (Int.le_refl _)
  have opened : (view ((Tpcc.newOrder i o).run s).2 [o.wId, o.dId, rec.dNextOId]).Shows
      true false false := by
    constructor
    · refine ⟨_, by rw [ordered.order, fresh.order], by simp only; omega, by simp, ?_⟩
      intro l
      have line := ordered.lines l
      rw [fresh.lines l] at line
      simp only
      split at line
      · rename_i inside
        obtain ⟨amount, line⟩ := line
        rw [if_pos inside]
        exact ⟨_, line, by simp⟩
      · rename_i outside
        rwa [if_neg outside]
    · rw [ordered.neworder, fresh.neworder]
      rfl
  constructor
  · intro w d inside
    have differ : [w, d, 2100] ≠ [o.wId, o.dId, rec.dNextOId] := by
      intro same
      simp only [List.cons.injEq, and_true] at same
      omega
    rw [ordered.others _ differ]
    exact sound.first w d inside
  · intro k other
    by_cases same : k = [o.wId, o.dId, rec.dNextOId]
    · rw [same]
      exact Or.inr (Or.inl opened)
    · rw [ordered.others k same]
      exact sound.rest k other
  · intro k
    by_cases same : k = [o.wId, o.dId, rec.dNextOId]
    · exact fun _ => ⟨_, _, _, same, by omega⟩
    · rw [ordered.others k same]
      exact sound.keys k
  · intro w d o'
    by_cases same : [w, d, o'] = [o.wId, o.dId, rec.dNextOId]
    · simp only [List.cons.injEq, and_true] at same
      obtain ⟨rfl, rfl, rfl⟩ := same
      exact fun _ => ⟨wLow, wHigh, dLow, dHigh⟩
    · rw [ordered.others _ same]
      exact sound.inside w d o'
  · intro w d inside
    rw [ordered.district]
    by_cases mine : [o.wId, o.dId] = [w, d]
    · simp only [List.cons.injEq, and_true] at mine
      obtain ⟨rfl, rfl⟩ := mine
      refine ⟨_, by rw [lookup_update, if_pos rfl, found]; rfl, by simp only; omega, ?_⟩
      intro o' above
      simp only at above
      have differ : [o.wId, o.dId, o'] ≠ [o.wId, o.dId, rec.dNextOId] := by
        intro same
        simp only [List.cons.injEq, and_true, true_and] at same
        omega
      rw [ordered.others _ differ]
      exact vacant o' (by omega)
    · obtain ⟨rec', found', high', vacant'⟩ := sound.next w d inside
      refine ⟨rec', by rw [lookup_update, if_neg mine, found'], high', ?_⟩
      intro o' above
      have differ : [w, d, o'] ≠ [o.wId, o.dId, rec.dNextOId] := by
        intro same
        simp only [List.cons.injEq, and_true] at same
        apply mine
        rw [same.1, same.2.1]
      rw [ordered.others _ differ]
      exact vacant' o' above
  · constructor
    · exact ordered.warehouse.trans h1
    · exact ordered.item.trans h2
    · intro k
      rw [ordered.district]
      exact (lookup_update_none _ _ _ _).trans (h3 k)
    · exact fun k => (ordered.customer k).trans (h4 k)
    · exact fun k => (ordered.stock k).trans (h5 k)

end Steps

section Load
variable (W : ℕ) (draws : Draws)

theorem loaded_shows {w d o : ℕ} (member : (w, d, o) ∈ loadedIds W 1 3000) :
    (view ⟨load W draws, []⟩ [(w : ℤ), (d : ℤ), (o : ℤ)]).Shows (decide (2100 ≤ o))
      (decide (o < 2101)) (decide (o < 2101)) := by
  obtain ⟨order, neworder⟩ := view_loaded W draws member
  constructor
  · refine ⟨_, order, by simp only [Draws.order]; omega, ?_, ?_⟩
    · simp only [Draws.order]
      by_cases early : o < 2101
      · simp only [early, if_true, decide_true]
        constructor
        · omega
        · exact fun h => absurd h (by simp)
      · simp [early]
    · intro l
      have here : (view ⟨load W draws, []⟩ [(w : ℤ), (d : ℤ), (o : ℤ)]).lines l = _ :=
        rowsAt_loadedLines W draws member l
      by_cases inside : 1 ≤ l ∧ l ≤ (draws.order w d o).oOlCnt
      · rw [if_pos inside] at here
        rw [if_pos inside]
        refine ⟨_, here, ?_⟩
        by_cases early : o < 2101 <;> simp [Draws.orderline, currentTimestamp, early]
      · rw [if_neg inside] at here
        rwa [if_neg inside]
  · rw [neworder]
    by_cases late : 2100 ≤ o <;> simp [late]

theorem load_sound : Sound W (load W draws) (fun _ _ => False) ⟨load W draws, []⟩ := by
  have member : ∀ w d, Inside W w d → ∃ w' d' : ℕ, w = w' ∧ d = d' ∧
      (w', d') ∈ loadedDistricts W := by
    rintro w d ⟨wLow, wHigh, dLow, dHigh⟩
    refine ⟨w.toNat, d.toNat, by omega, by omega, ?_⟩
    rw [mem_loadedDistricts]
    omega
  constructor
  · intro w d inside
    obtain ⟨w, d, rfl, rfl, there⟩ := member w d inside
    refine ⟨fun _ => ?_, fun no => no.elim⟩
    have order : (w, d, 2100) ∈ loadedIds W 1 3000 := by
      rw [mem_loadedIds (by omega)]
      exact ⟨there, by omega, by omega⟩
    exact loaded_shows W draws order
  · intro k other
    rcases loaded_or_vacant W draws k with ⟨w, d, o, there, rfl⟩ | vacant
    · have inside := (mem_loadedIds (by omega)).mp there
      have shows := loaded_shows W draws there
      right
      rcases Nat.lt_trichotomy o 2100 with early | boundary | late
      · right
        have h1 : ¬ 2100 ≤ o := by omega
        have h2 : o < 2101 := by omega
        simpa [h1, h2] using shows
      · have district := mem_loadedDistricts.mp inside.1
        refine absurd ?_ (other w d ⟨by omega, by omega, by omega, by omega⟩)
        rw [boundary]
        rfl
      · left
        have h1 : 2100 ≤ o := by omega
        have h2 : ¬ o < 2101 := by omega
        simpa [h1, h2] using shows
    · exact Or.inl vacant
  · intro k news
    rcases loaded_or_vacant W draws k with ⟨w, d, o, there, rfl⟩ | vacant
    · refine ⟨w, d, o, rfl, ?_⟩
      rw [(view_loaded W draws there).2] at news
      split at news
      · omega
      · exact absurd rfl news
    · exact absurd vacant.neworder news
  · intro w d o some
    rcases loaded_or_vacant W draws [w, d, o] with ⟨w', d', o', there, same⟩ | vacant
    · have district := mem_loadedDistricts.mp ((mem_loadedIds (by omega)).mp there).1
      simp only [List.cons.injEq, and_true] at same
      exact ⟨by omega, by omega, by omega, by omega⟩
    · exact absurd vacant.order some
  · intro w d inside
    obtain ⟨w, d, rfl, rfl, there⟩ := member w d inside
    refine ⟨_, load_district W draws there, Int.le_refl _, ?_⟩
    intro o above
    apply view_unloaded
    intro w' d' o' there' same
    have bounds := (mem_loadedIds (by omega)).mp there'
    simp only [List.cons.injEq, and_true] at same above
    omega
  · exact (load_inv W draws).tables

end Load

theorem serial_sound {W : ℕ} (draws : Draws) {delivered : ℤ → ℤ → Prop} (i : ℕ) {calls : List Call}
    (drawn : ∀ c ∈ calls, c.Drawn W ∧ c.OfOrders) {s : State}
    (sound : Sound W (load W draws) delivered s) :
    Sound W (load W draws)
      (fun w d => delivered w d ∨ (∃ carrierId, .delivery w carrierId ∈ calls) ∧ d ∈ districts)
      (serial i calls s) := by
  induction calls generalizing i s delivered with
  | nil =>
    have same : (fun w d => delivered w d ∨
        (∃ carrierId, Call.delivery w carrierId ∈ []) ∧ d ∈ districts) = delivered := by
      funext w d
      simp
    rw [same]
    exact sound
  | cons c calls ih =>
    have later : ∀ c ∈ calls, c.Drawn W ∧ c.OfOrders :=
      fun c member => drawn c (List.mem_cons_of_mem _ member)
    obtain ⟨drawn, orders⟩ := drawn c (by simp)
    cases c with
    | newOrder o =>
      have step := ih (i + 1) later (sound.newOrder i (load_stocked W draws drawn) drawn)
      have same : (fun w d => delivered w d ∨
          (∃ carrierId, Call.delivery w carrierId ∈ Call.newOrder o :: calls) ∧ d ∈ districts) =
          fun w d => delivered w d ∨
            (∃ carrierId, Call.delivery w carrierId ∈ calls) ∧ d ∈ districts := by
        funext w d
        simp
      rw [same]
      exact step
    | delivery wId carrierId =>
      have step := ih (i + 1) later (sound.delivery i drawn)
      have same : (fun w d => delivered w d ∨
          (∃ carrier, Call.delivery w carrier ∈ Call.delivery wId carrierId :: calls) ∧
            d ∈ districts) =
          fun w d => (delivered w d ∨ w = wId ∧ d ∈ districts) ∨
            (∃ carrier, Call.delivery w carrier ∈ calls) ∧ d ∈ districts := by
        funext w d
        apply propext
        simp only [List.mem_cons, Call.delivery.injEq]
        constructor
        · rintro (old | ⟨⟨carrier, ⟨rfl, _⟩ | member⟩, inside⟩)
          · exact Or.inl (Or.inl old)
          · exact Or.inl (Or.inr ⟨rfl, inside⟩)
          · exact Or.inr ⟨⟨carrier, member⟩, inside⟩
        · rintro ((old | ⟨rfl, inside⟩) | ⟨⟨carrier, member⟩, inside⟩)
          · exact Or.inl old
          · exact Or.inr ⟨⟨carrierId, Or.inl ⟨rfl, rfl⟩⟩, inside⟩
          · exact Or.inr ⟨⟨carrier, Or.inr member⟩, inside⟩
      rw [same]
      exact step
    | paymentById p cId => exact False.elim orders
    | paymentByName p cLast => exact False.elim orders

/-- The tables agree on whether an order is still to be delivered. -/
def Corresponds (db : Database) (w d o : ℤ) (r : Order) : Prop :=
  (lookup db.neworder [w, d, o] ≠ none ↔ r.oCarrierId = 0) ∧
  (lookup db.neworder [w, d, o] ≠ none ↔
    ∀ l line, lookup db.orderline [w, d, o, l] = some line → line.olDeliveryD = 0)

theorem lookup_order {s : State} {k : Key} {r : Order} (order : (view s k).order = [r]) :
    lookup s.db.order k = some r := by
  have rows : rowsAt s.db.order k = [r] := order
  rw [lookup_eq, rows, List.head?_cons]

theorem View.Shows.corresponds {s : State} {w d o : ℤ} {r : Order} {news carried stamped : Bool}
    (shows : (view s [w, d, o]).Shows news carried stamped)
    (there : lookup s.db.order [w, d, o] = some r) :
    Corresponds s.db w d o r ↔ news ≠ carried ∧ news ≠ stamped := by
  obtain ⟨⟨r', order, count, carrier, lines⟩, neworder⟩ := shows
  obtain rfl : r' = r := Option.some.inj ((lookup_order order).symm.trans there)
  have present : lookup s.db.neworder [w, d, o] ≠ none ↔ news = true := by
    rw [lookup_eq]
    have rows : rowsAt s.db.neworder [w, d, o] = if news then [()] else [] := neworder
    rw [rows]
    cases news <;> simp
  have unstamped : (∀ l line, lookup s.db.orderline [w, d, o, l] = some line →
      line.olDeliveryD = 0) ↔ stamped = false := by
    have rows : ∀ l, lookup s.db.orderline [w, d, o, l] = ((view s [w, d, o]).lines l).head? :=
      fun l => lookup_eq _ _
    constructor
    · intro all
      have first := lines 1
      rw [if_pos ⟨Int.le_refl 1, count⟩] at first
      obtain ⟨line, here, date⟩ := first
      apply date.mp
      apply all 1
      rw [rows, here]
      rfl
    · intro open' l line found
      rw [rows] at found
      have here := lines l
      split at here
      · obtain ⟨line', only, date⟩ := here
        rw [only] at found
        cases found
        exact date.mpr open'
      · rw [here] at found
        cases found
  rw [Corresponds, present, unstamped, carrier]
  cases news <;> cases carried <;> cases stamped <;> simp

/-- An order's tables agree unless it is order 2100 of its district and no delivery has
visited its warehouse. -/
theorem corresponds_iff (W : ℕ) (draws : Draws) (calls : List Call)
    (drawn : ∀ c ∈ calls, c.Drawn W ∧ c.OfOrders) (w d o : ℤ) (r : Order)
    (there : lookup (serial 0 calls ⟨load W draws, []⟩).db.order [w, d, o] = some r) :
    Corresponds (serial 0 calls ⟨load W draws, []⟩).db w d o r ↔
      o ≠ 2100 ∨ ∃ carrierId, .delivery w carrierId ∈ calls := by
  have sound := serial_sound draws 0 drawn (load_sound W draws)
  by_cases boundary : Inside W w d ∧ o = 2100
  · obtain ⟨inside, rfl⟩ := boundary
    have first := sound.first w d inside
    by_cases visited : ∃ carrierId, Call.delivery w carrierId ∈ calls
    · have shows := first.2 (Or.inr ⟨visited, mem_districts.mpr ⟨inside.2.2.1, inside.2.2.2⟩⟩)
      rw [shows.corresponds there]
      simp [visited]
    · have shows := first.1 (by
        rintro (no | ⟨visit, _⟩)
        · exact no
        · exact visited visit)
      rw [shows.corresponds there]
      simp [visited]
  · have other : ∀ w' d', Inside W w' d' → [w, d, o] ≠ [w', d', 2100] := by
      intro w' d' inside same
      simp only [List.cons.injEq, and_true] at same
      obtain ⟨rfl, rfl, rfl⟩ := same
      exact boundary ⟨inside, rfl⟩
    have some' : (view (serial 0 calls ⟨load W draws, []⟩) [w, d, o]).order ≠ [] := by
      rw [lookup_eq] at there
      exact List.ne_nil_of_mem (List.mem_of_mem_head? there)
    have late : o ≠ 2100 := fun same => boundary ⟨sound.inside w d o some', same⟩
    have alike : Corresponds (serial 0 calls ⟨load W draws, []⟩).db w d o r := by
      rcases sound.rest _ other with vacant | shows | shows
      · exact absurd vacant.order some'
      · rw [shows.corresponds there]
        decide
      · rw [shows.corresponds there]
        decide
    exact ⟨fun _ => Or.inl late, fun _ => alike⟩

theorem corresponds_iff_delivered : ∃ r,
    lookup (serial 0 [.delivery 1 1] ⟨load 1 sampleDraws, []⟩).db.order [1, 1, 2100] = some r ∧
      Corresponds (serial 0 [.delivery 1 1] ⟨load 1 sampleDraws, []⟩).db 1 1 2100 r := by
  have drawn : ∀ c ∈ [Call.delivery 1 1], c.Drawn 1 ∧ c.OfOrders := by
    simp [Call.Drawn, Call.OfOrders]
  have sound := serial_sound sampleDraws 0 drawn (load_sound 1 sampleDraws)
  have visited : ∃ carrierId, Call.delivery 1 carrierId ∈ [Call.delivery 1 1] := ⟨1, by simp⟩
  have shows := (sound.first 1 1 ⟨by decide, by decide, by decide, by decide⟩).2
    (Or.inr ⟨visited, by decide⟩)
  obtain ⟨r, order, _⟩ := shows.order
  have there := lookup_order order
  exact ⟨r, there, (corresponds_iff 1 sampleDraws _ drawn 1 1 2100 r there).mpr (Or.inr visited)⟩

/-- The loader makes order 2100 both delivered and open. -/
theorem loaded_2100_differs : ∃ r,
    lookup (serial 0 [] ⟨load 1 sampleDraws, []⟩).db.order [1, 1, 2100] = some r ∧
      ¬ Corresponds (serial 0 [] ⟨load 1 sampleDraws, []⟩).db 1 1 2100 r := by
  have shows := ((load_sound 1 sampleDraws).first 1 1
    ⟨by decide, by decide, by decide, by decide⟩).1 fun no => no
  obtain ⟨r, order, _⟩ := shows.order
  have there := lookup_order order
  refine ⟨r, there, ?_⟩
  intro alike
  exact absurd ((shows.corresponds there).mp alike).1 (by decide)

end Tpcc
