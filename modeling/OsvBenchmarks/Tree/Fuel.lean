import OsvBenchmarks.Tree.Refinement

/-!
A bound on the turns of a loop only says how long to run: an operation that has
ended ends the same with any higher bound.
-/
namespace BTree

namespace Outcome
variable {α β : Type}

/-- `more` is what `less` is, once that does not spin. -/
def Extends (less more : Outcome α) : Prop := less ≠ spins → more = less

theorem extends_refl (a : Outcome α) : Extends a a := fun _ => rfl

theorem extends_spins (a : Outcome α) : Extends spins a := fun ends => absurd rfl ends

theorem Extends.bind {a b : Outcome α} {f g : α → Outcome β} (first : Extends a b)
    (rest : ∀ x, Extends (f x) (g x)) : Extends (a >>= f) (b >>= g) := by
  intro ends
  cases a with
  | spins => exact absurd rfl ends
  | crashes => rw [first (by simp)]; rfl
  | exits => rw [first (by simp)]; rfl
  | done x =>
    rw [first (by simp)]
    exact rest x ends

end Outcome

open Outcome

theorem settles_of_extends {α : Type} {run : ℕ → Outcome α}
    (extends_ : ∀ fuel, Extends (run fuel) (run (fuel + 1))) {fuel : ℕ} {a : α} (ends : run fuel = done a) :
    Settles run (done a) := by
  have later : ∀ d, run (fuel + d) = done a := by
    intro d
    induction d with
    | zero => exact ends
    | succ d ih =>
      rw [← ih]
      exact extends_ (fuel + d) (by rw [ih]; simp)
  refine Filter.eventually_atTop.mpr ⟨fuel, fun more le => ?_⟩
  obtain ⟨d, rfl⟩ := Nat.exists_eq_add_of_le le
  exact later d

theorem Store.descend_extends (s : Store) (key : Key) (toSplit : Option ℕ) (fuel : ℕ) (at_ : Store.Position) :
    Extends (s.descend key toSplit fuel at_) (s.descend key toSplit (fuel + 1) at_) := by
  induction fuel generalizing at_ with
  | zero => exact extends_spins _
  | succ fuel ih =>
    unfold Store.descend
    split
    · exact extends_refl _
    · dsimp only
      split
      · exact ih _
      · exact extends_refl _

namespace Tree
variable (t : Tree) (fuel : ℕ) (s : Store) (key : Key)

theorem findLeaf_extends : Extends (t.findLeaf fuel s key) (t.findLeaf (fuel + 1) s key) :=
  (s.descend_extends key none fuel _).bind fun _ => extends_refl _

theorem lookup_extends : Extends (t.lookup fuel s key) (t.lookup (fuel + 1) s key) :=
  (t.findLeaf_extends fuel s key).bind fun _ => extends_refl _

theorem lookupInto_extends (payloadOutSize : ℕ) :
    Extends (t.lookupInto fuel s key payloadOutSize) (t.lookupInto (fuel + 1) s key payloadOutSize) :=
  (t.findLeaf_extends fuel s key).bind fun _ => extends_refl _

theorem updateInPlace_extends (fn : Callback) :
    Extends (t.updateInPlace fuel s key fn) (t.updateInPlace (fuel + 1) s key fn) :=
  (t.findLeaf_extends fuel s key).bind fun _ => extends_refl _

theorem ensureSpace_extends (toSplit payloadLen : ℕ) :
    Extends (t.ensureSpace fuel s toSplit key payloadLen) (t.ensureSpace (fuel + 1) s toSplit key payloadLen) := by
  induction fuel generalizing s toSplit key payloadLen with
  | zero => exact extends_spins _
  | succ fuel ih =>
    apply (s.descend_extends key (some toSplit) fuel _).bind
    intro at_
    split
    · split
      · exact extends_refl _
      · apply (extends_refl _).bind
        rintro ⟨restart, s⟩
        cases restart with
        | none => exact extends_refl _
        | some up => exact ih s up.2 up.1 pidSize
    · exact extends_refl _

theorem insertTurn_extends (payload : Payload) :
    Extends (t.insertTurn fuel s key payload) (t.insertTurn (fuel + 1) s key payload) := by
  apply (s.descend_extends key none fuel _).bind
  intro at_
  dsimp only
  split
  · exact extends_refl _
  · apply (extends_refl _).bind
    rintro ⟨restart, s⟩
    cases restart with
    | none => exact extends_refl _
    | some up => exact (t.ensureSpace_extends fuel s up.2 up.1 pidSize).bind fun _ => extends_refl _

theorem insert_extends (payload : Payload) :
    Extends (t.insert fuel s key payload) (t.insert (fuel + 1) s key payload) := by
  induction fuel generalizing s with
  | zero => exact extends_spins _
  | succ fuel ih =>
    apply (t.insertTurn_extends fuel s key payload).bind
    rintro ⟨happened, s⟩
    dsimp only
    split
    · exact extends_refl _
    · exact ih s

theorem remove_extends : Extends (t.remove fuel s key) (t.remove (fuel + 1) s key) :=
  (s.descend_extends key none fuel _).bind fun _ => extends_refl _

theorem call_extends (call : Call) : Extends (t.call fuel s call) (t.call (fuel + 1) s call) := by
  cases call with
  | insert key payload => exact (t.insert_extends fuel s key payload).bind fun _ => extends_refl _
  | remove key => exact (t.remove_extends fuel s key).bind fun _ => extends_refl _
  | lookup key => exact (t.lookup_extends fuel s key).bind fun _ => extends_refl _
  | lookupInto key payloadOutSize =>
    exact (t.lookupInto_extends fuel s key payloadOutSize).bind fun _ => extends_refl _
  | updateInPlace key fn => exact (t.updateInPlace_extends fuel s key fn).bind fun _ => extends_refl _

theorem calls_extends (calls : List Call) : Extends (t.calls fuel s calls) (t.calls (fuel + 1) s calls) := by
  induction calls generalizing s with
  | nil => exact extends_refl _
  | cons call rest ih =>
    apply (t.call_extends fuel s call).bind
    rintro ⟨answer, s⟩
    exact (ih s).bind fun _ => extends_refl _

section Scan
variable {σ : Type} (st : σ)

theorem scanAscFrom_extends (fn : σ → BTreeNode → ℕ → σ × Bool) (node pos : ℕ) :
    Extends (scanAscFrom s fn fuel node pos st) (scanAscFrom s fn (fuel + 1) node pos st) := by
  induction fuel generalizing node pos st with
  | zero => exact extends_spins _
  | succ fuel ih =>
    unfold scanAscFrom
    dsimp only
    split
    · split
      · exact ih _ node (pos + 1)
      · exact extends_refl _
    · split
      · exact ih st _ 0
      · exact extends_refl _

theorem adapterScan_extends (cb : σ → Key × Payload → σ × Bool) :
    Extends (t.adapterScan fuel s key cb st) (t.adapterScan (fuel + 1) s key cb st) :=
  (t.findLeaf_extends fuel s key).bind fun node => scanAscFrom_extends fuel s st _ node _

end Scan
end Tree

def Outcome.passes {α : Type} (check : α → Bool) : Outcome α → Bool
  | done a => check a
  | _ => false

theorem passes_done {α : Type} {check : α → Bool} {a : Outcome α} (passes : a.passes check = true) :
    ∃ x, a = done x ∧ check x = true := by
  cases a with
  | done x => exact ⟨x, rfl, passes⟩
  | spins => cases passes
  | exits => cases passes
  | crashes => cases passes

def freshCalls (calls : List Call) (fuel : ℕ) : Outcome (List Answer × Store) := do
  let (t, s) ← Tree.create 0 blankStore
  t.calls fuel s calls

theorem fresh_settles (calls : List Call) (fuel : ℕ) (check : List Answer × Store → Bool)
    (passes : (freshCalls calls fuel).passes check = true) :
    ∃ s₁ answers s, Tree.create 0 blankStore = done (⟨0, false⟩, s₁) ∧
      Settles (fun fuel => (⟨0, false⟩ : Tree).calls fuel s₁ calls) (done (answers, s)) ∧
      check (answers, s) = true := by
  obtain ⟨s₁, eq, _⟩ := create_represents (s := blankStore) 0 0 (by decide) (by decide) (by decide)
  obtain ⟨⟨answers, s⟩, ends, good⟩ := passes_done passes
  rw [freshCalls, eq, done_bind] at ends
  exact ⟨s₁, answers, s, eq, settles_of_extends (fun fuel => Tree.calls_extends _ fuel s₁ calls) ends, good⟩

theorem ran_of_check (calls : List Call) (fuel : ℕ) (check : List Answer × Store → Bool)
    (passes : (freshCalls calls fuel).passes check = true) :
    ∃ answers s, Ran ⟨0, false⟩ calls answers s ∧ check (answers, s) = true := by
  obtain ⟨s₁, answers, s, eq, ends, good⟩ := fresh_settles calls fuel check passes
  exact ⟨answers, s, ⟨0, blankStore, s₁, by decide, by decide, by decide, eq, ends⟩, good⟩

def wide (k : u8) : Payload := List.replicate 900 k

def fullLeaf : List Call := [1, 2, 3, 4].map fun k : u8 => .insert [k] (wide k)

/-- A fifth splits it, under a new root; then one entry is removed. -/
def splitLeaf : List Call :=
  fullLeaf ++ [.insert [5] (wide 5), .lookup [2], .remove [4], .lookup [4], .lookup [5]]

def splitAnswers : List Answer :=
  [.unit, .unit, .unit, .unit, .unit, .payload (some (wide 2)), .bool true, .payload none,
    .payload (some (wide 5))]

theorem splitLeaf_allowed : (∅ : Map).Allows 900 splitLeaf ∧ (∅ : Map).answers splitLeaf = splitAnswers := by
  have acceptable : ∀ k : u8, Acceptable 900 [k] (wide k) := fun k =>
    ⟨List.cons_ne_nil k [], Nat.le_add_left 1 63, Nat.le_add_left 901 92, List.length_replicate⟩
  constructor
  · refine ⟨⟨?_, acceptable 1⟩, ⟨?_, acceptable 2⟩, ⟨?_, acceptable 3⟩, ⟨?_, acceptable 4⟩, ⟨?_, acceptable 5⟩,
      trivial, trivial, trivial, trivial, trivial⟩ <;> simp [Map.after]
  · simp [splitLeaf, fullLeaf, splitAnswers, Map.answers, Map.answer, Map.after]

theorem splitLeaf_made : ∃ s, Made ⟨0, false⟩ 900 splitLeaf s := by
  obtain ⟨answers, s, ran, _⟩ := ran_of_check splitLeaf 12 (fun _ => true) (by decide +kernel)
  exact ⟨s, splitLeaf_allowed.1, answers, ran⟩

end BTree
