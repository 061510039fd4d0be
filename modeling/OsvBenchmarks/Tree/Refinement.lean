import OsvBenchmarks.Tree.Insert
import OsvBenchmarks.Tree.Remove

/-!
The tree refines a finite map: a sequence of calls on a fresh tree, run one at a
time, gives the answers that the map gives, as long as there are page ids.
-/
namespace BTree
open BTreeNode Outcome

section
variable {t : Tree} {w : ℕ} {s : Store} {m : Map} {key : Key} {payload : Payload}

theorem create_represents (slotId w : ℕ) (pos : metadataPageId < s.allocCount)
    (space : s.allocCount < s.virtCount) (small : s.virtCount ≤ noNeighbour) :
    ∃ s', Tree.create slotId s = done (⟨slotId, false⟩, s') ∧ Represents ⟨slotId, false⟩ w s' ∅ := by
  obtain ⟨s', eq, wf, none⟩ := create_wellFormed slotId w pos space small
  refine ⟨s', eq, _, _, wf, fun k v => ?_⟩
  rw [none, Finmap.lookup_empty]
  simp

theorem inserted_content {s' : Store} {live live' : Finset ℕ} (absent : m.lookup key = none)
    (content : ∀ k v, (k, v) ∈ s.content live ↔ m.lookup k = some v)
    (content' : s'.content live' = insert (key, payload) (s.content live)) (k : Key) (v : Payload) :
    (k, v) ∈ s'.content live' ↔ (m.insert key payload).lookup k = some v := by
  have other : m.lookup k = some v → k ≠ key := by
    rintro there rfl
    rw [absent] at there
    cases there
  rw [content', Set.mem_insert_iff, content, lookup_insert_some]
  exact or_congr_right ⟨fun there => ⟨there, other there⟩, fun there => there.1⟩

theorem erased_content {s' : Store} {live live' : Finset ℕ}
    (content : ∀ k v, (k, v) ∈ s.content live ↔ m.lookup k = some v)
    (content' : s'.content live' = {e ∈ s.content live | e.1 ≠ key}) (k : Key) (v : Payload) :
    (k, v) ∈ s'.content live' ↔ (m.erase key).lookup k = some v := by
  rw [content', Set.mem_sep_iff, content, lookup_erase_some]

theorem Represents.insert (represents : Represents t w s m) (ordered : t.splitOrdered = false)
    (acceptable : Acceptable w key payload) (absent : m.lookup key = none) :
    (Settles (fun fuel => t.insert fuel s key payload) exits ∧ t.RunsOut key payload s) ∨
    ∃ s', Settles (fun fuel => t.insert fuel s key payload) (done s') ∧
      Represents t w s' (m.insert key payload) := by
  obtain ⟨live, level, wf, content⟩ := represents
  have missing : Absent s live key := by
    intro v mem
    rw [content, absent] at mem
    cases mem
  obtain ⟨outcome, turns, _, settles⟩ := wf.inserts ordered acceptable missing
  rcases turns.returns with rfl | ⟨s', rfl⟩
  · exact Or.inl ⟨settles, turns.runsOut rfl⟩
  · obtain ⟨live', level', wf', content'⟩ := turns.done_keeps rfl
    exact Or.inr ⟨s', settles, live', level', wf', inserted_content absent content content'⟩

theorem Represents.remove (represents : Represents t w s m) (key : Key) :
    ∃ s', Settles (fun fuel => t.remove fuel s key) (done ((m.lookup key).isSome, s')) ∧
      Represents t w s' (m.erase key) := by
  obtain ⟨live, level, wf, content⟩ := represents
  rcases wf.remove key with ⟨absent, settles⟩ | ⟨v, s', live', mem, settles, wf', content'⟩
  · have none : m.lookup key = none :=
      Option.eq_none_iff_forall_ne_some.mpr fun v same => absent v ((content key v).mpr same)
    refine ⟨s, by rwa [none], live, level, wf, fun k v => ?_⟩
    rw [content, lookup_erase_some]
    refine ⟨fun there => ⟨there, ?_⟩, fun there => there.1⟩
    rintro rfl
    rw [none] at there
    cases there
  · rw [content] at mem
    exact ⟨s', by rwa [mem], live', level, wf', erased_content content content'⟩

end

inductive Call where
  | insert (key : Key) (payload : Payload)
  | remove (key : Key)
  | lookup (key : Key)
  | lookupInto (key : Key) (payloadOutSize : ℕ)
  | updateInPlace (key : Key) (fn : Tree.Callback)

inductive Answer where
  | unit
  | bool (b : Bool)
  | payload (p : Option Payload)
  | copied (r : Option (ℕ × List u8))
  deriving DecidableEq

namespace Tree
variable (t : Tree) (fuel : ℕ)

def call (s : Store) : Call → Outcome (Answer × Store)
  | .insert key payload => do
    let s ← t.insert fuel s key payload
    pure (.unit, s)
  | .remove key => do
    let (found, s) ← t.remove fuel s key
    pure (.bool found, s)
  | .lookup key => do
    let p ← t.lookup fuel s key
    pure (.payload p, s)
  | .lookupInto key payloadOutSize => do
    let r ← t.lookupInto fuel s key payloadOutSize
    pure (.copied r, s)
  | .updateInPlace key fn => do
    let (found, s) ← t.updateInPlace fuel s key fn
    pure (.bool found, s)

def calls (s : Store) : List Call → Outcome (List Answer × Store)
  | [] => done ([], s)
  | call :: rest => do
    let (answer, s) ← t.call fuel s call
    let (answers, s) ← calls s rest
    pure (answer :: answers, s)

end Tree

def Call.entry : Call → Option (Key × Payload)
  | .insert key payload => some (key, payload)
  | .remove _ => none
  | .lookup _ => none
  | .lookupInto _ _ => none
  | .updateInPlace _ _ => none

/-- After some calls that are done there is an insert that runs out of page ids. -/
inductive Tree.Exhausts {C A : Type} (t : Tree) (call : ℕ → Store → C → Outcome (A × Store))
    (entry : C → Option (Key × Payload)) : Store → List C → Prop
  | here {s : Store} {c : C} {rest : List C} {key : Key} {payload : Payload} :
    entry c = some (key, payload) → t.RunsOut key payload s → Exhausts t call entry s (c :: rest)
  | later {s s' : Store} {c : C} {rest : List C} {answer : A} :
    Settles (fun fuel => call fuel s c) (done (answer, s')) → Exhausts t call entry s' rest →
    Exhausts t call entry s (c :: rest)

def Map.after (m : Map) : Call → Map
  | .insert key payload => m.insert key payload
  | .remove key => m.erase key
  | .lookup _ => m
  | .lookupInto _ _ => m
  | .updateInPlace key fn => m.update key fn

def Map.answer (m : Map) : Call → Answer
  | .insert _ _ => .unit
  | .remove key => .bool (m.lookup key).isSome
  | .lookup key => .payload (m.lookup key)
  | .lookupInto key payloadOutSize =>
    .copied ((m.lookup key).map fun v => (v.length, v.take (min v.length payloadOutSize)))
  | .updateInPlace key _ => .bool (m.lookup key).isSome

def Map.answers (m : Map) : List Call → List Answer
  | [] => []
  | call :: rest => m.answer call :: (m.after call).answers rest

/-- insert gets a key that is absent at that moment, with a payload of the tree's size. -/
def Map.Takes (w : ℕ) (m : Map) : Call → Prop
  | .insert key payload => m.lookup key = none ∧ Acceptable w key payload
  | _ => True

def Map.Allows (w : ℕ) (m : Map) : List Call → Prop
  | [] => True
  | call :: rest => m.Takes w call ∧ (m.after call).Allows w rest

section
variable {t : Tree} {w : ℕ} {s : Store} {m : Map}

theorem Represents.call (represents : Represents t w s m) (ordered : t.splitOrdered = false) {call : Call}
    (takes : m.Takes w call) :
    (Settles (fun fuel => t.call fuel s call) exits ∧ ∀ rest, t.Exhausts t.call Call.entry s (call :: rest)) ∨
    ∃ s', Settles (fun fuel => t.call fuel s call) (done (m.answer call, s')) ∧
      Represents t w s' (m.after call) := by
  cases call with
  | insert key payload =>
    rcases represents.insert ordered takes.2 takes.1 with ⟨ends, out⟩ | ⟨s', ends, represents'⟩
    · exact Or.inl ⟨ends.bind_exits, fun _ => .here rfl out⟩
    · exact Or.inr ⟨s', ends.bind (settles_const _), represents'⟩
  | remove key =>
    obtain ⟨s', ends, represents'⟩ := represents.remove key
    exact Or.inr ⟨s', ends.bind (settles_const _), represents'⟩
  | lookup key => exact Or.inr ⟨s, (represents.lookup key).bind (settles_const _), represents⟩
  | lookupInto key payloadOutSize =>
    exact Or.inr ⟨s, (represents.lookupInto key payloadOutSize).bind (settles_const _), represents⟩
  | updateInPlace key fn =>
    obtain ⟨s', ends, represents'⟩ := represents.updateInPlace key fn
    exact Or.inr ⟨s', ends.bind (settles_const _), represents'⟩

theorem Represents.calls (represents : Represents t w s m) (ordered : t.splitOrdered = false)
    {calls : List Call} (allows : m.Allows w calls) :
    (Settles (fun fuel => t.calls fuel s calls) exits ∧ t.Exhausts t.call Call.entry s calls) ∨
    ∃ s', Settles (fun fuel => t.calls fuel s calls) (done (m.answers calls, s')) ∧
      Represents t w s' (calls.foldl Map.after m) := by
  induction calls generalizing s m with
  | nil => exact Or.inr ⟨s, settles_const _, represents⟩
  | cons call rest ih =>
    rcases represents.call ordered allows.1 with ⟨ends, out⟩ | ⟨s', ends, represents'⟩
    · exact Or.inl ⟨ends.bind_exits, out rest⟩
    · rcases ih represents' allows.2 with ⟨stops, out⟩ | ⟨s'', goes, represents''⟩
      · exact Or.inl ⟨ends.bind stops.bind_exits, .later ends out⟩
      · exact Or.inr ⟨s'', ends.bind (goes.bind (settles_const _)), represents''⟩

end

/-- Calls on a fresh tree that have ended, with what they returned and left. -/
def Ran (t : Tree) (calls : List Call) (answers : List Answer) (s : Store) : Prop :=
  ∃ slotId s₀ s₁, metadataPageId < s₀.allocCount ∧ s₀.allocCount < s₀.virtCount ∧ s₀.virtCount ≤ noNeighbour ∧
    Tree.create slotId s₀ = done (t, s₁) ∧ Settles (fun fuel => t.calls fuel s₁ calls) (done (answers, s))

/-- A tree that calls on a fresh one have led to, each insert with a key that was absent then. -/
structure Made (t : Tree) (w : ℕ) (calls : List Call) (s : Store) : Prop where
  allows : (∅ : Map).Allows w calls
  ran : ∃ answers, Ran t calls answers s

theorem Settles.unique {α : Type} {run : ℕ → Outcome α} {a b : Outcome α} (first : Settles run a)
    (second : Settles run b) : a = b := by
  obtain ⟨fuel, here, there⟩ := (first.and second).exists
  exact here.symm.trans there

theorem Made.represents {t : Tree} {w : ℕ} {calls : List Call} {s : Store} (made : Made t w calls s) :
    Represents t w s (calls.foldl Map.after ∅) := by
  obtain ⟨answers, slotId, s₀, s₁, pos, space, small, eq, ends⟩ := made.ran
  obtain ⟨s', eq', represents⟩ := create_represents slotId w pos space small
  rw [eq'] at eq
  cases eq
  rcases represents.calls rfl made.allows with ⟨stops, _⟩ | ⟨s'', goes, represents'⟩
  · cases ends.unique stops
  · cases ends.unique goes
    exact represents'

end BTree
