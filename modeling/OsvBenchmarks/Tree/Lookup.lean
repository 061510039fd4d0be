import Mathlib.Data.Finmap
import OsvBenchmarks.Tree.Asserted
import OsvBenchmarks.Tree.Steps

/-!
The operations that look a key up: what they find is the entry of the key in the
whole tree, and an update changes its payload and no other entry.
-/
namespace BTree
open FenceTree BTreeNode Outcome

section
variable {t : Tree} {w : ℕ} {s : Store} {live : Finset ℕ} {level : ℕ → ℕ} {p : ℕ} {key : Key}
variable (wf : WellFormed t w s live level)
include wf

theorem WellFormed.mem_leaf (hp : p ∈ live) (leaf : level p = 0) {e : Key × Payload}
    (has : (s.view p).fences.Has e.1) : e ∈ s.content live ↔ e ∈ (s.page p).entries := by
  have isLeaf := (wf.rooted.leaf hp).mpr leaf
  have entries : (s.view p).entries = (s.page p).entries := view_entries isLeaf
  constructor
  · rintro ⟨q, hq, mem⟩
    have inside := wf.shape.inside q hq e mem
    have same : q = p := wf.shape.leaf_unique hq hp (view_isLeaf.mpr (leaf_of_entry mem).1)
      (view_isLeaf.mpr isLeaf) inside has
    rwa [same, entries] at mem
  · intro mem
    exact ⟨p, hp, by rwa [entries]⟩

theorem WellFormed.found (hp : p ∈ live) (leaf : level p = 0) (has : (s.view p).fences.Has key) :
    if ((s.page p).lowerBound key).2 = true then
      ((s.page p).lowerBound key).1 < (s.page p).count ∧
        (s.page p).fullKey ((s.page p).lowerBound key).1 = key ∧
        (key, (s.page p).getPayload ((s.page p).lowerBound key).1) ∈ s.content live
    else Absent s live key := by
  have formed := wf.formed p hp
  have weak := formed.sorted.imp fun h => le_of_lt h
  split
  · rename_i found
    obtain ⟨inside, slot⟩ := lowerBound_slot formed.valid weak found
    refine ⟨inside, ?_, (wf.mem_leaf hp leaf has).mpr (List.mem_of_getElem? slot)⟩
    rw [fullKey_eq inside] at slot
    exact congrArg Prod.fst (Option.some.inj slot)
  · rename_i missing
    intro v mem
    have here := (wf.mem_leaf hp leaf has).mp mem
    exact missing ((lowerBound_found formed.valid weak key).mpr ⟨v, here⟩)

/-- Where a leaf changes at one key, the tree changes at this key. -/
theorem WellFormed.mem_put (hp : p ∈ live) (leaf : level p = 0) (has : (s.view p).fences.Has key)
    {n : BTreeNode} (isLeaf : n.isLeaf = true) (new : Key × Payload → Prop)
    (mem : ∀ e, e ∈ n.entries ↔ new e ∨ e ∈ (s.page p).entries ∧ e.1 ≠ key) (e : Key × Payload) :
    e ∈ (s.put p n).content live ↔ new e ∨ e ∈ s.content live ∧ e.1 ≠ key := by
  have old := (wf.rooted.leaf hp).mpr leaf
  rw [mem_content hp old, mem_put_content hp isLeaf, mem]
  constructor
  · rintro ((here | here) | ⟨q, hq, qp, there⟩)
    · exact Or.inl here
    · exact Or.inr ⟨Or.inl here.1, here.2⟩
    · refine Or.inr ⟨Or.inr ⟨q, hq, qp, there⟩, fun same => qp ?_⟩
      have inside := wf.shape.inside q hq e there
      rw [same] at inside
      exact wf.shape.leaf_unique hq hp (view_isLeaf.mpr (leaf_of_entry there).1)
        (view_isLeaf.mpr old) inside has
  · rintro (here | ⟨here | there, other⟩)
    · exact Or.inl (Or.inl here)
    · exact Or.inl (Or.inr ⟨here, other⟩)
    · exact Or.inr there

theorem WellFormed.slot_has (hp : p ∈ live) (leaf : level p = 0) {i : ℕ} (inside : i < (s.page p).count) :
    (s.view p).fences.Has ((s.page p).fullKey i) := by
  refine wf.shape.inside p hp ((s.page p).fullKey i, (s.page p).getPayload i) ?_
  rw [Store.view, view_entries ((wf.rooted.leaf hp).mpr leaf)]
  exact fullKey_mem inside

theorem WellFormed.setPayload (hp : p ∈ live) (leaf : level p = 0) {i : ℕ}
    (inside : i < (s.page p).count) {data : Payload} (len : data.length = ((s.page p).getPayload i).length) :
    WellFormed t w (s.put p ((s.page p).setPayload i data)) live level ∧
      ∀ e, e ∈ (s.put p ((s.page p).setPayload i data)).content live ↔
        e = ((s.page p).fullKey i, data) ∨ e ∈ s.content live ∧ e.1 ≠ (s.page p).fullKey i := by
  have isLeaf := (wf.rooted.leaf hp).mpr leaf
  have formed := wf.formed p hp
  have bounded := wf.bounded p hp
  rw [width, isLeaf] at bounded
  have step := setPayload_overwritten formed.valid inside (len.trans (bytes_length _ _ _))
  have old := bounded.payloads _ (fullKey_mem inside)
  have wide := Wide.overwritten (w := w) bounded.payloads step (len.trans old)
  have mem := fun e => step.mem formed inside (e := e)
  generalize (s.page p).setPayload i data = r at *
  have isLeaf' := step.isLeaf.trans isLeaf
  refine ⟨wf.rewrite hp leaf isLeaf' ?_ step.link ?_ ?_, ?_⟩
  · rw [fences, fences, step.lower, step.upper]
  · exact (step.thins inside).formed formed fun inner => absurd (isLeaf'.symm.trans inner) (by decide)
  · exact (step.thins inside).bounded bounded wide
  · exact wf.mem_put hp leaf (wf.slot_has hp leaf inside) isLeaf' _ mem

theorem WellFormed.finds (hp : p ∈ live) (leaf : level p = 0) (has : (s.view p).fences.Has key) :
    Settles (fun fuel => t.findLeaf fuel s key) (done p) := by
  obtain ⟨at_, rfl, _, reaches⟩ := wf.rooted.reaches hp has (Or.inr ⟨rfl, leaf⟩)
  exact reaches.bind (settles_const _)

theorem WellFormed.findLeaf (key : Key) : ∃ p ∈ live, level p = 0 ∧ (s.view p).fences.Has key ∧
    Settles (fun fuel => t.findLeaf fuel s key) (done p) := by
  obtain ⟨p, hp, leaf, has⟩ := wf.rooted.page_at (Nat.zero_le _) key
  exact ⟨p, hp, leaf, has, wf.finds hp leaf has⟩

end

/-- A finite map from byte strings to payloads: what a tree is for. -/
abbrev Map := Finmap fun _ : Key => Payload

theorem lookup_insert_some {m : Map} {key k : Key} {payload v : Payload} :
    (m.insert key payload).lookup k = some v ↔ (k, v) = (key, payload) ∨ m.lookup k = some v ∧ k ≠ key := by
  by_cases same : k = key
  · subst same
    rw [Finmap.lookup_insert, Option.some.injEq]
    simp [eq_comm]
  · rw [Finmap.lookup_insert_of_ne m same]
    simp [same]

theorem lookup_erase_some {m : Map} {key k : Key} {v : Payload} :
    (m.erase key).lookup k = some v ↔ m.lookup k = some v ∧ k ≠ key := by
  by_cases same : k = key
  · subst same
    rw [Finmap.lookup_erase]
    simp
  · rw [Finmap.lookup_erase_ne same]
    simp [same]

def Represents (t : Tree) (w : ℕ) (s : Store) (m : Map) : Prop :=
  ∃ live level, WellFormed t w s live level ∧ ∀ k v, (k, v) ∈ s.content live ↔ m.lookup k = some v

section
variable {t : Tree} {w : ℕ} {s : Store} {m : Map}

theorem WellFormed.lookup_eq {live : Finset ℕ} {level : ℕ → ℕ} (wf : WellFormed t w s live level)
    (content : ∀ k v, (k, v) ∈ s.content live ↔ m.lookup k = some v) {p : ℕ} {key : Key} (hp : p ∈ live)
    (leaf : level p = 0) (has : (s.view p).fences.Has key) :
    m.lookup key = if ((s.page p).lowerBound key).2 = true
      then some ((s.page p).getPayload ((s.page p).lowerBound key).1) else none := by
  have found := wf.found hp leaf has
  split at found
  · rename_i exact_
    rw [if_pos exact_]
    exact (content _ _).mp found.2.2
  · rename_i missing
    rw [if_neg missing]
    exact Option.eq_none_iff_forall_ne_some.mpr fun v same => found v ((content key v).mpr same)

theorem Represents.lookup (represents : Represents t w s m) (key : Key) :
    Settles (fun fuel => t.lookup fuel s key) (done (m.lookup key)) := by
  obtain ⟨live, level, wf, content⟩ := represents
  obtain ⟨p, hp, leaf, has, finds⟩ := wf.findLeaf key
  rw [wf.lookup_eq content hp leaf has]
  exact finds.bind (settles_const _)

theorem Represents.lookupInto (represents : Represents t w s m) (key : Key) (payloadOutSize : ℕ) :
    Settles (fun fuel => t.lookupInto fuel s key payloadOutSize)
      (done ((m.lookup key).map fun v => (v.length, v.take (min v.length payloadOutSize)))) := by
  obtain ⟨live, level, wf, content⟩ := represents
  obtain ⟨p, hp, leaf, has, finds⟩ := wf.findLeaf key
  have len : ∀ pos, ((s.page p).slotAt pos).payloadLen = ((s.page p).getPayload pos).length :=
    fun pos => (bytes_length _ _ _).symm
  have copied : (if ((s.page p).lowerBound key).2 = true then
      some (((s.page p).slotAt ((s.page p).lowerBound key).1).payloadLen,
        ((s.page p).getPayload ((s.page p).lowerBound key).1).take
          (min ((s.page p).slotAt ((s.page p).lowerBound key).1).payloadLen payloadOutSize)) else none) =
      (m.lookup key).map fun v => (v.length, v.take (min v.length payloadOutSize)) := by
    rw [wf.lookup_eq content hp leaf has, len]
    split
    · rfl
    · rfl
  rw [← copied]
  exact finds.bind (settles_const _)

def Map.update (m : Map) (key : Key) (fn : Tree.Callback) : Map :=
  match m.lookup key with
  | some v => m.insert key (fn.apply v)
  | none => m

theorem updateInPlace_eq {fuel p : ℕ} {key : Key} {fn : Tree.Callback}
    (finds : t.findLeaf fuel s key = done p) : t.updateInPlace fuel s key fn =
      done (if ((s.page p).lowerBound key).2 = true then
        (true, s.put p ((s.page p).setPayload ((s.page p).lowerBound key).1
          (fn.apply ((s.page p).getPayload ((s.page p).lowerBound key).1)))) else (false, s)) := by
  rw [Tree.updateInPlace, finds]
  rfl

theorem Represents.updateInPlace (represents : Represents t w s m) (key : Key) (fn : Tree.Callback) :
    ∃ s', Settles (fun fuel => t.updateInPlace fuel s key fn) (done ((m.lookup key).isSome, s')) ∧
      Represents t w s' (m.update key fn) := by
  obtain ⟨live, level, wf, content⟩ := represents
  obtain ⟨p, hp, leaf, has, finds⟩ := wf.findLeaf key
  have lookup := wf.lookup_eq content hp leaf has
  have found := wf.found hp leaf has
  have eq : Settles (fun fuel => t.updateInPlace fuel s key fn) _ := finds.mono fun _ => updateInPlace_eq
  cases exact_ : ((s.page p).lowerBound key).2 with
  | false =>
    rw [exact_, if_neg Bool.false_ne_true] at lookup eq
    refine ⟨s, ?_, live, level, wf, ?_⟩
    · rwa [lookup]
    · rw [Map.update, lookup]
      exact content
  | true =>
    rw [exact_, if_pos rfl] at lookup found eq
    obtain ⟨inside, same, _⟩ := found
    generalize ((s.page p).lowerBound key).1 = pos at *
    obtain ⟨wf', content'⟩ := wf.setPayload hp leaf inside (fn.length _)
    refine ⟨_, by rwa [lookup], live, level, wf', ?_⟩
    intro k v
    rw [content', same, content, Map.update, lookup, lookup_insert_some]

end

end BTree
