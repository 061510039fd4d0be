import OsvBenchmarks.Threads.Descent

/-!
The blocks of a call keep to the outline: what is done at the leaf. A call that
changes the leaf does so at its lock, once the guard on the parent has shown that
the leaf covers the key; a call that changes nothing has its answer from when it
read the leaf.
-/
namespace BTree.Threads
open BTree FenceTree BTreeNode Blocks Optimistic

variable {t : Tree} {w : ℕ} {ops : ℕ → Call} {i : ℕ} {n : BTreeNode} {a : Answer}

section Leaf
variable {s : Shared} {key : Key} {p : ℕ} (here : OnPath t w key p n s.store) (outer : n.isInner = false)
include here outer

theorem OnPath.bottom : OnLevel t w s.store p 0 ∧ (s.store.view p).fences.Has key :=
  here.1.leaf (by rw [here.2]; exact outer)

theorem OnPath.lookup (inv : Inv t w ops s) : (mapOf s.history).lookup key =
    if (n.lowerBound key).2 = true then some (n.getPayload (n.lowerBound key).1) else none := by
  obtain ⟨on, has⟩ := here.bottom outer
  have lookup := lookup_at inv.tree on has
  rwa [here.2] at lookup

end Leaf

theorem search_slot {key : Key} (found : (n.lowerBound key).2 = true) :
    ∀ k ∈ some (n.lowerBound key).1, n.lowerBound key = (k, true) := by
  intro k same
  cases same
  exact Prod.ext rfl found

theorem leafChange_holds {p : ℕ} {slot : Option ℕ} {write : Store → Store} (outer : n.isInner = false)
    (search : ∀ k ∈ slot, n.lowerBound (callKey (ops i)) = (k, true))
    (changes : ∀ s, Inv t w ops s → OnPath t w (callKey (ops i)) p n s.store →
      Grants ops i (.changes p slot) s →
      Changed t w s.store (write s.store) ((mapOf s.history).after (ops i)) {p} ∧
      a = (mapOf s.history).answer (ops i)) :
    (outline t w ops).Holds i (fun s => Busy i {p} s ∧ OnPath t w (callKey (ops i)) p n s.store)
      (change i (ops i) p slot write <| unfixX p <| .stop (.answered a)) := by
  have held : p ∈ ({p} : Finset ℕ) := Finset.mem_singleton_self p
  refine change_holds (held_stable (onPath_local.kept held)) ?_ ?_
    (done_unfixX held (Finset.erase_singleton p) done_stop)
  · rintro s inv ⟨busy, here⟩
    obtain ⟨on, has⟩ := here.bottom outer
    exact ⟨(busy.holding p).mpr held, on, has, by rwa [here.2]⟩
  · rintro s inv ⟨busy, here⟩ granted
    exact ⟨busy, changes s inv here granted⟩

theorem short_leaf : Goal.Short .leaf := trivial

theorem unlock_restart {goal : Goal} (short : goal.Short) {p : ℕ} :
    (outline t w ops).Holds i (Busy i {p}) (unfixX p <| .goto (.descend goal) : Code) :=
  busy_unfixX (Finset.mem_singleton_self p) (Finset.erase_singleton p)
    (busy_restart short fun _ _ idle => idle)

theorem onlyLeaf_holds {parent node : Guard ℕ} {pos : ℕ} {slot : Option ℕ} {write : Store → Store}
    (outer : n.isInner = false) (search : ∀ k ∈ slot, n.lowerBound (callKey (ops i)) = (k, true))
    (changes : ∀ s, Inv t w ops s → OnPath t w (callKey (ops i)) node.page n s.store →
      Grants ops i (.changes node.page slot) s →
      Changed t w s.store (write s.store) ((mapOf s.history).after (ops i)) {node.page} ∧
      a = (mapOf s.history).answer (ops i)) :
    (outline t w ops).Holds i (Below t w i (callKey (ops i)) parent node pos n)
      (upgrade i node (.goto (.descend .leaf)) <|
        check parent (unfixX node.page <| .goto (.descend .leaf)) <|
        change i (ops i) node.page slot write <| unfixX node.page <| .stop (.answered a)) := by
  have held : node.page ∈ ({node.page} : Finset ℕ) := Finset.mem_singleton_self _
  have kept := (local_page (t := t) (w := w) (p := node.page) (· = n)).kept held
  refine upgrade_holds (fun s => (Busy i {node.page} s ∧ s.store.page node.page = n) ∧
      Sees i parent (Leads t w parent.page (callKey (ops i)) node.page pos) s)
    below_stable (fun _ _ here => idle_order here.1) (busy_restart short_leaf fun s _ here => here.1) ?_ ?_
  · rintro s inv ⟨busy, above, sees⟩ free version
    exact ⟨sees.there, ⟨busy.lock, sees.unchanged ⟨free, version⟩⟩, above.lockX free⟩
  refine check_holds (fun s => Busy i {node.page} s ∧ OnPath t w (callKey (ops i)) node.page n s.store)
    ((held_stable kept).and (sees_stable leads_local)) ?_ ?_ (leafChange_holds outer search changes)
  · exact (unlock_restart short_leaf).weaken fun s _ here => here.1.1
  · rintro s inv ⟨⟨busy, page⟩, above⟩ same
    exact ⟨busy, ((above.unchanged same).child inv).2, page⟩

/-- The answer of a call that has read the leaf, and changes nothing. -/
theorem OnPath.answered {s : Shared} {p : ℕ} (here : OnPath t w (callKey (ops i)) p n s.store)
    (outer : n.isInner = false) (inv : Inv t w ops s) (busy : Busy i ∅ s)
    (answers : ∀ m : Map, m.lookup (callKey (ops i)) =
      (if (n.lowerBound (callKey (ops i))).2 = true then
        some (n.getPayload (n.lowerBound (callKey (ops i))).1) else none) →
      a = m.answer (ops i) ∧ Rests (ops i) m) : Answered i (ops i) a s.history := by
  obtain ⟨answer, nothing⟩ := answers _ (here.lookup outer inv)
  exact busy.answered answer nothing

theorem answered_stop : (outline t w ops).Holds i (fun s => Answered i (ops i) a s.history)
    (.stop (.answered a) : Code) :=
  Outline.Holds.stop fun _ _ answered => answered

section Plain

theorem look_holds {node : Guard ℕ} (outer : n.isInner = false)
    (answers : ∀ m : Map, m.lookup (callKey (ops i)) =
      (if (n.lowerBound (callKey (ops i))).2 = true then
        some (n.getPayload (n.lowerBound (callKey (ops i))).1) else none) →
      a = m.answer (ops i) ∧ Rests (ops i) m) :
    (outline t w ops).Holds i
      (fun s => Busy i ∅ s ∧ Sees i node (OnPath t w (callKey (ops i)) node.page n) s)
      (check node (.goto (.descend .leaf)) <| .stop (.answered a)) := by
  refine check_holds _ (busy_stable.and (sees_stable onPath_local))
    (busy_restart short_leaf fun s _ here => here.1) ?_ answered_stop
  rintro s inv ⟨busy, sees⟩ same
  exact (sees.unchanged same).answered outer inv busy answers

theorem plainLeaf_holds (node : Guard ℕ) (outer : n.isInner = false) {call : Call} (same : ops i = call) :
    (outline t w ops).Holds i
      (fun s => Busy i ∅ s ∧ Sees i node (OnPath t w (callKey (ops i)) node.page n) s)
      (plainLeaf i call node n) := by
  have again : (outline t w ops).Holds i
      (fun s => Busy i ∅ s ∧ Sees i node (OnPath t w (callKey (ops i)) node.page n) s)
      (.goto (.descend .leaf) : Code) := busy_restart short_leaf fun s _ here => here.1
  cases call with
  | insert key payload => exact again
  | remove key => exact again
  | lookup key =>
    rw [plainLeaf]
    refine look_holds outer fun m lookup => ?_
    rw [same] at lookup ⊢
    exact ⟨congrArg Answer.payload lookup.symm, trivial⟩
  | lookupInto key payloadOutSize =>
    rw [plainLeaf]
    refine look_holds outer fun m lookup => ?_
    rw [same] at lookup ⊢
    refine ⟨congrArg Answer.copied ?_, trivial⟩
    have lookup : m.lookup key = _ := lookup
    have len : ∀ pos, (n.slotAt pos).payloadLen = (n.getPayload pos).length :=
      fun pos => (bytes_length _ _ _).symm
    rw [lookup, len]
    split
    · rfl
    · rfl
  | updateInPlace key fn =>
    rw [plainLeaf]
    split
    · rename_i found
      rw [← same]
      refine upgrade_holds (fun s => Busy i {node.page} s ∧ OnPath t w (callKey (ops i)) node.page n s.store)
        (busy_stable.and (sees_stable onPath_local)) (fun _ _ here => idle_order here.1) again ?_
        (leafChange_holds outer (search_slot (by rw [same]; exact found)) ?_)
      · rintro s inv ⟨busy, sees⟩ free version
        exact ⟨sees.there, busy.lock, sees.unchanged ⟨free, version⟩⟩
      · rintro s inv here _
        have lookup := here.lookup outer inv
        obtain ⟨on, has⟩ := here.bottom outer
        rw [same] at has lookup ⊢
        rw [if_pos found] at lookup
        have changed := setPayload_changed inv.tree on has (by rw [here.2]; exact found) fn
        rw [here.2] at changed ⊢
        refine ⟨changed, congrArg Answer.bool ?_⟩
        change true = ((mapOf s.history).lookup (callKey (.updateInPlace key fn))).isSome
        rw [lookup]
        rfl
    · rename_i missing
      refine look_holds outer fun m lookup => ?_
      rw [same] at lookup ⊢
      rw [if_neg missing] at lookup
      have lookup : m.lookup key = none := lookup
      refine ⟨congrArg Answer.bool ?_, lookup⟩
      rw [lookup]
      rfl

end Plain
end BTree.Threads
