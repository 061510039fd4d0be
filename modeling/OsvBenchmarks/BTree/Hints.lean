import OsvBenchmarks.BTree.Merge
import Mathlib.Logic.Function.Basic

/-!
The hints kept by hand against those computed anew: updateHint after an entry
was put in, and any sequence of the functions that change pages.
-/
namespace BTree
namespace BTreeNode

/-- The hint array is what makeHint would write. -/
def Hinted (n : BTreeNode) : Prop := n.hint = n.makeHint.hint

variable {n : BTreeNode}

theorem makeHint_hinted : n.makeHint.Hinted := rfl

theorem Hinted.of_slot {r : BTreeNode} (hinted : n.Hinted) (slot : r.slot = n.slot)
    (hint : r.hint = n.hint) : r.Hinted := by
  unfold Hinted at *
  rw [hint, hinted]
  simp only [makeHint, count, slotAt, slot]

/-- updateHint after one more entry, where the hints were right before. -/
theorem updateHint_inserted {r : BTreeNode} {slotId : ℕ} {s : Slot} (hinted : n.Hinted)
    (inside : slotId ≤ n.count) (slots : r.slot = setSlot (shiftUp n.slot slotId) slotId s)
    (hint : r.hint = n.hint) : (r.updateHint slotId).hint = r.makeHint.hint := by
  rw [setSlot_shiftUp inside] at slots
  refine updateHint_eq slots inside fun _ => ?_
  have before : ({ r with slot := n.slot } : BTreeNode).Hinted := hinted.of_slot rfl hint
  exact before

/-- The binary search ends within the range that it starts from, in whatever order the keys are. -/
theorem search_le (key : Key) (keyHead : ℕ) {turns lower upper : ℕ} (order : lower ≤ upper) :
    (n.search key keyHead turns lower upper).1 ≤ upper := by
  induction turns generalizing lower upper with
  | zero => exact order
  | succ turns ih =>
    simp only [search]
    split
    · rename_i more
      generalize at_ : (upper - lower) / 2 + lower = mid
      have within : lower ≤ mid ∧ mid < upper := by omega
      have up : (n.search key keyHead turns lower mid).1 ≤ upper :=
        (ih within.1).trans (le_of_lt within.2)
      have down : (n.search key keyHead turns (mid + 1) upper).1 ≤ upper := ih within.2
      split
      · exact up
      · split
        · exact down
        · split
          · exact up
          · exact down
          · split
            · exact up
            · split
              · exact down
              · exact le_of_lt within.2
    · exact order

theorem lowerBound_le (hinted : n.Hinted) (skey : Key) : (n.lowerBound skey).1 ≤ n.count := by
  unfold lowerBound
  split
  · exact Nat.zero_le _
  · exact le_refl _
  · split
    · exact Nat.zero_le _
    · obtain ⟨order, bound⟩ := searchHint_inside (fun _ => hinted) (head (skey.drop n.prefixLen))
      exact (search_le _ _ order).trans bound

theorem compactify_hinted : n.compactify.Hinted := rfl

theorem removeSlot_hinted (slotId : ℕ) : (n.removeSlot slotId).Hinted := rfl

theorem setPayload_hinted (hinted : n.Hinted) (slotId : ℕ) (data : Payload) :
    (n.setPayload slotId data).Hinted := hinted.of_slot rfl rfl

theorem insertInPage_hinted (hinted : n.Hinted) (key : Key) (payload : Payload) :
    (n.insertInPage key payload).Hinted := by
  have store : ∀ m : BTreeNode, m.Hinted →
      ((({ m with slot := shiftUp m.slot (m.lowerBound key).1 } : BTreeNode).storeKeyValue
        (m.lowerBound key).1 key payload).updateHint (m.lowerBound key).1).Hinted := by
    intro m before
    exact updateHint_inserted before (lowerBound_le before key) rfl rfl
  unfold insertInPage
  split
  · exact store _ compactify_hinted
  · exact store _ hinted

theorem mergeNodes_hinted {parent : BTreeNode} (hinted : n.Hinted) (above : parent.Hinted)
    (pid slotId : ℕ) (right : BTreeNode) : (n.mergeNodes pid slotId parent right).2.1.Hinted ∧
      (n.mergeNodes pid slotId parent right).2.2.Hinted := by
  cases leaf : n.isLeaf with
  | false =>
    have kept : n.mergeNodes pid slotId parent right = (true, n, parent) := by
      unfold mergeNodes
      rw [if_pos (by simp [leaf])]
    rw [kept]
    exact ⟨hinted, above⟩
  | true =>
    rw [mergeNodes_leaf_eq leaf]
    split
    · exact ⟨hinted, above⟩
    · exact ⟨makeHint_hinted.of_slot rfl rfl, removeSlot_hinted _⟩

variable (n) in
theorem splitNode_hinted {parent : BTreeNode} (above : parent.Hinted)
    (leftPID newPID sepSlot : ℕ) (sep : Key) : (n.splitNode leftPID newPID parent sepSlot sep).1.Hinted ∧
      (n.splitNode leftPID newPID parent sepSlot sep).2.1.Hinted ∧
      (n.splitNode leftPID newPID parent sepSlot sep).2.2.Hinted := by
  have linked : (if (parent.lowerBound sep).1 = parent.count then { parent with link := newPID }
      else parent.setPayload (parent.lowerBound sep).1 (pidBytes newPID) : BTreeNode).Hinted := by
    split
    · exact above.of_slot rfl rfl
    · exact setPayload_hinted above _ _
  have raised := insertInPage_hinted linked sep (pidBytes leftPID)
  unfold splitNode
  split
  · exact ⟨makeHint_hinted, makeHint_hinted, raised⟩
  · exact ⟨makeHint_hinted, makeHint_hinted, raised⟩

end BTreeNode

/-- A call of one of the functions that move entries, with the pages it works on. -/
inductive PageCall where
  | insertInPage (pid : ℕ) (key : Key) (payload : Payload)
  | removeSlot (pid slotId : ℕ)
  | compactify (pid : ℕ)
  | splitNode (pid newPID parent sepSlot : ℕ) (sep : Key)
  | mergeNodes (pid slotId parent right : ℕ)

open Function in
def PageCall.run (page : ℕ → BTreeNode) : PageCall → ℕ → BTreeNode
  | insertInPage pid key payload => update page pid ((page pid).insertInPage key payload)
  | removeSlot pid slotId => update page pid ((page pid).removeSlot slotId)
  | compactify pid => update page pid (page pid).compactify
  | splitNode pid newPID parent sepSlot sep =>
    let (nodeLeft, nodeRight, above) :=
      (page pid).splitNode pid newPID (page parent) sepSlot sep
    update (update (update page parent above) newPID nodeRight) pid nodeLeft
  | mergeNodes pid slotId parent right =>
    let (_, node, above) := (page pid).mergeNodes pid slotId (page parent) (page right)
    update (update page parent above) pid node

section Hinted
variable {page : ℕ → BTreeNode}

theorem update_hinted (hinted : ∀ pid, (page pid).Hinted) {n : BTreeNode} (new : n.Hinted)
    (at_ : ℕ) : ∀ pid, (Function.update page at_ n pid).Hinted := by
  intro pid
  by_cases here : pid = at_
  · subst here
    rwa [Function.update_self]
  · rw [Function.update_of_ne here]
    exact hinted pid

theorem run_hinted (hinted : ∀ pid, (page pid).Hinted) (call : PageCall) :
    ∀ pid, (call.run page pid).Hinted := by
  cases call with
  | insertInPage at_ key payload =>
    exact update_hinted hinted (BTreeNode.insertInPage_hinted (hinted at_) key payload) at_
  | removeSlot at_ slotId => exact update_hinted hinted (BTreeNode.removeSlot_hinted slotId) at_
  | compactify at_ => exact update_hinted hinted BTreeNode.compactify_hinted at_
  | splitNode at_ newPID parent sepSlot sep =>
    obtain ⟨left, right, above⟩ :=
      (page at_).splitNode_hinted (hinted parent) at_ newPID sepSlot sep
    exact update_hinted (update_hinted (update_hinted hinted above parent) right newPID) left at_
  | mergeNodes at_ slotId parent right =>
    obtain ⟨merged, above⟩ :=
      BTreeNode.mergeNodes_hinted (hinted at_) (hinted parent) at_ slotId (page right)
    exact update_hinted (update_hinted hinted above parent) merged at_

theorem runs_hinted (hinted : ∀ pid, (page pid).Hinted) (calls : List PageCall) :
    ∀ pid, (calls.foldl PageCall.run page pid).Hinted := by
  induction calls generalizing page with
  | nil => exact hinted
  | cons call calls ih => exact ih (run_hinted hinted call)

end Hinted

/-- Hints kept up are hints made anew: after one more entry at any slot, and so after every
    sequence of insertInPage, removeSlot, compactify, split and merge. -/
theorem hints_maintained :
    (∀ (n r : BTreeNode) (slotId : ℕ) (s : Slot), n.hint = n.makeHint.hint → slotId ≤ n.count →
      r.slot = setSlot (shiftUp n.slot slotId) slotId s → r.hint = n.hint →
      (r.updateHint slotId).hint = r.makeHint.hint) ∧
    ∀ (page : ℕ → BTreeNode) (calls : List PageCall),
      (∀ pid, (page pid).hint = (page pid).makeHint.hint) →
      ∀ pid, (calls.foldl PageCall.run page pid).hint =
        (calls.foldl PageCall.run page pid).makeHint.hint := by
  constructor
  · intro n r slotId s hinted inside slots hint
    exact BTreeNode.updateHint_inserted hinted inside slots hint
  · intro page calls hinted
    exact runs_hinted hinted calls

/-- A page of 40 slots that gets another one at slot 30, and two pages of a split. -/
theorem hints_maintained_two :
    let n := ({ BTreeNode.new true with slot := List.replicate 40 ⟨4000, 1, 1, 7⟩ }).makeHint
    let r := { n with slot := setSlot (shiftUp n.slot 30) 30 ⟨3900, 1, 1, 9⟩ }
    let page := fun _ : ℕ => BTreeNode.new true
    let calls : List PageCall := [.insertInPage 3 [1] [2], .splitNode 3 4 5 0 [1]]
    (r.updateHint 30).hint = r.makeHint.hint ∧
      ∀ pid, (calls.foldl PageCall.run page pid).hint =
        (calls.foldl PageCall.run page pid).makeHint.hint := by
  intro n r page calls
  have hinted : ∀ pid, (page pid).hint = (page pid).makeHint.hint := by
    intro pid
    decide
  exact ⟨hints_maintained.1 n r 30 ⟨3900, 1, 1, 9⟩ rfl (by decide) rfl rfl,
    hints_maintained.2 page calls hinted⟩

end BTree
