import OsvBenchmarks.BTree.Fewer
import OsvBenchmarks.Library.FenceTree.Route
import OsvBenchmarks.Library.FenceTree.Steps

/-!
A page of bytes as a page of a search tree: an empty fence is no bound, the
separators of an inner page are what its slots hold, a leaf has no neighbour
where its link says so. The children are known by their places among the slots.
-/
namespace BTree
open FenceTree

def bound (fence : Key) : Option Key := if fence = [] then none else some fence

@[simp] theorem bound_nil : bound [] = none := rfl

theorem bound_some {fence : Key} (some' : fence ≠ []) : bound fence = some fence := if_neg some'

theorem bound_eq_none {fence : Key} : bound fence = none ↔ fence = [] := by
  unfold bound
  split <;> simp_all

theorem bound_eq_some {fence key : Key} : bound fence = some key ↔ fence = key ∧ key ≠ [] := by
  unfold bound
  split
  · rename_i empty
    rw [empty]
    constructor
    · intro none
      cases none
    · rintro ⟨rfl, some'⟩
      exact absurd rfl some'
  · rename_i some'
    constructor
    · intro same
      cases same
      exact ⟨rfl, some'⟩
    · rintro ⟨rfl, _⟩
      rfl

theorem bound_inj {a b : Key} (same : bound a = bound b) : a = b := by
  cases here : bound b with
  | none =>
    rw [here] at same
    rw [bound_eq_none.mp same, bound_eq_none.mp here]
  | some k =>
    rw [here] at same
    rw [(bound_eq_some.mp same).1, (bound_eq_some.mp here).1]

namespace BTreeNode
variable {n q r : BTreeNode}

def fences (n : BTreeNode) : Fences Key := ⟨bound n.getLowerFence, bound n.getUpperFence⟩

/-- The neighbour that a leaf's link names. -/
def neighbour (n : BTreeNode) : Option ℕ := if n.hasRightNeighbour then some n.link else none

def view (n : BTreeNode) : Page Key Payload ℕ where
  fences := n.fences
  body := if n.isLeaf then .leaf n.entries n.neighbour else .inner n.children n.link

@[simp] theorem view_fences : n.view.fences = n.fences := rfl

theorem view_isLeaf : n.view.isLeaf ↔ n.isLeaf = true := by
  unfold view Page.isLeaf
  cases n.isLeaf <;> simp

theorem view_entries (leaf : n.isLeaf = true) : n.view.entries = n.entries := by
  simp [view, Page.entries, leaf]

theorem view_next (leaf : n.isLeaf = true) : n.view.next = n.neighbour := by
  simp [view, Page.next, leaf]

theorem view_body (inner : n.isLeaf = false) : n.view.body = .inner n.children n.link := by
  simp [view, inner]

theorem view_kids (inner : n.isLeaf = false) : n.view.kids =
    spans (bound n.getLowerFence) n.children n.link (bound n.getUpperFence) := by
  simp [view, Page.kids, inner, fences]

theorem fences_has {k : Key} : n.fences.Has k ↔
    (n.getLowerFence < k ∨ n.getLowerFence = []) ∧ (n.getUpperFence = [] ∨ k ≤ n.getUpperFence) := by
  unfold Fences.Has
  apply and_congr
  · constructor
    · intro above
      by_cases none : n.getLowerFence = []
      · exact Or.inr none
      · exact Or.inl (above _ (bound_some none))
    · rintro above l same
      obtain ⟨rfl, some'⟩ := bound_eq_some.mp same
      exact above.resolve_right some'
  · constructor
    · intro below
      by_cases none : n.getUpperFence = []
      · exact Or.inl none
      · exact Or.inr (below _ (bound_some none))
    · rintro below u same
      obtain ⟨rfl, some'⟩ := bound_eq_some.mp same
      exact below.resolve_left some'

theorem has_covers {k : Key} (has : n.fences.Has k) : n.Covers k := by
  obtain ⟨above, below⟩ := fences_has.mp has
  refine ⟨?_, below⟩
  rcases above with less | none
  · exact le_of_lt less
  · rw [none]
    exact Prefix.nil_le k

section Place
variable {c newPID : ℕ} {sep : Key} {pre post : List (ℕ × Fences Key)}

theorem after_children {i : ℕ} (wide : q.Wide pidSize) (le : i ≤ q.count) :
    after (bound q.getLowerFence) (q.children.take i) =
      if i = 0 then bound q.getLowerFence else some (q.fullKey (i - 1)) := by
  cases i with
  | zero => rfl
  | succ i =>
    have here := children_getElem? wide (i := i) (by omega)
    rw [List.take_add_one, here, Option.toList_some, after_concat, if_neg (by omega)]
    rfl

theorem place_routes (formed : Formed q) (inner : q.isLeaf = false)
    (place : q.view.kids = pre ++ (c, n.fences) :: post) : Routes q n c pre.length := by
  have wide := formed.wide inner
  rw [view_kids inner] at place
  obtain ⟨_, lower, behind⟩ := spans_place place
  have le : pre.length ≤ q.count := by
    rw [← children_length]
    rcases behind with ⟨len, _⟩ | ⟨u, here, _⟩
    · omega
    · exact le_of_lt (List.getElem?_eq_some_iff.mp here).1
  have nonempty : ∀ {j}, j < q.count → q.fullKey j ≠ [] := by
    intro j less empty
    have := (formed.separator inner less).1
    rw [empty] at this
    exact absurd this (List.not_lt_nil _)
  rw [after_children wide le] at lower
  refine ⟨le, ?_, ?_, ?_⟩
  · rcases behind with ⟨len, last, _⟩ | ⟨u, here, _⟩
    · rw [if_pos (by rw [len, children_length]), last]
    · have inside : pre.length < q.count := by
        rw [← children_length]
        exact (List.getElem?_eq_some_iff.mp here).1
      rw [children_getElem? wide inside] at here
      cases here
      rw [if_neg (by omega)]
  · split
    · rename_i zero
      rw [if_pos zero] at lower
      exact bound_inj lower
    · rename_i pos
      rw [if_neg pos] at lower
      exact (bound_eq_some.mp lower).1
  · rcases behind with ⟨len, _, upper, _⟩ | ⟨u, here, upper, _⟩
    · rw [if_pos (by rw [len, children_length])]
      exact bound_inj upper
    · have inside : pre.length < q.count := by
        rw [← children_length]
        exact (List.getElem?_eq_some_iff.mp here).1
      rw [children_getElem? wide inside] at here
      cases here
      rw [if_neg (by omega)]
      exact (bound_eq_some.mp upper).1

/-- The parent of a split has the two halves where it had the page. -/
theorem adopted_place (inner : q.isLeaf = false)
    (place : q.view.kids = pre ++ (c, n.fences) :: post)
    (adopted : Adopted q r sep c newPID pre.length) :
    r.view.kids = pre ++ (c, ⟨bound n.getLowerFence, some sep⟩) ::
      (newPID, ⟨some sep, bound n.getUpperFence⟩) :: post := by
  rw [view_kids inner] at place
  obtain ⟨before, lower, behind⟩ := spans_place place
  have lower : bound n.getLowerFence = _ := lower
  rw [view_kids (adopted.isLeaf.trans inner), adopted.lower, adopted.upper]
  rcases behind with ⟨len, last, upper, none⟩ | ⟨u, here, upper, rest⟩
  · obtain ⟨children, link⟩ := adopted.last (by rw [len, children_length])
    have upper : bound n.getUpperFence = _ := upper
    rw [children, link, spans_at, lower, upper, none]
    rw [List.take_of_length_le (by omega)] at before
    rw [List.take_of_length_le (by omega), ← before]
    rfl
  · obtain ⟨children, link⟩ := adopted.inside u c here
    have upper : bound n.getUpperFence = _ := upper
    rw [children, link, spans_at, ← before, lower, upper, rest]
    rfl

theorem place_next {f : Fences Key} (wide : q.Wide pidSize) (inner : q.isLeaf = false)
    (place : q.view.kids = pre ++ (c, f) :: post) (inside : pre.length + 1 < q.count) :
    ∃ f' post', post = (q.getChild (pre.length + 1), f') :: post' := by
  rw [view_kids inner] at place
  obtain ⟨_, _, behind⟩ := spans_place place
  obtain ⟨u, _, _, rest⟩ := behind.resolve_left fun last => absurd last.1 (by
    rw [children_length]
    omega)
  have here : pre.length + 1 < q.children.length := by rwa [children_length]
  have next := children_getElem? wide inside
  rw [List.getElem?_eq_getElem here] at next
  rw [List.drop_eq_getElem_cons here, Option.some.inj next] at rest
  exact ⟨_, _, rest⟩

/-- The parent of a merge has the merged leaf where it had the two. -/
theorem joined_place {right : BTreeNode} {rightPID : ℕ} (wide : q.Wide pidSize) (inner : q.isLeaf = false)
    (place : q.view.kids = pre ++ (c, n.fences) :: (rightPID, right.fences) :: post)
    (inside : pre.length + 1 < q.count) (joined : Joined q r c pre.length) :
    r.view.kids = pre ++ (c, ⟨bound n.getLowerFence, bound right.getUpperFence⟩) :: post := by
  rw [view_kids inner] at place
  obtain ⟨before, lower, behind⟩ := spans_place place
  have lower : bound n.getLowerFence = _ := lower
  have here : pre.length + 1 < q.children.length := by rwa [children_length]
  obtain ⟨u, _, _, rest⟩ := behind.resolve_left fun last => absurd last.1 (by omega)
  obtain ⟨_, _, behind⟩ := @spans_place _ _ (some u) _ (q.children.drop (pre.length + 1)) _ _ _ [] _ rest.symm
  obtain ⟨u', there, upper, tail⟩ := behind.resolve_left fun last => absurd last.1 (by
    rw [List.length_nil, List.length_drop]
    omega)
  have upper : bound right.getUpperFence = _ := upper
  rw [List.length_nil, List.getElem?_drop, Nat.add_zero, children_getElem? wide inside] at there
  cases there
  rw [List.length_nil, List.drop_drop] at tail
  have children : r.children = q.children.take pre.length ++
      (q.fullKey (pre.length + 1), c) :: q.children.drop (pre.length + 1 + 1) := by
    rw [joined.children, List.eraseIdx_eq_take_drop_succ, List.take_set_of_le (Nat.le_succ _),
      List.drop_eq_getElem_cons (by rwa [List.length_set]), List.getElem_set_self,
      List.drop_set_of_lt (Nat.lt_succ_self _)]
  rw [view_kids (joined.isLeaf.trans inner), joined.lower, joined.upper, joined.link, children, spans_at,
    ← before, lower, upper, tail]

end Place

end BTreeNode
end BTree
