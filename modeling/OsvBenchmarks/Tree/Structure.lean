import OsvBenchmarks.Library.FenceTree.Chain
import OsvBenchmarks.Tree.Fuel

/-!
What every page of a tree looks like that was made by calls on a fresh one: keys
in order between the fences, children in the intervals between separators, all
leaves at one depth and linked in key order.
-/
namespace BTree
open FenceTree BTreeNode Outcome

def BTreeNode.childAt (n : BTreeNode) (pos : ℕ) : ℕ := if pos = n.count then n.link else n.getChild pos

inductive Tree.At (t : Tree) (s : Store) : ℕ → ℕ → Prop
  | root : At t s 0 (s.roots t.slotId)
  | child {depth p pos : ℕ} : At t s depth p → (s.page p).isLeaf = false → pos ≤ (s.page p).count →
    At t s (depth + 1) ((s.page p).childAt pos)

/-- The page at some depth below `p` that first children lead to. -/
def Store.leftmost (s : Store) : ℕ → ℕ → ℕ
  | 0, p => p
  | depth + 1, p => s.leftmost depth ((s.page p).childAt 0)

/-- A page by itself. An empty fence is no bound. -/
structure BTreeNode.Ordered (n : BTreeNode) : Prop where
  sorted : ∀ i j, i < j → j < n.count → n.fullKey i < n.fullKey j
  leaf : n.isLeaf = true → ∀ i < n.count, (n.getLowerFence = [] ∨ n.getLowerFence < n.fullKey i) ∧
    (n.getUpperFence = [] ∨ n.fullKey i ≤ n.getUpperFence)
  inner : n.isLeaf = false → ∀ i < n.count, (n.getLowerFence = [] ∨ n.getLowerFence < n.fullKey i) ∧
    (n.getUpperFence = [] ∨ n.fullKey i < n.getUpperFence)
  prefixLen : n.prefixLen = Prefix.common n.getLowerFence n.getUpperFence
  heads : ∀ i < n.count, (n.slotAt i).head = head (n.getKey i)

/-- The leaves, all at one depth, as the links go through them. -/
structure Linked (t : Tree) (s : Store) (depth : ℕ) (ps : List ℕ) : Prop where
  bottom : ∀ d p, t.At s d p → ((s.page p).isLeaf = true ↔ d = depth)
  mem : ∀ p, p ∈ ps ↔ t.At s depth p
  nodup : ps.Nodup
  first : ps.head? = some (s.leftmost depth (s.roots t.slotId))
  links : ps.IsChain fun p q => (s.page p).link = q ∧ (s.page p).getUpperFence = (s.page q).getLowerFence
  last : ∀ p, ps.getLast? = some p → (s.page p).link = noNeighbour
  order : ps.Pairwise fun p q => ∀ i < (s.page p).count, ∀ j < (s.page q).count,
    (s.page p).fullKey i < (s.page q).fullKey j

structure Structured (t : Tree) (s : Store) : Prop where
  pages : ∀ d p, t.At s d p → (s.page p).Ordered
  children : ∀ d p, t.At s d p → (s.page p).isLeaf = false → ∀ pos ≤ (s.page p).count,
    (s.page ((s.page p).childAt pos)).getLowerFence =
      (if pos = 0 then (s.page p).getLowerFence else (s.page p).fullKey (pos - 1)) ∧
    (s.page ((s.page p).childAt pos)).getUpperFence =
      if pos = (s.page p).count then (s.page p).getUpperFence else (s.page p).fullKey pos
  leaves : ∃ depth ps, Linked t s depth ps

theorem Formed.ordered {n : BTreeNode} (formed : Formed n) : n.Ordered where
  sorted i j less inside := formed.less less inside
  leaf leaf i inside := by
    obtain ⟨above, below⟩ := formed.between _ (fullKey_mem inside)
    refine ⟨above.symm.imp And.right id, below.imp id fun below => ?_⟩
    exact below.elim le_of_lt fun same => le_of_eq same.2
  inner inner i inside := by
    obtain ⟨above, below⟩ := formed.separator inner inside
    exact ⟨Or.inr above, below⟩
  prefixLen := formed.valid.toCoded.prefixLen
  heads i inside := formed.valid.toCoded.heads _ (slotAt_mem inside)

theorem follows_link {s : Store} {p q : ℕ} (leaf : (s.page p).isLeaf = true) (follows : Follows s.view p q) :
    (s.page p).hasRightNeighbour = true ∧ (s.page p).link = q ∧
      (s.page p).getUpperFence = (s.page q).getLowerFence ∧ (s.page q).getLowerFence ≠ [] := by
  obtain ⟨next, u, upper, lower⟩ := follows
  have next : (s.page p).view.next = some q := next
  rw [view_next leaf, neighbour] at next
  obtain ⟨same, _⟩ := bound_eq_some.mp upper
  obtain ⟨same', some'⟩ := bound_eq_some.mp lower
  rw [same, same']
  split at next
  · rename_i right
    exact ⟨right, Option.some.inj next, rfl, some'⟩
  · cases next

theorem no_link {s : Store} {p : ℕ} (leaf : (s.page p).isLeaf = true) (last : (s.view p).next = none) :
    (s.page p).hasRightNeighbour = false := by
  rw [Store.view, view_next leaf, neighbour] at last
  split at last
  · cases last
  · rename_i none
    exact Bool.eq_false_iff.mpr none

section
variable {t : Tree} {w : ℕ} {s : Store} {live : Finset ℕ} {level : ℕ → ℕ}
variable (wf : WellFormed t w s live level)
include wf

theorem WellFormed.leaves : ∃ ps, Leaves s.view live ps := by
  obtain ⟨p, hp, leaf, first⟩ := wf.shape.leftmost (Nat.zero_le _)
  obtain ⟨ps, leaves⟩ := wf.shape.leaves hp ((wf.shape.leaf p hp).mpr leaf) first
  exact ⟨p :: ps, leaves⟩

theorem WellFormed.child {p pos : ℕ} (hp : p ∈ live) (inner : (s.page p).isLeaf = false)
    (le : pos ≤ (s.page p).count) : (s.page p).childAt pos ∈ live ∧
      level ((s.page p).childAt pos) + 1 = level p ∧
      Routes (s.page p) (s.page ((s.page p).childAt pos)) ((s.page p).childAt pos) pos := by
  have kids : (s.view p).kids = spans (bound (s.page p).getLowerFence) (s.page p).children (s.page p).link
    (bound (s.page p).getUpperFence) := view_kids inner
  have inside : pos < (s.view p).kids.length := by
    rw [kids, spans_length, children_length]
    omega
  have split := List.drop_eq_getElem_cons inside
  generalize (s.view p).kids[pos] = kid at split
  obtain ⟨c, f⟩ := kid
  have place := List.take_append_drop pos (s.view p).kids
  rw [split] at place
  have len : ((s.view p).kids.take pos).length = pos := by
    rw [List.length_take]
    omega
  obtain ⟨hc, lower, same⟩ := wf.shape.kids p hp c f (by rw [← place]; simp)
  subst same
  have routes := place_routes (wf.formed p hp) inner place.symm
  rw [len] at routes
  have child : (s.page p).childAt pos = c := routes.child
  rw [child]
  exact ⟨hc, lower, routes⟩

theorem WellFormed.at_live {d p : ℕ} (at_ : t.At s d p) :
    p ∈ live ∧ level p + d = level (s.roots t.slotId) := by
  induction at_ with
  | root => exact ⟨wf.shape.root_live, Nat.add_zero _⟩
  | child _ inner le ih =>
    obtain ⟨hp, sum⟩ := ih
    obtain ⟨hc, lower, _⟩ := wf.child hp inner le
    exact ⟨hc, by omega⟩

theorem WellFormed.live_at {d p : ℕ} (hp : p ∈ live) (sum : level p + d = level (s.roots t.slotId)) :
    t.At s d p := by
  obtain ⟨key, has⟩ := proper_has (wf.shape.proper p hp)
  -- the page of this depth that covers the key is the one that the descent comes to
  suffices ∃ q ∈ live, level q = level p ∧ (s.view q).fences.Has key ∧ t.At s d q by
    obtain ⟨q, hq, same, there, at_⟩ := this
    rwa [← wf.shape.apart q hq p hp same key there has]
  generalize level p = l at sum
  induction d generalizing l with
  | zero => exact ⟨s.roots t.slotId, wf.shape.root_live, by omega, wf.rooted.root_has key, .root⟩
  | succ d ih =>
    obtain ⟨q, hq, same, there, at_⟩ := ih (l + 1) (by omega)
    obtain ⟨hc, has', lower, _⟩ := wf.rooted.step hq (by omega) there
    have le := (lowerBound_children (wf.formed q hq).valid (wf.formed q hq).sorted key).1
    exact ⟨_, hc, by omega, has', at_.child ((wf.rooted.inner hq).mpr (by omega)) le⟩

theorem WellFormed.leftmost {d p : ℕ} (hp : p ∈ live) (deep : d ≤ level p)
    (first : (s.page p).getLowerFence = []) : s.leftmost d p ∈ live ∧ level (s.leftmost d p) + d = level p ∧
      (s.page (s.leftmost d p)).getLowerFence = [] := by
  induction d generalizing p with
  | zero => exact ⟨hp, rfl, first⟩
  | succ d ih =>
    obtain ⟨hc, lower, routes⟩ := wf.child hp ((wf.rooted.inner hp).mpr (by omega)) (Nat.zero_le _)
    have fence := routes.lower
    rw [if_pos rfl, first] at fence
    obtain ⟨there, sum, none⟩ := ih hc (by omega) fence
    exact ⟨there, by rw [Store.leftmost]; omega, none⟩

theorem WellFormed.linked {ps : List ℕ} (leaves : Leaves s.view live ps) :
    Linked t s (level (s.roots t.slotId)) ps := by
  have leaf : ∀ {p}, p ∈ ps → (s.page p).isLeaf = true := fun hp => view_isLeaf.mp ((leaves.mem _).mp hp).2
  have in_live : ∀ {p}, p ∈ ps → p ∈ live := fun hp => ((leaves.mem _).mp hp).1
  exact {
    bottom := by
      intro d p at_
      obtain ⟨hp, sum⟩ := wf.at_live at_
      rw [wf.rooted.leaf hp]
      omega
    mem := by
      intro p
      rw [leaves.mem]
      constructor
      · rintro ⟨hp, leaf⟩
        exact wf.live_at hp (by rw [(wf.shape.leaf p hp).mp leaf, Nat.zero_add])
      · intro at_
        obtain ⟨hp, sum⟩ := wf.at_live at_
        exact ⟨hp, (wf.shape.leaf p hp).mpr (by omega)⟩
    nodup := by
      refine leaves.before.imp_of_mem fun {p q} hp _ before same => ?_
      obtain ⟨u, l, upper, lower, le⟩ := before
      exact absurd le (not_le.mpr (wf.shape.proper p (in_live hp) l u (same ▸ lower) upper))
    first := by
      have empty : (s.page (s.roots t.slotId)).getLowerFence = [] :=
        bound_eq_none.mp (congrArg Fences.lower wf.shape.root_fences)
      obtain ⟨hx, sum, none⟩ := wf.leftmost wf.shape.root_live (le_refl _) empty
      have mem : s.leftmost (level (s.roots t.slotId)) (s.roots t.slotId) ∈ ps :=
        (leaves.mem _).mpr ⟨hx, (wf.shape.leaf _ hx).mpr (by omega)⟩
      have before := leaves.before
      cases ps with
      | nil => cases mem
      | cons p ps =>
        rcases List.mem_cons.mp mem with same | behind
        · rw [same]
          rfl
        · -- a leaf further on has a lower fence
          obtain ⟨_, l, _, lower, _⟩ := (List.pairwise_cons.mp before).1 _ behind
          obtain ⟨same, some⟩ := bound_eq_some.mp lower
          exact absurd (same.symm.trans none) some
    links := by
      refine leaves.chain.imp_of_mem_imp fun p q hp _ follows => ?_
      obtain ⟨_, link, fences, _⟩ := follows_link (leaf hp) follows
      exact ⟨link, fences⟩
    last := by
      intro p last
      have hp := List.mem_of_getLast? last
      have none := no_link (leaf hp) (leaves.last p last).2
      rw [hasRightNeighbour, bne_eq_false_iff_eq] at none
      exact none
    order := by
      refine leaves.before.imp_of_mem fun {p q} hp hq before i hi j hj => ?_
      exact before_lt before (wf.slot_has (in_live hp) ((wf.rooted.leaf (in_live hp)).mp (leaf hp)) hi)
        (wf.slot_has (in_live hq) ((wf.rooted.leaf (in_live hq)).mp (leaf hq)) hj) }

end

/-- Every tree that calls on a fresh one lead to has the structural invariant. -/
theorem made_structured {t : Tree} {w : ℕ} {calls : List Call} {s : Store} (made : Made t w calls s) :
    Structured t s := by
  obtain ⟨live, level, wf, _⟩ := made.represents
  obtain ⟨ps, leaves⟩ := wf.leaves
  exact {
    pages := fun d p at_ => Formed.ordered (wf.formed p (wf.at_live at_).1)
    children := by
      intro d p at_ inner pos le
      obtain ⟨_, _, routes⟩ := wf.child (wf.at_live at_).1 inner le
      exact ⟨routes.lower, routes.upper⟩
    leaves := ⟨_, ps, wf.linked leaves⟩ }

theorem made_structured_split : ∃ s, Made ⟨0, false⟩ 900 splitLeaf s ∧ Structured ⟨0, false⟩ s := by
  obtain ⟨s, made⟩ := splitLeaf_made
  exact ⟨s, made, made_structured made⟩

end BTree
