import OsvBenchmarks.Tree.Lookup

/-!
remove on a well-formed tree: the entry of the key is gone and no other, and the
tree is well-formed also where an underfull leaf has taken in its right neighbour.
-/
namespace BTree
open FenceTree BTreeNode Outcome

namespace Store
variable (s : Store)

@[simp] theorem put_self (pid : ℕ) : s.put pid (s.page pid) = s := by
  rw [put, Function.update_eq_self]

theorem put_put {pid pid' : ℕ} (m n n' : BTreeNode) (other : pid' ≠ pid) :
    ((s.put pid n).put pid' m).put pid n' = (s.put pid' m).put pid n' := by
  unfold put
  dsimp only
  rw [Function.update_comm other.symm, Function.update_idem]

end Store

section
variable {t : Tree} {w : ℕ} {s : Store} {live : Finset ℕ} {level : ℕ → ℕ} {p : ℕ} {key : Key}
variable (wf : WellFormed t w s live level)

section
include wf

theorem WellFormed.removeSlot (hp : p ∈ live) (leaf : level p = 0) {i : ℕ}
    (inside : i < (s.page p).count) :
    WellFormed t w (s.put p ((s.page p).removeSlot i)) live level ∧
      (s.put p ((s.page p).removeSlot i)).content live =
        {e ∈ s.content live | e.1 ≠ (s.page p).fullKey i} := by
  have isLeaf := (wf.rooted.leaf hp).mpr leaf
  have formed := wf.formed p hp
  have bounded := wf.bounded p hp
  rw [width, isLeaf] at bounded
  have step := removeSlot_removed formed.valid inside
  have mem := fun e => step.mem formed inside (e := e)
  generalize (s.page p).removeSlot i = r at *
  have isLeaf' := step.isLeaf.trans isLeaf
  refine ⟨wf.rewrite hp leaf isLeaf' ?_ step.link ?_ ?_, ?_⟩
  · rw [fences, fences, step.lower, step.upper]
  · exact step.thins.formed formed fun inner => absurd (isLeaf'.symm.trans inner) (by decide)
  · exact step.thins.bounded bounded (step.wide bounded.payloads)
  · ext e
    have here := wf.mem_put hp leaf (wf.slot_has hp leaf inside) isLeaf'
      (fun _ => False) (fun e => by rw [mem, false_or]) e
    rwa [false_or] at here

end

/-- A leaf that takes in its right neighbour, as pages of the tree. -/
theorem rejoins_merge {page page' : ℕ → BTreeNode} {p r q : ℕ} {pre post : List (ℕ × Fences Key)}
    (hp : p ∈ live) (hr : r ∈ live) (hq : q ∈ live)
    (others : ∀ x ∈ live, x ≠ p → x ≠ q → page' x = page x) (leaf : (page p).isLeaf = true)
    (leaf' : (page r).isLeaf = true) (inner : (page q).isLeaf = false) (wide : (page q).Wide pidSize)
    (place : (page q).view.kids = pre ++ (p, (page p).view.fences) :: (r, (page r).view.fences) :: post)
    (inside : pre.length + 1 < (page q).count) {m : Key} (near : Neighbours (page p) (page r) m)
    (rejoins : Rejoins (page p) (page r) (page q) (page' p) (page' q) p pre.length) :
    FenceTree.Merge (fun x => (page x).view) (fun x => (page' x).view) live p r q m := by
  have whole := rejoins.leaf
  have joined := rejoins.parent
  have isLeaf := whole.isLeaf.trans leaf
  have merged : (page' p).view.fences = ⟨(page p).view.fences.lower, (page r).view.fences.upper⟩ := by
    rw [view_fences, fences, whole.lower, whole.upper]
    rfl
  exact {
    page_live := hp
    right_live := hr
    parent_live := hq
    others := fun x hx xp xq => by simp only [others x hx xp xq]
    page_leaf := view_isLeaf.mpr leaf
    right_leaf := view_isLeaf.mpr leaf'
    upper := bound_eq_some.mpr ⟨near.upper, near.some⟩
    lower := bound_eq_some.mpr ⟨near.lower, near.some⟩
    fences := merged
    parent := by simp only [view_fences, fences, joined.lower, joined.upper]
    parent_inner := by
      intro there
      rw [view_isLeaf, joined.isLeaf, inner] at there
      cases there
    leaf := view_isLeaf.mpr isLeaf
    entries := by
      rw [view_entries isLeaf, view_entries leaf, view_entries leaf', whole.entries]
    next := by
      rw [view_next isLeaf, view_next leaf', neighbour, neighbour, hasRightNeighbour, hasRightNeighbour,
        rejoins.link]
    place := ⟨pre, post, place, by
      simp only [merged]
      exact joined_place wide inner place inside joined⟩ }

/-- What remove leaves of a leaf, its parent and its right neighbour. -/
def Store.joinInto (s : Store) (p q : ℕ) (l parent : BTreeNode) : Store := (s.put q parent).put p l

/-- A leaf of a well-formed tree that takes in its right neighbour. -/
theorem WellFormed.merges (wf : WellFormed t w s live level) {q : ℕ} (hp : p ∈ live) (hq : q ∈ live)
    (leaf : level p = 0) (lower : level p + 1 = level q) {pre post : List (ℕ × Fences Key)}
    (place : (s.view q).kids = pre ++ (p, (s.view p).fences) :: post)
    (inside : pre.length + 1 < (s.page q).count) {l parent : BTreeNode}
    (eq : (s.page p).mergeNodes p pre.length (s.page q)
      (s.page ((s.page q).getChild (pre.length + 1))) = (true, l, parent)) :
    WellFormed t w (s.joinInto p q l parent) (live.erase ((s.page q).getChild (pre.length + 1))) level ∧
      (s.joinInto p q l parent).content (live.erase ((s.page q).getChild (pre.length + 1))) =
        s.content live := by
  have inner : (s.page q).isLeaf = false := (wf.rooted.inner hq).mpr (by omega)
  have above := wf.formed q hq
  have wide := above.wide inner
  obtain ⟨f, post, rfl⟩ := place_next wide inner place inside
  have kid : ((s.page q).getChild (pre.length + 1), f) ∈ (s.view q).kids := by
    rw [place]
    simp
  obtain ⟨hr, lr, same⟩ := wf.shape.kids q hq _ f kid
  generalize (s.page q).getChild (pre.length + 1) = r at *
  subst same
  have leaf_p := (wf.rooted.leaf hp).mpr leaf
  have leaf_r : (s.page r).isLeaf = true := (wf.rooted.leaf hr).mpr (by omega)
  have bounded := wf.bounded p hp
  have bounded' := wf.bounded r hr
  have here := place_routes above inner place
  have place_r : (s.view q).kids = (pre ++ [(p, (s.view p).fences)]) ++ (r, (s.view r).fences) :: post := by
    rw [place, List.append_assoc]
    rfl
  have there : Routes (s.page q) (s.page r) r (pre.length + 1) := by
    have := place_routes above inner place_r
    rwa [List.length_append] at this
  have ids := wf.ids p hp
  have old : p < 2 ^ 64 := lt_of_lt_of_le ids.2 (le_trans wf.counters.1 (le_trans wf.counters.2 (by decide)))
  have room : ¬ spaceUpperBound (s.page p) (s.page r) > pageSize := by
    intro more
    rw [mergeNodes_refuses leaf_p more] at eq
    cases eq
  obtain ⟨l', parent', eq', rejoins⟩ := mergeNodes_joins (wf.formed p hp) (wf.formed r hr) leaf_p leaf_r
    above inner inside here there old room
  rw [eq'] at eq
  cases eq
  have pq : p ≠ q := fun same => by
    rw [same] at lower
    omega
  have page_p : (s.joinInto p q l parent).page p = l := Store.put_page _ _ _
  have page_q : (s.joinInto p q l parent).page q = parent := by
    rw [Store.joinInto, Store.put_page_ne _ _ pq.symm, Store.put_page]
  have others : ∀ x, x ≠ p → x ≠ q → (s.joinInto p q l parent).page x = s.page x := fun x xp xq => by
    rw [Store.joinInto, Store.put_page_ne _ _ xp, Store.put_page_ne _ _ xq]
  have roots : (s.joinInto p q l parent).roots = s.roots := rfl
  have count : (s.joinInto p q l parent).allocCount = s.allocCount := rfl
  have total : (s.joinInto p q l parent).virtCount = s.virtCount := rfl
  generalize s.joinInto p q l parent = s' at *
  rw [← page_p, ← page_q] at rejoins
  have near := Routes.neighbours above inner inside here there
  have merge : FenceTree.Merge s.view s'.view live p r q ((s.page q).fullKey pre.length) :=
    rejoins_merge hp hr hq (fun x _ => others x) leaf_p leaf_r inner wide place inside near rejoins
  have joined := rejoins.parent
  have thins := joined.thins inside
  refine ⟨?_, Set.ext (wf.shape.merge_entries merge)⟩
  exact {
    shape := by
      rw [roots]
      exact wf.shape.merge merge
    formed := by
      intro x hx
      have hx := Finset.mem_of_mem_erase hx
      by_cases xp : x = p
      · rw [xp]
        exact rejoins.leaf.formed
      · by_cases xq : x = q
        · rw [xq]
          exact thins.formed above fun _ => joined.wide
        · rw [others x xp xq]
          exact wf.formed x hx
    bounded := by
      intro x hx
      have hx := Finset.mem_of_mem_erase hx
      by_cases xp : x = p
      · rw [xp]
        rw [width, leaf_p] at bounded
        rw [width, leaf_r] at bounded'
        rw [width, rejoins.leaf.isLeaf, leaf_p]
        exact rejoins.bounded bounded bounded'
      · by_cases xq : x = q
        · rw [xq]
          have wide_q := wf.bounded q hq
          rw [width, inner] at wide_q
          rw [width, joined.isLeaf, inner]
          exact thins.bounded wide_q joined.wide
        · rw [others x xp xq]
          exact wf.bounded x hx
    ids := by
      intro x hx
      rw [count]
      exact wf.ids x (Finset.mem_of_mem_erase hx)
    counters := by
      rw [count, total]
      exact wf.counters }

/-- mergeNodes on a leaf and its right neighbour, whether or not they fit on one page. -/
theorem WellFormed.absorbs (wf : WellFormed t w s live level) {q : ℕ} (hp : p ∈ live) (hq : q ∈ live)
    (leaf : level p = 0) (lower : level p + 1 = level q) {pre post : List (ℕ × Fences Key)}
    (place : (s.view q).kids = pre ++ (p, (s.view p).fences) :: post)
    (inside : pre.length + 1 < (s.page q).count) :
    let merged := (s.page p).mergeNodes p pre.length (s.page q)
      (s.page ((s.page q).getChild (pre.length + 1)))
    ∃ live', live.erase ((s.page q).getChild (pre.length + 1)) ⊆ live' ∧
      WellFormed t w (s.joinInto p q merged.2.1 merged.2.2) live' level ∧
      (s.joinInto p q merged.2.1 merged.2.2).content live' = s.content live := by
  intro merged
  rcases eq : merged with ⟨fits, l, parent⟩
  cases fits with
  | false =>
    obtain ⟨rfl, rfl⟩ := mergeNodes_stays ((wf.rooted.leaf hp).mpr leaf) eq
    refine ⟨live, Finset.erase_subset _ _, ?_⟩
    rw [Store.joinInto, Store.put_self, Store.put_self]
    exact ⟨wf, rfl⟩
  | true => exact ⟨_, Finset.Subset.refl _, wf.merges hp hq leaf lower place inside eq⟩

/-- What remove leaves where it has found the key at `slotId`. -/
def Store.removed (s : Store) (at_ : Store.Position) (slotId : ℕ) : Store :=
  let n := s.page at_.node
  let parent := s.page at_.parent
  let right := s.page (parent.getChild (at_.pos + 1))
  let merged := (n.removeSlot slotId).mergeNodes at_.node at_.pos parent right
  if n.freeSpaceAfterCompaction + ((n.slotAt slotId).keyLen + (n.slotAt slotId).payloadLen) ≥ underFullSize ∧
      at_.parent ≠ metadataPageId ∧ parent.count ≥ 2 ∧ at_.pos + 1 < parent.count then
    if right.freeSpaceAfterCompaction ≥ pageSize - underFullSize then
      s.joinInto at_.node at_.parent merged.2.1 merged.2.2
    else s.put at_.node (n.removeSlot slotId)
  else s.put at_.node (n.removeSlot slotId)

theorem remove_eq {fuel slotId : ℕ} {at_ : Store.Position}
    (descends : s.descend key none fuel (t.fromRoot s) = done at_)
    (search : (s.page at_.node).lowerBound key = (slotId, true)) :
    t.remove fuel s key = done (true, s.removed at_ slotId) := by
  rw [Tree.remove, descends, done_bind]
  dsimp only
  rw [search]
  unfold Store.removed
  dsimp only
  split
  · rename_i absent
    cases absent
  · split
    · split
      · rfl
      · rfl
    · rfl

theorem WellFormed.removed (wf : WellFormed t w s live level) {at_ : Store.Position}
    (hp : at_.node ∈ live) (leaf : level at_.node = 0) (placed : Placed t s live level at_) {i : ℕ}
    (inside : i < (s.page at_.node).count) :
    ∃ live', live.erase ((s.page at_.parent).getChild (at_.pos + 1)) ⊆ live' ∧
      WellFormed t w (s.removed at_ i) live' level ∧
      (s.removed at_ i).content live' = {e ∈ s.content live | e.1 ≠ (s.page at_.node).fullKey i} := by
  obtain ⟨wf', content⟩ := wf.removeSlot hp leaf inside
  unfold Store.removed
  dsimp only
  split
  · rename_i underfull
    obtain ⟨_, below, _, last⟩ := underfull
    split
    · rcases placed with ⟨top, _⟩ | ⟨hq, lower, pre, post, place, pos⟩
      · exact absurd top below
      rw [← pos] at last ⊢
      have pq : at_.parent ≠ at_.node := fun same => by
        rw [same] at lower
        omega
      have inner : (s.page at_.parent).isLeaf = false := (wf.rooted.inner hq).mpr (by omega)
      obtain ⟨f, post', next⟩ := place_next ((wf.formed _ hq).wide inner) inner place last
      have other : (s.page at_.parent).getChild (pre.length + 1) ≠ at_.node :=
        wf.shape.place_unique hq place ((s.page at_.parent).getChild (pre.length + 1), f) (by rw [next]; simp)
      have step := removeSlot_removed (wf.formed _ hp).valid inside
      have isLeaf := step.isLeaf.trans ((wf.rooted.leaf hp).mpr leaf)
      have joins : s.joinInto at_.node at_.parent = (s.put at_.node ((s.page at_.node).removeSlot i)).joinInto
          at_.node at_.parent := by
        funext l parent
        rw [Store.joinInto, Store.joinInto, Store.put_put _ _ _ _ pq]
      rw [joins, ← content]
      have page_p := s.put_page at_.node ((s.page at_.node).removeSlot i)
      have page_q := s.put_page_ne ((s.page at_.node).removeSlot i) pq
      have page_r := s.put_page_ne ((s.page at_.node).removeSlot i) other
      generalize (s.page at_.node).removeSlot i = n at *
      generalize s.put at_.node n = s' at *
      have place' : (s'.view at_.parent).kids = pre ++ (at_.node, (s'.view at_.node).fences) :: post := by
        have same : n.view.fences = (s.page at_.node).view.fences := by
          rw [view_fences, view_fences, fences, fences, step.lower, step.upper]
        rw [Store.view, Store.view, page_p, page_q, same]
        exact place
      rw [← page_r, ← page_q, ← page_p]
      exact wf'.absorbs hp hq leaf lower place' (by rwa [page_q])
    · exact ⟨live, Finset.erase_subset _ _, wf', content⟩
  · exact ⟨live, Finset.erase_subset _ _, wf', content⟩

/-- remove finds the key and leaves every other entry, or it does nothing. -/
theorem WellFormed.remove (wf : WellFormed t w s live level) (key : Key) :
    (Absent s live key ∧ Settles (fun fuel => t.remove fuel s key) (done (false, s))) ∨
    ∃ v s' live', (key, v) ∈ s.content live ∧ Settles (fun fuel => t.remove fuel s key) (done (true, s')) ∧
      WellFormed t w s' live' level ∧ s'.content live' = {e ∈ s.content live | e.1 ≠ key} := by
  obtain ⟨p, hp, leaf, has⟩ := wf.rooted.page_at (Nat.zero_le _) key
  obtain ⟨at_, rfl, placed, reaches⟩ := wf.rooted.reaches hp has (Or.inr ⟨rfl, leaf⟩)
  have found := wf.found hp leaf has
  rcases search : (s.page at_.node).lowerBound key with ⟨slotId, exact_⟩
  rw [search] at found
  cases exact_ with
  | false =>
    refine Or.inl ⟨found, ?_⟩
    filter_upwards [reaches] with fuel descends
    rw [Tree.remove, descends, done_bind]
    dsimp only
    rw [search]
    rfl
  | true =>
    obtain ⟨inside, same, mem⟩ := found
    obtain ⟨live', _, wf', content⟩ := wf.removed hp leaf placed inside
    simp only at same mem content
    rw [same] at content
    refine Or.inr ⟨_, _, live', mem, ?_, wf', content⟩
    filter_upwards [reaches] with fuel descends
    exact remove_eq descends search

end

end BTree
