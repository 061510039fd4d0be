import OsvBenchmarks.Threads.Outline

/-!
What the sections in which a thread writes do to the tree and its map, and which
pages they leave alone: an entry added to a leaf, taken out or overwritten, two
leaves made one, a new root, a page split below its parent.
-/
namespace BTree.Threads
open BTree FenceTree BTreeNode Outcome

variable {t : Tree} {w : ℕ} {s s' : Store} {m : Map} {p q pos : ℕ} {key : Key}
variable {live : Finset ℕ} {level : ℕ → ℕ}

section Places

theorem Hangs.placed (hangs : Hangs t w q p pos s) (wf : WellFormed t w s live level) :
    p ∈ live ∧ Placed t s live level ⟨q, pos, p⟩ := by
  obtain ⟨live', level', wf', hp, placed⟩ := hangs
  have there : ∀ x ∈ live', x ∈ live ∧ level x = level' x :=
    fun x hx => wf.onLevel_iff.mp ⟨live', level', wf', hx, rfl⟩
  obtain ⟨hp, lp⟩ := there p hp
  refine ⟨hp, placed.imp id ?_⟩
  rintro ⟨hq, lower, place⟩
  obtain ⟨hq, lq⟩ := there q hq
  exact ⟨hq, by rw [lp, lq]; exact lower, place⟩

/-- A thread that holds a page and its parent knows the page's place. -/
theorem Hangs.stays (hangs : Hangs t w q p pos s) (wf' : WellFormed t w s' live level)
    (parent : Stays t w s s' q) (page : Stays t w s s' p) : Hangs t w q p pos s' := by
  obtain ⟨before, above, wf, hp, placed⟩ := hangs
  have there : ∀ x, Stays t w s s' x → x ∈ before → x ∈ live ∧ level x = above x :=
    fun x stays hx => wf'.onLevel_iff.mp (stays.level _ ⟨before, above, wf, hx, rfl⟩)
  obtain ⟨hp', lp⟩ := there p page hp
  refine ⟨live, level, wf', hp', ?_⟩
  rcases placed with ⟨top, root⟩ | ⟨hq, lower, pre, post, place, len⟩
  · exact Or.inl ⟨top, root.trans (parent.root top).symm⟩
  · obtain ⟨hq', lq⟩ := there q parent hq
    refine Or.inr ⟨hq', by rw [lp, lq]; exact lower, pre, post, ?_, len⟩
    rw [Store.view, Store.view, parent.page, page.page]
    exact place

theorem Hangs.root (hangs : Hangs t w metadataPageId p pos s) : s.roots t.slotId = p := by
  obtain ⟨live, level, wf, _, placed⟩ := hangs
  rcases placed with ⟨_, root⟩ | ⟨hq, _⟩
  · exact root.symm
  · exact absurd (wf.ids _ hq).1 (lt_irrefl _)

theorem Hangs.right (hangs : Hangs t w q p pos s) (below : q ≠ metadataPageId)
    (inside : pos + 1 < (s.page q).count) : (s.page q).getChild (pos + 1) < s.allocCount := by
  obtain ⟨live, level, wf, _, placed⟩ := hangs
  rcases placed with ⟨top, _⟩ | ⟨hq, lower, _⟩
  · exact absurd top below
  · have lower : level p + 1 = level q := lower
    obtain ⟨hr, _⟩ := wf.child hq ((wf.rooted.inner hq).mpr (by omega)) (le_of_lt inside)
    rw [childAt, if_neg (Nat.ne_of_lt inside)] at hr
    exact (wf.ids _ hr).2

theorem Hangs.before (hangs : Hangs t w q p pos s) : Before t w s q p := by
  intro live level wf
  obtain ⟨hp, placed⟩ := hangs.placed wf
  have below := wf.shape.below p hp
  refine Prod.Lex.toLex_lt_toLex.mpr (Or.inl ?_)
  have low : p ≠ metadataPageId := Nat.ne_of_gt (wf.ids p hp).1
  rcases placed with ⟨top, _⟩ | ⟨hq, lower, _⟩
  · have top : q = metadataPageId := top
    rw [if_pos top, if_neg low]
    omega
  · have lower : level p + 1 = level q := lower
    have high : q ≠ metadataPageId := Nat.ne_of_gt (wf.ids q hq).1
    have inside := wf.shape.below q hq
    rw [if_neg high, if_neg low]
    omega

theorem Hangs.before_right (hangs : Hangs t w q p pos s) (below : q ≠ metadataPageId)
    (inside : pos + 1 < (s.page q).count) : Before t w s p ((s.page q).getChild (pos + 1)) := by
  intro live level wf
  obtain ⟨hp, placed⟩ := hangs.placed wf
  rcases placed with ⟨top, _⟩ | ⟨hq, lower, pre, post, place, len⟩
  · exact absurd top below
  have hq : q ∈ live := hq
  have lower : level p + 1 = level q := lower
  have len : pre.length = pos := len
  subst len
  have inner : (s.page q).isLeaf = false := (wf.rooted.inner hq).mpr (by omega)
  have above := wf.formed q hq
  obtain ⟨hr, lower', there⟩ := wf.child hq inner (le_of_lt inside)
  rw [childAt, if_neg (Nat.ne_of_lt inside)] at hr lower' there
  have lower' : level ((s.page q).getChild (pre.length + 1)) + 1 = level q := lower'
  have near := Routes.neighbours above inner inside (place_routes above inner place) there
  refine Prod.Lex.toLex_lt_toLex.mpr (Or.inr ⟨?_, ?_⟩)
  · rw [if_neg (Nat.ne_of_gt (wf.ids p hp).1), if_neg (Nat.ne_of_gt (wf.ids _ hr).1)]
    omega
  · change (s.page p).getLowerFence < (s.page _).getLowerFence
    rw [near.lower]
    -- a page has keys between its fences
    exact lt_of_le_of_ne near.above fun same => absurd (wf.shape.proper p hp _ _
      (bound_eq_some.mpr ⟨same, near.some⟩) (bound_eq_some.mpr ⟨near.upper, near.some⟩)) (lt_irrefl _)

end Places

/-- A tree of this map after a change, in which all other pages stay. -/
structure Changed (t : Tree) (w : ℕ) (s s' : Store) (m : Map) (pages : Finset ℕ) : Prop where
  tree : Represents t w s' m
  alloc : s'.allocCount = s.allocCount
  stays : ∀ x, x ∉ pages → Stays t w s s' x

section Leaf
variable (represents : Represents t w s m) (on : OnLevel t w s p 0) (has : (s.view p).fences.Has key)
include represents on has

theorem lookup_at : m.lookup key = if ((s.page p).lowerBound key).2 = true
    then some ((s.page p).getPayload ((s.page p).lowerBound key).1) else none := by
  obtain ⟨live, level, wf, content⟩ := represents
  obtain ⟨hp, leaf⟩ := wf.onLevel_iff.mp on
  exact wf.lookup_eq content hp leaf has

theorem insertInPage_changed {payload : Payload} (acceptable : Acceptable w key payload)
    (absent : m.lookup key = none) (space : (s.page p).hasSpaceFor key.length payload.length = true) :
    Changed t w s (s.put p ((s.page p).insertInPage key payload)) (m.insert key payload) {p} := by
  obtain ⟨live, level, wf, content⟩ := represents
  obtain ⟨hp, leaf⟩ := wf.onLevel_iff.mp on
  have missing : Absent s live key := by
    intro v mem
    rw [content, absent] at mem
    cases mem
  obtain ⟨wf', content'⟩ := wf.insertInPage hp leaf has acceptable missing space
  exact ⟨⟨live, level, wf', inserted_content absent content content'⟩, rfl,
    fun x other => wf.put_stays wf' (Finset.notMem_singleton.mp other)⟩

section Found
variable (found : ((s.page p).lowerBound key).2 = true)
include found

theorem removeSlot_changed : Changed t w s
    (s.put p ((s.page p).removeSlot ((s.page p).lowerBound key).1)) (m.erase key) {p} := by
  obtain ⟨live, level, wf, content⟩ := represents
  obtain ⟨hp, leaf⟩ := wf.onLevel_iff.mp on
  have here := wf.found hp leaf has
  rw [if_pos found] at here
  obtain ⟨inside, same, _⟩ := here
  obtain ⟨wf', content'⟩ := wf.removeSlot hp leaf inside
  rw [same] at content'
  exact ⟨⟨live, level, wf', erased_content content content'⟩, rfl,
    fun x other => wf.put_stays wf' (Finset.notMem_singleton.mp other)⟩

theorem setPayload_changed (fn : Tree.Callback) : Changed t w s
    (s.put p ((s.page p).setPayload ((s.page p).lowerBound key).1
      (fn.apply ((s.page p).getPayload ((s.page p).lowerBound key).1)))) (m.update key fn) {p} := by
  have lookup := lookup_at represents on has
  rw [if_pos found] at lookup
  obtain ⟨live, level, wf, content⟩ := represents
  obtain ⟨hp, leaf⟩ := wf.onLevel_iff.mp on
  have here := wf.found hp leaf has
  rw [if_pos found] at here
  obtain ⟨inside, same, _⟩ := here
  generalize ((s.page p).lowerBound key).1 = i at *
  obtain ⟨wf', content'⟩ := wf.setPayload hp leaf inside (fn.length _)
  refine ⟨⟨live, level, wf', fun k v => ?_⟩, rfl,
    fun x other => wf.put_stays wf' (Finset.notMem_singleton.mp other)⟩
  rw [content', same, content, Map.update, lookup, lookup_insert_some]

/-- The leaf, where it is underfull, takes in its right neighbour. -/
theorem merged_changed (hangs : Hangs t w q p pos s)
    (underfull : (s.page p).freeSpaceAfterCompaction +
      (((s.page p).slotAt ((s.page p).lowerBound key).1).keyLen +
        ((s.page p).slotAt ((s.page p).lowerBound key).1).payloadLen) ≥ underFullSize)
    (below : q ≠ metadataPageId) (several : (s.page q).count ≥ 2) (inside : pos + 1 < (s.page q).count) :
    Changed t w s (merged s q pos p ((s.page p).lowerBound key).1) (m.erase key)
      {(s.page q).getChild (pos + 1), p, q} := by
  obtain ⟨live, level, wf, content⟩ := represents
  obtain ⟨hp, leaf⟩ := wf.onLevel_iff.mp on
  obtain ⟨_, placed⟩ := hangs.placed wf
  have here := wf.found hp leaf has
  rw [if_pos found] at here
  obtain ⟨slot, same, _⟩ := here
  generalize ((s.page p).lowerBound key).1 = i at *
  obtain ⟨live', left, wf', content'⟩ := wf.removed hp leaf placed slot
  rw [same] at content'
  have eq : s.removed ⟨q, pos, p⟩ i = merged s q pos p i := by
    unfold Store.removed merged
    dsimp only
    rw [if_pos ⟨underfull, below, several, inside⟩]
    rfl
  have rest : (merged s q pos p i).roots = s.roots ∧
      (merged s q pos p i).allocCount = s.allocCount ∧
      ∀ x, x ≠ p → x ≠ q → (merged s q pos p i).page x = s.page x := by
    unfold merged
    dsimp only
    split
    · refine ⟨rfl, rfl, fun x xp xq => ?_⟩
      rw [Store.put_page_ne _ _ xp, Store.put_page_ne _ _ xq]
    · exact ⟨rfl, rfl, fun x xp _ => Store.put_page_ne _ _ xp⟩
  rw [eq] at wf' content'
  obtain ⟨roots, alloc, pages⟩ := rest
  refine ⟨⟨live', level, wf', erased_content content content'⟩, alloc, fun x other => ?_⟩
  simp only [Finset.mem_insert, Finset.mem_singleton, not_or] at other
  obtain ⟨xr, xp, xq⟩ := other
  exact wf.stays wf' (pages x xp xq) (fun hx => ⟨left (Finset.mem_erase.mpr ⟨xr, hx⟩), rfl⟩)
    fun _ => congrFun roots _

end Found
end Leaf

section Splits

/-- A tree that has grown by one page, in which all other pages stay. -/
structure Grown (t : Tree) (w : ℕ) (s s' : Store) (m : Map) (pages : Finset ℕ) : Prop where
  tree : Represents t w s' m
  alloc : s'.allocCount = s.allocCount + 1
  stays : ∀ x, x ∉ insert s.allocCount pages → Stays t w s s' x

theorem newRoot_page_ne (other : p ≠ s.allocCount) : (t.newRoot s).page p = s.page p :=
  Store.put_page_ne _ _ other

variable (represents : Represents t w s m)
include represents

theorem newRoot_grown (space : s.allocCount < s.virtCount) :
    Grown t w s (t.newRoot s) m {metadataPageId} ∧
      Hangs t w s.allocCount (s.roots t.slotId) 0 (t.newRoot s) := by
  obtain ⟨live, level, wf, content⟩ := represents
  obtain ⟨wf', content', placed⟩ := wf.grow space
  refine ⟨⟨⟨_, _, wf', fun k v => by rw [content', content]⟩, rfl, fun x other => ?_⟩,
    _, _, wf', Finset.mem_insert_of_mem wf.shape.root_live, placed⟩
  simp only [Finset.mem_insert, Finset.mem_singleton, not_or] at other
  exact wf.grow_stays space other.2 other.1

theorem Hangs.split (hangs : Hangs t w q p pos s) (ordered : t.splitOrdered = false)
    (below : q ≠ metadataPageId) (full : Full (s.page p)) :
    t.trySplitAsserted s p q = exits ∨
    (∃ s', t.trySplitAsserted s p q = done (none, s') ∧ Grown t w s s' m {p, q}) ∨
    ∃ sep : Key, t.trySplitAsserted s p q = done (some (q, sep), s) ∧ sep.length ≤ maxKeyLen := by
  obtain ⟨live, level, wf, content⟩ := represents
  obtain ⟨hp, placed⟩ := hangs.placed wf
  rcases placed with ⟨top, _⟩ | ⟨hq, lower, pre, post, place, _⟩
  · exact absurd top below
  have lower : level p + 1 = level q := lower
  have separator := full_separator (wf.formed _ hp) (wf.bounded _ hp) full
  have eq : t.splitParent s p q = done (q, s) := if_neg below
  have above := wf.formed q hq
  have inner : (s.page q).isLeaf = false := (wf.rooted.inner hq).mpr (by omega)
  have routes := place_routes above inner place
  rw [trySplit_eq ordered eq separator]
  by_cases space : (s.page q).hasSpaceFor (s.separator p).length pidSize = true
  · rw [if_pos space]
    by_cases none : s.virtCount ≤ s.allocCount
    · rw [allocPage_exits none]
      exact Or.inl rfl
    · have asserts : (s.page q).adoptAsserts (s.separator p) p s.allocCount :=
        routes_assert routes above inner separator.above separator.below space
      have splits := wf.splits hp hq lower place full space (not_le.mp none)
      have content' : (s.splitInto p q).content _ = s.content live :=
        Set.ext (wf.shape.split_entries splits.split)
      refine Or.inr (Or.inl ⟨s.splitInto p q, ?_, ⟨_, _, splits.wf, fun k v => by rw [content', content]⟩,
        rfl, fun x other => ?_⟩)
      · rw [allocPage_done (not_le.mp none), done_bind]
        exact assert_bind asserts _
      · simp only [Finset.mem_insert, Finset.mem_singleton, not_or] at other
        exact splits.stays wf lower other.2.1 other.2.2 other.1
  · rw [if_neg space]
    exact Or.inr (Or.inr ⟨_, rfl, separator.short⟩)

end Splits
end BTree.Threads
