import OsvBenchmarks.Tree.Invariant

/-!
What the operations do to a well-formed tree, one change at a time: a leaf with
other entries, a new root, a page split below its parent. Each leaves the tree
well-formed and says what becomes of its entries.
-/
namespace BTree
open FenceTree BTreeNode Outcome

namespace Store
variable (s : Store)

@[simp] theorem put_page (pid : ℕ) (n : BTreeNode) : (s.put pid n).page pid = n :=
  Function.update_self _ _ _

theorem put_page_ne {pid pid' : ℕ} (n : BTreeNode) (other : pid' ≠ pid) :
    (s.put pid n).page pid' = s.page pid' := Function.update_of_ne other _ _

end Store

theorem between_has {n : BTreeNode} (leaf : n.isLeaf = true) {k : Key} :
    Between n.isLeaf n.getLowerFence n.getUpperFence k ↔ n.fences.Has k := by
  rw [fences_has, leaf]
  unfold Between
  apply and_congr
  · simp
  · apply or_congr_right
    rw [le_iff_lt_or_eq]
    simp

section
variable {t : Tree} {w : ℕ} {s : Store} {live : Finset ℕ} {level : ℕ → ℕ}

section Leaf
variable {p : ℕ} {n : BTreeNode} {key : Key} {payload : Payload}

theorem put_pages {P : BTreeNode → Prop} (new : P n) (old : ∀ q ∈ live, P (s.page q)) :
    ∀ q ∈ live, P ((s.put p n).page q) := by
  intro q hq
  by_cases same : q = p
  · rwa [same, Store.put_page]
  · rw [Store.put_page_ne s n same]
    exact old q hq

theorem Rooted.rewrite (rooted : Rooted t s live level) (hp : p ∈ live) (leaf : level p = 0)
    (isLeaf : n.isLeaf = true) (fences : n.fences = (s.page p).fences)
    (link : n.link = (s.page p).link) (formed : Formed n) : Rooted t (s.put p n) live level := by
  have old := (rooted.leaf hp).mpr leaf
  have here : (s.put p n).view p = n.view := by rw [Store.view, Store.put_page]
  have others : ∀ q ∈ live, q ≠ p → (s.put p n).view q = s.view q := by
    intro q _ other
    rw [Store.view, Store.put_page_ne s n other, Store.view]
  have neighbour : n.neighbour = (s.page p).neighbour := by
    unfold neighbour hasRightNeighbour
    rw [link]
  exact {
    shape := by
      apply rooted.shape.rewrite_leaf others (view_isLeaf.mpr old)
      · rw [here]
        exact view_isLeaf.mpr isLeaf
      · rw [here]
        exact fences
      · rw [here, view_next isLeaf, Store.view, view_next old, neighbour]
      · rw [here, view_entries isLeaf]
        exact fun e mem => (between_has isLeaf).mp (formed.between e mem)
      · rw [here, view_entries isLeaf]
        exact formed.sorted.imp fun h => le_of_lt h
    formed := put_pages formed rooted.formed
    ids := rooted.ids
    counters := rooted.counters }

theorem WellFormed.rewrite (wf : WellFormed t w s live level) (hp : p ∈ live) (leaf : level p = 0)
    (isLeaf : n.isLeaf = true) (fences : n.fences = (s.page p).fences)
    (link : n.link = (s.page p).link) (formed : Formed n) (bounded : Bounded n w) :
    WellFormed t w (s.put p n) live level := by
  have width : Bounded n (n.width w) := by
    rw [width, isLeaf]
    exact bounded
  exact (wf.rooted.rewrite hp leaf isLeaf fences link formed).wellFormed
    (put_pages (P := fun n => Bounded n (n.width w)) width wf.bounded)

theorem mem_content (hp : p ∈ live) (isLeaf : (s.page p).isLeaf = true) {e : Key × Payload} :
    e ∈ s.content live ↔ e ∈ (s.page p).entries ∨ ∃ q ∈ live, q ≠ p ∧ e ∈ (s.view q).entries := by
  rw [← view_entries isLeaf]
  constructor
  · rintro ⟨q, hq, mem⟩
    by_cases same : q = p
    · rw [same] at mem
      exact Or.inl mem
    · exact Or.inr ⟨q, hq, same, mem⟩
  · rintro (mem | ⟨q, hq, _, mem⟩)
    · exact ⟨p, hp, mem⟩
    · exact ⟨q, hq, mem⟩

theorem mem_put_content (hp : p ∈ live) (isLeaf : n.isLeaf = true) {e : Key × Payload} :
    e ∈ (s.put p n).content live ↔ e ∈ n.entries ∨ ∃ q ∈ live, q ≠ p ∧ e ∈ (s.view q).entries := by
  rw [mem_content hp (by rwa [Store.put_page]), Store.put_page]
  apply or_congr_right
  apply exists_congr
  intro q
  refine and_congr_right fun _ => and_congr_right fun other => ?_
  rw [Store.view, Store.put_page_ne s n other, Store.view]

/-- An entry that insert may be given. -/
structure Acceptable (w : ℕ) (key : Key) (payload : Payload) : Prop where
  some : key ≠ []
  short : key.length ≤ maxKeyLen
  small : key.length + w ≤ maxKVSize
  width : payload.length = w

def Absent (s : Store) (live : Finset ℕ) (key : Key) : Prop := ∀ v, (key, v) ∉ s.content live

theorem Rooted.insertInPage (rooted : Rooted t s live level) (hp : p ∈ live) (leaf : level p = 0)
    (has : (s.view p).fences.Has key) (short : key.length < 2 ^ 32) (absent : Absent s live key)
    (space : (s.page p).hasSpaceFor key.length payload.length = true) :
    (∃ i, Inserted (s.page p) ((s.page p).insertInPage key payload) key payload i ∧
        Gains (s.page p) ((s.page p).insertInPage key payload) key i) ∧
      Rooted t (s.put p ((s.page p).insertInPage key payload)) live level ∧
      (s.put p ((s.page p).insertInPage key payload)).content live =
        insert (key, payload) (s.content live) := by
  have isLeaf := (rooted.leaf hp).mpr leaf
  have formed := rooted.formed p hp
  have missing : ∀ e ∈ (s.page p).entries, e.1 ≠ key := by
    intro e mem same
    refine absent e.2 ⟨p, hp, ?_⟩
    rw [Store.view, view_entries isLeaf, ← same]
    exact mem
  obtain ⟨i, step⟩ := insertInPage_inserted formed.valid
    (formed.sorted.imp fun h => le_of_lt h) ((has_covers has).fits formed.valid) short space
  have gains := step.gains missing
  generalize (s.page p).insertInPage key payload = r at *
  have isLeaf' := step.isLeaf.trans isLeaf
  refine ⟨⟨i, step, gains⟩, rooted.rewrite hp leaf isLeaf' ?_ step.link ?_, ?_⟩
  · rw [fences, fences, step.lower, step.upper]
  · exact gains.formed formed (fun inner => absurd (isLeaf'.symm.trans inner) (by decide))
      ((between_has isLeaf).mpr has)
  · have split := List.take_append_drop i (s.page p).entries
    ext e
    rw [Set.mem_insert_iff, mem_content hp isLeaf, mem_put_content hp isLeaf', step.entries, ← or_assoc]
    apply or_congr_left
    conv_rhs => rw [← split]
    simp only [List.mem_append, List.mem_cons]
    exact or_left_comm

theorem WellFormed.insertInPage (wf : WellFormed t w s live level) (hp : p ∈ live)
    (leaf : level p = 0) (has : (s.view p).fences.Has key) (acceptable : Acceptable w key payload)
    (absent : Absent s live key)
    (space : (s.page p).hasSpaceFor key.length payload.length = true) :
    WellFormed t w (s.put p ((s.page p).insertInPage key payload)) live level ∧
      (s.put p ((s.page p).insertInPage key payload)).content live =
        insert (key, payload) (s.content live) := by
  have isLeaf := (wf.rooted.leaf hp).mpr leaf
  have bounded := wf.bounded p hp
  rw [width, isLeaf] at bounded
  have short := acceptable.short
  obtain ⟨⟨i, step, gains⟩, rooted, content⟩ := wf.rooted.insertInPage hp leaf has
    (lt_of_le_of_lt short (by decide)) absent space
  have wide : ((s.page p).insertInPage key payload).Wide w :=
    Wide.inserted (w := w) bounded.payloads step acceptable.width
  have more : Bounded ((s.page p).insertInPage key payload)
      (((s.page p).insertInPage key payload).width w) := by
    rw [width, step.isLeaf, isLeaf]
    exact gains.bounded bounded wide ⟨acceptable.some, short, acceptable.small⟩
  exact ⟨rooted.wellFormed (put_pages (P := fun n => Bounded n (n.width w)) more wf.bounded), content⟩

end Leaf

theorem allocPage_exits (none : s.virtCount ≤ s.allocCount) : s.allocPage = exits := if_pos none

theorem allocPage_done (some : s.allocCount < s.virtCount) :
    s.allocPage = done (s.allocCount, { s with allocCount := s.allocCount + 1 }) :=
  if_neg (not_le.mpr some)

theorem create_wellFormed (slotId w : ℕ) (pos : metadataPageId < s.allocCount)
    (space : s.allocCount < s.virtCount) (small : s.virtCount ≤ noNeighbour) :
    ∃ s', Tree.create slotId s = done (⟨slotId, false⟩, s') ∧
      WellFormed ⟨slotId, false⟩ w s' {s.allocCount} (fun _ => 0) ∧
      s'.content {s.allocCount} = ∅ := by
  let s' := (({ s with allocCount := s.allocCount + 1 } : Store).put s.allocCount (.new true)).setRoot
    slotId s.allocCount
  have page : s'.page s.allocCount = .new true := Store.put_page _ _ _
  have roots : s'.roots slotId = s.allocCount := Function.update_self _ _ _
  have view : s'.view s.allocCount = ⟨⟨none, none⟩, .leaf [] none⟩ := by
    rw [Store.view, page]
    rfl
  refine ⟨s', ?_, ?_, ?_⟩
  · rw [Tree.create, allocPage_done space]
    rfl
  · exact {
      shape := by
        rw [roots]
        exact shape_leaf view
      formed := by
        intro p hp
        rw [Finset.mem_singleton.mp hp, page]
        exact new_formed true noNeighbour
      bounded := by
        intro p hp
        rw [Finset.mem_singleton.mp hp, page]
        exact new_bounded true noNeighbour _
      ids := by
        intro p hp
        rw [Finset.mem_singleton.mp hp]
        exact ⟨pos, Nat.lt_succ_self _⟩
      counters := ⟨space, small⟩ }
  · apply Set.eq_empty_of_forall_notMem
    rintro e ⟨p, hp, mem⟩
    rw [Finset.mem_singleton.mp hp, view] at mem
    cases mem

section Grow

theorem Rooted.fresh (rooted : Rooted t s live level) : s.allocCount ∉ live := by
  intro mem
  have := (rooted.ids _ mem).2
  omega

/-- The store once splitParent has put a root above the root, on the page that allocPage has given. -/
def Tree.newRoot (t : Tree) (s : Store) : Store :=
  (({ s with allocCount := s.allocCount + 1 } : Store).put s.allocCount
    { BTreeNode.new false with link := s.roots t.slotId }).setRoot t.slotId s.allocCount

theorem newRoot_page : (t.newRoot s).page s.allocCount =
    { BTreeNode.new false with link := s.roots t.slotId } := Store.put_page _ _ _

theorem Rooted.newRoot_old (rooted : Rooted t s live level) : ∀ x ∈ live, (t.newRoot s).page x = s.page x :=
  fun _ hx => Store.put_page_ne _ _ fun same => rooted.fresh (same ▸ hx)

theorem Rooted.newRoot_pages (rooted : Rooted t s live level) {P : BTreeNode → Prop}
    (new : P { BTreeNode.new false with link := s.roots t.slotId }) (old : ∀ x ∈ live, P (s.page x)) :
    ∀ x ∈ insert s.allocCount live, P ((t.newRoot s).page x) := by
  intro x hx
  rcases Finset.mem_insert.mp hx with rfl | hx
  · rwa [newRoot_page]
  · rw [rooted.newRoot_old x hx]
    exact old x hx

theorem Rooted.grow (rooted : Rooted t s live level) (space : s.allocCount < s.virtCount) :
    let r := s.allocCount
    let root := s.roots t.slotId
    let level' := Function.update level r (level root + 1)
    Rooted t (t.newRoot s) (insert r live) level' ∧ (t.newRoot s).content (insert r live) = s.content live ∧
      Placed t (t.newRoot s) (insert r live) level' ⟨r, 0, root⟩ := by
  intro r root level'
  have fresh : r ∉ live := rooted.fresh
  have others := rooted.newRoot_old
  have grow : Grow s.view (t.newRoot s).view root live r := {
    fresh := fresh
    others := fun x hx => by rw [Store.view, others x hx, Store.view]
    top := by rw [Store.view, newRoot_page]; rfl }
  have roots : (t.newRoot s).roots t.slotId = r := Function.update_self _ _ _
  have shape := rooted.shape.grow grow
  have ids := rooted.ids
  have live_root := rooted.shape.root_live
  refine ⟨?_, Set.ext grow.entries, Or.inr ⟨by simp, ?_, [], [], ?_, rfl⟩⟩
  · exact {
      shape := by rwa [roots]
      formed := rooted.newRoot_pages (new_formed false root) rooted.formed
      ids := by
        intro x hx
        change metadataPageId < x ∧ x < s.allocCount + 1
        rcases Finset.mem_insert.mp hx with rfl | hx
        · have := (ids root live_root).1
          have := (ids root live_root).2
          omega
        · have := ids x hx
          omega
      counters := ⟨space, rooted.counters.2⟩ }
  · have other : root ≠ r := fun same => fresh (same ▸ live_root)
    change Function.update level r _ root + 1 = Function.update level r _ r
    rw [Function.update_of_ne other, Function.update_self]
  · rw [Store.view, Store.view, newRoot_page, others root live_root, view_kids rfl]
    have fences : (s.page root).view.fences = ⟨none, none⟩ := rooted.shape.root_fences
    rw [fences]
    rfl

theorem WellFormed.grow (wf : WellFormed t w s live level) (space : s.allocCount < s.virtCount) :
    let r := s.allocCount
    let root := s.roots t.slotId
    let level' := Function.update level r (level root + 1)
    WellFormed t w (t.newRoot s) (insert r live) level' ∧
      (t.newRoot s).content (insert r live) = s.content live ∧
      Placed t (t.newRoot s) (insert r live) level' ⟨r, 0, root⟩ := by
  intro r root level'
  obtain ⟨rooted, content, placed⟩ := wf.rooted.grow space
  exact ⟨rooted.wellFormed (wf.rooted.newRoot_pages (P := fun n => Bounded n (n.width w))
    (new_bounded false root _) wf.bounded), content, placed⟩

end Grow

section Split
variable {n l r parent q : BTreeNode} {sep : Key} {pid newPID slot i : ℕ}

/-- The separators of an inner page, apart at the one that moves up. -/
theorem inner_children (inner : n.isLeaf = false) (formed : Formed n) (inside : slot < n.count)
    (divides : Divides n parent l r q slot sep pid newPID i) :
    n.children = l.children ++ (sep, l.link) :: r.children ∧ r.link = n.link := by
  obtain ⟨entries, link⟩ := divides.inner inner
  refine ⟨?_, divides.link⟩
  rw [children, ← entries, List.map_append, List.map_cons, link, getChild_eq (formed.wide inner) inside]
  rfl

theorem leaf_of_entry {m : BTreeNode} {e : Key × Payload} (mem : e ∈ m.view.entries) :
    m.isLeaf = true ∧ e ∈ m.entries := by
  cases leaf : m.isLeaf with
  | true =>
    rw [view_entries leaf] at mem
    exact ⟨rfl, mem⟩
  | false =>
    rw [inner_entries fun there => by rw [view_isLeaf, leaf] at there; cases there] at mem
    cases mem

/-- The halves have the children and entries of the page, and lead to where it led. -/
theorem divides_halves (formed : Formed n) (inside : slot < n.count) (some : sep ≠ [])
    (small : newPID < noNeighbour) (divides : Divides n parent l r q slot sep pid newPID i) :
    n.view.kids = l.view.kids ++ r.view.kids ∧ n.view.entries = l.view.entries ++ r.view.entries ∧
      (n.view.isLeaf → l.view.next = .some newPID ∧ r.view.next = n.view.next) := by
  have left := divides.left
  have right := divides.right
  cases leaf : n.isLeaf with
  | true =>
    have left_leaf := left.isLeaf.trans leaf
    have right_leaf := right.isLeaf.trans leaf
    obtain ⟨entries, link⟩ := divides.leaf leaf
    refine ⟨?_, ?_, fun _ => ⟨?_, ?_⟩⟩
    · rw [leaf_kids (view_isLeaf.mpr leaf), leaf_kids (view_isLeaf.mpr left_leaf),
        leaf_kids (view_isLeaf.mpr right_leaf)]
      rfl
    · rw [view_entries leaf, view_entries left_leaf, view_entries right_leaf, entries]
    · rw [view_next left_leaf, neighbour, hasRightNeighbour, link]
      exact if_pos (bne_iff_ne.mpr (Nat.ne_of_lt small))
    · rw [view_next right_leaf, view_next leaf, neighbour, neighbour, hasRightNeighbour,
        hasRightNeighbour, divides.link]
  | false =>
    have left_inner := left.isLeaf.trans leaf
    have right_inner := right.isLeaf.trans leaf
    obtain ⟨children, link⟩ := inner_children leaf formed inside divides
    have not_leaf : ∀ {m : BTreeNode}, m.isLeaf = false → ¬ m.view.isLeaf := by
      intro m h there
      rw [view_isLeaf, h] at there
      exact Bool.false_ne_true there
    refine ⟨?_, ?_, fun there => absurd there (not_leaf leaf)⟩
    · rw [view_kids leaf, view_kids left_inner, view_kids right_inner, children, spans_append,
        link, left.lower, left.upper, right.lower, right.upper, bound_some some]
    · rw [inner_entries (not_leaf leaf), inner_entries (not_leaf left_inner),
        inner_entries (not_leaf right_inner)]
      rfl

theorem divides_split {page page' : ℕ → BTreeNode} {live : Finset ℕ} {p q r : ℕ}
    {pre post : List (ℕ × Fences Key)} (hp : p ∈ live) (hq : q ∈ live) (fresh : r ∉ live)
    (small : r < noNeighbour) (others : ∀ x ∈ live, x ≠ p → x ≠ q → page' x = page x)
    (formed : Formed (page p)) (place : (page q).view.kids = pre ++ (p, (page p).view.fences) :: post)
    (cuts : Cuts (page p) slot sep) (inner : (page q).isLeaf = false)
    (divides : Divides (page p) (page q) (page' p) (page' r) (page' q) slot sep p r pre.length) :
    FenceTree.Split (fun x => (page x).view) (fun x => (page' x).view) live p r q sep := by
  have some := bound_some cuts.some
  have left := divides.left
  have right := divides.right
  have adopted := divides.parent
  have left_fences : (page' p).view.fences = ⟨(page p).view.fences.lower, .some sep⟩ := by
    rw [view_fences, fences, left.lower, left.upper, some]
    rfl
  have right_fences : (page' r).view.fences = ⟨.some sep, (page p).view.fences.upper⟩ := by
    rw [view_fences, fences, right.lower, right.upper, some]
    rfl
  obtain ⟨kids, entries, nexts⟩ := divides_halves formed cuts.inside cuts.some small divides
  exact {
    page_live := hp
    parent_live := hq
    fresh := fresh
    others := fun x hx xp xq => by simp only [others x hx xp xq]
    above := by
      intro l same
      obtain ⟨rfl, some'⟩ := bound_eq_some.mp same
      exact cuts.above.resolve_right some'
    below := by
      intro u same
      obtain ⟨rfl, some'⟩ := bound_eq_some.mp same
      exact cuts.below.resolve_left some'
    left := left_fences
    right := right_fences
    parent := by simp only [view_fences, fences, adopted.lower, adopted.upper]
    parent_inner := by
      intro there
      rw [view_isLeaf, adopted.isLeaf, inner] at there
      cases there
    left_leaf := by simp only [view_isLeaf, left.isLeaf]
    right_leaf := by simp only [view_isLeaf, right.isLeaf]
    kids := kids
    entries := entries
    low := by
      intro e mem
      have := (left.formed.between e (leaf_of_entry mem).2).weak.2
      rw [left.upper] at this
      exact this.resolve_left cuts.some
    high := by
      intro e mem
      have := (right.formed.between e (leaf_of_entry mem).2).1
      rw [right.lower] at this
      exact this.resolve_right fun h => cuts.some h.2
    left_next := fun leaf => (nexts leaf).1
    right_next := fun leaf => (nexts leaf).2
    place := ⟨pre, post, place, by
      simp only [left_fences, right_fences]
      exact adopted_place inner place adopted⟩ }

def Store.separator (s : Store) (p : ℕ) : Key := (s.page p).getSep ((s.page p).findSeparator false)

/-- The halves of page `p`, and the page `q` above it. -/
def Store.splitPages (s : Store) (p q : ℕ) : BTreeNode × BTreeNode × BTreeNode :=
  (s.page p).splitNode p s.allocCount (s.page q) ((s.page p).findSeparator false).slot (s.separator p)

/-- What trySplit leaves where there is space in the parent. -/
def Store.splitInto (s : Store) (p q : ℕ) : Store :=
  ((({ s with allocCount := s.allocCount + 1 } : Store).put s.allocCount (s.splitPages p q).2.1).put q
    (s.splitPages p q).2.2).put p (s.splitPages p q).1

theorem puts_pages {p q r : ℕ} {a b c : BTreeNode} (pq : p ≠ q) (pr : p ≠ r) (qr : q ≠ r) :
    let s' := ((s.put r c).put q b).put p a
    s'.page p = a ∧ s'.page q = b ∧ s'.page r = c ∧
      ∀ x, x ≠ p → x ≠ q → x ≠ r → s'.page x = s.page x := by
  refine ⟨?_, ?_, ?_, ?_⟩
  · rw [Store.put_page]
  · rw [Store.put_page_ne _ _ pq.symm, Store.put_page]
  · rw [Store.put_page_ne _ _ pr.symm, Store.put_page_ne _ _ qr.symm, Store.put_page]
  · intro x xp xq xr
    rw [Store.put_page_ne _ _ xp, Store.put_page_ne _ _ xq, Store.put_page_ne _ _ xr]

/-- Page `p` in two below its parent `q`, whose child `i` it was; the right half is a new page. -/
structure Parted (s s' : Store) (live : Finset ℕ) (p q slot : ℕ) (sep : Key) (i : ℕ) : Prop where
  divides : Divides (s.page p) (s.page q) (s'.page p) (s'.page s.allocCount) (s'.page q) slot sep p
    s.allocCount i
  others : ∀ x ∈ live, x ≠ p → x ≠ q → s'.page x = s.page x
  roots : s'.roots = s.roots
  alloc : s'.allocCount = s.allocCount + 1
  virt : s'.virtCount = s.virtCount

theorem Rooted.puts_parted (rooted : Rooted t s live level) {p q i : ℕ} {a b c : BTreeNode} (hp : p ∈ live)
    (hq : q ∈ live) (lower : level p + 1 = level q)
    (divides : Divides (s.page p) (s.page q) a c b slot sep p s.allocCount i) :
    let s' := ((({ s with allocCount := s.allocCount + 1 } : Store).put s.allocCount c).put q b).put p a
    Parted s s' live p q slot sep i ∧ s'.page p = a ∧ s'.page s.allocCount = c := by
  have fresh := rooted.fresh
  have pq : p ≠ q := fun same => by rw [same] at lower; omega
  have pr : p ≠ s.allocCount := fun same => fresh (same ▸ hp)
  have qr : q ≠ s.allocCount := fun same => fresh (same ▸ hq)
  obtain ⟨page_p, page_q, page_r, rest⟩ := @puts_pages { s with allocCount := s.allocCount + 1 } p q
    s.allocCount a b c pq pr qr
  refine ⟨⟨?_, fun x hx xp xq => rest x xp xq fun same => fresh (same ▸ hx), rfl, rfl, rfl⟩,
    page_p, page_r⟩
  rwa [page_p, page_q, page_r]

/-- What the pages of a split satisfy, when the three that it writes do. -/
theorem Parted.pages {s' : Store} {p q i : ℕ} (parted : Parted s s' live p q slot sep i)
    {P : BTreeNode → Prop} (left : P (s'.page p)) (right : P (s'.page s.allocCount))
    (parent : P (s'.page q)) (old : ∀ x ∈ live, P (s.page x)) :
    ∀ x ∈ insert s.allocCount live, P (s'.page x) := by
  intro x hx
  rcases Finset.mem_insert.mp hx with rfl | hx
  · exact right
  · by_cases xp : x = p
    · rwa [xp]
    · by_cases xq : x = q
      · rwa [xq]
      · rw [parted.others x hx xp xq]
        exact old x hx

theorem Rooted.parted (rooted : Rooted t s live level) {s' : Store} {p q : ℕ} (hp : p ∈ live)
    (hq : q ∈ live) (lower : level p + 1 = level q) {pre post : List (ℕ × Fences Key)}
    (place : (s.view q).kids = pre ++ (p, (s.view p).fences) :: post) (cuts : Cuts (s.page p) slot sep)
    (ids : s.allocCount < s.virtCount) (parted : Parted s s' live p q slot sep pre.length) :
    Rooted t s' (insert s.allocCount live) (Function.update level s.allocCount (level p)) ∧
      FenceTree.Split s.view s'.view live p s.allocCount q sep := by
  have above := rooted.formed q hq
  have inner : (s.page q).isLeaf = false := (rooted.inner hq).mpr (by omega)
  have counters := rooted.counters
  have divides := parted.divides
  have split : FenceTree.Split s.view s'.view live p s.allocCount q sep :=
    divides_split hp hq rooted.fresh (lt_of_lt_of_le ids counters.2) parted.others (rooted.formed p hp)
      place cuts inner divides
  have adopted := divides.parent
  have strict := (place_routes above inner place).between above inner cuts.above cuts.below
  have parent : Formed (s'.page q) := adopted.gains.formed above (fun _ => adopted.wide)
    (between_strict _ cuts.some strict.1 strict.2)
  refine ⟨?_, split⟩
  exact {
    shape := by
      rw [parted.roots]
      exact rooted.shape.split split
    formed := parted.pages divides.left.formed divides.right.formed parent rooted.formed
    ids := by
      intro x hx
      rw [parted.alloc]
      rcases Finset.mem_insert.mp hx with rfl | hx
      · have := rooted.ids p hp
        omega
      · have := rooted.ids x hx
        omega
    counters := by
      rw [parted.alloc, parted.virt]
      exact ⟨ids, counters.2⟩ }

/-- A page of a well-formed tree split in two below its parent. -/
structure SplitsAt (t : Tree) (w : ℕ) (s s' : Store) (live : Finset ℕ) (level : ℕ → ℕ) (p q : ℕ) : Prop where
  wf : WellFormed t w s' (insert s.allocCount live) (Function.update level s.allocCount (level p))
  split : FenceTree.Split s.view s'.view live p s.allocCount q (s.separator p)
  relieves : Relieves (s.page p) (s'.page p) (s'.page s.allocCount) w
  others : ∀ x ∈ live, x ≠ p → x ≠ q → s'.page x = s.page x

theorem WellFormed.splits (wf : WellFormed t w s live level) {p q : ℕ} (hp : p ∈ live) (hq : q ∈ live)
    (lower : level p + 1 = level q) {pre post : List (ℕ × Fences Key)}
    (place : (s.view q).kids = pre ++ (p, (s.view p).fences) :: post) (full : Full (s.page p))
    (space : (s.page q).hasSpaceFor (s.separator p).length pidSize = true)
    (ids : s.allocCount < s.virtCount) : SplitsAt t w s (s.splitInto p q) live level p q := by
  have formed := wf.formed p hp
  have above := wf.formed q hq
  have bounded := wf.bounded p hp
  have inner : (s.page q).isLeaf = false := (wf.rooted.inner hq).mpr (by omega)
  have routes := place_routes above inner place
  have counters := wf.counters
  have alloc : s.allocCount < 2 ^ 64 := lt_of_lt_of_le ids (le_trans counters.2 (by decide))
  have old : p < 2 ^ 64 := lt_trans (wf.ids p hp).2 alloc
  have separator := full_separator formed bounded full
  obtain ⟨divides, relieves⟩ := full_splits formed bounded full above inner routes old alloc space
  obtain ⟨parted, page_p, page_r⟩ := wf.rooted.puts_parted hp hq lower divides
  have relieves : Relieves (s.page p) ((s.splitInto p q).page p) ((s.splitInto p q).page s.allocCount) w := by
    change (s.splitInto p q).page p = _ at page_p
    change (s.splitInto p q).page s.allocCount = _ at page_r
    rwa [page_p, page_r]
  have divides := parted.divides
  obtain ⟨rooted, split⟩ := wf.rooted.parted hp hq lower place separator.cuts ids parted
  have adopted := divides.parent
  have capped : (s.separator p).length + pidSize ≤ maxKVSize :=
    le_trans (Nat.add_le_add_right separator.short pidSize) (by decide)
  have wide := wf.bounded q hq
  rw [BTreeNode.width, inner] at wide
  refine ⟨rooted.wellFormed (parted.pages (P := fun n => Bounded n (n.width w)) ?_ ?_ ?_ wf.bounded),
    split, relieves, parted.others⟩
  · rw [BTreeNode.width, divides.left.isLeaf]
    exact relieves.left
  · rw [BTreeNode.width, divides.right.isLeaf]
    exact relieves.right
  · rw [BTreeNode.width, adopted.isLeaf, inner]
    exact adopted.gains.bounded wide adopted.wide ⟨separator.some, separator.short, capped⟩

end Split

end

end BTree
