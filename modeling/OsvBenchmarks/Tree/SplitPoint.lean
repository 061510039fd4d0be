import OsvBenchmarks.BTree.Sized
import OsvBenchmarks.Library.Reports
import OsvBenchmarks.Tree.Refinement

/-!
The pages that insert and ensureSpace find without space, over any inserts into a
fresh tree, with custom_memcmp as it is. As long as distinct keys are inserted, the
keys decide every search and the leaves can pay for their splits, a page that is
spacious between its fences has a place to be split, and any other exactly when it
is not tight.
-/
namespace BTree
open FenceTree BTreeNode Outcome Runs Report

/-- A page found without space, and the tree's splitOrdered. -/
structure Found where
  node : BTreeNode
  splitOrdered : Bool

/-- What inserts do with pages: search one for a key, and find one without space. -/
inductive Event where
  | search (node : BTreeNode) (key : Key)
  | full (found : Found)

/-- What lies behind a key in memory while lowerBound looks for it in a page, and while insertInPage
puts it there. -/
structure Memory where
  search : Store → BTreeNode → Key → Heap
  insert : Store → BTreeNode → Key → Heap

/-- An operation that reports no event; one that is not done stops the run. -/
def Outcome.report {α : Type} : Outcome α → Report Event α
  | done a => pure a
  | _ => stop

theorem report_exits {α : Type} : (exits : Outcome α).report = stop := rfl

theorem report_done {α : Type} (a : α) : (done a).report = pure a := rfl

section Operations
variable (memory : Memory)

def Store.descendIn (s : Store) (key : Key) (toSplit : Option ℕ) : ℕ → Store.Position →
    Report Event Store.Position
  | 0, _ => stop
  | fuel + 1, at_ =>
    if !s.isValidPID at_.node then stop
    else
      let n := s.page at_.node
      if n.isInner ∧ some at_.node ≠ toSplit then do
        tell (.search n key)
        let pos := (n.lowerBoundIn (memory.search s n key) key).1
        let next := if pos = n.count then n.link else n.getChild pos
        descendIn s key toSplit fuel ⟨at_.node, pos, next⟩
      else pure at_

namespace Tree
variable (t : Tree)

def trySplitIn (s : Store) (node parent : ℕ) : Report Event (Option (ℕ × Key) × Store) := do
  let (parent, s) ← (t.splitParent s node parent).report
  let n := s.page node
  let sepInfo := n.findSeparator t.splitOrdered
  let sepKey := n.getSep sepInfo
  let above := s.page parent
  if above.hasSpaceFor sepInfo.len pidSize then do
    let (newNode, s) ← s.allocPage.report
    tell (.search above sepKey)
    let pages := n.splitNodeIn (memory.search s above sepKey) (memory.insert s above sepKey) node newNode
      above sepInfo.slot sepKey
    pure (none, ((s.put newNode pages.2.1).put parent pages.2.2).put node pages.1)
  else pure (some (parent, sepKey), s)

def ensureSpaceIn : ℕ → Store → ℕ → Key → ℕ → Report Event Store
  | 0, _, _, _, _ => stop
  | fuel + 1, s, toSplit, key, payloadLen => do
    let at_ ← s.descendIn memory key (some toSplit) fuel (t.fromRoot s)
    if at_.node = toSplit then
      if (s.page at_.node).hasSpaceFor key.length payloadLen then pure s
      else do
        tell (.full ⟨s.page at_.node, t.splitOrdered⟩)
        let (restart, s) ← t.trySplitIn memory s at_.node at_.parent
        match restart with
        | none => pure s
        | some (parent, sepKey) => ensureSpaceIn fuel s parent sepKey pidSize
    else pure s

def insertIn : ℕ → Store → Key → Payload → Report Event Store
  | 0, _, _, _ => stop
  | fuel + 1, s, key, payload => do
    let at_ ← s.descendIn memory key none fuel (t.fromRoot s)
    let n := s.page at_.node
    if n.hasSpaceFor key.length payload.length then do
      tell (.search n key)
      pure (s.put at_.node (n.insertInPageIn (memory.insert s n key) key payload))
    else do
      tell (.full ⟨n, t.splitOrdered⟩)
      let (restart, s) ← t.trySplitIn memory s at_.node at_.parent
      match restart with
      | none => insertIn fuel s key payload
      | some (parent, sepKey) => do
        let s ← t.ensureSpaceIn memory fuel s parent sepKey pidSize
        insertIn fuel s key payload

end Tree

/-- An insert, and what splitOrdered is meanwhile. -/
structure Insertion where
  splitOrdered : Bool
  key : Key
  payload : Payload

/-- The assertion of insert. -/
def Insertion.Small (op : Insertion) : Prop := op.key.length + op.payload.length ≤ maxKVSize

def insertsIn (slotId fuel : ℕ) : Store → List Insertion → Report Event Store
  | s, [] => pure s
  | s, op :: rest => do
    let s ← (⟨slotId, op.splitOrdered⟩ : Tree).insertIn memory fuel s op.key op.payload
    insertsIn slotId fuel s rest

end Operations

namespace Found

def HasSplitPoint (f : Found) : Prop := f.node.SplitPoint f.splitOrdered

instance : DecidablePred HasSplitPoint := fun f => inferInstanceAs (Decidable (f.node.SplitPoint _))

def Least (f : Found) : Prop :=
  (f.node.isLeaf = true → 2 ≤ f.node.count) ∧ (f.node.isLeaf = false → 1 ≤ f.node.count)

theorem Least.split_iff {f : Found} (least : f.Least) : f.HasSplitPoint ↔ ¬ f.node.Tight := by
  obtain ⟨two, one⟩ := least
  unfold HasSplitPoint Tight
  rw [splitPoint_iff]
  cases leaf : f.node.isLeaf with
  | true =>
    have two := two leaf
    rw [if_pos rfl]
    constructor
    · rintro ⟨three, _⟩
      have := three rfl
      omega
    · intro other
      exact ⟨fun _ => by omega, fun no => absurd no (by decide)⟩
  | false =>
    have one := one leaf
    rw [if_neg Bool.false_ne_true]
    constructor
    · rintro ⟨_, two⟩
      have := two rfl
      omega
    · intro other
      exact ⟨fun no => absurd no (by decide), fun _ => by omega⟩

structure Known (f : Found) : Prop where
  least : f.Least
  spacious : f.node.Spacious → f.HasSplitPoint

end Found

namespace Event

/-- The keys decide the search; the page is spacious and, if it is a leaf, its split a light one. -/
def Steady : Event → Prop
  | search n key => n.Decided key
  | full f => f.node.Spacious ∧ (f.node.isLeaf = true → f.node.Light f.splitOrdered)

instance : DecidablePred Steady := fun e =>
  match e with
  | search n key => inferInstanceAs (Decidable (n.Decided key))
  | full f => inferInstanceAs (Decidable (f.node.Spacious ∧ (_ → f.node.Light f.splitOrdered)))

def Good : Event → Prop
  | search _ _ => True
  | full f => f.Known

end Event

abbrev Ensured {α : Type} (post : α → Prop) (report : Report Event α) : Prop :=
  Ensures Event.Steady Event.Good post report

/-- The live pages of a tree that entries of any lengths were inserted into. -/
structure Grown (t : Tree) (s : Store) (live : Finset ℕ) (level : ℕ → ℕ) : Prop where
  rooted : Rooted t s live level
  sized : ∀ p ∈ live, Sized (s.page p)

section
variable {t : Tree} {s s' : Store} {live : Finset ℕ} {level : ℕ → ℕ} {key : Key}

/-- A page that ensureSpace is called for. -/
structure Asked (s : Store) (live : Finset ℕ) (level : ℕ → ℕ) (q : ℕ) (sep : Key) : Prop where
  live : q ∈ live
  inner : level q ≠ 0
  has : (s.view q).fences.Has sep
  short : sep.length ≤ maxKVSize

theorem Grown.split (grown : Grown t s live level) {p q : ℕ} (hp : p ∈ live) (hq : q ∈ live)
    (lower : level p + 1 = level q) {pre post : List (ℕ × Fences Key)}
    (place : (s.view q).kids = pre ++ (p, (s.view p).fences) :: post) {splitOrdered : Bool}
    (point : (s.page p).SplitPoint splitOrdered)
    (pays : (s.page p).isLeaf = true → (s.page p).Pays splitOrdered)
    (space : (s.page q).hasSpaceFor ((s.page p).getSep ((s.page p).findSeparator splitOrdered)).length
      pidSize = true) (ids : s.allocCount < s.virtCount) :
    let info := (s.page p).findSeparator splitOrdered
    let pages := (s.page p).splitNode p s.allocCount (s.page q) info.slot ((s.page p).getSep info)
    let s' := ((({ s with allocCount := s.allocCount + 1 } : Store).put s.allocCount pages.2.1).put q
      pages.2.2).put p pages.1
    Grown t s' (insert s.allocCount live) (Function.update level s.allocCount (level p)) ∧
      s'.content (insert s.allocCount live) = s.content live := by
  intro info pages s'
  have rooted := grown.rooted
  have formed := rooted.formed p hp
  have sized := grown.sized p hp
  have above := rooted.formed q hq
  have inner : (s.page q).isLeaf = false := (rooted.inner hq).mpr (by omega)
  have fresh : s.allocCount < 2 ^ 64 := lt_of_lt_of_le ids (le_trans rooted.counters.2 (by decide))
  have old : p < 2 ^ 64 := lt_trans (rooted.ids p hp).2 fresh
  have divides : Divides (s.page p) (s.page q) pages.1 pages.2.1 pages.2.2 info.slot _ p s.allocCount
      pre.length :=
    splitNode_halves formed point.1 splitOrdered above inner (place_routes above inner place) old fresh
      (splitNode_fits sized formed point pays) space
  obtain ⟨parted, _, _⟩ := rooted.puts_parted hp hq lower divides
  obtain ⟨rooted, split⟩ := rooted.parted hp hq lower place (formed.cuts point) ids parted
  have short := sized.separator point
  obtain ⟨left, right⟩ := parted.divides.sized sized short
  have parent := parted.divides.parent.sized (grown.sized q hq) inner short
  exact ⟨⟨rooted, parted.pages left right parent grown.sized⟩,
    Set.ext (grown.rooted.shape.split_entries split)⟩

theorem Grown.trySplit (grown : Grown t s live level) {at_ : Store.Position} (hp : at_.node ∈ live)
    (placed : Placed t s live level at_) (point : (s.page at_.node).SplitPoint t.splitOrdered)
    (pays : (s.page at_.node).isLeaf = true → (s.page at_.node).Pays t.splitOrdered)
    {restart : Option (ℕ × Key)} (ends : t.trySplit s at_.node at_.parent = done (restart, s')) :
    ∃ live' level', Grown t s' live' level' ∧ s'.content live' = s.content live ∧
      ∀ q sep, restart = some (q, sep) → Asked s' live' level' q sep := by
  have cuts := (grown.rooted.formed _ hp).cuts point
  have short := (grown.sized _ hp).separator point
  have len := getSep_length t.splitOrdered point.1
  rw [Tree.trySplit] at ends
  rcases grown.rooted.splitParent placed with ⟨eq, _⟩ | ⟨q, s₁, live₁, level₁, eq, raised, _⟩
  · rw [eq] at ends
    cases ends
  · obtain ⟨hp₁, page_p, level_p⟩ := raised.kept _ hp
    obtain ⟨hq, lower⟩ := raised.parent
    obtain ⟨pre, post, place⟩ := raised.place
    have rooted := raised.rooted
    have grown₁ : Grown t s₁ live₁ level₁ :=
      ⟨rooted, raised.pages Sized (new_sized false _) grown.sized⟩
    rw [eq, done_bind] at ends
    dsimp only at ends
    rw [← page_p] at point cuts short len pays
    rw [← len] at ends
    have above := rooted.formed q hq
    have inner : (s₁.page q).isLeaf = false := (rooted.inner hq).mpr (by omega)
    obtain ⟨low, high⟩ := (place_routes above inner place).between above inner cuts.above cuts.below
    by_cases space : (s₁.page q).hasSpaceFor ((s₁.page at_.node).getSep
        ((s₁.page at_.node).findSeparator t.splitOrdered)).length pidSize = true
    · rw [if_pos space] at ends
      by_cases none : s₁.virtCount ≤ s₁.allocCount
      · rw [allocPage_exits none] at ends
        cases ends
      · rw [allocPage_done (not_le.mp none), done_bind] at ends
        obtain ⟨split, content⟩ := grown₁.split hp₁ hq lower place point pays space (not_le.mp none)
        cases ends
        exact ⟨_, _, split, content.trans raised.content, fun q sep none =>
          absurd none.symm (Option.some_ne_none _)⟩
    · rw [if_neg space] at ends
      cases ends
      refine ⟨live₁, level₁, grown₁, raised.content, ?_⟩
      rintro _ _ ⟨⟩
      exact ⟨hq, by omega, fences_has.mpr ⟨low, high.imp id fun h => le_of_lt h⟩, short⟩

def Keeps (t : Tree) (s : Store) (live : Finset ℕ) (s' : Store) : Prop :=
  ∃ live' level', Grown t s' live' level' ∧ s'.content live' = s.content live

variable {memory : Memory} {fuel : ℕ}

/-- A descent whose searches are decided goes where one with memcmp does. -/
theorem Grown.descendIn (grown : Grown t s live level) {toSplit : Option ℕ} {at_ : Store.Position}
    (here : at_.node ∈ live) (covers : (s.view at_.node).fences.Has key)
    (placed : Placed t s live level at_) :
    Ensured (fun arrived => s.descend key toSplit fuel at_ = done arrived)
      (s.descendIn memory key toSplit fuel at_) := by
  have rooted := grown.rooted
  induction fuel generalizing at_ with
  | zero => exact ensures_stop
  | succ fuel ih =>
    have known : ¬ (!true) = true := by decide
    rw [Store.descendIn, Store.descend, rooted.valid_id here, if_neg known, if_neg known]
    dsimp only
    by_cases go : (s.page at_.node).isInner = true ∧ some at_.node ≠ toSplit
    · have inner : level at_.node ≠ 0 := by
        intro zero
        rw [isInner, (rooted.leaf here).mpr zero] at go
        exact Bool.false_ne_true go.1
      obtain ⟨there, has, _, placed⟩ := rooted.step here inner covers
      rw [if_pos go, if_pos go]
      refine ensures_tell trivial fun decided => ?_
      rw [lowerBoundIn_eq (rooted.formed _ here).valid decided]
      exact ih there has placed
    · rw [if_neg go, if_neg go]
      exact ensures_pure rfl

/-- A split for which the search of the parent is decided is that with memcmp. -/
theorem Grown.trySplitIn (grown : Grown t s live level) {at_ : Store.Position}
    (placed : Placed t s live level at_) :
    Ensured (fun result => t.trySplit s at_.node at_.parent = done result)
      (t.trySplitIn memory s at_.node at_.parent) := by
  rw [Tree.trySplitIn, Tree.trySplit]
  rcases grown.rooted.splitParent placed with ⟨eq, _⟩ | ⟨q, s₁, live₁, level₁, eq, raised, _⟩
  · rw [eq, report_exits, stop_bind]
    exact ensures_stop
  · have rooted := raised.rooted
    obtain ⟨hq, lower⟩ := raised.parent
    have above := rooted.formed q hq
    have inner : (s₁.page q).isLeaf = false := (rooted.inner hq).mpr (by omega)
    rw [eq, report_done, pure_bind, done_bind]
    dsimp only
    by_cases space : (s₁.page q).hasSpaceFor ((s₁.page at_.node).findSeparator t.splitOrdered).len
        pidSize = true
    · rw [if_pos space, if_pos space]
      by_cases none : s₁.virtCount ≤ s₁.allocCount
      · rw [allocPage_exits none, report_exits, stop_bind]
        exact ensures_stop
      · rw [allocPage_done (not_le.mp none), report_done, pure_bind, done_bind]
        refine ensures_tell trivial fun decided => ?_
        rw [splitNodeIn_eq above inner decided]
        exact ensures_pure rfl
    · rw [if_neg space, if_neg space]
      exact ensures_pure rfl

/-- A steady page that is found without space can be split, its halves fitting. -/
theorem Grown.splits (grown : Grown t s live level) {p : ℕ} (hp : p ∈ live) {splitOrdered : Bool}
    (known : Found.Known ⟨s.page p, splitOrdered⟩)
    (steady : Event.Steady (.full ⟨s.page p, splitOrdered⟩)) :
    (s.page p).SplitPoint splitOrdered ∧
      ((s.page p).isLeaf = true → (s.page p).Pays splitOrdered) := by
  obtain ⟨spacious, light⟩ := steady
  have point : (s.page p).SplitPoint splitOrdered := known.spacious spacious
  exact ⟨point, fun leaf => (light leaf).pays (grown.rooted.formed p hp).valid point.1⟩

theorem Grown.known_inner (grown : Grown t s live level) {q : ℕ} (asked : Asked s live level q key)
    (full : ¬ (s.page q).hasSpaceFor key.length pidSize = true) (splitOrdered : Bool) :
    Found.Known ⟨s.page q, splitOrdered⟩ := by
  have sized := grown.sized q asked.live
  have formed := grown.rooted.formed q asked.live
  have inner : (s.page q).isLeaf = false := (grown.rooted.inner asked.live).mpr asked.inner
  have full := Bool.eq_false_of_not_eq_true full
  have covers := has_covers asked.has
  constructor
  · exact ⟨fun leaf => absurd (leaf.symm.trans inner) (by decide),
      fun _ => sized.one formed covers asked.short full⟩
  · intro spacious
    refine sized.splitPoint formed spacious covers ?_ full
    rw [longest, inner]
    exact Nat.add_le_add_right asked.short _

theorem Grown.ensureSpaceIn {q : ℕ} (grown : Grown t s live level) (asked : Asked s live level q key) :
    Ensured (fun s' => t.ensureSpace fuel s q key pidSize = done s' ∧ Keeps t s live s')
      (t.ensureSpaceIn memory fuel s q key pidSize) := by
  induction fuel generalizing s live level q key with
  | zero => exact ensures_stop
  | succ fuel ih =>
    have same : Keeps t s live s := ⟨live, level, grown, rfl⟩
    have root := grown.rooted.shape.root_live
    have covers := grown.rooted.root_has key
    rw [Tree.ensureSpaceIn, Tree.ensureSpace]
    refine (grown.descendIn root covers fromRoot_placed).bind ?_
    intro at_ descends
    obtain ⟨hp, _, placed, _⟩ := grown.rooted.arrives root covers fromRoot_placed descends
    rw [descends, done_bind]
    by_cases here : at_.node = q
    · rw [if_pos here, if_pos here]
      by_cases space : (s.page at_.node).hasSpaceFor key.length pidSize = true
      · rw [if_pos space, if_pos space]
        exact ensures_pure ⟨rfl, same⟩
      · rw [if_neg space, if_neg space]
        have known : Found.Known ⟨s.page at_.node, t.splitOrdered⟩ := by
          rw [here] at space ⊢
          exact grown.known_inner asked space _
        refine ensures_tell known fun steady => ?_
        obtain ⟨point, pays⟩ := grown.splits hp known steady
        refine (grown.trySplitIn placed).bind ?_
        rintro ⟨restart, s₁⟩ split
        obtain ⟨live₁, level₁, grown₁, content, up⟩ := grown.trySplit hp placed point pays split
        rw [split, done_bind]
        cases restart with
        | none => exact ensures_pure ⟨rfl, live₁, level₁, grown₁, content⟩
        | some above =>
          refine (ih grown₁ (up _ _ rfl)).mono ?_
          rintro s₂ ⟨ends, live₂, level₂, grown₂, content₂⟩
          exact ⟨ends, live₂, level₂, grown₂, content₂.trans content⟩
    · rw [if_neg here, if_neg here]
      exact ensures_pure ⟨rfl, same⟩

section Insert
variable {payload : Payload}

theorem Grown.known_leaf (grown : Grown t s live level) {p : ℕ} (hp : p ∈ live) (leaf : level p = 0)
    (has : (s.view p).fences.Has key) (small : key.length + payload.length ≤ maxKVSize)
    (full : ¬ (s.page p).hasSpaceFor key.length payload.length = true) (splitOrdered : Bool) :
    Found.Known ⟨s.page p, splitOrdered⟩ := by
  have sized := grown.sized p hp
  have formed := grown.rooted.formed p hp
  have isLeaf := (grown.rooted.leaf hp).mpr leaf
  have full := Bool.eq_false_of_not_eq_true full
  have covers := has_covers has
  constructor
  · exact ⟨fun _ => (sized.sound formed isLeaf).two ⟨covers, small⟩ full,
      fun inner => absurd (isLeaf.symm.trans inner) (by decide)⟩
  · intro spacious
    refine sized.splitPoint formed spacious covers ?_ full
    rw [longest, isLeaf]
    exact small

theorem Grown.insertInPage (grown : Grown t s live level) {p : ℕ} (hp : p ∈ live) (leaf : level p = 0)
    (has : (s.view p).fences.Has key) (small : key.length + payload.length ≤ maxKVSize)
    (absent : Absent s live key) (space : (s.page p).hasSpaceFor key.length payload.length = true) :
    Grown t (s.put p ((s.page p).insertInPage key payload)) live level ∧
      (s.put p ((s.page p).insertInPage key payload)).content live =
        insert (key, payload) (s.content live) := by
  have size : maxKVSize = 993 := by decide
  obtain ⟨⟨i, step, _⟩, rooted, content⟩ := grown.rooted.insertInPage hp leaf has (by omega) absent space
  exact ⟨⟨rooted, put_pages (step.sized (grown.sized p hp) small) grown.sized⟩, content⟩

theorem Absent.of_same {s₁ : Store} {live₁ : Finset ℕ} (absent : Absent s live key)
    (same : s₁.content live₁ = s.content live) : Absent s₁ live₁ key := by
  unfold Absent
  rwa [same]

def Gets (t : Tree) (s : Store) (live : Finset ℕ) (key : Key) (payload : Payload) (s' : Store) : Prop :=
  ∃ live' level', Grown t s' live' level' ∧ s'.content live' = insert (key, payload) (s.content live)

theorem Gets.of_same {s₁ : Store} {live₁ : Finset ℕ} (gets : Gets t s₁ live₁ key payload s')
    (same : s₁.content live₁ = s.content live) : Gets t s live key payload s' := by
  unfold Gets
  rwa [← same]

theorem insert_splits {at_ : Store.Position} (descends : s.descend key none fuel (t.fromRoot s) = done at_)
    (full : ¬ (s.page at_.node).hasSpaceFor key.length payload.length = true) :
    t.insert (fuel + 1) s key payload = (t.trySplit s at_.node at_.parent >>= fun
      | (none, s) => t.insert fuel s key payload
      | (some (parent, sepKey), s) =>
        t.ensureSpace fuel s parent sepKey pidSize >>= fun s => t.insert fuel s key payload) := by
  rw [Tree.insert, Tree.insertTurn, descends, done_bind]
  dsimp only
  rw [if_neg full]
  cases t.trySplit s at_.node at_.parent with
  | spins | exits | crashes => rfl
  | done result =>
    obtain ⟨restart, s₁⟩ := result
    cases restart with
    | none => rfl
    | some up =>
      obtain ⟨parent, sepKey⟩ := up
      simp only [done_bind]
      cases t.ensureSpace fuel s₁ parent sepKey pidSize with
      | spins | exits | crashes => rfl
      | done s₂ => rfl

theorem Grown.insertIn (grown : Grown t s live level)
    (small : key.length + payload.length ≤ maxKVSize) (absent : Absent s live key) :
    Ensured (fun s' => t.insert fuel s key payload = done s' ∧ Gets t s live key payload s')
      (t.insertIn memory fuel s key payload) := by
  induction fuel generalizing s live level with
  | zero => exact ensures_stop
  | succ fuel ih =>
    have root := grown.rooted.shape.root_live
    have covers := grown.rooted.root_has key
    -- the next turn, on a tree with the same entries
    have again : ∀ {s₁ live₁ level₁}, Grown t s₁ live₁ level₁ → s₁.content live₁ = s.content live →
        Ensured (fun s' => t.insert fuel s₁ key payload = done s' ∧ Gets t s live key payload s')
          (t.insertIn memory fuel s₁ key payload) := by
      intro s₁ live₁ level₁ grown₁ same
      refine (ih grown₁ (absent.of_same same)).mono ?_
      rintro s' ⟨ends, gets⟩
      exact ⟨ends, gets.of_same same⟩
    rw [Tree.insertIn]
    refine (grown.descendIn root covers fromRoot_placed).bind ?_
    intro at_ descends
    obtain ⟨hp, has, placed, leaf⟩ := grown.rooted.arrives root covers fromRoot_placed descends
    have leaf := leaf rfl
    dsimp only
    by_cases space : (s.page at_.node).hasSpaceFor key.length payload.length = true
    · obtain ⟨grown', content⟩ := grown.insertInPage hp leaf has small absent space
      rw [if_pos space, Tree.insert, Tree.insertTurn, descends, done_bind]
      dsimp only
      rw [if_pos space]
      refine ensures_tell trivial fun decided => ?_
      rw [insertInPageIn_eq (grown.rooted.formed _ hp).valid decided]
      exact ensures_pure ⟨rfl, live, level, grown', content⟩
    · rw [if_neg space, insert_splits descends space]
      have known := grown.known_leaf hp leaf has small space t.splitOrdered
      refine ensures_tell known fun steady => ?_
      obtain ⟨point, pays⟩ := grown.splits hp known steady
      refine (grown.trySplitIn placed).bind ?_
      rintro ⟨restart, s₁⟩ split
      obtain ⟨live₁, level₁, grown₁, content, up⟩ := grown.trySplit hp placed point pays split
      rw [split, done_bind]
      cases restart with
      | none => exact again grown₁ content
      | some above =>
        refine (grown₁.ensureSpaceIn (up _ _ rfl)).bind ?_
        rintro s₂ ⟨ends, live₂, level₂, grown₂, content₂⟩
        dsimp only
        rw [ends, done_bind]
        exact again grown₂ (content₂.trans content)

end Insert

section Inserts
variable {slotId : ℕ}

theorem Grown.of_slot {o : Bool} (grown : Grown ⟨slotId, o⟩ s live level) (splitOrdered : Bool) :
    Grown ⟨slotId, splitOrdered⟩ s live level :=
  ⟨⟨grown.rooted.shape, grown.rooted.formed, grown.rooted.ids, grown.rooted.counters⟩, grown.sized⟩

theorem Grown.insertsIn {ops : List Insertion} {o : Bool} (grown : Grown ⟨slotId, o⟩ s live level)
    (small : ∀ op ∈ ops, op.Small) (distinct : (ops.map Insertion.key).Nodup)
    (absent : ∀ op ∈ ops, Absent s live op.key) :
    Ensured (fun _ => True) (insertsIn memory slotId fuel s ops) := by
  induction ops generalizing s live level o with
  | nil => exact ensures_pure trivial
  | cons op rest ih =>
    rw [List.map_cons, List.nodup_cons] at distinct
    obtain ⟨other, distinct⟩ := distinct
    refine ((grown.of_slot op.splitOrdered).insertIn (small op (by simp)) (absent op (by simp))).bind ?_
    rintro s' ⟨_, live', level', grown', content⟩
    refine ih grown' (fun op mem => small op (by simp [mem])) distinct fun next mem v there => ?_
    rw [content, Set.mem_insert_iff] at there
    rcases there with same | old
    · exact other (List.mem_map.mpr ⟨next, mem, congrArg Prod.fst same⟩)
    · exact absent next (by simp [mem]) v old

theorem create_grown {t : Tree} {s₁ : Store} (pos : metadataPageId < s.allocCount)
    (few : s.virtCount ≤ noNeighbour) (made : Tree.create slotId s = done (t, s₁)) :
    Grown ⟨slotId, false⟩ s₁ {s.allocCount} (fun _ => 0) ∧ s₁.content {s.allocCount} = ∅ := by
  have space : s.allocCount < s.virtCount := by
    by_contra none
    rw [Tree.create, allocPage_exits (not_lt.mp none)] at made
    cases made
  obtain ⟨s', eq, wf, empty⟩ := create_wellFormed slotId 0 pos space few
  cases eq.symm.trans made
  exact ⟨⟨wf.rooted, fun p hp => (wf.bounded p hp).sized⟩, empty⟩

/-- In a run of inserts of distinct keys into a fresh tree, behind events that are steady: a spacious
page that is found without space can be split, and any other if it is not a leaf with exactly
two entries or an inner page with exactly one. -/
theorem inserts_split_points {t : Tree} {s₁ : Store} (pos : metadataPageId < s.allocCount)
    (few : s.virtCount ≤ noNeighbour) (made : Tree.create slotId s = done (t, s₁))
    {ops : List Insertion} (small : ∀ op ∈ ops, op.Small) (distinct : (ops.map Insertion.key).Nodup)
    {before after : List Event} {f : Found}
    (run : (insertsIn memory slotId fuel s₁ ops).events = before ++ .full f :: after)
    (steady : ∀ e ∈ before, e.Steady) :
    (f.node.Spacious → f.HasSplitPoint) ∧ (f.HasSplitPoint ↔ ¬ f.node.Tight) := by
  obtain ⟨grown, empty⟩ := create_grown pos few made
  have absent : ∀ op ∈ ops, Absent s₁ {s.allocCount} op.key := by
    intro op _ v there
    rw [empty] at there
    exact there
  have sustained := (@Grown.insertsIn s₁ _ _ memory fuel slotId ops false grown small distinct absent).sustained
  rw [run] at sustained
  have known : f.Known := sustained.holds steady
  exact ⟨known.spacious, known.least.split_iff⟩

def firstTree : Option Store :=
  match Tree.create 0 blankStore with
  | done (_, s) => some s
  | _ => none

def cleared : Memory := ⟨fun _ _ _ => zeros, fun _ _ _ => zeros⟩

def longKeys : List Insertion :=
  [⟨false, fullLength 0, []⟩, ⟨false, fullLength 1, []⟩, ⟨false, [2], []⟩, ⟨false, fullLength 5, []⟩,
    ⟨false, fullLength 3, []⟩, ⟨false, [4], []⟩, ⟨false, 2 :: (fullLength 1).take 992, []⟩]

theorem longKeys_small : ∀ op ∈ longKeys, op.Small := by
  unfold Insertion.Small
  decide +kernel

/-- The last finds the leaf between two of the long keys with two entries. -/
theorem long_keys_no_split_point : ¬ ∀ (memory : Memory) (fuel : ℕ) (ops : List Insertion) (s₁ : Store),
    Tree.create 0 blankStore = done (⟨0, false⟩, s₁) → (∀ op ∈ ops, op.Small) →
      ∀ f, .full f ∈ (insertsIn memory 0 fuel s₁ ops).events → f.HasSplitPoint := by
  intro all
  obtain ⟨s₁, made, _⟩ := create_wellFormed (s := blankStore) 0 0 (by decide) (by decide) (by decide)
  have found : (firstTree.elim [] fun s => (insertsIn cleared 0 4 s longKeys).events).any
      (fun | .search _ _ => false | .full f => !decide f.HasSplitPoint) = true := by decide +kernel
  rw [firstTree, made] at found
  obtain ⟨e, mem, bad⟩ := List.any_eq_true.mp found
  cases e with
  | search n key => exact absurd bad Bool.false_ne_true
  | full f =>
    rw [Bool.not_eq_true', decide_eq_false_iff_not] at bad
    exact bad (all cleared 4 longKeys s₁ made longKeys_small f mem)

/-- Keys as long as insert takes, in order: the first leaf is split, and then the one behind it. -/
def ascendingKeys : List Insertion := [0, 1, 2, 3, 4, 5].map fun first => ⟨false, fullLength first, []⟩

theorem inserts_split_points_ascending : ∃ s₁, Tree.create 0 blankStore = done (⟨0, false⟩, s₁) ∧
    ∃ before f after, (insertsIn cleared 0 4 s₁ ascendingKeys).events = before ++ .full f :: after ∧
      before.length = 10 ∧ f.HasSplitPoint := by
  obtain ⟨s₁, made, _⟩ := create_wellFormed (s := blankStore) 0 0 (by decide) (by decide) (by decide)
  have seen : (firstTree.elim [] fun s => (insertsIn cleared 0 4 s ascendingKeys).events).all
      (fun e => decide e.Steady) = true := by decide +kernel
  have found : (firstTree.elim [] fun s => (insertsIn cleared 0 4 s ascendingKeys).events)[10]?.any
      (fun | .search _ _ => false | .full _ => true) = true := by decide +kernel
  rw [firstTree, made] at seen found
  change List.all (insertsIn cleared 0 4 s₁ ascendingKeys).events _ = true at seen
  change Option.any _ (insertsIn cleared 0 4 s₁ ascendingKeys).events[10]? = true at found
  have small : ∀ op ∈ ascendingKeys, op.Small := by
    unfold Insertion.Small
    decide +kernel
  have steady : ∀ e ∈ (insertsIn cleared 0 4 s₁ ascendingKeys).events, e.Steady := fun e mem =>
    of_decide_eq_true (List.all_eq_true.mp seen e mem)
  obtain ⟨e, at_, full⟩ := (Option.any_eq_true _ _).mp found
  obtain ⟨inside, here⟩ := List.getElem?_eq_some_iff.mp at_
  have parts := (List.take_append_drop 10 (insertsIn cleared 0 4 s₁ ascendingKeys).events).symm
  rw [List.drop_eq_getElem_cons inside, here] at parts
  cases e with
  | search n key => exact absurd full Bool.false_ne_true
  | full f =>
    have before : ∀ e ∈ (insertsIn cleared 0 4 s₁ ascendingKeys).events.take 10, e.Steady :=
      fun e mem => steady e (List.mem_of_mem_take mem)
    have spacious : f.node.Spacious := (steady (.full f) (here ▸ List.getElem_mem inside)).1
    refine ⟨s₁, made, _, f, _, parts, List.length_take_of_le (by omega), ?_⟩
    exact (inserts_split_points (by decide) (by decide) made small (by decide +kernel) parts before).1
      spacious

end Inserts
end
end BTree
