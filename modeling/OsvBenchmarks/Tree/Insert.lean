import OsvBenchmarks.Tree.Asserted
import OsvBenchmarks.Tree.Steps

/-!
insert, run alone, ends. Every turn of its loop inserts the entry or splits a
page on the key's path: the leaf, or the first page above it whose parent has
space for a separator. A split leaves fewer entries in the key's leaf, or room
for any separator where the key's path had none.
-/
namespace BTree
open FenceTree BTreeNode Outcome

section
variable {t : Tree} {w : ℕ} {s : Store} {live : Finset ℕ} {level : ℕ → ℕ}

section Parent

/-- The tree in which a page is split: with its own parent, or a new root above it. -/
structure Prepared (t : Tree) (w : ℕ) (s s₁ : Store) (live live₁ : Finset ℕ) (level level₁ : ℕ → ℕ)
    (p q : ℕ) : Prop where
  wf : WellFormed t w s₁ live₁ level₁
  content : s₁.content live₁ = s.content live
  kept : ∀ x ∈ live, x ∈ live₁ ∧ s₁.page x = s.page x ∧ level₁ x = level x
  alloc : s.allocCount ≤ s₁.allocCount ∧ s₁.allocCount ≤ s.allocCount + 1 ∧ s₁.virtCount = s.virtCount
  parent : q ∈ live₁ ∧ level₁ p + 1 = level₁ q
  place : ∃ pre post, (s₁.view q).kids = pre ++ (p, (s₁.view p).fences) :: post

/-- What splitParent leaves, whatever the sizes: the tree, or the tree with a new root. -/
structure Raised (t : Tree) (s s₁ : Store) (live live₁ : Finset ℕ) (level level₁ : ℕ → ℕ) (p q : ℕ) :
    Prop where
  rooted : Rooted t s₁ live₁ level₁
  content : s₁.content live₁ = s.content live
  kept : ∀ x ∈ live, x ∈ live₁ ∧ s₁.page x = s.page x ∧ level₁ x = level x
  alloc : s.allocCount ≤ s₁.allocCount ∧ s₁.allocCount ≤ s.allocCount + 1 ∧ s₁.virtCount = s.virtCount
  parent : q ∈ live₁ ∧ level₁ p + 1 = level₁ q
  place : ∃ pre post, (s₁.view q).kids = pre ++ (p, (s₁.view p).fences) :: post
  pages : ∀ P : BTreeNode → Prop, P { BTreeNode.new false with link := p } →
    (∀ x ∈ live, P (s.page x)) → ∀ x ∈ live₁, P (s₁.page x)

theorem Rooted.splitParent (rooted : Rooted t s live level) {at_ : Store.Position}
    (placed : Placed t s live level at_) :
    (t.splitParent s at_.node at_.parent = exits ∧ s.virtCount ≤ s.allocCount) ∨
    ∃ q s₁ live₁ level₁, t.splitParent s at_.node at_.parent = done (q, s₁) ∧
      Raised t s s₁ live live₁ level level₁ at_.node q ∧
      (s₁.page q = { BTreeNode.new false with link := at_.node } ∨
        q = at_.parent ∧ s₁ = s ∧ q ∈ live ∧ level at_.node + 1 = level q) := by
  rcases placed with ⟨top, root⟩ | ⟨hq, lower, pre, post, place, _⟩
  · by_cases none : s.virtCount ≤ s.allocCount
    · left
      rw [Tree.splitParent, if_pos top, allocPage_exits none]
      exact ⟨rfl, none⟩
    · right
      have space := not_le.mp none
      have old : ∀ x ∈ live, x ≠ s.allocCount := fun x hx same => rooted.fresh (same ▸ hx)
      obtain ⟨rooted₁, content, placed⟩ := rooted.grow space
      rcases placed with ⟨top, _⟩ | ⟨hq, lower, pre, post, place, _⟩
      · have := (rooted.ids _ rooted.shape.root_live).2
        have : s.allocCount = 0 := top
        omega
      · refine ⟨s.allocCount, t.newRoot s, _, _, ?_, ⟨rooted₁, content, ?_, ?_, ⟨hq, ?_⟩, ⟨pre, post, ?_⟩, ?_⟩,
          Or.inl ?_⟩
        · rw [Tree.splitParent, if_pos top, allocPage_done space, root]
          rfl
        · intro x hx
          exact ⟨by simp [hx], rooted.newRoot_old x hx, Function.update_of_ne (old x hx) _ _⟩
        · exact ⟨Nat.le_succ _, Nat.le_refl _, rfl⟩
        · rw [root]
          exact lower
        · rw [root]
          exact place
        · intro P new old
          rw [root] at new
          exact rooted.newRoot_pages new old
        · rw [newRoot_page, root]
  · right
    have below : at_.parent ≠ metadataPageId := Nat.ne_of_gt (rooted.ids _ hq).1
    refine ⟨at_.parent, s, live, level, ?_, ?_, Or.inr ⟨rfl, rfl, hq, lower⟩⟩
    · rw [Tree.splitParent, if_neg below]
      rfl
    · exact ⟨rooted, rfl, fun x hx => ⟨hx, rfl, rfl⟩, ⟨Nat.le_refl _, Nat.le_succ _, rfl⟩, ⟨hq, lower⟩,
        ⟨pre, post, place⟩, fun P new old => old⟩

theorem WellFormed.splitParent (wf : WellFormed t w s live level) {at_ : Store.Position}
    (placed : Placed t s live level at_) :
    (t.splitParent s at_.node at_.parent = exits ∧ s.virtCount ≤ s.allocCount) ∨
    ∃ q s₁ live₁ level₁, t.splitParent s at_.node at_.parent = done (q, s₁) ∧
      Prepared t w s s₁ live live₁ level level₁ at_.node q ∧
      (Roomy (s₁.page q) ∨ q = at_.parent ∧ s₁ = s ∧ q ∈ live ∧ level at_.node + 1 = level q) := by
  refine (wf.rooted.splitParent placed).imp id ?_
  rintro ⟨q, s₁, live₁, level₁, eq, raised, parent⟩
  have bounded := raised.pages (fun n => Bounded n (n.width w)) (new_bounded false _ _) wf.bounded
  refine ⟨q, s₁, live₁, level₁, eq, ⟨raised.rooted.wellFormed bounded, raised.content, raised.kept,
    raised.alloc, raised.parent, raised.place⟩, parent.imp_left fun new => ?_⟩
  rw [new]
  exact new_roomy false _

end Parent

theorem routes_assert {parent n : BTreeNode} {pid newPID i : ℕ} {sep : Key}
    (routes : Routes parent n pid i) (formed : Formed parent) (inner : parent.isLeaf = false)
    (above : n.getLowerFence < sep ∨ n.getLowerFence = [])
    (below : n.getUpperFence = [] ∨ sep < n.getUpperFence)
    (space : parent.hasSpaceFor sep.length pidSize = true) : parent.adoptAsserts sep pid newPID := by
  obtain ⟨absent, place, _⟩ := routes.fresh formed inner above below
  have found := lowerBound_place formed.valid (formed.sorted.imp fun h => le_of_lt h) sep
  have same : (parent.lowerBound sep).1 = i := place_unique found place absent
  have child := routes.child
  have fits : parent.spaceNeeded sep.length (pidBytes pid).length ≤ parent.freeSpaceAfterCompaction := by
    rw [pidBytes_length]
    exact of_decide_eq_true space
  unfold adoptAsserts
  rw [same]
  dsimp only
  split
  · rename_i last
    rw [if_pos last] at child
    exact ⟨child, fun _ => fits⟩
  · rename_i inside
    rw [if_neg inside] at child
    exact ⟨child, fun _ => fits⟩

section Split
variable {key : Key} {s' : Store} {live' : Finset ℕ} {level' : ℕ → ℕ} {p : ℕ}

/-- Page `p` on the path of a key split in two, in the tree or in the one with a new root above it. -/
structure SplitOnPath (t : Tree) (w : ℕ) (s s' : Store) (live live' : Finset ℕ) (level level' : ℕ → ℕ)
    (key : Key) (p : ℕ) : Prop where
  wf : WellFormed t w s' live' level'
  content : s'.content live' = s.content live
  alloc : s.allocCount ≤ s'.allocCount ∧ s'.virtCount = s.virtCount
  page : p ∈ live ∧ (s.view p).fences.Has key
  split : ∃ (s₁ : Store) (live₁ : Finset ℕ) (r q : ℕ), (∀ x ∈ live, x ∈ live₁ ∧ s₁.page x = s.page x) ∧
    FenceTree.Split s₁.view s'.view live₁ p r q (s.separator p)
  half : ∃ c ∈ live', level' c = level p ∧ (s'.view c).fences.Has key ∧
    (level p = 0 → (s'.page c).count < (s.page p).count) ∧ (level p ≠ 0 → Roomy (s'.page c))
  below : ∀ x ∈ live, level x < level p → x ∈ live' ∧ s'.page x = s.page x ∧ level' x = level x

theorem SplitsAt.half {q : ℕ} (splits : SplitsAt t w s s' live level p q)
    (has : (s.view p).fences.Has key) : ∃ c ∈ insert s.allocCount live,
      Function.update level s.allocCount (level p) c = level p ∧ (s'.view c).fences.Has key ∧
      ((s.page p).isLeaf = true → (s'.page c).count < (s.page p).count) ∧
      ((s.page p).isLeaf = false → Roomy (s'.page c)) := by
  have split := splits.split
  have other : p ≠ s.allocCount := fun same => split.fresh (same ▸ split.page_live)
  rcases le_or_gt key (s.separator p) with low | high
  · refine ⟨p, by simp [split.page_live], Function.update_of_ne other _ _, ?_, ?_, ?_⟩
    · rw [split.left]
      refine ⟨has.1, fun u same => ?_⟩
      cases same
      exact low
    · exact fun leaf => (splits.relieves.fewer leaf).1
    · exact fun inner => (splits.relieves.roomy inner).1
  · refine ⟨s.allocCount, by simp, Function.update_self _ _ _, ?_, ?_, ?_⟩
    · rw [split.right]
      refine ⟨fun l same => ?_, has.2⟩
      cases same
      exact high
    · exact fun leaf => (splits.relieves.fewer leaf).2
    · exact fun inner => (splits.relieves.roomy inner).2

theorem Prepared.splits {s₁ : Store} {live₁ : Finset ℕ} {level₁ : ℕ → ℕ} {q : ℕ}
    (prepared : Prepared t w s s₁ live live₁ level level₁ p q) (wf : WellFormed t w s live level)
    (hp : p ∈ live) (has : (s.view p).fences.Has key)
    (splits : SplitsAt t w s₁ s' live₁ level₁ p q) (alloc : s₁.allocCount ≤ s'.allocCount)
    (total : s'.virtCount = s₁.virtCount) :
    SplitOnPath t w s s' live (insert s₁.allocCount live₁) level
      (Function.update level₁ s₁.allocCount (level₁ p)) key p := by
  obtain ⟨_, page_p, level_p⟩ := prepared.kept p hp
  have view : s₁.view p = s.view p := by rw [Store.view, page_p, Store.view]
  have leaf := wf.rooted.leaf hp
  obtain ⟨c, hc, lower, here, fewer, roomy⟩ := splits.half (by rwa [view])
  have separator : s₁.separator p = s.separator p := by rw [Store.separator, page_p, Store.separator]
  exact {
    wf := splits.wf
    content := (Set.ext (prepared.wf.shape.split_entries splits.split)).trans prepared.content
    alloc := ⟨le_trans prepared.alloc.1 alloc, total.trans prepared.alloc.2.2⟩
    page := ⟨hp, has⟩
    split := ⟨s₁, live₁, s₁.allocCount, q, fun x hx => ⟨(prepared.kept x hx).1, (prepared.kept x hx).2.1⟩,
      separator ▸ splits.split⟩
    half := by
      rw [page_p] at fewer roomy
      refine ⟨c, hc, lower.trans level_p, here, fun zero => fewer (leaf.mpr zero), fun pos => ?_⟩
      exact roomy (Bool.eq_false_iff.mpr fun is => pos (leaf.mp is))
    below := by
      intro x hx less
      obtain ⟨live_x, page_x, level_x⟩ := prepared.kept x hx
      have xp : x ≠ p := fun same => by rw [same] at less; exact lt_irrefl _ less
      have xq : x ≠ q := by
        rintro rfl
        have := prepared.parent.2
        omega
      have xr : x ≠ s₁.allocCount := fun same => splits.split.fresh (same ▸ live_x)
      rw [Function.update_of_ne xr, splits.others x live_x xp xq]
      exact ⟨by simp [live_x], page_x, level_x⟩ }

theorem trySplit_eq {node parent q : ℕ} {s₁ : Store} (ordered : t.splitOrdered = false)
    (eq : t.splitParent s node parent = done (q, s₁))
    (separator : Separator (s₁.page node) ((s₁.page node).findSeparator false) (s₁.separator node)) :
    t.trySplitAsserted s node parent =
      if (s₁.page q).hasSpaceFor (s₁.separator node).length pidSize then do
        let (newNode, s₂) ← s₁.allocPage
        assert ((s₂.page q).adoptAsserts (s₁.separator node) node newNode)
        pure (none, s₁.splitInto node q)
      else done (some (q, s₁.separator node), s₁) := by
  unfold Tree.trySplitAsserted
  rw [eq, done_bind]
  dsimp only
  rw [ordered, assert_bind separator.several, ← separator.len]
  split
  · rw [assert_bind ⟨separator.first, separator.last⟩]
    by_cases none : s₁.virtCount ≤ s₁.allocCount
    · rw [allocPage_exits none, exits_bind, exits_bind]
    · rw [allocPage_done (not_le.mp none), done_bind, done_bind]
      unfold Store.splitInto Store.splitPages Store.separator
      dsimp only
  · rfl

/-- What trySplit reports of a parent without space for the separator. -/
structure Blocked (s : Store) (live : Finset ℕ) (level : ℕ → ℕ) (q l : ℕ) (sep : Key) : Prop where
  live : q ∈ live
  above : l + 1 = level q
  has : (s.view q).fences.Has sep
  short : sep.length ≤ maxKeyLen
  full : (s.page q).hasSpaceFor sep.length pidSize = false

theorem WellFormed.trySplit (wf : WellFormed t w s live level) (ordered : t.splitOrdered = false)
    {at_ : Store.Position} (hp : at_.node ∈ live) (placed : Placed t s live level at_)
    (full : Full (s.page at_.node)) (has : (s.view at_.node).fences.Has key) :
    (t.trySplitAsserted s at_.node at_.parent = exits ∧ s.virtCount < s.allocCount + 2) ∨
    (∃ s' live' level', t.trySplitAsserted s at_.node at_.parent = done (none, s') ∧
      SplitOnPath t w s s' live live' level level' key at_.node) ∨
    (t.trySplitAsserted s at_.node at_.parent = done (some (at_.parent, s.separator at_.node), s) ∧
      Blocked s live level at_.parent (level at_.node) (s.separator at_.node)) := by
  rcases wf.splitParent placed with ⟨eq, few⟩ | ⟨q, s₁, live₁, level₁, eq, prepared, parent⟩
  · left
    rw [Tree.trySplitAsserted, eq]
    exact ⟨rfl, by omega⟩
  · obtain ⟨hp₁, page_p, level_p⟩ := prepared.kept at_.node hp
    have separator := full_separator (wf.formed _ hp) (wf.bounded _ hp) full
    rw [← page_p] at separator
    have parted := trySplit_eq ordered eq separator
    obtain ⟨hq, lower⟩ := prepared.parent
    obtain ⟨pre, post, place⟩ := prepared.place
    have above := prepared.wf.formed q hq
    have inner : (s₁.page q).isLeaf = false := (prepared.wf.rooted.inner hq).mpr (by omega)
    have routes := place_routes above inner place
    have counters := prepared.alloc
    rw [parted]
    by_cases space : (s₁.page q).hasSpaceFor (s₁.separator at_.node).length pidSize = true
    · rw [if_pos space]
      by_cases none : s₁.virtCount ≤ s₁.allocCount
      · left
        rw [allocPage_exits none]
        exact ⟨rfl, by omega⟩
      · right
        left
        have asserts : (s₁.page q).adoptAsserts (s₁.separator at_.node) at_.node s₁.allocCount :=
          routes_assert routes above inner separator.above separator.below space
        have splits := prepared.wf.splits hp₁ hq lower place (by rwa [page_p]) space (not_le.mp none)
        refine ⟨s₁.splitInto at_.node q, _, _, ?_, prepared.splits wf hp has splits (Nat.le_succ _) rfl⟩
        rw [allocPage_done (not_le.mp none), done_bind]
        exact assert_bind asserts _
    · right
      right
      rw [if_neg space]
      have full_q := Bool.eq_false_iff.mpr space
      rcases parent with roomy | ⟨rfl, rfl, hq, lower⟩
      · have long : (s₁.page q).prefixLen ≤ (s₁.separator at_.node).length := by
          obtain ⟨_, _, fits⟩ := routes.fresh above inner separator.above separator.below
          have fits : (s₁.separator at_.node).take _ = _ := fits
          have size := congrArg List.length fits
          rw [List.length_take, getPrefix_length] at size
          exact le_trans (le_of_eq size.symm) (Nat.min_le_right _ _)
        exact absurd (roomy.hasSpaceFor above.valid long separator.short) space
      · obtain ⟨low, high⟩ := routes.between above inner separator.above separator.below
        exact ⟨rfl, hq, lower, fences_has.mpr ⟨low, high.imp id fun h => le_of_lt h⟩,
          separator.short, full_q⟩

end Split

section Climb
variable {key : Key}

/-- On these levels no page on the path of the key has room for any separator. -/
def Crowded (s : Store) (live : Finset ℕ) (level : ℕ → ℕ) (key : Key) (low high : ℕ) : Prop :=
  ∀ x ∈ live, low ≤ level x → level x ≤ high → (s.view x).fences.Has key → ¬ Roomy (s.page x)

theorem WellFormed.blocked_full (wf : WellFormed t w s live level) {q l : ℕ} {sep : Key}
    (blocked : Blocked s live level q l sep) : Full (s.page q) ∧ ¬ Roomy (s.page q) := by
  have above := blocked.above
  have inner : (s.page q).isLeaf = false := (wf.rooted.inner blocked.live).mpr (by omega)
  obtain ⟨low, high⟩ := has_covers blocked.has
  have valid := (wf.formed q blocked.live).valid
  have long : (s.page q).prefixLen ≤ sep.length := by
    rw [valid.toCoded.prefixLen]
    exact within_long low high
  have cap : sep.length + pidSize ≤ (s.page q).entryCap := by
    rw [entryCap, inner]
    exact Nat.add_le_add_right blocked.short pidSize
  have full := full_of_no_space valid long cap blocked.full
  exact ⟨full, (full_iff_not_roomy inner).mp full⟩

theorem WellFormed.parent_covers (wf : WellFormed t w s live level) {at_ : Store.Position}
    (placed : Placed t s live level at_) (hq : at_.parent ∈ live)
    (has : (s.view at_.node).fences.Has key) : (s.view at_.parent).fences.Has key := by
  rcases placed with ⟨top, _⟩ | ⟨_, _, pre, post, place, _⟩
  · have := (wf.ids _ hq).1
    rw [top] at this
    exact absurd this (lt_irrefl _)
  · have child : (at_.node, (s.view at_.node).fences) ∈ (s.view at_.parent).kids := by
      rw [place]
      simp
    exact wf.shape.kid_inside hq child has

/-- ensureSpace splits the first page above whose parent takes the separator. -/
theorem WellFormed.ensureSpace (wf : WellFormed t w s live level) (ordered : t.splitOrdered = false)
    {q l : ℕ} {sep : Key} (blocked : Blocked s live level q l sep) (has : (s.view q).fences.Has key) :
    (Settles (fun fuel => t.ensureSpaceAsserted fuel s q sep pidSize) exits ∧
      s.virtCount < s.allocCount + 2) ∨
    ∃ p s' live' level', Settles (fun fuel => t.ensureSpaceAsserted fuel s q sep pidSize) (done s') ∧
      SplitOnPath t w s s' live live' level level' key p ∧ level q ≤ level p ∧
      Crowded s live level key (level q) (level p) := by
  generalize climb : level (s.roots t.slotId) - level q = d
  induction d using Nat.strong_induction_on generalizing q l sep with
  | _ d ih =>
    obtain ⟨full, tight⟩ := wf.blocked_full blocked
    have above := blocked.above
    obtain ⟨arrived, here, placed, reaches⟩ := wf.rooted.reaches blocked.live blocked.has (Or.inl rfl)
    have turn : ∀ {outcome}, Settles (fun fuel => t.trySplitAsserted s arrived.node arrived.parent >>=
        t.restart fuel) outcome → Settles (fun fuel => t.ensureSpaceAsserted fuel s q sep pidSize) outcome := by
      intro outcome settles
      apply Settles.succ
      filter_upwards [reaches, settles] with fuel descends same
      rw [Tree.ensureSpaceAsserted_eq descends here (by rw [here]; exact blocked.full), same]
    have only : ∀ x ∈ live, level x = level q → (s.view x).fences.Has key → x = q :=
      fun x hx same xk => wf.shape.apart x hx q blocked.live same key xk has
    subst here
    have self : Crowded s live level key (level arrived.node) (level arrived.node) := by
      intro x hx low high xk
      rwa [only x hx (le_antisymm high low) xk]
    rcases wf.trySplit ordered blocked.live placed full has with
      ⟨eq, few⟩ | ⟨s', live', level', eq, path⟩ | ⟨eq, higher⟩
    · exact Or.inl ⟨turn (by simp only [eq, exits_bind]; exact settles_const _), few⟩
    · exact Or.inr ⟨arrived.node, s', live', level', turn (by simp only [eq, done_bind]; exact settles_const _),
        path, le_refl _, self⟩
    · have up := higher.above
      have below := wf.shape.below _ higher.live
      have covers := wf.parent_covers placed higher.live has
      have next : ∀ {outcome}, Settles (fun fuel => t.ensureSpaceAsserted fuel s arrived.parent
          (s.separator arrived.node) pidSize) outcome →
          Settles (fun fuel => t.ensureSpaceAsserted fuel s arrived.node sep pidSize) outcome := by
        intro outcome settles
        apply turn
        simp only [eq, done_bind]
        exact settles
      rcases ih _ (by omega) higher covers rfl with
        ⟨ends, few⟩ | ⟨p, s', live', level', ends, path, high, crowded⟩
      · exact Or.inl ⟨next ends, few⟩
      · refine Or.inr ⟨p, s', live', level', next ends, path, by omega, ?_⟩
        intro x hx low most xk
        rcases Nat.eq_or_lt_of_le low with same | more
        · exact self x hx low (le_of_eq same.symm) xk
        · exact crowded x hx (by omega) most xk

end Climb

section Turn
variable {key : Key} {payload : Payload}

/-- One turn of insert: the entry is inserted, or a page on its path is split. -/
theorem WellFormed.turn (wf : WellFormed t w s live level) (ordered : t.splitOrdered = false)
    (acceptable : Acceptable w key payload) (absent : Absent s live key) {leaf : ℕ} (hl : leaf ∈ live)
    (bottom : level leaf = 0) (has : (s.view leaf).fences.Has key) :
    (∃ s', Settles (fun fuel => t.insertTurnAsserted fuel s key payload) (done (true, s')) ∧
      WellFormed t w s' live level ∧ s'.content live = insert (key, payload) (s.content live)) ∨
    (Settles (fun fuel => t.insertTurnAsserted fuel s key payload) exits ∧
      s.virtCount < s.allocCount + 2) ∨
    ∃ p s' live' level', Settles (fun fuel => t.insertTurnAsserted fuel s key payload) (done (false, s')) ∧
      SplitOnPath t w s s' live live' level level' key p ∧ Crowded s live level key 1 (level p) := by
  obtain ⟨arrived, here, placed, reaches⟩ := wf.rooted.reaches hl has (Or.inr ⟨rfl, bottom⟩)
  subst here
  cases space : (s.page arrived.node).hasSpaceFor key.length payload.length with
  | true =>
    left
    obtain ⟨wf', content⟩ := wf.insertInPage hl bottom has acceptable absent space
    refine ⟨_, ?_, wf', content⟩
    filter_upwards [reaches] with fuel descends
    exact Tree.insertTurnAsserted_inserts descends space
  | false =>
    right
    have valid := (wf.formed _ hl).valid
    have isLeaf := (wf.rooted.leaf hl).mpr bottom
    obtain ⟨low, high⟩ := has_covers has
    have long : (s.page arrived.node).prefixLen ≤ key.length := by
      rw [valid.toCoded.prefixLen]
      exact within_long low high
    have cap : key.length + payload.length ≤ (s.page arrived.node).entryCap := by
      rw [entryCap, isLeaf, acceptable.width]
      exact acceptable.small
    have full := full_of_no_space valid long cap space
    have turn : ∀ {outcome}, Settles (fun fuel => t.trySplitAsserted s arrived.node arrived.parent >>=
        fun result => t.restart fuel result >>= fun s => done (false, s)) outcome →
        Settles (fun fuel => t.insertTurnAsserted fuel s key payload) outcome := by
      intro outcome settles
      filter_upwards [reaches, settles] with fuel descends same
      rw [Tree.insertTurnAsserted_splits descends space, same]
    rcases wf.trySplit ordered hl placed full has with
      ⟨eq, few⟩ | ⟨s', live', level', eq, path⟩ | ⟨eq, higher⟩
    · exact Or.inl ⟨turn (by simp only [eq, exits_bind]; exact settles_const _), few⟩
    · refine Or.inr ⟨arrived.node, s', live', level',
        turn (by simp only [eq, done_bind]; exact settles_const _), path, ?_⟩
      intro x _ more less _
      omega
    · have up := higher.above
      have covers := wf.parent_covers placed higher.live has
      rcases wf.ensureSpace ordered higher covers with
        ⟨ends, few⟩ | ⟨p, s', live', level', ends, path, _, crowded⟩
      · refine Or.inl ⟨turn ?_, few⟩
        simp only [eq, done_bind]
        exact ends.bind_exits
      · refine Or.inr ⟨p, s', live', level', turn ?_, path, ?_⟩
        · simp only [eq, done_bind]
          exact ends.bind (settles_const _)
        · rwa [← up, bottom] at crowded

/-- The turns of insert, up to the one that inserts; or the page ids run out. -/
inductive Turns (t : Tree) (w : ℕ) (key : Key) (payload : Payload) :
    Store → Finset ℕ → (ℕ → ℕ) → Outcome Store → Prop
  | inserts {s s' : Store} {live : Finset ℕ} {level : ℕ → ℕ} :
    Settles (fun fuel => t.insertTurnAsserted fuel s key payload) (done (true, s')) →
    WellFormed t w s' live level → s'.content live = insert (key, payload) (s.content live) →
    Turns t w key payload s live level (done s')
  | splits {s s' : Store} {live live' : Finset ℕ} {level level' : ℕ → ℕ} {p : ℕ} {outcome : Outcome Store} :
    Settles (fun fuel => t.insertTurnAsserted fuel s key payload) (done (false, s')) →
    SplitOnPath t w s s' live live' level level' key p →
    Turns t w key payload s' live' level' outcome → Turns t w key payload s live level outcome
  | exits {s : Store} {live : Finset ℕ} {level : ℕ → ℕ} :
    Settles (fun fuel => t.insertTurnAsserted fuel s key payload) exits →
    s.virtCount < s.allocCount + 2 → Turns t w key payload s live level exits

theorem Turns.settles {outcome : Outcome Store} (turns : Turns t w key payload s live level outcome) :
    Settles (fun fuel => t.insertAsserted fuel s key payload) outcome := by
  induction turns with
  | inserts turn _ _ => exact (turn.bind (settles_const _)).succ
  | splits turn _ _ ih => exact (turn.bind ih).succ
  | exits turn _ => exact turn.bind_exits.succ

theorem Turns.returns {outcome : Outcome Store} (turns : Turns t w key payload s live level outcome) :
    outcome = Outcome.exits ∨ ∃ s', outcome = done s' := by
  induction turns with
  | inserts => exact Or.inr ⟨_, rfl⟩
  | splits _ _ _ ih => exact ih
  | exits => exact Or.inl rfl

inductive Tree.RunsOut (t : Tree) (key : Key) (payload : Payload) : Store → Prop
  | now {s : Store} : Settles (fun fuel => t.insertTurn fuel s key payload) exits →
    s.virtCount < s.allocCount + 2 → RunsOut t key payload s
  | later {s s' : Store} : Settles (fun fuel => t.insertTurn fuel s key payload) (done (false, s')) →
    RunsOut t key payload s' → RunsOut t key payload s

theorem turn_erases {outcome : Outcome (Bool × Store)} (fine : outcome ≠ crashes)
    (turn : Settles (fun fuel => t.insertTurnAsserted fuel s key payload) outcome) :
    Settles (fun fuel => t.insertTurn fuel s key payload) outcome := by
  filter_upwards [turn] with fuel same
  rw [← same] at fine
  exact (t.insertTurn_erases fuel s key payload fine).trans same

theorem Turns.runsOut {outcome : Outcome Store} (turns : Turns t w key payload s live level outcome)
    (stops : outcome = Outcome.exits) : t.RunsOut key payload s := by
  induction turns with
  | inserts => cases stops
  | splits turn _ _ ih => exact .later (turn_erases (by simp) turn) (ih stops)
  | exits turn few => exact .now (turn_erases (by simp) turn) few

/-- Some level from `least` up to `most` has room on the key's path, or is above the root. -/
def RoomBy (t : Tree) (s : Store) (live : Finset ℕ) (level : ℕ → ℕ) (key : Key) (most : ℕ) : Prop :=
  ∃ l, 1 ≤ l ∧ l ≤ most ∧ (level (s.roots t.slotId) < l ∨
    ∃ x ∈ live, level x = l ∧ (s.view x).fences.Has key ∧ Roomy (s.page x))

theorem roomBy_root (key : Key) :
    RoomBy t s live level key (level (s.roots t.slotId) + 1) :=
  ⟨_, Nat.le_add_left _ _, Nat.le_refl _, Or.inl (Nat.lt_succ_self _)⟩

theorem WellFormed.ends (wf : WellFormed t w s live level) (ordered : t.splitOrdered = false)
    (acceptable : Acceptable w key payload) (absent : Absent s live key) {leaf few most : ℕ}
    (hl : leaf ∈ live) (bottom : level leaf = 0) (has : (s.view leaf).fences.Has key)
    (count : (s.page leaf).count ≤ few) (room : RoomBy t s live level key most) :
    ∃ outcome, Turns t w key payload s live level outcome := by
  induction few using Nat.strong_induction_on generalizing s live level leaf most with
  | _ few fewer =>
    induction most using Nat.strong_induction_on generalizing s live level leaf with
    | _ most nearer =>
      rcases wf.turn ordered acceptable absent hl bottom has with
        ⟨s', turn, wf', content⟩ | ⟨turn, none⟩ | ⟨p, s', live', level', turn, path, crowded⟩
      · exact ⟨done s', .inserts turn wf' content⟩
      · exact ⟨exits, .exits turn none⟩
      · obtain ⟨c, hc, lower, here, smaller, roomy⟩ := path.half
        obtain ⟨hp, pk⟩ := path.page
        have absent' : Absent s' live' key := by
          intro v
          rw [path.content]
          exact absent v
        suffices ∃ outcome, Turns t w key payload s' live' level' outcome by
          obtain ⟨outcome, turns⟩ := this
          exact ⟨outcome, .splits turn path turns⟩
        by_cases low : level p = 0
        · -- the leaf itself: fewer entries in the key's half
          have same : p = leaf := wf.shape.apart p hp leaf hl (low.trans bottom.symm) key pk has
          rw [same] at smaller lower
          exact fewer (s'.page c).count (lt_of_lt_of_le (smaller bottom) count) path.wf absent' hc
            (lower.trans bottom) here (Nat.le_refl _) (roomBy_root key)
        · -- a page above it: the path has room at that level now, and had none up to it
          obtain ⟨l, pos, le, room⟩ := room
          have past : level p < l := by
            by_contra before
            rcases room with above | ⟨x, hx, at_, xk, roomy⟩
            · have := wf.shape.below p hp
              omega
            · exact crowded x hx (by omega) (by omega) xk roomy
          obtain ⟨hl', page, bottom'⟩ := path.below leaf hl (by omega)
          have view : s'.view leaf = s.view leaf := by rw [Store.view, page, Store.view]
          refine nearer (level p) (by omega) path.wf absent' hl' (by omega) (by rwa [view])
            (by rwa [page]) ⟨level p, by omega, Nat.le_refl _, Or.inr ⟨c, hc, lower, here, roomy low⟩⟩

theorem Turns.done_keeps {outcome : Outcome Store}
    (turns : Turns t w key payload s live level outcome) {s' : Store} (ends : outcome = done s') :
    ∃ live' level', WellFormed t w s' live' level' ∧
      s'.content live' = insert (key, payload) (s.content live) := by
  induction turns with
  | inserts _ wf content =>
    cases ends
    exact ⟨_, _, wf, content⟩
  | splits _ path _ ih =>
    obtain ⟨live', level', wf, content⟩ := ih ends
    exact ⟨live', level', wf, content.trans (by rw [path.content])⟩
  | exits => cases ends

theorem WellFormed.inserts (wf : WellFormed t w s live level) (ordered : t.splitOrdered = false)
    (acceptable : Acceptable w key payload) (absent : Absent s live key) :
    ∃ outcome, Turns t w key payload s live level outcome ∧
      Settles (fun fuel => t.insertAsserted fuel s key payload) outcome ∧
      Settles (fun fuel => t.insert fuel s key payload) outcome := by
  obtain ⟨leaf, hl, bottom, has⟩ := wf.rooted.page_at (Nat.zero_le _) key
  obtain ⟨outcome, turns⟩ := wf.ends ordered acceptable absent hl bottom has (Nat.le_refl _)
    (roomBy_root key)
  refine ⟨outcome, turns, turns.settles, ?_⟩
  filter_upwards [turns.settles] with fuel same
  have fine : t.insertAsserted fuel s key payload ≠ crashes := by
    rw [same]
    rcases turns.returns with ends | ⟨s', ends⟩
    · simp [ends]
    · simp [ends]
  exact (t.insert_erases fuel s key payload fine).trans same

end Turn

end

/-- Nine pages, of which one is for meta data, and no tree yet. -/
def blankStore : Store where
  page := fun _ => .new true
  roots := fun _ => 0
  allocCount := 1
  virtCount := 9

end BTree
