import Mathlib.Order.Filter.AtTopBot.Basic
import OsvBenchmarks.Tree.Operations
import OsvBenchmarks.Tree.View

/-!
A well-formed tree: its live pages, each well-formed and in bounds, make one
search tree below the root. A descent from the root reaches the page at any
level that covers its key, and knows the page's place in its parent.
-/
namespace BTree
open FenceTree BTreeNode Outcome

/-- With enough turns an operation has this outcome, however many more there are. -/
def Settles {α : Type} (run : ℕ → Outcome α) (outcome : Outcome α) : Prop :=
  ∀ᶠ fuel in Filter.atTop, run fuel = outcome

section Settles
variable {α β : Type} {run : ℕ → Outcome α} {outcome : Outcome α}

theorem settles_const (outcome : Outcome α) : Settles (fun _ => outcome) outcome :=
  Filter.Eventually.of_forall fun _ => rfl

theorem settles_above {least : ℕ} (same : ∀ fuel, least < fuel → run fuel = outcome) :
    Settles run outcome :=
  Filter.eventually_atTop.mpr ⟨least + 1, fun fuel more => same fuel more⟩

theorem Settles.succ (settles : Settles (fun fuel => run (fuel + 1)) outcome) : Settles run outcome := by
  obtain ⟨least, same⟩ := Filter.eventually_atTop.mp settles
  refine settles_above fun fuel (more : least < fuel) => ?_
  obtain ⟨fuel', rfl⟩ := Nat.exists_eq_add_of_lt more
  exact same (least + fuel') (by omega)

theorem Settles.bind {a : α} {next : α → ℕ → Outcome β} {outcome : Outcome β}
    (first : Settles run (done a)) (second : Settles (next a) outcome) :
    Settles (fun fuel => run fuel >>= fun a => next a fuel) outcome := by
  filter_upwards [first, second] with fuel here there
  rw [here, ← there]
  rfl

theorem Settles.bind_exits {next : α → ℕ → Outcome β} (first : Settles run exits) :
    Settles (fun fuel => run fuel >>= fun a => next a fuel) exits := by
  filter_upwards [first] with fuel here
  rw [here]
  rfl

end Settles

namespace Store
variable (s : Store)

def view (pid : ℕ) : Page Key Payload ℕ := (s.page pid).view

/-- The entries of the leaves. -/
def content (live : Finset ℕ) : Set (Key × Payload) := {e | ∃ p ∈ live, e ∈ (s.view p).entries}

end Store

/-- The live pages, each at its level, make a search tree below the root. -/
structure Rooted (t : Tree) (s : Store) (live : Finset ℕ) (level : ℕ → ℕ) : Prop where
  shape : Shape s.view (s.roots t.slotId) live level
  formed : ∀ p ∈ live, Formed (s.page p)
  ids : ∀ p ∈ live, metadataPageId < p ∧ p < s.allocCount
  counters : s.allocCount ≤ s.virtCount ∧ s.virtCount ≤ noNeighbour

/-- The live pages, each at its level; all payloads have width `w`. -/
structure WellFormed (t : Tree) (w : ℕ) (s : Store) (live : Finset ℕ) (level : ℕ → ℕ) : Prop where
  shape : Shape s.view (s.roots t.slotId) live level
  formed : ∀ p ∈ live, Formed (s.page p)
  bounded : ∀ p ∈ live, Bounded (s.page p) ((s.page p).width w)
  ids : ∀ p ∈ live, metadataPageId < p ∧ p < s.allocCount
  counters : s.allocCount ≤ s.virtCount ∧ s.virtCount ≤ noNeighbour

theorem WellFormed.rooted {t : Tree} {w : ℕ} {s : Store} {live : Finset ℕ} {level : ℕ → ℕ}
    (wf : WellFormed t w s live level) : Rooted t s live level :=
  ⟨wf.shape, wf.formed, wf.ids, wf.counters⟩

theorem Rooted.wellFormed {t : Tree} {w : ℕ} {s : Store} {live : Finset ℕ} {level : ℕ → ℕ}
    (rooted : Rooted t s live level) (bounded : ∀ p ∈ live, Bounded (s.page p) ((s.page p).width w)) :
    WellFormed t w s live level :=
  ⟨rooted.shape, rooted.formed, bounded, rooted.ids, rooted.counters⟩

/-- A page and its place in its parent; the meta data page is above the root. -/
def Placed (t : Tree) (s : Store) (live : Finset ℕ) (level : ℕ → ℕ) (at_ : Store.Position) : Prop :=
  at_.parent = metadataPageId ∧ at_.node = s.roots t.slotId ∨
    at_.parent ∈ live ∧ level at_.node + 1 = level at_.parent ∧
      ∃ pre post, (s.view at_.parent).kids = pre ++ (at_.node, (s.view at_.node).fences) :: post ∧
        pre.length = at_.pos

section
variable {t : Tree} {s : Store} {live : Finset ℕ} {level : ℕ → ℕ}

theorem fromRoot_placed : Placed t s live level (t.fromRoot s) := Or.inl ⟨rfl, rfl⟩

variable (rooted : Rooted t s live level)
include rooted

theorem Rooted.leaf {p : ℕ} (hp : p ∈ live) : (s.page p).isLeaf = true ↔ level p = 0 := by
  rw [← rooted.shape.leaf p hp]
  exact view_isLeaf.symm

theorem Rooted.inner {p : ℕ} (hp : p ∈ live) : (s.page p).isLeaf = false ↔ level p ≠ 0 := by
  rw [← Bool.not_eq_true, rooted.leaf hp]

theorem Rooted.valid_id {p : ℕ} (hp : p ∈ live) : s.isValidPID p = true := by
  have := (rooted.ids p hp).2
  have := rooted.counters.1
  exact decide_eq_true (by omega)

theorem Rooted.root_has (key : Key) : (s.view (s.roots t.slotId)).fences.Has key := by
  rw [rooted.shape.root_fences]
  exact has_all key

theorem Rooted.step {p : ℕ} (hp : p ∈ live) (inner : level p ≠ 0) {key : Key}
    (has : (s.view p).fences.Has key) :
    let n := s.page p
    let pos := (n.lowerBound key).1
    let next := if pos = n.count then n.link else n.getChild pos
    next ∈ live ∧ (s.view next).fences.Has key ∧ level next + 1 = level p ∧
      Placed t s live level ⟨p, pos, next⟩ := by
  intro n pos next
  have inner := (rooted.inner hp).mpr inner
  have formed := rooted.formed p hp
  obtain ⟨le, low, high⟩ := lowerBound_children formed.valid formed.sorted key
  have body : (s.view p).body = .inner (n.children.take pos ++ n.children.drop pos) n.link := by
    rw [List.take_append_drop]
    exact view_body inner
  obtain ⟨there, lower, routed⟩ := rooted.shape.routed hp has body low high
  have same : ((n.children.drop pos).head?.map Prod.snd).getD n.link = next :=
    (lookupInner_eq (formed.wide inner) key le).symm
  rw [same] at there lower routed
  obtain ⟨pre, post, place, len⟩ := routed.place
  refine ⟨there, routed.has, lower, Or.inr ⟨hp, lower, pre, post, place, ?_⟩⟩
  rw [len, List.length_take, children_length]
  exact Nat.min_eq_left le

/-- From above, a descent arrives at the page of a level that covers its key. -/
theorem Rooted.descends {p : ℕ} (hp : p ∈ live) {key : Key} (has : (s.view p).fences.Has key)
    {toSplit : Option ℕ} (stops : toSplit = some p ∨ toSplit = none ∧ level p = 0) {d : ℕ}
    {at_ : Store.Position} (here : at_.node ∈ live) (covers : (s.view at_.node).fences.Has key)
    (above : level at_.node = level p + d) (placed : Placed t s live level at_) :
    ∃ arrived, arrived.node = p ∧ Placed t s live level arrived ∧
      ∀ fuel, d < fuel → s.descend key toSplit fuel at_ = done arrived := by
  induction d generalizing at_ with
  | zero =>
    have same : at_.node = p := rooted.shape.apart at_.node here p hp above key covers has
    refine ⟨at_, same, placed, ?_⟩
    intro fuel more
    obtain ⟨fuel, rfl⟩ := Nat.exists_eq_succ_of_ne_zero (Nat.ne_of_gt more)
    have stop : ¬ ((s.page at_.node).isInner = true ∧ some at_.node ≠ toSplit) := by
      rintro ⟨inner, other⟩
      rcases stops with is | ⟨_, leaf⟩
      · exact other (by rw [is, same])
      · rw [isInner, (rooted.leaf here).mpr (by rw [same, leaf])] at inner
        exact Bool.false_ne_true inner
    rw [Store.descend, rooted.valid_id here]
    exact if_neg stop
  | succ d ih =>
    obtain ⟨there, has', lower, placed'⟩ := rooted.step here (by omega) covers
    obtain ⟨arrived, same, placed, reaches⟩ := ih there has' (by simp only; omega) placed'
    refine ⟨arrived, same, placed, ?_⟩
    intro fuel more
    obtain ⟨fuel, rfl⟩ := Nat.exists_eq_succ_of_ne_zero (Nat.ne_of_gt (Nat.zero_lt_of_lt more))
    have go : (s.page at_.node).isInner = true ∧ some at_.node ≠ toSplit := by
      constructor
      · rw [isInner, (rooted.inner here).mpr (by omega)]
        rfl
      · intro is
        rcases stops with there | ⟨none, _⟩
        · rw [there] at is
          cases is
          omega
        · rw [none] at is
          cases is
    rw [Store.descend, rooted.valid_id here]
    refine Eq.trans (if_pos go) (reaches fuel (by omega))

theorem Rooted.reaches {p : ℕ} (hp : p ∈ live) {key : Key} (has : (s.view p).fences.Has key)
    {toSplit : Option ℕ} (stops : toSplit = some p ∨ toSplit = none ∧ level p = 0) :
    ∃ arrived, arrived.node = p ∧ Placed t s live level arrived ∧
      Settles (fun fuel => s.descend key toSplit fuel (t.fromRoot s)) (done arrived) := by
  obtain ⟨d, depth⟩ := Nat.exists_eq_add_of_le (rooted.shape.below p hp)
  obtain ⟨arrived, same, placed, reaches⟩ := rooted.descends hp has stops
    rooted.shape.root_live (rooted.root_has key) depth fromRoot_placed
  exact ⟨arrived, same, placed, settles_above reaches⟩

/-- Wherever a descent stops, it knows a live page that covers the key, and its place. -/
theorem Rooted.arrives {key : Key} {toSplit : Option ℕ} {fuel : ℕ} {at_ arrived : Store.Position}
    (here : at_.node ∈ live) (covers : (s.view at_.node).fences.Has key) (placed : Placed t s live level at_)
    (ends : s.descend key toSplit fuel at_ = done arrived) :
    arrived.node ∈ live ∧ (s.view arrived.node).fences.Has key ∧ Placed t s live level arrived ∧
      (toSplit = none → level arrived.node = 0) := by
  induction fuel generalizing at_ with
  | zero => cases ends
  | succ fuel ih =>
    rw [Store.descend, rooted.valid_id here] at ends
    by_cases go : (s.page at_.node).isInner = true ∧ some at_.node ≠ toSplit
    · have inner : level at_.node ≠ 0 := by
        intro zero
        rw [isInner, (rooted.leaf here).mpr zero] at go
        exact Bool.false_ne_true go.1
      obtain ⟨there, has, _, placed⟩ := rooted.step here inner covers
      exact ih there has placed ((if_pos go).symm.trans ends)
    · cases (if_neg go).symm.trans ends
      refine ⟨here, covers, placed, fun none => ?_⟩
      by_contra inner
      refine go ⟨?_, by rw [none]; exact Option.some_ne_none _⟩
      rw [isInner, (rooted.inner here).mpr inner]
      rfl

theorem Rooted.page_at {l : ℕ} (low : l ≤ level (s.roots t.slotId)) (key : Key) :
    ∃ p ∈ live, level p = l ∧ (s.view p).fences.Has key := rooted.shape.cover low key

end

end BTree
