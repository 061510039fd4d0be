import OsvBenchmarks.Library.FenceTree.Shape
import Mathlib.Data.Finset.Card
import Mathlib.Data.Finset.Filter
import Mathlib.Data.List.Chain

/-!
The leaves of a search tree in key order: one list, along which every leaf
links to the next and the upper fence of a leaf is the lower fence of the next.
-/
namespace FenceTree
variable {K V P : Type*} [LinearOrder K]
variable {page : P → Page K V P} {root : P} {live : Finset P} {level : P → ℕ}

/-- Leaf `b` follows leaf `a`. -/
def Follows (page : P → Page K V P) (a b : P) : Prop :=
  (page a).next = some b ∧
    ∃ u, (page a).fences.upper = some u ∧ (page b).fences.lower = some u

/-- All of `a` lies before all of `b`. -/
def Before (page : P → Page K V P) (a b : P) : Prop :=
  ∃ u l, (page a).fences.upper = some u ∧ (page b).fences.lower = some l ∧ u ≤ l

structure Stretch (page : P → Page K V P) (live : Finset P) (ps : List P) : Prop where
  leaves : ∀ x ∈ ps, x ∈ live ∧ (page x).isLeaf
  chain : ps.IsChain (Follows page)
  last : ∀ x, ps.getLast? = some x → (page x).fences.upper = none

theorem before_lt {a b : P} (before : Before page a b) {k k' : K} (low : (page a).fences.Has k)
    (high : (page b).fences.Has k') : k < k' := by
  obtain ⟨u, l, hu, hl, le⟩ := before
  exact lt_of_le_of_lt (le_trans (low.2 u hu) le) (high.1 l hl)

section
variable (shape : Shape page root live level)
include shape

open Classical in
theorem Shape.stretch {p : P} (hp : p ∈ live) (leaf : (page p).isLeaf) :
    ∃ ps, Stretch page live (p :: ps) := by
  generalize ahead : (live.filter fun x => Before page p x).card = n
  induction n using Nat.strong_induction_on generalizing p with
  | _ n ih =>
    cases upper : (page p).fences.upper with
    | none =>
      refine ⟨[], ?_, by simp, ?_⟩
      · simp [hp, leaf]
      · simpa using upper
    | some u =>
      obtain ⟨q, hq, link, ql, lower⟩ := shape.next p hp leaf u upper
      have fewer : (live.filter fun x => Before page q x).card < n := by
        rw [← ahead]
        refine Finset.card_lt_card (Finset.ssubset_iff_subset_ne.mpr ⟨fun x hx => ?_, fun same => ?_⟩)
        · obtain ⟨hx, u', l, hu, hl, le⟩ := Finset.mem_filter.mp hx
          have := shape.proper q hq u u' lower hu
          exact Finset.mem_filter.mpr ⟨hx, u, l, upper, hl, le_trans (le_of_lt this) le⟩
        · have here : q ∈ live.filter fun x => Before page p x :=
            Finset.mem_filter.mpr ⟨hq, u, u, upper, lower, le_refl u⟩
          rw [← same] at here
          obtain ⟨_, u', l, hu, hl, le⟩ := Finset.mem_filter.mp here
          have := shape.proper q hq l u' hl hu
          exact absurd le (not_le.mpr this)
      obtain ⟨ps, stretch⟩ := ih _ fewer hq ql rfl
      refine ⟨q :: ps, ?_, ?_, ?_⟩
      · intro x hx
        rcases List.mem_cons.mp hx with rfl | hx
        · exact ⟨hp, leaf⟩
        · exact stretch.leaves x hx
      · exact List.isChain_cons_cons.mpr ⟨⟨link, u, upper, lower⟩, stretch.chain⟩
      · intro x hx
        exact stretch.last x (by simpa [List.getLast?_cons_cons] using hx)

omit shape [LinearOrder K] in
theorem stretch_tail {p q : P} {ps : List P} (stretch : Stretch page live (p :: q :: ps)) :
    Stretch page live (q :: ps) :=
  ⟨fun x hx => stretch.leaves x (List.mem_cons_of_mem p hx),
    (List.isChain_cons_cons.mp stretch.chain).2,
    fun x hx => stretch.last x (by simpa [List.getLast?_cons_cons] using hx)⟩

omit shape in
/-- From a leaf on, the chain covers every key above its lower fence. -/
theorem stretch_cover {p : P} {ps : List P} (stretch : Stretch page live (p :: ps)) {k : K}
    (above : ∀ l, (page p).fences.lower = some l → l < k) :
    ∃ x ∈ p :: ps, (page x).fences.Has k := by
  induction ps generalizing p with
  | nil =>
    refine ⟨p, by simp, above, fun u hu => ?_⟩
    rw [stretch.last p rfl] at hu
    cases hu
  | cons q ps ih =>
    obtain ⟨⟨_, u, upper, lower⟩, _⟩ := List.isChain_cons_cons.mp stretch.chain
    rcases le_or_gt k u with low | high
    · refine ⟨p, by simp, above, fun v hv => ?_⟩
      rw [upper] at hv
      cases hv
      exact low
    · obtain ⟨x, hx, has⟩ := ih (stretch_tail stretch) fun l hl => by
        rw [lower] at hl
        cases hl
        exact high
      exact ⟨x, List.mem_cons_of_mem p hx, has⟩

theorem Shape.stretch_before {ps : List P} (stretch : Stretch page live ps) :
    ps.Pairwise (Before page) := by
  induction ps with
  | nil => exact List.Pairwise.nil
  | cons p ps ih =>
    cases ps with
    | nil => simp
    | cons q ps =>
      obtain ⟨⟨_, u, upper, lower⟩, _⟩ := List.isChain_cons_cons.mp stretch.chain
      have tail := ih (stretch_tail stretch)
      refine List.Pairwise.cons (fun x hx => ?_) tail
      rcases List.mem_cons.mp hx with rfl | hx
      · exact ⟨u, u, upper, lower, le_refl u⟩
      · obtain ⟨u', l, hu, hl, le⟩ := (List.pairwise_cons.mp tail).1 x hx
        have hq := (stretch.leaves q (by simp)).1
        have := shape.proper q hq u u' lower hu
        exact ⟨u, l, upper, hl, le_trans (le_of_lt this) le⟩

end

structure Leaves (page : P → Page K V P) (live : Finset P) (ps : List P) : Prop where
  mem : ∀ x, x ∈ ps ↔ x ∈ live ∧ (page x).isLeaf
  chain : ps.IsChain (Follows page)
  first : ∀ x, ps.head? = some x → (page x).fences.lower = none
  last : ∀ x, ps.getLast? = some x → (page x).fences.upper = none ∧ (page x).next = none
  before : ps.Pairwise (Before page)

theorem Shape.leftmost (shape : Shape page root live level) {l : ℕ} (low : l ≤ level root) :
    ∃ p ∈ live, level p = l ∧ (page p).fences.lower = none := by
  obtain ⟨d, sum⟩ := Nat.exists_eq_add_of_le low
  induction d generalizing l with
  | zero =>
    refine ⟨root, shape.root_live, by omega, ?_⟩
    rw [shape.root_fences]
  | succ d ih =>
    obtain ⟨p, hp, at_, least⟩ := ih (l := l + 1) (by omega) (by omega)
    obtain ⟨children, last, body⟩ := shape.body_inner hp (by omega)
    have first : ∃ c f, (c, f) ∈ (page p).kids ∧ f.lower = none := by
      simp only [Page.kids, body, least]
      cases children with
      | nil => exact ⟨last, ⟨none, (page p).fences.upper⟩, by simp [spans], rfl⟩
      | cons e children => exact ⟨e.2, ⟨none, some e.1⟩, by simp [spans], rfl⟩
    obtain ⟨c, f, mem, none⟩ := first
    obtain ⟨hc, lower, rfl⟩ := shape.kids p hp c f mem
    exact ⟨c, hc, by omega, none⟩

theorem Shape.leaves [Nonempty K] [NoMaxOrder K] (shape : Shape page root live level) {p : P} (hp : p ∈ live)
    (leaf : (page p).isLeaf) (least : (page p).fences.lower = none) :
    ∃ ps, Leaves page live (p :: ps) := by
  obtain ⟨ps, stretch⟩ := shape.stretch hp leaf
  refine ⟨ps, ?_, stretch.chain, ?_, ?_, shape.stretch_before stretch⟩
  · intro x
    refine ⟨fun hx => stretch.leaves x hx, fun ⟨hx, xl⟩ => ?_⟩
    obtain ⟨k, has⟩ := proper_has (shape.proper x hx)
    obtain ⟨y, hy, yk⟩ := stretch_cover stretch (k := k) (by simp [least])
    obtain ⟨ly, yl⟩ := stretch.leaves y hy
    have same : level x = level y := by
      rw [(shape.leaf x hx).mp xl, (shape.leaf y ly).mp yl]
    rw [shape.apart x hx y ly same k has yk]
    exact hy
  · intro x hx
    cases hx
    exact least
  · intro x hx
    have top := stretch.last x hx
    obtain ⟨hx, xl⟩ := stretch.leaves x (List.mem_of_getLast? hx)
    exact ⟨top, shape.last x hx xl top⟩

def listing (page : P → Page K V P) (ps : List P) : List (K × V) := ps.flatMap fun p => (page p).entries

omit [LinearOrder K] in
@[simp] theorem listing_nil : listing page [] = [] := rfl

omit [LinearOrder K] in
@[simp] theorem listing_cons (p : P) (ps : List P) :
    listing page (p :: ps) = (page p).entries ++ listing page ps := List.flatMap_cons

omit [LinearOrder K] in
@[simp] theorem listing_append (ps qs : List P) :
    listing page (ps ++ qs) = listing page ps ++ listing page qs := List.flatMap_append

omit [LinearOrder K] in
theorem mem_listing {ps : List P} {e : K × V} :
    e ∈ listing page ps ↔ ∃ p ∈ ps, e ∈ (page p).entries := List.mem_flatMap

theorem leaves_listing {ps : List P} (leaves : Leaves page live ps) {e : K × V} :
    e ∈ listing page ps ↔ ∃ p ∈ live, e ∈ (page p).entries := by
  rw [mem_listing]
  constructor
  · rintro ⟨p, hp, mem⟩
    exact ⟨p, ((leaves.mem p).mp hp).1, mem⟩
  · rintro ⟨p, hp, mem⟩
    refine ⟨p, (leaves.mem p).mpr ⟨hp, ?_⟩, mem⟩
    cases body : (page p).body with
    | leaf entries next => exact ⟨entries, next, body⟩
    | inner children last => simp [Page.entries, body] at mem

theorem Shape.listing_sorted (shape : Shape page root live level) {ps : List P}
    (leaves : Leaves page live ps)
    (strict : ∀ p ∈ live, (page p).entries.Pairwise fun a b => a.1 < b.1) :
    (listing page ps).Pairwise fun a b => a.1 < b.1 := by
  rw [listing, List.pairwise_flatMap]
  refine ⟨fun p hp => strict p ((leaves.mem p).mp hp).1, ?_⟩
  refine leaves.before.imp_of_mem fun {p q} hp hq before a ha b hb => ?_
  exact before_lt before (shape.inside p ((leaves.mem p).mp hp).1 a ha)
    (shape.inside q ((leaves.mem q).mp hq).1 b hb)

theorem Shape.listing_sides (shape : Shape page root live level) {xs ys : List P} {p : P}
    (leaves : Leaves page live (xs ++ p :: ys)) {k : K} (has : (page p).fences.Has k) :
    (∀ e ∈ listing page xs, e.1 < k) ∧ ∀ e ∈ listing page ys, k < e.1 := by
  have before := leaves.before
  rw [List.pairwise_append, List.pairwise_cons] at before
  obtain ⟨_, ⟨behind, _⟩, ahead⟩ := before
  have inside : ∀ x ∈ xs ++ p :: ys, ∀ e ∈ (page x).entries, (page x).fences.Has e.1 :=
    fun x hx => shape.inside x ((leaves.mem x).mp hx).1
  constructor
  · intro e mem
    obtain ⟨x, hx, mem⟩ := mem_listing.mp mem
    exact before_lt (ahead x hx p (by simp)) (inside x (by simp [hx]) e mem) has
  · intro e mem
    obtain ⟨y, hy, mem⟩ := mem_listing.mp mem
    exact before_lt (behind y hy) has (inside y (by simp [hy]) e mem)

theorem leaves_after {xs ys : List P} {p q : P} (leaves : Leaves page live (xs ++ p :: q :: ys)) :
    Follows page p q := by
  have tail := leaves.chain.right_of_append
  exact (List.isChain_cons_cons.mp tail).1

theorem leaves_last {xs : List P} {p : P} (leaves : Leaves page live (xs ++ [p])) :
    (page p).next = none := (leaves.last p (by simp)).2

theorem leaves_first {ys : List P} {p : P} (leaves : Leaves page live (p :: ys)) :
    (page p).fences.lower = none := leaves.first p rfl

end FenceTree
