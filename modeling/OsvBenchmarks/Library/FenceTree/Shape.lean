import Mathlib.Data.Finset.Card
import Mathlib.Order.Basic
import Mathlib.Order.Max

/-!
Search trees over pages that carry their own key interval. A page covers the
keys above its lower fence up to its upper fence; the children of an inner page
cover its interval piece by piece, and the leaves form a chain. The shape says
this of a set of live pages at once, without a recursive tree.
-/
namespace FenceTree
variable {K V P : Type*} [LinearOrder K]

/-- `none` is no bound. -/
@[ext] structure Fences (K : Type*) where
  lower : Option K
  upper : Option K

def Fences.Has (f : Fences K) (k : K) : Prop :=
  (∀ l, f.lower = some l → l < k) ∧ ∀ u, f.upper = some u → k ≤ u

def Fences.Proper (f : Fences K) : Prop := ∀ l u, f.lower = some l → f.upper = some u → l < u

inductive Body (K V P : Type*) where
  | leaf (entries : List (K × V)) (next : Option P)
  | inner (children : List (K × P)) (last : P)

structure Page (K V P : Type*) where
  fences : Fences K
  body : Body K V P

/-- The children from left to right, each with the interval the separators give it. -/
def spans : Option K → List (K × P) → P → Option K → List (P × Fences K)
  | lo, [], last, hi => [(last, ⟨lo, hi⟩)]
  | lo, (k, c) :: rest, last, hi => (c, ⟨lo, some k⟩) :: spans (some k) rest last hi

namespace Page

def isLeaf (p : Page K V P) : Prop := ∃ entries next, p.body = .leaf entries next

def entries (p : Page K V P) : List (K × V) :=
  match p.body with
  | .leaf entries _ => entries
  | .inner _ _ => []

def next (p : Page K V P) : Option P :=
  match p.body with
  | .leaf _ next => next
  | .inner _ _ => none

def kids (p : Page K V P) : List (P × Fences K) :=
  match p.body with
  | .leaf _ _ => []
  | .inner children last => spans p.fences.lower children last p.fences.upper

end Page

/-- The live pages, each at its level, make one search tree below the root. -/
structure Shape (page : P → Page K V P) (root : P) (live : Finset P) (level : P → ℕ) : Prop where
  root_live : root ∈ live
  root_fences : (page root).fences = ⟨none, none⟩
  below : ∀ p ∈ live, level p ≤ level root
  leaf : ∀ p ∈ live, (page p).isLeaf ↔ level p = 0
  proper : ∀ p ∈ live, (page p).fences.Proper
  apart : ∀ p ∈ live, ∀ q ∈ live, level p = level q →
    ∀ k, (page p).fences.Has k → (page q).fences.Has k → p = q
  kids : ∀ p ∈ live, ∀ c f, (c, f) ∈ (page p).kids →
    c ∈ live ∧ level c + 1 = level p ∧ (page c).fences = f
  inside : ∀ p ∈ live, ∀ e ∈ (page p).entries, (page p).fences.Has e.1
  sorted : ∀ p ∈ live, (page p).entries.Pairwise fun a b => a.1 ≤ b.1
  last : ∀ p ∈ live, (page p).isLeaf → (page p).fences.upper = none → (page p).next = none
  next : ∀ p ∈ live, (page p).isLeaf → ∀ u, (page p).fences.upper = some u →
    ∃ q ∈ live, (page p).next = some q ∧ (page q).isLeaf ∧ (page q).fences.lower = some u

theorem has_all (k : K) : (⟨none, none⟩ : Fences K).Has k := by
  constructor <;> intro _ h <;> cases h

theorem has_upper {f : Fences K} (proper : f.Proper) {u : K} (upper : f.upper = some u) : f.Has u := by
  refine ⟨fun l lower => proper l u lower upper, fun v same => ?_⟩
  rw [upper] at same
  cases same
  exact le_refl _

theorem proper_has [Nonempty K] [NoMaxOrder K] {f : Fences K} (proper : f.Proper) :
    ∃ k, f.Has k := by
  cases hu : f.upper with
  | some u => exact ⟨u, has_upper proper hu⟩
  | none =>
    cases hl : f.lower with
    | none => exact ⟨Classical.arbitrary K, by simp [hl], by simp [hu]⟩
    | some l =>
      obtain ⟨k, more⟩ := exists_gt l
      exact ⟨k, by simp [hl, more], by simp [hu]⟩

section Spans
variable {lo hi : Option K} {cs : List (K × P)} {last : P}

omit [LinearOrder K] in
theorem spans_append (lo : Option K) (xs : List (K × P)) (k : K) (c : P) (ys : List (K × P))
    (last : P) (hi : Option K) :
    spans lo (xs ++ (k, c) :: ys) last hi =
      spans lo xs c (some k) ++ spans (some k) ys last hi := by
  induction xs generalizing lo with
  | nil => rfl
  | cons x xs ih =>
    obtain ⟨k₀, c₀⟩ := x
    simp [spans, ih]

omit [LinearOrder K] in
theorem spans_length : (spans lo cs last hi).length = cs.length + 1 := by
  induction cs generalizing lo with
  | nil => rfl
  | cons x cs ih => simp [spans, ih]

theorem spans_cover {k : K} (has : (⟨lo, hi⟩ : Fences K).Has k) :
    ∃ c f, (c, f) ∈ spans lo cs last hi ∧ f.Has k := by
  induction cs generalizing lo with
  | nil => exact ⟨last, ⟨lo, hi⟩, by simp [spans], has⟩
  | cons x cs ih =>
    obtain ⟨k₀, c₀⟩ := x
    rcases le_or_gt k k₀ with low | high
    · refine ⟨c₀, ⟨lo, some k₀⟩, by simp [spans], has.1, fun u hu => ?_⟩
      cases hu
      exact low
    · obtain ⟨c, f, mem, has⟩ := @ih (some k₀) ⟨by simpa using high, has.2⟩
      exact ⟨c, f, by simp [spans, mem], has⟩

theorem spans_proper (proper : ∀ c f, (c, f) ∈ spans lo cs last hi → f.Proper) :
    (⟨lo, hi⟩ : Fences K).Proper := by
  induction cs generalizing lo with
  | nil => exact proper last _ (by simp [spans])
  | cons x cs ih =>
    obtain ⟨k₀, c₀⟩ := x
    have first := proper c₀ ⟨lo, some k₀⟩ (by simp [spans])
    have rest := @ih (some k₀) fun c f mem => proper c f (by simp [spans, mem])
    intro l u hl hu
    exact lt_trans (first l k₀ hl rfl) (rest k₀ u rfl hu)

theorem spans_inside (proper : ∀ c f, (c, f) ∈ spans lo cs last hi → f.Proper)
    {c : P} {f : Fences K} (mem : (c, f) ∈ spans lo cs last hi) {k : K} (has : f.Has k) :
    (⟨lo, hi⟩ : Fences K).Has k := by
  induction cs generalizing lo with
  | nil =>
    simp only [spans, List.mem_singleton, Prod.mk.injEq] at mem
    exact mem.2 ▸ has
  | cons x cs ih =>
    obtain ⟨k₀, c₀⟩ := x
    have first := proper c₀ ⟨lo, some k₀⟩ (by simp [spans])
    have tail : ∀ c f, (c, f) ∈ spans (some k₀) cs last hi → f.Proper :=
      fun c f mem => proper c f (by simp [spans, mem])
    simp only [spans, List.mem_cons, Prod.mk.injEq] at mem
    rcases mem with ⟨_, rfl⟩ | mem
    · refine ⟨has.1, fun u hu => le_trans (has.2 k₀ rfl) (le_of_lt ?_)⟩
      exact spans_proper tail k₀ u rfl hu
    · have inner := ih tail mem
      exact ⟨fun l hl => lt_trans (first l k₀ hl rfl) (inner.1 k₀ rfl), inner.2⟩

theorem spans_ordered (proper : ∀ c f, (c, f) ∈ spans lo cs last hi → f.Proper) :
    (spans lo cs last hi).Pairwise fun a b => ∀ k k', a.2.Has k → b.2.Has k' → k < k' := by
  induction cs generalizing lo with
  | nil => simp [spans]
  | cons x cs ih =>
    obtain ⟨k₀, c₀⟩ := x
    have tail : ∀ c f, (c, f) ∈ spans (some k₀) cs last hi → f.Proper :=
      fun c f mem => proper c f (by simp [spans, mem])
    refine List.Pairwise.cons (fun b mem k k' low high => ?_) (ih tail)
    obtain ⟨c, f⟩ := b
    have above := spans_inside tail mem high
    exact lt_of_le_of_lt (low.2 k₀ rfl) (above.1 k₀ rfl)

end Spans

theorem shape_leaf {page : P → Page K V P} {root : P}
    (leaf : page root = ⟨⟨none, none⟩, .leaf [] none⟩) : Shape page root {root} fun _ => 0 where
  root_live := Finset.mem_singleton_self root
  root_fences := by rw [leaf]
  below _ _ := Nat.le_refl 0
  leaf p hp := by
    rw [Finset.mem_singleton.mp hp, leaf]
    exact iff_of_true ⟨[], none, rfl⟩ rfl
  proper p hp := by
    rw [Finset.mem_singleton.mp hp, leaf]
    intro l u none
    cases none
  apart p hp q hq _ _ _ _ := by rw [Finset.mem_singleton.mp hp, Finset.mem_singleton.mp hq]
  kids p hp c f mem := by
    rw [Finset.mem_singleton.mp hp, leaf] at mem
    cases mem
  inside p hp e mem := by
    rw [Finset.mem_singleton.mp hp, leaf] at mem
    cases mem
  sorted p hp := by
    rw [Finset.mem_singleton.mp hp, leaf]
    exact List.Pairwise.nil
  last p hp _ _ := by
    rw [Finset.mem_singleton.mp hp, leaf]
    rfl
  next p hp _ u some := by
    rw [Finset.mem_singleton.mp hp, leaf] at some
    cases some

section Shape
variable {page : P → Page K V P} {root : P} {live : Finset P} {level : P → ℕ}
  (shape : Shape page root live level)
include shape

theorem Shape.kids_proper {p : P} (hp : p ∈ live) {c : P} {f : Fences K}
    (mem : (c, f) ∈ (page p).kids) : f.Proper := by
  obtain ⟨hc, _, same⟩ := shape.kids p hp c f mem
  exact same ▸ shape.proper c hc

theorem Shape.body_inner {p : P} (hp : p ∈ live) (high : level p ≠ 0) :
    ∃ children last, (page p).body = .inner children last := by
  cases body : (page p).body with
  | leaf entries next => exact absurd ((shape.leaf p hp).mp ⟨entries, next, body⟩) high
  | inner children last => exact ⟨children, last, rfl⟩

theorem Shape.kid_inside {p : P} (hp : p ∈ live) {c : P} {f : Fences K}
    (mem : (c, f) ∈ (page p).kids) {k : K} (has : f.Has k) : (page p).fences.Has k := by
  have proper := fun c f mem => shape.kids_proper hp (c := c) (f := f) mem
  cases body : (page p).body with
  | leaf entries next => simp [Page.kids, body] at mem
  | inner children last =>
    simp only [Page.kids, body] at mem proper
    exact spans_inside proper mem has

theorem Shape.kid_cover {p : P} (hp : p ∈ live) (high : level p ≠ 0) {k : K}
    (has : (page p).fences.Has k) :
    ∃ c ∈ live, level c + 1 = level p ∧ (page c).fences.Has k ∧
      (c, (page c).fences) ∈ (page p).kids := by
  obtain ⟨children, last, body⟩ := shape.body_inner hp high
  obtain ⟨c, f, mem, here⟩ := @spans_cover _ _ _ _ _ children last _ has
  have mem : (c, f) ∈ (page p).kids := by simpa [Page.kids, body] using mem
  obtain ⟨hc, lower, rfl⟩ := shape.kids p hp c f mem
  exact ⟨c, hc, lower, here, mem⟩

theorem Shape.cover {l : ℕ} (low : l ≤ level root) (k : K) :
    ∃ p ∈ live, level p = l ∧ (page p).fences.Has k := by
  obtain ⟨d, sum⟩ := Nat.exists_eq_add_of_le low
  induction d generalizing l with
  | zero =>
    refine ⟨root, shape.root_live, by omega, ?_⟩
    rw [shape.root_fences]
    exact has_all k
  | succ d ih =>
    obtain ⟨p, hp, at_, has⟩ := ih (l := l + 1) (by omega) (by omega)
    obtain ⟨c, hc, lower, here, _⟩ := shape.kid_cover hp (by omega) has
    exact ⟨c, hc, by omega, here⟩

/-- Below its parent a page has no other parent and no second place. -/
theorem Shape.parent_unique [Nonempty K] [NoMaxOrder K] {p q c : P} (hp : p ∈ live) (hq : q ∈ live)
    {f g : Fences K} (pc : (c, f) ∈ (page p).kids) (qc : (c, g) ∈ (page q).kids) : p = q := by
  obtain ⟨hc, lp, rfl⟩ := shape.kids p hp c f pc
  obtain ⟨_, lq, rfl⟩ := shape.kids q hq c g qc
  obtain ⟨k, has⟩ := proper_has (shape.proper c hc)
  exact shape.apart p hp q hq (by omega) k (shape.kid_inside hp pc has) (shape.kid_inside hq qc has)

theorem Shape.place_unique [Nonempty K] [NoMaxOrder K] {p c : P} (hp : p ∈ live) {f : Fences K}
    {pre post : List (P × Fences K)} (split : (page p).kids = pre ++ (c, f) :: post) :
    ∀ e ∈ pre ++ post, e.1 ≠ c := by
  have proper := fun c f mem => shape.kids_proper hp (c := c) (f := f) mem
  have ordered : (page p).kids.Pairwise fun a b => ∀ k k', a.2.Has k → b.2.Has k' → k < k' := by
    cases body : (page p).body with
    | leaf entries next => simp [Page.kids, body]
    | inner children last =>
      simp only [Page.kids, body] at proper ⊢
      exact spans_ordered proper
  obtain ⟨hc, _, same⟩ := shape.kids p hp c f (by simp [split])
  obtain ⟨k, has⟩ := proper_has (shape.proper c hc)
  rw [split, List.pairwise_append, List.pairwise_cons] at ordered
  obtain ⟨_, ⟨after, _⟩, before⟩ := ordered
  rintro ⟨d, g⟩ mem rfl
  have mem' : (d, g) ∈ (page p).kids := by
    rw [split]
    simp only [List.mem_append, List.mem_cons] at mem ⊢
    exact mem.imp id Or.inr
  obtain ⟨_, _, rfl⟩ := shape.kids p hp d g mem'
  rcases List.mem_append.mp mem with mem | mem
  · exact lt_irrefl k (before (d, (page d).fences) mem (d, f) (by simp) k k has (same ▸ has))
  · exact lt_irrefl k (after (d, (page d).fences) mem k k (same ▸ has) has)

end Shape

end FenceTree
