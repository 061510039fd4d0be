import OsvBenchmarks.Library.FenceTree.Shape
import Mathlib.Data.Finset.Insert
import Mathlib.Data.Finset.Erase

/-!
What changes a search tree: new entries in a leaf, a new root, a page split in
two below its parent, two neighbouring leaves merged into one. Each keeps the
shape, with the new page at the level of the one it came from.
-/
namespace FenceTree
variable {K V P : Type*} [LinearOrder K]
variable {page page' : P → Page K V P} {root : P} {live : Finset P} {level : P → ℕ}

omit [LinearOrder K] in
theorem inner_entries {p : Page K V P} (inner : ¬ p.isLeaf) : p.entries = [] := by
  cases body : p.body with
  | leaf entries next => exact absurd ⟨entries, next, body⟩ inner
  | inner children last => simp [Page.entries, body]

omit [LinearOrder K] in
theorem leaf_kids {p : Page K V P} (leaf : p.isLeaf) : p.kids = [] := by
  obtain ⟨entries, next, body⟩ := leaf
  simp [Page.kids, body]

structure Rewrite (page page' : P → Page K V P) (live : Finset P) : Prop where
  fences : ∀ p ∈ live, (page' p).fences = (page p).fences
  leaf : ∀ p ∈ live, (page' p).isLeaf ↔ (page p).isLeaf
  kids : ∀ p ∈ live, (page' p).kids = (page p).kids
  next : ∀ p ∈ live, (page' p).next = (page p).next
  inside : ∀ p ∈ live, ∀ e ∈ (page' p).entries, (page p).fences.Has e.1
  sorted : ∀ p ∈ live, (page' p).entries.Pairwise fun a b => a.1 ≤ b.1

theorem Shape.rewrite (shape : Shape page root live level) (step : Rewrite page page' live) :
    Shape page' root live level where
  root_live := shape.root_live
  root_fences := (step.fences root shape.root_live).trans shape.root_fences
  below := shape.below
  leaf p hp := (step.leaf p hp).trans (shape.leaf p hp)
  proper p hp := (step.fences p hp) ▸ shape.proper p hp
  apart p hp q hq same k pk qk := by
    rw [step.fences p hp] at pk
    rw [step.fences q hq] at qk
    exact shape.apart p hp q hq same k pk qk
  kids p hp c f mem := by
    rw [step.kids p hp] at mem
    obtain ⟨hc, lower, same⟩ := shape.kids p hp c f mem
    exact ⟨hc, lower, (step.fences c hc).trans same⟩
  inside p hp e he := (step.fences p hp) ▸ step.inside p hp e he
  sorted := step.sorted
  last p hp leaf top := by
    rw [step.next p hp]
    exact shape.last p hp ((step.leaf p hp).mp leaf) (step.fences p hp ▸ top)
  next p hp leaf u upper := by
    obtain ⟨q, hq, link, ql, lower⟩ :=
      shape.next p hp ((step.leaf p hp).mp leaf) u (step.fences p hp ▸ upper)
    exact ⟨q, hq, (step.next p hp).trans link, (step.leaf q hq).mpr ql, by rw [step.fences q hq, lower]⟩

theorem Shape.rewrite_leaf (shape : Shape page root live level) {p : P}
    (others : ∀ x ∈ live, x ≠ p → page' x = page x) (old : (page p).isLeaf) (leaf : (page' p).isLeaf)
    (fences : (page' p).fences = (page p).fences) (next : (page' p).next = (page p).next)
    (inside : ∀ e ∈ (page' p).entries, (page' p).fences.Has e.1)
    (sorted : (page' p).entries.Pairwise fun a b => a.1 ≤ b.1) : Shape page' root live level := by
  apply shape.rewrite
  constructor
  · intro x hx
    by_cases same : x = p
    · rw [same, fences]
    · rw [others x hx same]
  · intro x hx
    by_cases same : x = p
    · rw [same]
      exact iff_of_true leaf old
    · rw [others x hx same]
  · intro x hx
    by_cases same : x = p
    · rw [same, leaf_kids leaf, leaf_kids old]
    · rw [others x hx same]
  · intro x hx
    by_cases same : x = p
    · rw [same, next]
    · rw [others x hx same]
  · intro x hx
    by_cases same : x = p
    · rw [same, ← fences]
      exact inside
    · rw [others x hx same]
      exact shape.inside x hx
  · intro x hx
    by_cases same : x = p
    · rwa [same]
    · rw [others x hx same]
      exact shape.sorted x hx

variable [DecidableEq P]

/-- A new root `r` above the old one. -/
structure Grow (page page' : P → Page K V P) (root : P) (live : Finset P) (r : P) : Prop where
  fresh : r ∉ live
  others : ∀ x ∈ live, page' x = page x
  top : page' r = ⟨⟨none, none⟩, .inner [] root⟩

theorem Shape.grow {r : P} (shape : Shape page root live level) (step : Grow page page' root live r) :
    Shape page' r (insert r live) (Function.update level r (level root + 1)) := by
  have old : ∀ x ∈ live, x ≠ r := fun x hx same => step.fresh (same ▸ hx)
  have level_old : ∀ x ∈ live, Function.update level r (level root + 1) x = level x :=
    fun x hx => Function.update_of_ne (old x hx) _ _
  have notLeaf : ¬ (page' r).isLeaf := by
    rintro ⟨entries, next, body⟩
    rw [step.top] at body
    cases body
  have lift : ∀ x ∈ live, level x ≤ level root := shape.below
  refine ⟨by simp, by rw [step.top], ?_, ?_, ?_, ?_, ?_, ?_, ?_, ?_, ?_⟩
  · intro p hp
    rw [Function.update_self]
    rcases Finset.mem_insert.mp hp with rfl | hp
    · simp
    · rw [level_old p hp]
      have := lift p hp
      omega
  · intro p hp
    rcases Finset.mem_insert.mp hp with rfl | hp
    · simp [notLeaf]
    · rw [level_old p hp, step.others p hp]
      exact shape.leaf p hp
  · intro p hp
    rcases Finset.mem_insert.mp hp with rfl | hp
    · rw [step.top]
      intro l u hl
      cases hl
    · rw [step.others p hp]
      exact shape.proper p hp
  · intro p hp q hq same k pk qk
    rcases Finset.mem_insert.mp hp with pr | lp <;> rcases Finset.mem_insert.mp hq with qr | lq
    · rw [pr, qr]
    · rw [pr, Function.update_self, level_old q lq] at same
      have := lift q lq
      omega
    · rw [qr, Function.update_self, level_old p lp] at same
      have := lift p lp
      omega
    · rw [level_old p lp, level_old q lq] at same
      rw [step.others p lp] at pk
      rw [step.others q lq] at qk
      exact shape.apart p lp q lq same k pk qk
  · intro p hp c f mem
    rcases Finset.mem_insert.mp hp with rfl | hp
    · simp only [step.top, Page.kids, spans, List.mem_singleton, Prod.mk.injEq] at mem
      obtain ⟨rfl, rfl⟩ := mem
      have hc := shape.root_live
      rw [level_old c hc, Function.update_self, step.others c hc]
      exact ⟨by simp [hc], rfl, shape.root_fences⟩
    · rw [step.others p hp] at mem
      obtain ⟨hc, lower, same⟩ := shape.kids p hp c f mem
      rw [level_old c hc, level_old p hp, step.others c hc]
      exact ⟨by simp [hc], lower, same⟩
  · intro p hp e he
    rcases Finset.mem_insert.mp hp with rfl | hp
    · rw [inner_entries notLeaf] at he
      cases he
    · rw [step.others p hp] at he ⊢
      exact shape.inside p hp e he
  · intro p hp
    rcases Finset.mem_insert.mp hp with rfl | hp
    · rw [inner_entries notLeaf]
      exact List.Pairwise.nil
    · rw [step.others p hp]
      exact shape.sorted p hp
  · intro p hp leaf top
    rcases Finset.mem_insert.mp hp with rfl | hp
    · exact absurd leaf notLeaf
    · rw [step.others p hp] at leaf top ⊢
      exact shape.last p hp leaf top
  · intro p hp leaf u upper
    rcases Finset.mem_insert.mp hp with rfl | hp
    · exact absurd leaf notLeaf
    · rw [step.others p hp] at leaf upper ⊢
      obtain ⟨q, hq, link, ql, lower⟩ := shape.next p hp leaf u upper
      exact ⟨q, by simp [hq], link, by rwa [step.others q hq], by rwa [step.others q hq]⟩

omit [LinearOrder K] in
theorem Grow.entries {r : P} (step : Grow page page' root live r) (e : K × V) :
    (∃ x ∈ insert r live, e ∈ (page' x).entries) ↔ ∃ x ∈ live, e ∈ (page x).entries := by
  constructor
  · rintro ⟨x, hx, mem⟩
    rcases Finset.mem_insert.mp hx with rfl | hx
    · rw [step.top] at mem
      cases mem
    · rw [step.others x hx] at mem
      exact ⟨x, hx, mem⟩
  · rintro ⟨x, hx, mem⟩
    exact ⟨x, by simp [hx], by rwa [step.others x hx]⟩

/-- Page `p` split at `sep`, its upper part now in `r`, both below `q`. -/
structure Split (page page' : P → Page K V P) (live : Finset P) (p r q : P) (sep : K) : Prop where
  page_live : p ∈ live
  parent_live : q ∈ live
  fresh : r ∉ live
  others : ∀ x ∈ live, x ≠ p → x ≠ q → page' x = page x
  above : ∀ l, (page p).fences.lower = some l → l < sep
  below : ∀ u, (page p).fences.upper = some u → sep < u
  left : (page' p).fences = ⟨(page p).fences.lower, some sep⟩
  right : (page' r).fences = ⟨some sep, (page p).fences.upper⟩
  parent : (page' q).fences = (page q).fences
  parent_inner : ¬ (page' q).isLeaf
  left_leaf : (page' p).isLeaf ↔ (page p).isLeaf
  right_leaf : (page' r).isLeaf ↔ (page p).isLeaf
  kids : (page p).kids = (page' p).kids ++ (page' r).kids
  entries : (page p).entries = (page' p).entries ++ (page' r).entries
  low : ∀ e ∈ (page' p).entries, e.1 ≤ sep
  high : ∀ e ∈ (page' r).entries, sep < e.1
  left_next : (page p).isLeaf → (page' p).next = some r
  right_next : (page p).isLeaf → (page' r).next = (page p).next
  place : ∃ pre post, (page q).kids = pre ++ (p, (page p).fences) :: post ∧
    (page' q).kids = pre ++ (p, (page' p).fences) :: (r, (page' r).fences) :: post

namespace Split
variable {p r q : P} {sep : K} (step : Split page page' live p r q sep)
include step

omit [DecidableEq P] in
theorem left_has {k : K} (has : (page' p).fences.Has k) : (page p).fences.Has k ∧ k ≤ sep := by
  rw [step.left] at has
  have low := has.2 sep rfl
  exact ⟨⟨has.1, fun u hu => le_trans low (le_of_lt (step.below u hu))⟩, low⟩

omit [DecidableEq P] in
theorem right_has {k : K} (has : (page' r).fences.Has k) : (page p).fences.Has k ∧ sep < k := by
  rw [step.right] at has
  have high := has.1 sep rfl
  exact ⟨⟨fun l hl => lt_trans (step.above l hl) high, has.2⟩, high⟩

theorem level_old {x : P} (hx : x ∈ live) : Function.update level r (level p) x = level x :=
  Function.update_of_ne (fun same : x = r => step.fresh (same ▸ hx)) _ _

/-- Every page lies within the one it came from. -/
theorem within {x : P} (hx : x ∈ live) {k : K} (has : (page' x).fences.Has k) :
    (page x).fences.Has k := by
  by_cases xp : x = p
  · subst xp
    exact (step.left_has has).1
  · by_cases xq : x = q
    · subst xq
      rwa [step.parent] at has
    · rwa [step.others x hx xp xq] at has

end Split

omit [DecidableEq P] in
theorem Shape.split_levels {p r q : P} {sep : K} (shape : Shape page root live level)
    (step : Split page page' live p r q sep) :
    level p + 1 = level q ∧ p ≠ q ∧ r ≠ p ∧ r ≠ q := by
  obtain ⟨pre, post, place, _⟩ := step.place
  obtain ⟨_, lower, _⟩ := shape.kids q step.parent_live p (page p).fences (by simp [place])
  refine ⟨lower, fun same => ?_, fun same => ?_, fun same => ?_⟩
  · rw [same] at lower
    omega
  · exact step.fresh (same ▸ step.page_live)
  · exact step.fresh (same ▸ step.parent_live)

theorem Shape.split_entries {p r q : P} {sep : K} (shape : Shape page root live level)
    (step : Split page page' live p r q sep) (e : K × V) :
    (∃ x ∈ insert r live, e ∈ (page' x).entries) ↔ ∃ x ∈ live, e ∈ (page x).entries := by
  obtain ⟨lq, _, _, _⟩ := shape.split_levels step
  have inner : ¬ (page q).isLeaf := fun leaf => by
    have := (shape.leaf q step.parent_live).mp leaf
    omega
  constructor
  · rintro ⟨x, hx, mem⟩
    rcases Finset.mem_insert.mp hx with rfl | hx
    · exact ⟨p, step.page_live, by rw [step.entries]; exact List.mem_append_right _ mem⟩
    · by_cases xp : x = p
      · rw [xp] at mem
        exact ⟨p, step.page_live, by rw [step.entries]; exact List.mem_append_left _ mem⟩
      · by_cases xq : x = q
        · rw [xq, inner_entries step.parent_inner] at mem
          cases mem
        · rw [step.others x hx xp xq] at mem
          exact ⟨x, hx, mem⟩
  · rintro ⟨x, hx, mem⟩
    by_cases xp : x = p
    · rw [xp, step.entries, List.mem_append] at mem
      rcases mem with mem | mem
      · exact ⟨p, by simp [step.page_live], mem⟩
      · exact ⟨r, by simp, mem⟩
    · by_cases xq : x = q
      · rw [xq, inner_entries inner] at mem
        cases mem
      · exact ⟨x, by simp [hx], by rwa [step.others x hx xp xq]⟩

/-- A page other than the parent has neither of the two halves among its children. -/
theorem Shape.split_kids [Nonempty K] [NoMaxOrder K] {p r q : P} {sep : K}
    (shape : Shape page root live level) (step : Split page page' live p r q sep) {x : P}
    (hx : x ∈ live) (other : x ≠ q) {c : P} {f : Fences K} (mem : (c, f) ∈ (page x).kids) :
    (page' c).fences = (page c).fences := by
  obtain ⟨hc, _, same⟩ := shape.kids x hx c f mem
  have notp : c ≠ p := by
    rintro rfl
    obtain ⟨pre, post, place, _⟩ := step.place
    exact other (shape.parent_unique hx step.parent_live mem (g := (page c).fences) (by rw [place]; simp))
  by_cases isq : c = q
  · rw [isq, step.parent]
  · rw [step.others c hc notp isq]

theorem Shape.split_leaf {p r q : P} {sep : K} (shape : Shape page root live level)
    (step : Split page page' live p r q sep) {x : P} (hx : x ∈ live) :
    (page' x).isLeaf ↔ (page x).isLeaf := by
  obtain ⟨lq, _, _, _⟩ := shape.split_levels step
  by_cases xp : x = p
  · subst xp
    exact step.left_leaf
  · by_cases xq : x = q
    · subst xq
      have high : ¬ (page x).isLeaf := fun leaf => by
        have := (shape.leaf x hx).mp leaf
        omega
      exact iff_of_false step.parent_inner high
    · rw [step.others x hx xp xq]

theorem Shape.split_proper {p r q : P} {sep : K} (shape : Shape page root live level)
    (step : Split page page' live p r q sep) :
    ∀ x ∈ insert r live, (page' x).fences.Proper := by
  intro x hx
  rcases Finset.mem_insert.mp hx with xr | hx
  · rw [xr, step.right]
    rintro l u ⟨⟩ hu
    exact step.below u hu
  · by_cases xp : x = p
    · rw [xp, step.left]
      rintro l u hl ⟨⟩
      exact step.above l hl
    · by_cases xq : x = q
      · rw [xq, step.parent]
        exact shape.proper q step.parent_live
      · rw [step.others x hx xp xq]
        exact shape.proper x hx

theorem Shape.split_apart {p r q : P} {sep : K} (shape : Shape page root live level)
    (step : Split page page' live p r q sep) {x y : P} (hx : x ∈ insert r live) (hy : y ∈ insert r live)
    (same : Function.update level r (level p) x = Function.update level r (level p) y) {k : K}
    (xk : (page' x).fences.Has k) (yk : (page' y).fences.Has k) : x = y := by
  rcases Finset.mem_insert.mp hx with xr | lx <;> rcases Finset.mem_insert.mp hy with yr | ly
  · rw [xr, yr]
  · exfalso
    rw [xr, Function.update_self, step.level_old ly] at same
    rw [xr] at xk
    obtain ⟨pk, high⟩ := step.right_has xk
    have yp := shape.apart p step.page_live y ly same k pk (step.within ly yk)
    have low := (step.left_has (yp ▸ yk)).2
    exact absurd low (not_le.mpr high)
  · exfalso
    rw [yr, Function.update_self, step.level_old lx] at same
    rw [yr] at yk
    obtain ⟨pk, high⟩ := step.right_has yk
    have xp := shape.apart x lx p step.page_live same k (step.within lx xk) pk
    have low := (step.left_has (xp ▸ xk)).2
    exact absurd low (not_le.mpr high)
  · rw [step.level_old lx, step.level_old ly] at same
    exact shape.apart x lx y ly same k (step.within lx xk) (step.within ly yk)

theorem Shape.split_children [Nonempty K] [NoMaxOrder K] {p r q : P} {sep : K}
    (shape : Shape page root live level) (step : Split page page' live p r q sep) {x : P} (hx : x ∈ insert r live)
    {c : P} {f : Fences K} (mem : (c, f) ∈ (page' x).kids) :
    c ∈ insert r live ∧
      Function.update level r (level p) c + 1 = Function.update level r (level p) x ∧
      (page' c).fences = f := by
  obtain ⟨lq, pq, _, _⟩ := shape.split_levels step
  obtain ⟨pre, post, place, place'⟩ := step.place
  have lift : ∀ y ∈ live, y ≠ q → ∀ c f, (c, f) ∈ (page y).kids →
      c ∈ insert r live ∧ Function.update level r (level p) c + 1 = level y ∧
        (page' c).fences = f := by
    intro y hy other c f mem
    obtain ⟨hc, lower, same⟩ := shape.kids y hy c f mem
    rw [step.level_old hc]
    exact ⟨by simp [hc], lower, (shape.split_kids step hy other mem).trans same⟩
  rcases Finset.mem_insert.mp hx with xr | hx
  · rw [xr, Function.update_self]
    refine lift p step.page_live pq c f ?_
    rw [step.kids]
    exact List.mem_append_right _ (xr ▸ mem)
  · rw [step.level_old hx]
    by_cases xp : x = p
    · rw [xp]
      refine lift p step.page_live pq c f ?_
      rw [step.kids]
      exact List.mem_append_left _ (xp ▸ mem)
    · by_cases xq : x = q
      · rw [xq] at mem ⊢
        have stays : (c, f) ∈ pre ++ post → c ∈ insert r live ∧
            Function.update level r (level p) c + 1 = level q ∧ (page' c).fences = f := by
          intro mem
          have kid : (c, f) ∈ (page q).kids := by
            rw [place]
            simp only [List.mem_append, List.mem_cons] at mem ⊢
            exact mem.imp id Or.inr
          obtain ⟨hc, lower, same⟩ := shape.kids q step.parent_live c f kid
          have cp : c ≠ p := shape.place_unique step.parent_live place (c, f) mem
          have cq : c ≠ q := fun same => by rw [same] at lower; omega
          rw [step.level_old hc, step.others c hc cp cq]
          exact ⟨by simp [hc], lower, same⟩
        rw [place', List.mem_append, List.mem_cons, List.mem_cons] at mem
        rcases mem with mem | mem | mem | mem
        · exact stays (List.mem_append_left _ mem)
        · cases mem
          exact ⟨by simp [step.page_live], by rw [step.level_old step.page_live, lq], rfl⟩
        · cases mem
          exact ⟨by simp, by rw [Function.update_self, lq], rfl⟩
        · exact stays (List.mem_append_right _ mem)
      · rw [step.others x hx xp xq] at mem
        exact lift x hx xq c f mem

theorem Shape.split_inside {p r q : P} {sep : K} (shape : Shape page root live level)
    (step : Split page page' live p r q sep) {x : P} (hx : x ∈ insert r live) {e : K × V}
    (he : e ∈ (page' x).entries) : (page' x).fences.Has e.1 := by
  rcases Finset.mem_insert.mp hx with xr | hx
  · rw [xr] at he ⊢
    have inside := shape.inside p step.page_live e (by rw [step.entries]; simp [he])
    rw [step.right]
    exact ⟨fun l hl => by cases hl; exact step.high e he, inside.2⟩
  · by_cases xp : x = p
    · rw [xp] at he ⊢
      have inside := shape.inside p step.page_live e (by rw [step.entries]; simp [he])
      rw [step.left]
      exact ⟨inside.1, fun u hu => by cases hu; exact step.low e he⟩
    · by_cases xq : x = q
      · rw [xq, inner_entries step.parent_inner] at he
        cases he
      · rw [step.others x hx xp xq] at he ⊢
        exact shape.inside x hx e he

theorem Shape.split_sorted {p r q : P} {sep : K} (shape : Shape page root live level)
    (step : Split page page' live p r q sep) {x : P} (hx : x ∈ insert r live) :
    (page' x).entries.Pairwise fun a b => a.1 ≤ b.1 := by
  have both := shape.sorted p step.page_live
  rw [step.entries, List.pairwise_append] at both
  rcases Finset.mem_insert.mp hx with xr | hx
  · rw [xr]
    exact both.2.1
  · by_cases xp : x = p
    · rw [xp]
      exact both.1
    · by_cases xq : x = q
      · rw [xq, inner_entries step.parent_inner]
        exact List.Pairwise.nil
      · rw [step.others x hx xp xq]
        exact shape.sorted x hx

theorem Shape.split_last {p r q : P} {sep : K} (shape : Shape page root live level)
    (step : Split page page' live p r q sep) {x : P} (hx : x ∈ insert r live) (leaf : (page' x).isLeaf)
    (top : (page' x).fences.upper = none) : (page' x).next = none := by
  rcases Finset.mem_insert.mp hx with xr | hx
  · rw [xr] at leaf top ⊢
    rw [step.right] at top
    have leaf := step.right_leaf.mp leaf
    rw [step.right_next leaf]
    exact shape.last p step.page_live leaf top
  · by_cases xp : x = p
    · rw [xp, step.left] at top
      cases top
    · by_cases xq : x = q
      · rw [xq] at leaf
        exact absurd leaf step.parent_inner
      · rw [step.others x hx xp xq] at leaf top ⊢
        exact shape.last x hx leaf top

theorem Shape.split_next {p r q : P} {sep : K} (shape : Shape page root live level)
    (step : Split page page' live p r q sep) {x : P} (hx : x ∈ insert r live) (leaf : (page' x).isLeaf)
    {u : K} (upper : (page' x).fences.upper = some u) :
    ∃ z ∈ insert r live, (page' x).next = some z ∧ (page' z).isLeaf ∧
      (page' z).fences.lower = some u := by
  have lower_old : ∀ y ∈ live, (page' y).fences.lower = (page y).fences.lower := by
    intro y hy
    by_cases yp : y = p
    · rw [yp, step.left]
    · by_cases yq : y = q
      · rw [yq, step.parent]
      · rw [step.others y hy yp yq]
  have lift : ∀ y ∈ live, (page y).isLeaf → (page y).fences.upper = some u →
      ∃ z ∈ insert r live, (page y).next = some z ∧ (page' z).isLeaf ∧
        (page' z).fences.lower = some u := by
    intro y hy leaf upper
    obtain ⟨z, hz, link, zl, lower⟩ := shape.next y hy leaf u upper
    exact ⟨z, by simp [hz], link, (shape.split_leaf step hz).mpr zl, (lower_old z hz).trans lower⟩
  rcases Finset.mem_insert.mp hx with xr | hx
  · rw [xr] at leaf upper ⊢
    rw [step.right] at upper
    have leaf := step.right_leaf.mp leaf
    rw [step.right_next leaf]
    exact lift p step.page_live leaf upper
  · by_cases xp : x = p
    · rw [xp] at leaf upper ⊢
      rw [step.left] at upper
      cases upper
      have leaf := step.left_leaf.mp leaf
      exact ⟨r, by simp, step.left_next leaf, step.right_leaf.mpr leaf, by rw [step.right]⟩
    · by_cases xq : x = q
      · rw [xq] at leaf
        exact absurd leaf step.parent_inner
      · rw [step.others x hx xp xq] at leaf upper ⊢
        exact lift x hx leaf upper

theorem Shape.split [Nonempty K] [NoMaxOrder K] {p r q : P} {sep : K}
    (shape : Shape page root live level) (step : Split page page' live p r q sep) :
    Shape page' root (insert r live) (Function.update level r (level p)) where
  root_live := by simp [shape.root_live]
  root_fences := by
    obtain ⟨lq, _, _, _⟩ := shape.split_levels step
    have rootq : root ≠ p := fun same => by
      have := shape.below q step.parent_live
      rw [same] at this
      omega
    by_cases isq : root = q
    · rw [isq, step.parent, ← isq, shape.root_fences]
    · rw [step.others root shape.root_live rootq isq, shape.root_fences]
  below := by
    intro x hx
    rw [step.level_old shape.root_live]
    rcases Finset.mem_insert.mp hx with xr | hx
    · rw [xr, Function.update_self]
      exact shape.below p step.page_live
    · rw [step.level_old hx]
      exact shape.below x hx
  leaf := by
    intro x hx
    rcases Finset.mem_insert.mp hx with xr | hx
    · rw [xr, Function.update_self, step.right_leaf]
      exact shape.leaf p step.page_live
    · rw [step.level_old hx, shape.split_leaf step hx]
      exact shape.leaf x hx
  proper := shape.split_proper step
  apart _ hx _ hy same _ xk yk := shape.split_apart step hx hy same xk yk
  kids _ hx _ _ mem := shape.split_children step hx mem
  inside _ hx _ he := shape.split_inside step hx he
  sorted _ hx := shape.split_sorted step hx
  last _ hx leaf top := shape.split_last step hx leaf top
  next _ hx leaf _ upper := shape.split_next step hx leaf upper

/-- Leaf `r` absorbed by its left neighbour `p` under the same parent `q`. -/
structure Merge (page page' : P → Page K V P) (live : Finset P) (p r q : P) (m : K) : Prop where
  page_live : p ∈ live
  right_live : r ∈ live
  parent_live : q ∈ live
  others : ∀ x ∈ live, x ≠ p → x ≠ q → page' x = page x
  page_leaf : (page p).isLeaf
  right_leaf : (page r).isLeaf
  upper : (page p).fences.upper = some m
  lower : (page r).fences.lower = some m
  fences : (page' p).fences = ⟨(page p).fences.lower, (page r).fences.upper⟩
  parent : (page' q).fences = (page q).fences
  parent_inner : ¬ (page' q).isLeaf
  leaf : (page' p).isLeaf
  entries : (page' p).entries = (page p).entries ++ (page r).entries
  next : (page' p).next = (page r).next
  place : ∃ pre post,
    (page q).kids = pre ++ (p, (page p).fences) :: (r, (page r).fences) :: post ∧
    (page' q).kids = pre ++ (p, (page' p).fences) :: post

namespace Merge
variable {p r q : P} {m : K} (step : Merge page page' live p r q m)
include step

omit [DecidableEq P] in
theorem has {k : K} (has : (page' p).fences.Has k) :
    (page p).fences.Has k ∨ (page r).fences.Has k := by
  rw [step.fences] at has
  rcases le_or_gt k m with low | high
  · exact Or.inl ⟨has.1, fun u hu => by rw [step.upper] at hu; cases hu; exact low⟩
  · exact Or.inr ⟨fun l hl => by rw [step.lower] at hl; cases hl; exact high, has.2⟩

end Merge

omit [DecidableEq P] in
theorem Shape.merge_levels {p r q : P} {m : K} (shape : Shape page root live level)
    (step : Merge page page' live p r q m) :
    level p + 1 = level q ∧ level r + 1 = level q ∧ p ≠ r := by
  obtain ⟨pre, post, place, _⟩ := step.place
  obtain ⟨_, lp, _⟩ := shape.kids q step.parent_live p (page p).fences (by rw [place]; simp)
  obtain ⟨_, lr, _⟩ := shape.kids q step.parent_live r (page r).fences (by rw [place]; simp)
  refine ⟨lp, lr, fun same => ?_⟩
  have := shape.proper r step.right_live m m step.lower (same ▸ step.upper)
  exact lt_irrefl m this

omit [DecidableEq P] in
theorem Shape.merge_inner {p r q : P} {m : K} (shape : Shape page root live level)
    (step : Merge page page' live p r q m) : ¬ (page q).isLeaf := by
  intro leaf
  obtain ⟨lp, _, _⟩ := shape.merge_levels step
  have := (shape.leaf q step.parent_live).mp leaf
  omega

omit [DecidableEq P] in
theorem Shape.merge_left {p r q : P} {m : K} (shape : Shape page root live level)
    (step : Merge page page' live p r q m) {l : K}
    (hl : (page p).fences.lower = some l) : l < m :=
  shape.proper p step.page_live l m hl step.upper

omit [DecidableEq P] in
theorem Shape.merge_right {p r q : P} {m : K} (shape : Shape page root live level)
    (step : Merge page page' live p r q m) {u : K}
    (hu : (page r).fences.upper = some u) : m < u :=
  shape.proper r step.right_live m u step.lower hu

theorem Shape.merge_leaf {p r q : P} {m : K} (shape : Shape page root live level)
    (step : Merge page page' live p r q m) {x : P} (hx : x ∈ live) :
    (page' x).isLeaf ↔ (page x).isLeaf := by
  by_cases xp : x = p
  · rw [xp]
    exact iff_of_true step.leaf step.page_leaf
  · by_cases xq : x = q
    · rw [xq]
      exact iff_of_false step.parent_inner (shape.merge_inner step)
    · rw [step.others x hx xp xq]

theorem Shape.merge_proper {p r q : P} {m : K} (shape : Shape page root live level)
    (step : Merge page page' live p r q m) {x : P} (hx : x ∈ live) :
    (page' x).fences.Proper := by
  by_cases xp : x = p
  · rw [xp, step.fences]
    intro l u hl hu
    exact lt_trans (shape.merge_left step hl) (shape.merge_right step hu)
  · by_cases xq : x = q
    · rw [xq, step.parent]
      exact shape.proper q step.parent_live
    · rw [step.others x hx xp xq]
      exact shape.proper x hx

omit [DecidableEq P] in
/-- A live page with a key of the merged leaf is one of the two leaves. -/
theorem Shape.merge_meets {p r q : P} {m : K} (shape : Shape page root live level)
    (step : Merge page page' live p r q m) {x : P} (hx : x ∈ live)
    (xp : x ≠ p) (xr : x ≠ r) (same : level x = level p) {k : K} (has : (page' p).fences.Has k) :
    ¬ (page x).fences.Has k := by
  intro xk
  obtain ⟨lp, lr, _⟩ := shape.merge_levels step
  rcases step.has has with pk | rk
  · exact xp (shape.apart x hx p step.page_live same k xk pk)
  · exact xr (shape.apart x hx r step.right_live (by omega) k xk rk)

theorem Shape.merge_apart {p r q : P} {m : K} (shape : Shape page root live level)
    (step : Merge page page' live p r q m) {x y : P} (hx : x ∈ live.erase r)
    (hy : y ∈ live.erase r) (same : level x = level y) {k : K} (xk : (page' x).fences.Has k)
    (yk : (page' y).fences.Has k) : x = y := by
  obtain ⟨xr, hx⟩ := Finset.mem_erase.mp hx
  obtain ⟨yr, hy⟩ := Finset.mem_erase.mp hy
  have stays : ∀ z ∈ live, z ≠ p → (page' z).fences = (page z).fences := by
    intro z hz zp
    by_cases zq : z = q
    · rw [zq, step.parent]
    · rw [step.others z hz zp zq]
  by_cases xp : x = p
  · by_cases yp : y = p
    · rw [xp, yp]
    · rw [stays y hy yp] at yk
      rw [xp] at xk same
      exact absurd yk (shape.merge_meets step hy yp yr same.symm xk)
  · rw [stays x hx xp] at xk
    by_cases yp : y = p
    · rw [yp] at yk same
      exact absurd xk (shape.merge_meets step hx xp xr same yk)
    · rw [stays y hy yp] at yk
      exact shape.apart x hx y hy same k xk yk

theorem Shape.merge_children [Nonempty K] [NoMaxOrder K] {p r q : P} {m : K}
    (shape : Shape page root live level) (step : Merge page page' live p r q m) {x : P}
    (hx : x ∈ live.erase r) {c : P} {f : Fences K} (mem : (c, f) ∈ (page' x).kids) :
    c ∈ live.erase r ∧ level c + 1 = level x ∧ (page' c).fences = f := by
  obtain ⟨pre, post, place, place'⟩ := step.place
  obtain ⟨lp, _, pr⟩ := shape.merge_levels step
  have kid_p : (p, (page p).fences) ∈ (page q).kids := by rw [place]; simp
  have kid_r : (r, (page r).fences) ∈ (page q).kids := by rw [place]; simp
  obtain ⟨xr, hx⟩ := Finset.mem_erase.mp hx
  have stays : (c, f) ∈ (page x).kids → c ≠ p → c ≠ r →
      c ∈ live.erase r ∧ level c + 1 = level x ∧ (page' c).fences = f := by
    intro kid cp cr
    obtain ⟨hc, lower, same⟩ := shape.kids x hx c f kid
    refine ⟨by simp [hc, cr], lower, ?_⟩
    by_cases cq : c = q
    · rw [cq, step.parent, ← cq, same]
    · rw [step.others c hc cp cq, same]
  by_cases xp : x = p
  · rw [xp, leaf_kids step.leaf] at mem
    cases mem
  · by_cases xq : x = q
    · rw [xq] at mem stays ⊢
      have not_r : ∀ e ∈ pre ++ post, e.1 ≠ r := by
        have place_r : (page q).kids =
            (pre ++ [(p, (page p).fences)]) ++ (r, (page r).fences) :: post := by
          rw [place]; simp
        intro e he
        refine shape.place_unique step.parent_live place_r e ?_
        simp only [List.mem_append] at he ⊢
        exact he.imp Or.inl id
      have not_p : ∀ e ∈ pre ++ post, e.1 ≠ p := by
        intro e he
        refine shape.place_unique step.parent_live place e ?_
        simp only [List.mem_append, List.mem_cons] at he ⊢
        exact he.imp id Or.inr
      rw [place', List.mem_append, List.mem_cons] at mem
      have outside : (c, f) ∈ pre ++ post → c ∈ live.erase r ∧ level c + 1 = level q ∧
          (page' c).fences = f := by
        intro mem
        refine stays ?_ (not_p _ mem) (not_r _ mem)
        rw [place]
        simp only [List.mem_append, List.mem_cons] at mem ⊢
        exact mem.imp id fun h => Or.inr (Or.inr h)
      rcases mem with mem | mem | mem
      · exact outside (List.mem_append_left _ mem)
      · cases mem
        exact ⟨by simp [step.page_live, pr], lp, rfl⟩
      · exact outside (List.mem_append_right _ mem)
    · rw [step.others x hx xp xq] at mem
      refine stays mem (fun same => ?_) (fun same => ?_)
      · exact xq (shape.parent_unique hx step.parent_live (same ▸ mem) kid_p)
      · exact xq (shape.parent_unique hx step.parent_live (same ▸ mem) kid_r)

theorem Shape.merge_inside {p r q : P} {m : K} (shape : Shape page root live level)
    (step : Merge page page' live p r q m) {x : P} (hx : x ∈ live)
    {e : K × V} (he : e ∈ (page' x).entries) : (page' x).fences.Has e.1 := by
  by_cases xp : x = p
  · rw [xp] at he ⊢
    rw [step.entries, List.mem_append] at he
    rw [step.fences]
    rcases he with he | he
    · have inside := shape.inside p step.page_live e he
      exact ⟨inside.1, fun u hu => le_trans (inside.2 m step.upper) (le_of_lt (shape.merge_right step hu))⟩
    · have inside := shape.inside r step.right_live e he
      exact ⟨fun l hl => lt_trans (shape.merge_left step hl) (inside.1 m step.lower), inside.2⟩
  · by_cases xq : x = q
    · rw [xq, inner_entries step.parent_inner] at he
      cases he
    · rw [step.others x hx xp xq] at he ⊢
      exact shape.inside x hx e he

theorem Shape.merge_sorted {p r q : P} {m : K} (shape : Shape page root live level)
    (step : Merge page page' live p r q m) {x : P} (hx : x ∈ live) :
    (page' x).entries.Pairwise fun a b => a.1 ≤ b.1 := by
  by_cases xp : x = p
  · rw [xp, step.entries, List.pairwise_append]
    refine ⟨shape.sorted p step.page_live, shape.sorted r step.right_live, fun a ha b hb => ?_⟩
    have low := (shape.inside p step.page_live a ha).2 m step.upper
    have high := (shape.inside r step.right_live b hb).1 m step.lower
    exact le_of_lt (lt_of_le_of_lt low high)
  · by_cases xq : x = q
    · rw [xq, inner_entries step.parent_inner]
      exact List.Pairwise.nil
    · rw [step.others x hx xp xq]
      exact shape.sorted x hx

theorem Shape.merge_last {p r q : P} {m : K} (shape : Shape page root live level)
    (step : Merge page page' live p r q m) {x : P} (hx : x ∈ live)
    (leaf : (page' x).isLeaf) (top : (page' x).fences.upper = none) : (page' x).next = none := by
  by_cases xp : x = p
  · rw [xp] at top ⊢
    rw [step.fences] at top
    rw [step.next]
    exact shape.last r step.right_live step.right_leaf top
  · by_cases xq : x = q
    · rw [xq] at leaf
      exact absurd leaf step.parent_inner
    · rw [step.others x hx xp xq] at leaf top ⊢
      exact shape.last x hx leaf top

theorem Shape.merge_next {p r q : P} {m : K} (shape : Shape page root live level)
    (step : Merge page page' live p r q m) {x : P}
    (hx : x ∈ live.erase r) (leaf : (page' x).isLeaf) {u : K}
    (upper : (page' x).fences.upper = some u) :
    ∃ z ∈ live.erase r, (page' x).next = some z ∧ (page' z).isLeaf ∧
      (page' z).fences.lower = some u := by
  obtain ⟨_, _, pr⟩ := shape.merge_levels step
  obtain ⟨xr, hx⟩ := Finset.mem_erase.mp hx
  have lift : ∀ y ∈ live, (page y).isLeaf → y ≠ p → (page y).fences.upper = some u →
      ∃ z ∈ live.erase r, (page y).next = some z ∧ (page' z).isLeaf ∧
        (page' z).fences.lower = some u := by
    intro y hy leaf yp upper
    obtain ⟨z, hz, link, zl, lower⟩ := shape.next y hy leaf u upper
    -- only `p` ends where `r` begins
    have zr : z ≠ r := by
      rintro rfl
      rw [step.lower] at lower
      cases lower
      have py := has_upper (shape.proper p step.page_live) step.upper
      have yy := has_upper (shape.proper y hy) upper
      have same : level y = level p := by
        rw [(shape.leaf y hy).mp leaf, (shape.leaf p step.page_live).mp step.page_leaf]
      exact yp (shape.apart y hy p step.page_live same m yy py)
    refine ⟨z, by simp [hz, zr], link, (shape.merge_leaf step hz).mpr zl, ?_⟩
    by_cases zp : z = p
    · rw [zp, step.fences]
      rwa [zp] at lower
    · by_cases zq : z = q
      · rw [zq] at zl
        exact absurd zl (shape.merge_inner step)
      · rwa [step.others z hz zp zq]
  by_cases xp : x = p
  · rw [xp] at upper ⊢
    rw [step.fences] at upper
    rw [step.next]
    exact lift r step.right_live step.right_leaf pr.symm upper
  · by_cases xq : x = q
    · rw [xq] at leaf
      exact absurd leaf step.parent_inner
    · rw [step.others x hx xp xq] at leaf upper ⊢
      exact lift x hx leaf xp upper

theorem Shape.merge [Nonempty K] [NoMaxOrder K] {p r q : P} {m : K}
    (shape : Shape page root live level) (step : Merge page page' live p r q m) :
    Shape page' root (live.erase r) level where
  root_live := by
    have rootr : root ≠ r := fun same => by
      obtain ⟨_, lr, _⟩ := shape.merge_levels step
      have := shape.below q step.parent_live
      rw [same] at this
      omega
    simp [rootr, shape.root_live]
  root_fences := by
    have rootp : root ≠ p := fun same => by
      obtain ⟨lp, _, _⟩ := shape.merge_levels step
      have := shape.below q step.parent_live
      rw [same] at this
      omega
    by_cases isq : root = q
    · rw [isq, step.parent, ← isq, shape.root_fences]
    · rw [step.others root shape.root_live rootp isq, shape.root_fences]
  below x hx := shape.below x (Finset.mem_of_mem_erase hx)
  leaf x hx := by
    have hx := Finset.mem_of_mem_erase hx
    rw [shape.merge_leaf step hx]
    exact shape.leaf x hx
  proper _ hx := shape.merge_proper step (Finset.mem_of_mem_erase hx)
  apart _ hx _ hy same _ xk yk := shape.merge_apart step hx hy same xk yk
  kids _ hx _ _ mem := shape.merge_children step hx mem
  inside _ hx _ he := shape.merge_inside step (Finset.mem_of_mem_erase hx) he
  sorted _ hx := shape.merge_sorted step (Finset.mem_of_mem_erase hx)
  last _ hx leaf top := shape.merge_last step (Finset.mem_of_mem_erase hx) leaf top
  next _ hx leaf _ upper := shape.merge_next step hx leaf upper

theorem Shape.merge_entries {p r q : P} {m : K} (shape : Shape page root live level)
    (step : Merge page page' live p r q m) (e : K × V) :
    (∃ x ∈ live.erase r, e ∈ (page' x).entries) ↔ ∃ x ∈ live, e ∈ (page x).entries := by
  obtain ⟨pre, post, place, _⟩ := step.place
  obtain ⟨_, lp, _⟩ := shape.kids q step.parent_live p (page p).fences (by rw [place]; simp)
  have inner : ¬ (page q).isLeaf := fun leaf => by
    have := (shape.leaf q step.parent_live).mp leaf
    omega
  have pr : p ≠ r := by
    intro same
    have := shape.proper r step.right_live m m step.lower (same ▸ step.upper)
    exact lt_irrefl m this
  constructor
  · rintro ⟨x, hx, mem⟩
    have hx := Finset.mem_of_mem_erase hx
    by_cases xp : x = p
    · rw [xp, step.entries, List.mem_append] at mem
      rcases mem with mem | mem
      · exact ⟨p, step.page_live, mem⟩
      · exact ⟨r, step.right_live, mem⟩
    · by_cases xq : x = q
      · rw [xq, inner_entries step.parent_inner] at mem
        cases mem
      · rw [step.others x hx xp xq] at mem
        exact ⟨x, hx, mem⟩
  · rintro ⟨x, hx, mem⟩
    by_cases xp : x = p
    · rw [xp] at mem
      refine ⟨p, by simp [pr, step.page_live], ?_⟩
      rw [step.entries]
      exact List.mem_append_left _ mem
    · by_cases xr : x = r
      · rw [xr] at mem
        refine ⟨p, by simp [pr, step.page_live], ?_⟩
        rw [step.entries]
        exact List.mem_append_right _ mem
      · by_cases xq : x = q
        · rw [xq, inner_entries inner] at mem
          cases mem
        · exact ⟨x, by simp [hx, xr], by rwa [step.others x hx xp xq]⟩

end FenceTree
