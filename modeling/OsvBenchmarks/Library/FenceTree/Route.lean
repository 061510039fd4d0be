import OsvBenchmarks.Library.FenceTree.Shape

/-!
The way to a key: at every inner page the separators single out one child, and
it is known by its place among the children.
-/
namespace FenceTree
variable {K V P : Type*}

def after : Option K → List (K × P) → Option K
  | lo, [] => lo
  | _, (k, _) :: rest => after (some k) rest

def front : Option K → List (K × P) → List (P × Fences K)
  | _, [] => []
  | lo, (k, c) :: rest => (c, ⟨lo, some k⟩) :: front (some k) rest

theorem front_length (lo : Option K) (xs : List (K × P)) : (front lo xs).length = xs.length := by
  induction xs generalizing lo with
  | nil => rfl
  | cons x xs ih => simp [front, ih]

theorem spans_last (lo : Option K) (xs : List (K × P)) (last : P) (hi : Option K) :
    spans lo xs last hi = front lo xs ++ [(last, ⟨after lo xs, hi⟩)] := by
  induction xs generalizing lo with
  | nil => rfl
  | cons x xs ih => simp [spans, front, after, ih]

theorem spans_at (lo : Option K) (xs : List (K × P)) (k : K) (c : P) (ys : List (K × P))
    (last : P) (hi : Option K) : spans lo (xs ++ (k, c) :: ys) last hi =
      front lo xs ++ (c, ⟨after lo xs, some k⟩) :: spans (some k) ys last hi := by
  rw [spans_append, spans_last, List.append_assoc]
  rfl

@[simp] theorem after_concat (lo : Option K) (xs : List (K × P)) (k : K) (c : P) :
    after lo (xs ++ [(k, c)]) = some k := by
  induction xs generalizing lo with
  | nil => rfl
  | cons x xs ih => simp [after, ih]

theorem spans_place {lo hi : Option K} {cs : List (K × P)} {last c : P} {f : Fences K}
    {pre post : List (P × Fences K)} (split : spans lo cs last hi = pre ++ (c, f) :: post) :
    pre = front lo (cs.take pre.length) ∧ f.lower = after lo (cs.take pre.length) ∧
      ((pre.length = cs.length ∧ c = last ∧ f.upper = hi ∧ post = []) ∨
        ∃ u, cs[pre.length]? = some (u, c) ∧ f.upper = some u ∧
          post = spans (some u) (cs.drop (pre.length + 1)) last hi) := by
  induction pre generalizing lo cs with
  | nil =>
    cases cs with
    | nil =>
      simp only [spans, List.nil_append, List.cons.injEq, Prod.mk.injEq] at split
      obtain ⟨⟨rfl, rfl⟩, rfl⟩ := split
      exact ⟨rfl, rfl, Or.inl ⟨rfl, rfl, rfl, rfl⟩⟩
    | cons x cs =>
      obtain ⟨k, c₀⟩ := x
      simp only [spans, List.nil_append, List.cons.injEq, Prod.mk.injEq] at split
      obtain ⟨⟨rfl, rfl⟩, rfl⟩ := split
      exact ⟨rfl, rfl, Or.inr ⟨k, rfl, rfl, rfl⟩⟩
  | cons e pre ih =>
    cases cs with
    | nil => simp [spans] at split
    | cons x cs =>
      obtain ⟨k, c₀⟩ := x
      simp only [spans, List.cons_append, List.cons.injEq] at split
      obtain ⟨rfl, rest⟩ := split
      obtain ⟨before, lower, behind⟩ := ih rest
      refine ⟨?_, lower, ?_⟩
      · rw [List.length_cons, List.take_succ_cons, front, ← before]
      · rcases behind with ⟨len, last⟩ | ⟨u, here, behind⟩
        · exact Or.inl ⟨by rw [List.length_cons, List.length_cons, len], last⟩
        · exact Or.inr ⟨u, by simpa using here, by simpa using behind⟩

variable [LinearOrder K]

theorem after_lt {lo : Option K} {xs : List (K × P)} {k : K} (above : ∀ l, lo = some l → l < k)
    (left : ∀ e ∈ xs, e.1 < k) : ∀ l, after lo xs = some l → l < k := by
  induction xs generalizing lo with
  | nil => exact above
  | cons x xs ih =>
    obtain ⟨k₀, c₀⟩ := x
    apply ih
    · intro l same
      cases same
      exact left (k₀, c₀) (by simp)
    · exact fun e mem => left e (by simp [mem])

structure Routed (page : P → Page K V P) (p c : P) (k : K) (i : ℕ) : Prop where
  has : (page c).fences.Has k
  place : ∃ pre post, (page p).kids = pre ++ (c, (page c).fences) :: post ∧ pre.length = i

section
variable {page : P → Page K V P} {root : P} {live : Finset P} {level : P → ℕ}
  (shape : Shape page root live level)
include shape

theorem Shape.routed {p : P} (hp : p ∈ live) {k : K} (has : (page p).fences.Has k)
    {xs ys : List (K × P)} {last : P} (body : (page p).body = .inner (xs ++ ys) last)
    (left : ∀ e ∈ xs, e.1 < k) (right : ∀ e ∈ ys, k ≤ e.1) :
    let c := (ys.head?.map Prod.snd).getD last
    c ∈ live ∧ level c + 1 = level p ∧ Routed page p c k xs.length := by
  have kids : (page p).kids = spans (page p).fences.lower (xs ++ ys) last (page p).fences.upper := by
    simp [Page.kids, body]
  have low := after_lt has.1 left
  cases ys with
  | nil =>
    rw [List.append_nil, spans_last] at kids
    obtain ⟨live_c, lower, same⟩ := shape.kids p hp last
      ⟨after (page p).fences.lower xs, (page p).fences.upper⟩ (by rw [kids]; simp)
    refine ⟨live_c, lower, ?_, front (page p).fences.lower xs, [], ?_, front_length _ _⟩
    · rw [List.head?_nil, Option.map_none, Option.getD_none, same]
      exact ⟨low, has.2⟩
    · rw [kids, List.head?_nil, Option.map_none, Option.getD_none, same]
  | cons y ys =>
    obtain ⟨u, c⟩ := y
    rw [spans_at] at kids
    obtain ⟨live_c, lower, same⟩ := shape.kids p hp c
      ⟨after (page p).fences.lower xs, some u⟩ (by rw [kids]; simp)
    refine ⟨live_c, lower, ?_, front (page p).fences.lower xs,
      spans (some u) ys last (page p).fences.upper, ?_, front_length _ _⟩
    · rw [List.head?_cons, Option.map_some, Option.getD_some, same]
      refine ⟨low, fun v hv => ?_⟩
      cases hv
      exact right (u, c) (by simp)
    · rw [kids, List.head?_cons, Option.map_some, Option.getD_some, same]

theorem Shape.leaf_unique {p q : P} (hp : p ∈ live) (hq : q ∈ live) (pl : (page p).isLeaf)
    (ql : (page q).isLeaf) {k : K} (pk : (page p).fences.Has k) (qk : (page q).fences.Has k) :
    p = q := by
  have level_p := (shape.leaf p hp).mp pl
  have level_q := (shape.leaf q hq).mp ql
  exact shape.apart p hp q hq (level_p.trans level_q.symm) k pk qk

end
end FenceTree
