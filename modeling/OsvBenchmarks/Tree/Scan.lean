import OsvBenchmarks.Tree.Structure

/-!
The scans deliver what the map has from a key on, upwards along the links of the
leaves or downwards from one lower fence to the next, until the callback stops.
-/
namespace BTree
open FenceTree BTreeNode Outcome

section Deliver
variable {σ : Type}

/-- The callback is called on one entry after the other, as long as it says so. -/
def deliver (cb : σ → Key × Payload → σ × Bool) : σ → List (Key × Payload) → σ × Bool
  | st, [] => (st, true)
  | st, e :: es => if (cb st e).2 then deliver cb (cb st e).1 es else ((cb st e).1, false)

theorem deliver_append {cb : σ → Key × Payload → σ × Bool} {st : σ} {es fs : List (Key × Payload)} :
    deliver cb st (es ++ fs) =
      if (deliver cb st es).2 then deliver cb (deliver cb st es).1 fs else deliver cb st es := by
  induction es generalizing st with
  | nil => rfl
  | cons e es ih =>
    rw [List.cons_append, deliver, deliver]
    by_cases more : (cb st e).2 = true
    · rw [if_pos more, if_pos more, ih]
    · rw [if_neg more, if_neg more]
      rfl

end Deliver

section Leaves
variable {t : Tree} {w : ℕ} {s : Store} {live : Finset ℕ} {level : ℕ → ℕ}
variable {σ : Type} {cb : σ → Key × Payload → σ × Bool} {xs ys : List ℕ} {p : ℕ}

theorem hasLowerFence_iff {n : BTreeNode} : n.hasLowerFence = true ↔ n.getLowerFence ≠ [] := by
  have len : n.getLowerFence.length = n.lowerFence.len := bytes_length _ _ _
  rw [hasLowerFence, bne_iff_ne, ← len, ne_eq, List.length_eq_zero_iff]

theorem entries_drop {n : BTreeNode} {pos : ℕ} (inside : pos < n.count) :
    n.entries.drop pos = (n.fullKey pos, n.getPayload pos) :: n.entries.drop (pos + 1) := by
  have here : pos < n.entries.length := by rwa [entries_length]
  have same := fullKey_eq inside
  rw [List.getElem?_eq_getElem here] at same
  rw [List.drop_eq_getElem_cons here, Option.some.inj same]

section Ascending
variable {fn : σ → BTreeNode → ℕ → σ × Bool}
  (calls : ∀ st n pos, fn st n pos = cb st (n.fullKey pos, n.getPayload pos))
include calls

theorem scanAscFrom_leaf {rest : List (Key × Payload)}
    (behind : ∀ st, Settles (fun fuel => Tree.scanAscFrom s fn fuel p (s.page p).count st)
      (done (deliver cb st rest).1)) {pos : ℕ} (le : pos ≤ (s.page p).count) (st : σ) :
    Settles (fun fuel => Tree.scanAscFrom s fn fuel p pos st)
      (done (deliver cb st ((s.page p).entries.drop pos ++ rest)).1) := by
  obtain ⟨d, sum⟩ := Nat.exists_eq_add_of_le le
  induction d generalizing pos st with
  | zero =>
    have last : (s.page p).entries.drop pos = [] := List.drop_of_length_le (by rw [entries_length]; omega)
    rw [last, ← show (s.page p).count = pos by omega]
    exact behind st
  | succ d ih =>
    have inside : pos < (s.page p).count := by omega
    rw [entries_drop inside, List.cons_append, deliver]
    apply Settles.succ
    by_cases more : (cb st ((s.page p).fullKey pos, (s.page p).getPayload pos)).2 = true
    · simp only [Tree.scanAscFrom, if_pos inside, calls, if_pos more]
      exact ih (by omega) _ (by omega)
    · simp only [Tree.scanAscFrom, if_pos inside, calls, if_neg more]
      exact settles_const _

theorem scanAscFrom_settles (leaves : Leaves s.view live (xs ++ p :: ys)) {pos : ℕ}
    (le : pos ≤ (s.page p).count) (st : σ) :
    Settles (fun fuel => Tree.scanAscFrom s fn fuel p pos st)
      (done (deliver cb st ((s.page p).entries.drop pos ++ listing s.view ys)).1) := by
  induction ys generalizing xs p pos st with
  | nil =>
    have leaf := view_isLeaf.mp ((leaves.mem p).mp (by simp)).2
    have last := no_link leaf (leaves_last leaves)
    apply scanAscFrom_leaf calls ?_ le
    intro st
    apply Settles.succ
    simp only [Tree.scanAscFrom, if_neg (lt_irrefl _), last, if_neg Bool.false_ne_true]
    exact settles_const _
  | cons q ys ih =>
    have leaf := view_isLeaf.mp ((leaves.mem p).mp (by simp)).2
    have leaf' := view_isLeaf.mp ((leaves.mem q).mp (by simp)).2
    obtain ⟨right, link, _⟩ := follows_link leaf (leaves_after leaves)
    apply scanAscFrom_leaf calls ?_ le
    intro st
    apply Settles.succ
    simp only [Tree.scanAscFrom, if_neg (lt_irrefl _), right, if_true, link]
    rw [listing_cons, Store.view, view_entries leaf', ← List.drop_zero (l := (s.page q).entries)]
    exact @ih (xs ++ [p]) q (by rwa [List.append_assoc]) 0 (Nat.zero_le _) st

end Ascending

section Descending
variable {fn : σ → BTreeNode → ℕ → Bool → σ × Bool} {exactMatch : Bool}
  (calls : ∀ st n pos, fn st n pos exactMatch = cb st (n.fullKey pos, n.getPayload pos))
include calls

theorem descLeaf_deliver {n : BTreeNode} {pos : ℕ} (le : pos ≤ n.count) (st : σ) :
    Tree.descLeaf n fn exactMatch pos st = deliver cb st (n.entries.take pos).reverse := by
  induction pos generalizing st with
  | zero => rfl
  | succ pos ih =>
    have here := fullKey_eq (n := n) (i := pos) (by omega)
    rw [List.take_add_one, here, Option.toList_some, List.reverse_append, List.reverse_singleton,
      List.singleton_append, deliver]
    by_cases more : (cb st (n.fullKey pos, n.getPayload pos)).2 = true
    · simp only [Tree.descLeaf, calls, if_pos more]
      exact ih (by omega) _
    · simp only [Tree.descLeaf, calls, if_neg more]

theorem scanDescFrom_eq {fuel pos : ℕ} (le : pos ≤ (s.page p).count) (st : σ) :
    t.scanDescFrom s fn exactMatch (fuel + 1) p pos st =
      if (deliver cb st ((s.page p).entries.take pos).reverse).2 = true ∧ (s.page p).hasLowerFence = true then
        t.findLeaf fuel s (s.page p).getLowerFence >>= fun node =>
          t.scanDescFrom s fn exactMatch fuel node (s.page node).count
            (deliver cb st ((s.page p).entries.take pos).reverse).1
      else done (deliver cb st ((s.page p).entries.take pos).reverse).1 := by
  rw [Tree.scanDescFrom]
  dsimp only
  rw [descLeaf_deliver calls le]
  rfl

theorem WellFormed.scanDescFrom (wf : WellFormed t w s live level)
    (leaves : Leaves s.view live (xs ++ p :: ys)) {pos : ℕ} (le : pos ≤ (s.page p).count) (st : σ) :
    Settles (fun fuel => t.scanDescFrom s fn exactMatch fuel p pos st)
      (done (deliver cb st (((s.page p).entries.take pos).reverse ++ (listing s.view xs).reverse)).1) := by
  induction xs using List.reverseRecOn generalizing p ys pos st with
  | nil =>
    have none : (s.page p).hasLowerFence = false := Bool.eq_false_iff.mpr fun some =>
      hasLowerFence_iff.mp some (bound_eq_none.mp (leaves_first leaves))
    apply Settles.succ
    simp only [scanDescFrom_eq calls le, none, Bool.false_eq_true, and_false, if_false]
    rw [listing_nil, List.reverse_nil, List.append_nil]
    exact settles_const _
  | append_singleton xs q ih =>
    have leaves' : Leaves s.view live (xs ++ q :: p :: ys) := by rwa [List.append_assoc] at leaves
    obtain ⟨hq, leaf⟩ := (leaves'.mem q).mp (by simp)
    have isLeaf := view_isLeaf.mp leaf
    obtain ⟨_, _, upper, some⟩ := follows_link isLeaf (leaves_after leaves')
    have lower : (s.page p).hasLowerFence = true := hasLowerFence_iff.mpr some
    have has : (s.view q).fences.Has (s.page p).getLowerFence :=
      has_upper (wf.shape.proper q hq) (bound_eq_some.mpr ⟨upper, some⟩)
    have finds := wf.finds hq ((wf.rooted.leaf hq).mp isLeaf) has
    have all : (s.page q).entries.take (s.page q).count = (s.page q).entries :=
      List.take_of_length_le (le_of_eq entries_length)
    apply Settles.succ
    simp only [scanDescFrom_eq calls le, lower, and_true]
    rw [deliver_append]
    by_cases more : (deliver cb st ((s.page p).entries.take pos).reverse).2 = true
    · simp only [if_pos more]
      refine finds.bind ?_
      have whole := ih leaves' (le_refl _) (deliver cb st ((s.page p).entries.take pos).reverse).1
      rw [all] at whole
      rw [listing_append, List.reverse_append, listing_cons, listing_nil, List.append_nil, Store.view,
        view_entries isLeaf]
      exact whole
    · simp only [if_neg more]
      exact settles_const _

end Descending

end Leaves

section Adapter
variable {σ : Type} {cb : σ → Key × Payload → σ × Bool}

/-- The callback of vmcacheAdapter::scanDesc: a first entry that is no exact match is skipped. -/
def skipFirst (cb : σ → Key × Payload → σ × Bool) (exactMatch : Bool) (st : Bool × σ) (e : Key × Payload) :
    (Bool × σ) × Bool :=
  if st.1 && !exactMatch then ((false, st.2), true) else ((false, (cb st.2 e).1), (cb st.2 e).2)

theorem adapterScanDesc_eq (cb : σ → Key × Payload → σ × Bool) {t : Tree} {s : Store} {fuel p pos : ℕ} {key : Key} {exactMatch : Bool}
    (finds : t.findLeaf fuel s key = done p) (search : (s.page p).lowerBound key = (pos, exactMatch)) (st : σ) :
    t.adapterScanDesc fuel s key cb st =
      (if pos = (s.page p).count then
        t.scanDescFrom s (fun x n slot exact_ => skipFirst cb exact_ x (n.fullKey slot, n.getPayload slot))
          true fuel p pos (true, st)
      else
        t.scanDescFrom s (fun x n slot exact_ => skipFirst cb exact_ x (n.fullKey slot, n.getPayload slot))
          exactMatch fuel p (pos + 1) (true, st)) >>= fun x => done x.2 := by
  rw [Tree.adapterScanDesc, Tree.scanDesc, finds, done_bind]
  dsimp only
  rw [search]
  rfl

theorem deliver_skipFirst {exactMatch first : Bool} (goes : (first && !exactMatch) = false) (st : σ)
    (es : List (Key × Payload)) :
    (deliver (skipFirst cb exactMatch) (first, st) es).1.2 = (deliver cb st es).1 := by
  induction es generalizing first st with
  | nil => rfl
  | cons e es ih =>
    rw [deliver, deliver, skipFirst, goes, if_neg Bool.false_ne_true]
    split
    · exact ih (Bool.false_and _) _
    · rfl

end Adapter

section
variable {t : Tree} {w : ℕ} {s : Store} {live : Finset ℕ} {level : ℕ → ℕ} {p : ℕ} {key : Key}
variable (wf : WellFormed t w s live level)
include wf

theorem WellFormed.strict : ∀ p ∈ live, (s.view p).entries.Pairwise fun a b => a.1 < b.1 := by
  intro p hp
  cases leaf : (s.page p).isLeaf with
  | true =>
    rw [Store.view, view_entries leaf]
    exact (wf.formed p hp).sorted
  | false =>
    rw [Store.view, inner_entries fun there => by rw [view_isLeaf, leaf] at there; cases there]
    exact List.Pairwise.nil

/-- What the leaf of a key and the leaves on both sides have of it. -/
theorem WellFormed.parts {xs ys : List ℕ} (leaves : Leaves s.view live (xs ++ p :: ys))
    (has : (s.view p).fences.Has key) :
    listing s.view (xs ++ p :: ys) =
      (listing s.view xs ++ (s.page p).entries.take ((s.page p).lowerBound key).1) ++
        ((s.page p).entries.drop ((s.page p).lowerBound key).1 ++ listing s.view ys) ∧
    (∀ e ∈ listing s.view xs ++ (s.page p).entries.take ((s.page p).lowerBound key).1, e.1 < key) ∧
    ∀ e ∈ (s.page p).entries.drop ((s.page p).lowerBound key).1 ++ listing s.view ys, key ≤ e.1 := by
  obtain ⟨hp, leaf⟩ := (leaves.mem p).mp (by simp)
  have isLeaf := view_isLeaf.mp leaf
  have formed := wf.formed p hp
  obtain ⟨ahead, behind⟩ := wf.shape.listing_sides leaves has
  have place := lowerBound_place formed.valid (formed.sorted.imp fun h => le_of_lt h) key
  have low := lowerBound_low formed.valid formed.sorted key
  refine ⟨?_, ?_, ?_⟩
  · have entries : (s.view p).entries = (s.page p).entries := view_entries isLeaf
    rw [listing_append, listing_cons, entries, List.append_assoc, ← List.append_assoc (List.take _ _),
      List.take_append_drop]
  · intro e mem
    exact (List.mem_append.mp mem).elim (ahead e) (low e)
  · intro e mem
    exact (List.mem_append.mp mem).elim (place.high e) fun there => le_of_lt (behind e there)

end

/-- Where a list is cut at a key, the part from the key on is one filter of it. -/
theorem filter_from {es fs : List (Key × Payload)} {key : Key} (low : ∀ e ∈ es, e.1 < key)
    (high : ∀ e ∈ fs, key ≤ e.1) : (es ++ fs).filter (fun e => decide (key ≤ e.1)) = fs := by
  have none : es.filter (fun e => decide (key ≤ e.1)) = [] :=
    List.filter_eq_nil_iff.mpr fun e mem => by simpa using low e mem
  have all : fs.filter (fun e => decide (key ≤ e.1)) = fs :=
    List.filter_eq_self.mpr fun e mem => by simpa using high e mem
  rw [List.filter_append, none, all, List.nil_append]

theorem filter_to {es fs : List (Key × Payload)} {key : Key} (low : ∀ e ∈ es, e.1 ≤ key)
    (high : ∀ e ∈ fs, key < e.1) : (es ++ fs).filter (fun e => decide (e.1 ≤ key)) = es := by
  have all : es.filter (fun e => decide (e.1 ≤ key)) = es :=
    List.filter_eq_self.mpr fun e mem => by simpa using low e mem
  have none : fs.filter (fun e => decide (e.1 ≤ key)) = [] :=
    List.filter_eq_nil_iff.mpr fun e mem => by simpa using high e mem
  rw [List.filter_append, none, all, List.append_nil]

section
variable {t : Tree} {w : ℕ} {s : Store} {live : Finset ℕ} {level : ℕ → ℕ} {ps : List ℕ}
variable {σ : Type} (cb : σ → Key × Payload → σ × Bool) (wf : WellFormed t w s live level)
include wf

theorem WellFormed.adapterScan (leaves : Leaves s.view live ps) (key : Key) (st : σ) :
    Settles (fun fuel => t.adapterScan fuel s key cb st)
      (done (deliver cb st ((listing s.view ps).filter fun e => decide (key ≤ e.1))).1) := by
  obtain ⟨p, hp, leaf, has, finds⟩ := wf.findLeaf key
  obtain ⟨xs, ys, rfl⟩ := List.append_of_mem ((leaves.mem p).mpr ⟨hp, (wf.shape.leaf p hp).mpr leaf⟩)
  obtain ⟨split, low, high⟩ := wf.parts leaves has
  have le := (lowerBound_children (wf.formed p hp).valid (wf.formed p hp).sorted key).1
  rw [split, filter_from low high]
  exact finds.bind (scanAscFrom_settles (fun _ _ _ => rfl) leaves le st)

theorem WellFormed.adapterScanDesc (leaves : Leaves s.view live ps) (key : Key) (st : σ) :
    Settles (fun fuel => t.adapterScanDesc fuel s key cb st)
      (done (deliver cb st ((listing s.view ps).filter fun e => decide (e.1 ≤ key)).reverse).1) := by
  obtain ⟨p, hp, leaf, has, finds⟩ := wf.findLeaf key
  obtain ⟨xs, ys, rfl⟩ := List.append_of_mem ((leaves.mem p).mpr ⟨hp, (wf.shape.leaf p hp).mpr leaf⟩)
  obtain ⟨split, low, high⟩ := wf.parts leaves has
  have formed := wf.formed p hp
  have le := (lowerBound_children formed.valid formed.sorted key).1
  have found := wf.found hp leaf has
  obtain ⟨ahead, behind⟩ := wf.shape.listing_sides leaves has
  have from_ : ∀ (pos : ℕ) (exactMatch : Bool), pos ≤ (s.page p).count →
      Settles (fun fuel => t.scanDescFrom s
        (fun x n slot exact_ => skipFirst cb exact_ x (n.fullKey slot, n.getPayload slot)) exactMatch fuel p
          pos (true, st) >>= fun x => done x.2)
        (done (deliver (skipFirst cb exactMatch) (true, st)
          (((s.page p).entries.take pos).reverse ++ (listing s.view xs).reverse)).1.2) :=
    fun _ _ le => (wf.scanDescFrom (fun _ _ _ => rfl) leaves le (true, st)).bind (settles_const _)
  rcases search : (s.page p).lowerBound key with ⟨pos, exactMatch⟩
  rw [search] at low high le split found
  rw [split]
  have eq := finds.mono fun fuel finds => adapterScanDesc_eq cb finds search st
  cases exactMatch with
  | true =>
    obtain ⟨inside, same, _⟩ := found
    simp only at inside same
    have sorted := wf.shape.listing_sorted leaves wf.strict
    have here := entries_drop inside
    have taken : (s.page p).entries.take (pos + 1) =
        (s.page p).entries.take pos ++ [((s.page p).fullKey pos, (s.page p).getPayload pos)] := by
      rw [List.take_add_one, fullKey_eq inside]
      rfl
    rw [same] at here taken
    rw [split, here, List.cons_append, List.pairwise_append, List.pairwise_cons] at sorted
    obtain ⟨_, ⟨above, _⟩, _⟩ := sorted
    have upto : ∀ e ∈ listing s.view xs ++ (s.page p).entries.take (pos + 1), e.1 ≤ key := by
      intro e mem
      rw [taken, ← List.append_assoc, List.mem_append, List.mem_singleton] at mem
      rcases mem with mem | rfl
      · exact le_of_lt (low e mem)
      · exact le_refl _
    have cut : (listing s.view xs ++ (s.page p).entries.take pos) ++
        ((s.page p).entries.drop pos ++ listing s.view ys) =
          (listing s.view xs ++ (s.page p).entries.take (pos + 1)) ++
            ((s.page p).entries.drop (pos + 1) ++ listing s.view ys) := by
      rw [taken, here]
      simp only [List.append_assoc, List.cons_append, List.nil_append]
    rw [cut, filter_to upto above, List.reverse_append]
    filter_upwards [eq, from_ (pos + 1) true inside] with fuel first rest
    rw [first, if_neg (Nat.ne_of_lt inside), rest, deliver_skipFirst rfl]
  | false =>
    -- no entry has the key, so what is not below it is above
    have above : ∀ e ∈ (s.page p).entries.drop pos ++ listing s.view ys, key < e.1 := by
      intro e mem
      refine lt_of_le_of_ne (high e mem) fun same => found e.2 ?_
      rw [same]
      exact (leaves_listing leaves).mp (split ▸ List.mem_append_right _ mem)
    rw [filter_to (fun e mem => le_of_lt (low e mem)) above, List.reverse_append]
    by_cases last : pos = (s.page p).count
    · filter_upwards [eq, from_ pos true le] with fuel here there
      rw [here, if_pos last, there, deliver_skipFirst rfl]
    · have inside : pos < (s.page p).count := lt_of_le_of_ne le last
      have skipped : ((s.page p).entries.take (pos + 1)).reverse =
          ((s.page p).fullKey pos, (s.page p).getPayload pos) :: ((s.page p).entries.take pos).reverse := by
        rw [List.take_add_one, fullKey_eq inside, Option.toList_some, List.reverse_append,
          List.reverse_singleton, List.singleton_append]
      filter_upwards [eq, from_ (pos + 1) false inside] with fuel here there
      rw [here, if_neg last, there, skipped, List.cons_append, deliver, skipFirst]
      exact congrArg done (deliver_skipFirst rfl st _)

end

/-- Both scans deliver what the map has on their side of the search key, each entry once and in
order, until the callback stops them, and they end. -/
def ScansAgree (t : Tree) (s : Store) (m : Map) : Prop :=
  ∃ es : List (Key × Payload), (es.Pairwise fun a b => a.1 < b.1) ∧
    (∀ k v, (k, v) ∈ es ↔ m.lookup k = some v) ∧
    ∀ (key : Key) (σ : Type) (cb : σ → Key × Payload → σ × Bool) (st : σ),
      Settles (fun fuel => t.adapterScan fuel s key cb st)
        (done (deliver cb st (es.filter fun e => decide (key ≤ e.1))).1) ∧
      Settles (fun fuel => t.adapterScanDesc fuel s key cb st)
        (done (deliver cb st (es.filter fun e => decide (e.1 ≤ key)).reverse).1)

theorem Represents.scans {t : Tree} {w : ℕ} {s : Store} {m : Map} (represents : Represents t w s m) :
    ScansAgree t s m := by
  obtain ⟨live, level, wf, content⟩ := represents
  obtain ⟨ps, leaves⟩ := wf.leaves
  refine ⟨listing s.view ps, wf.shape.listing_sorted leaves wf.strict, fun k v => ?_, fun key σ cb st => ?_⟩
  · rw [← content]
    exact leaves_listing leaves
  · exact ⟨wf.adapterScan cb leaves key st, wf.adapterScanDesc cb leaves key st⟩

/-- The scans of a tree agree with its map. -/
theorem scans_agree {t : Tree} {w : ℕ} {calls : List Call} {s : Store} (made : Made t w calls s) :
    ScansAgree t s (calls.foldl Map.after ∅) :=
  made.represents.scans

theorem scans_agree_split : ∃ s, Made ⟨0, false⟩ 900 splitLeaf s ∧
    ScansAgree ⟨0, false⟩ s (splitLeaf.foldl Map.after ∅) := by
  obtain ⟨s, made⟩ := splitLeaf_made
  exact ⟨s, made, scans_agree made⟩

end BTree
