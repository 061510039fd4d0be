import Mathlib.Algebra.BigOperators.Group.List.Basic
import Mathlib.Algebra.Ring.Nat
import Mathlib.Data.List.Sort

/-!
enqueue_prefetch: the pages of a byte range that are not in the cache are handed
to uCache, as far as the requests in flight leave room. u64 arithmetic wraps;
the states of a buffer are uCache's, of which only Uncached is told apart.
-/
namespace Duckdb

/-- uCacheManager: the counter of each CPU is a signed int, and a CPU has an unsigned id. -/
structure UCacheManager where
  per_cpu_inflight_count : List Int
  prefetch_batch : ℕ
  ints : ∀ v ∈ per_cpu_inflight_count, v < 2 ^ 31
  cpus : per_cpu_inflight_count.length ≤ 2 ^ 32

/-- The state that updateSnapshot reads of each buffer, in page order. -/
structure VMA (State : Type) where
  pageSize : ℕ
  buffers : List State
  positive : 0 < pageSize

namespace UCacheManager
variable (m : UCacheManager)

def total_inflight : ℕ := m.per_cpu_inflight_count.foldl
  (fun total v => if v > 0 then (total + v.toNat) % 2 ^ 64 else total) 0

def busy : ℕ := (m.per_cpu_inflight_count.map Int.toNat).sum

end UCacheManager

namespace VMA
variable {State : Type} [DecidableEq State] (vma : VMA State) (Uncached : State)

/-- The loop over the pages; the first argument bounds its turns. -/
def collect (last max_new : ℕ) : ℕ → ℕ → List ℕ → List ℕ
  | 0, _, pl => pl
  | turns + 1, i, pl =>
    if i ≤ last ∧ i < vma.buffers.length then
      if pl.length ≥ max_new then pl
      else
        collect last max_new turns (i + 1)
          (if vma.buffers[i]? = some Uncached then pl ++ [i] else pl)
    else pl

/-- The bytes asked of ensureFreePages and the buffers given to prefetch, if they are called. -/
def enqueue_prefetch (uCacheManager : Option UCacheManager) (pos len : ℕ) :
    Option (ℕ × List ℕ) :=
  match uCacheManager with
  | none => none
  | some m =>
    if len = 0 then none
    else if m.total_inflight ≥ m.prefetch_batch then none
    else
      let max_new := m.prefetch_batch - m.total_inflight
      let first := pos / vma.pageSize
      let last := (pos + len - 1) % 2 ^ 64 / vma.pageSize
      let pl := vma.collect Uncached last max_new vma.buffers.length first []
      if pl = [] then none else some (vma.pageSize * pl.length % 2 ^ 64, pl)

/-- The page has a byte of the range. -/
def Intersects (pos len i : ℕ) : Prop :=
  max pos (vma.pageSize * i) < min (pos + len) (vma.pageSize * (i + 1))

instance (pos len i : ℕ) : Decidable (vma.Intersects pos len i) := by
  unfold Intersects
  infer_instance

/-- The pages of the range that are not in the cache, ascending. -/
def missing (pos len : ℕ) : List ℕ := (List.range vma.buffers.length).filter fun i =>
  vma.buffers[i]? = some Uncached ∧ vma.Intersects pos len i

def due (m : UCacheManager) (pos len : ℕ) : List ℕ :=
  (vma.missing Uncached pos len).take (m.prefetch_batch - m.busy)

end VMA

theorem total_inflight_eq (m : UCacheManager) : m.total_inflight = m.busy := by
  have counts : ∀ (vs : List Int) (total : ℕ), (∀ v ∈ vs, v < 2 ^ 31) →
      total + vs.length * 2 ^ 31 < 2 ^ 64 →
      vs.foldl (fun total v => if v > 0 then (total + v.toNat) % 2 ^ 64 else total) total =
        total + (vs.map Int.toNat).sum := by
    intro vs
    induction vs with
    | nil => simp
    | cons v vs ih =>
      intro total ints room
      have small := ints v (by simp)
      rw [List.length_cons] at room
      have next : (if v > 0 then (total + v.toNat) % 2 ^ 64 else total) = total + v.toNat := by
        split <;> omega
      rw [List.foldl_cons, next, ih _ (fun w hw => ints w (List.mem_cons_of_mem _ hw)) (by omega),
        List.map_cons, List.sum_cons]
      omega
  have cpus := m.cpus
  rw [UCacheManager.total_inflight, UCacheManager.busy, counts _ _ m.ints (by omega)]
  omega

namespace VMA
variable {State : Type} [DecidableEq State] {vma : VMA State} {Uncached : State}

/-- The loop collects the wanted pages up to the last one, until there are enough. -/
theorem collect_eq {last max_new turns i : ℕ} {pl : List ℕ}
    (enough : min (last + 1) vma.buffers.length ≤ i + turns) :
    vma.collect Uncached last max_new turns i pl =
      pl ++ ((List.range' i (min (last + 1) vma.buffers.length - i)).filter fun i =>
        vma.buffers[i]? = some Uncached).take (max_new - pl.length) := by
  induction turns generalizing i pl with
  | zero =>
    have none : min (last + 1) vma.buffers.length - i = 0 := by omega
    simp [collect, none]
  | succ turns ih =>
    unfold collect
    by_cases more : i ≤ last ∧ i < vma.buffers.length
    · obtain ⟨k, count⟩ : ∃ k, min (last + 1) vma.buffers.length - i = k + 1 :=
        ⟨_, (Nat.succ_pred_eq_of_pos (by omega)).symm⟩
      have rest : min (last + 1) vma.buffers.length - (i + 1) = k := by omega
      rw [if_pos more, count, List.range'_succ]
      by_cases full : pl.length ≥ max_new
      · rw [if_pos full, Nat.sub_eq_zero_of_le full]
        simp
      · obtain ⟨room, left⟩ : ∃ room, max_new - pl.length = room + 1 :=
          ⟨_, (Nat.succ_pred_eq_of_pos (by omega)).symm⟩
        rw [if_neg full, ih (by omega), rest, left]
        by_cases here : vma.buffers[i]? = some Uncached
        · have less : max_new - (pl ++ [i]).length = room := by
            rw [List.length_append, List.length_singleton]
            omega
          rw [if_pos here, List.filter_cons_of_pos (by simpa using here), List.take_succ_cons, less,
            List.append_assoc, List.singleton_append]
        · rw [if_neg here, List.filter_cons_of_neg (by simpa using here), left]
    · have none : min (last + 1) vma.buffers.length - i = 0 := by omega
      simp [more, none]

omit [DecidableEq State] in
theorem intersects_iff {pos len i : ℕ} (some : 0 < len) :
    vma.Intersects pos len i ↔ pos / vma.pageSize ≤ i ∧ i ≤ (pos + len - 1) / vma.pageSize := by
  have positive := vma.positive
  have first : pos / vma.pageSize ≤ i ↔ pos < vma.pageSize * (i + 1) := by
    rw [← Nat.lt_succ_iff, Nat.div_lt_iff_lt_mul positive, Nat.mul_comm]
  have last : i ≤ (pos + len - 1) / vma.pageSize ↔ vma.pageSize * i ≤ pos + len - 1 := by
    rw [Nat.le_div_iff_mul_le positive, Nat.mul_comm]
  have wide : vma.pageSize * (i + 1) = vma.pageSize * i + vma.pageSize := Nat.mul_succ _ _
  rw [first, last, Intersects]
  omega

/-- The pages between the first and the last one are those that the range intersects. -/
theorem missing_eq {pos len : ℕ} (some : 0 < len) :
    vma.missing Uncached pos len =
      (List.range' (pos / vma.pageSize)
        (min ((pos + len - 1) / vma.pageSize + 1) vma.buffers.length - pos / vma.pageSize)).filter
        fun i => vma.buffers[i]? = Option.some Uncached := by
  apply List.Pairwise.eq_of_mem_iff (r := (· < ·))
  · exact List.pairwise_lt_range.filter _
  · exact List.Pairwise.filter _ List.pairwise_lt_range'
  · intro i
    simp only [missing, List.mem_filter, List.mem_range, List.mem_range'_1, decide_eq_true_eq,
      intersects_iff some]
    constructor
    · rintro ⟨inside, uncached, first, last⟩
      exact ⟨by omega, uncached⟩
    · rintro ⟨range, uncached⟩
      exact ⟨by omega, uncached, by omega, by omega⟩

omit [DecidableEq State] in
theorem intersects_none {pos i : ℕ} : ¬ vma.Intersects pos 0 i := by
  unfold Intersects
  omega

theorem missing_none {pos : ℕ} : vma.missing Uncached pos 0 = [] := by
  simp [missing, intersects_none]

theorem enqueue_prefetch_eq {m : UCacheManager} {pos len : ℕ} (range : pos + len < 2 ^ 64) :
    vma.enqueue_prefetch Uncached (some m) pos len =
      if vma.due Uncached m pos len = [] then none
      else some (vma.pageSize * (vma.due Uncached m pos len).length % 2 ^ 64,
        vma.due Uncached m pos len) := by
  simp only [enqueue_prefetch]
  by_cases none : len = 0
  · subst none
    simp [due, missing_none]
  · rw [if_neg none, total_inflight_eq]
    by_cases busy : m.busy ≥ m.prefetch_batch
    · rw [if_pos busy, due, Nat.sub_eq_zero_of_le busy, List.take_zero, if_pos rfl]
    · have last : (pos + len - 1) % 2 ^ 64 = pos + len - 1 := Nat.mod_eq_of_lt (by omega)
      have all := @collect_eq State _ vma Uncached ((pos + len - 1) / vma.pageSize)
        (m.prefetch_batch - m.busy) vma.buffers.length (pos / vma.pageSize) []
        (Nat.le_trans (Nat.min_le_right _ _) (Nat.le_add_left _ _))
      rw [← missing_eq (by omega), List.nil_append, List.length_nil, Nat.sub_zero] at all
      rw [if_neg busy, last, all, due]

end VMA

section Requests
variable {State : Type} [DecidableEq State] (vma : VMA State) (Uncached : State)

/-- What the hint hands to uCache. -/
def requests (uCacheManager : Option UCacheManager) (pos len : ℕ) : List ℕ :=
  ((vma.enqueue_prefetch Uncached uCacheManager pos len).map Prod.snd).getD []

/-- A hint hands over the first of the missing pages, ascending, as many as the counters
    leave of the batch, and then the batch is not exceeded. -/
theorem prefetch_exact (m : UCacheManager) (pos len : ℕ) (range : pos + len < 2 ^ 64) :
    let pl := requests vma Uncached (some m) pos len
    pl = ((List.range vma.buffers.length).filter fun i =>
      vma.buffers[i]? = some Uncached ∧ vma.Intersects pos len i).take (m.prefetch_batch - m.busy) ∧
    pl.Pairwise (· < ·) ∧
    (len = 0 ∨ m.prefetch_batch ≤ m.busy →
      vma.enqueue_prefetch Uncached (some m) pos len = none) ∧
    (pl ≠ [] → pl.length + m.busy ≤ m.prefetch_batch) := by
  intro pl
  have eq := @VMA.enqueue_prefetch_eq State _ vma Uncached m pos len range
  have same : pl = vma.due Uncached m pos len := by
    change requests vma Uncached (some m) pos len = _
    rw [requests, eq]
    split
    · rename_i none
      simp [none]
    · rfl
  have count : pl.length ≤ m.prefetch_batch - m.busy := by
    rw [same, VMA.due]
    exact List.length_take_le _ _
  refine ⟨same, ?_, ?_, ?_⟩
  · rw [same]
    exact (List.pairwise_lt_range.filter _).sublist (List.take_sublist _ _)
  · intro nothing
    rw [eq, if_pos]
    rcases nothing with rfl | busy
    · rw [VMA.due, VMA.missing_none, List.take_nil]
    · rw [VMA.due, Nat.sub_eq_zero_of_le busy, List.take_zero]
  · intro some
    have positive := List.length_pos_iff.mpr some
    omega

end Requests

/-- Three pages of which the first and the last are not in the cache. -/
def threePages : VMA Bool := ⟨4096, [false, true, false], by decide⟩

def twoAhead : UCacheManager := ⟨[2, -1], 3, by decide, by decide⟩

theorem prefetch_exact_three :
    requests threePages false (some twoAhead) 100 8192 = [0] ∧
      (requests threePages false (some twoAhead) 100 8192).length + twoAhead.busy ≤ 3 := by
  have exact := prefetch_exact threePages false twoAhead 100 8192 (by decide)
  have first : requests threePages false (some twoAhead) 100 8192 = [0] := by decide
  exact ⟨first, exact.2.2.2 (by rw [first]; decide)⟩

def overfull : UCacheManager := ⟨[5], 3, by decide, by decide⟩

/-- The counters alone may exceed the batch, and then do so after any hint. -/
theorem counters_exceed : requests threePages false (some overfull) 0 4096 = [] ∧
    ¬ (requests threePages false (some overfull) 0 4096).length + overfull.busy ≤
      overfull.prefetch_batch := by
  decide

end Duckdb
