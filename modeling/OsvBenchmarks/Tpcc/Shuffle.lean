import Mathlib.Data.List.Perm.Basic
import Mathlib.Data.List.Nodup
import Mathlib.Logic.Equiv.Basic

/-!
The shuffle of loadOrders. c_ids holds 3000 ids, and the loop exchanges
c_ids[urand(0, i)] and c_ids[i] from i = 3000 down to 1, so its first turn
reaches the word behind the vector and may bring it in.
-/
namespace Tpcc

/-- urand(low, high), given what the generator returns: both ends are included -/
def urand (low high : ℕ) (rand : UInt64) : ℕ := rand.toNat % (high - low + 1) + low

/-- The memory from &c_ids[0] on, and the places of it that the loop has read and written. -/
structure CIds where
  cells : ℕ → ℤ
  touched : List ℕ

def cIdsSize : ℕ := 3000

/-- What push_back has stored, in front of a word that the vector does not own. -/
def CIds.filled (behind : ℤ) : CIds where
  cells := fun k => if k < cIdsSize then k + 1 else behind
  touched := []

/-- std::swap(c_ids[a], c_ids[b]) -/
def CIds.swap (v : CIds) (a b : ℕ) : CIds where
  cells := v.cells ∘ Equiv.swap a b
  touched := a :: b :: v.touched

/-- The loop from `i` down to 1. -/
def shuffle (rand : ℕ → UInt64) : ℕ → CIds → CIds
  | 0, v => v
  | i + 1, v => shuffle rand i (v.swap (urand 0 (i + 1) (rand (i + 1))) (i + 1))

def CIds.toList (v : CIds) : List ℤ := (List.range cIdsSize).map v.cells

def loadedCIds (rand : ℕ → UInt64) (behind : ℤ) : CIds := shuffle rand cIdsSize (.filled behind)

/-- Every access is inside, and every customer gets the order of one o_id. -/
structure OneOrderEach (v : CIds) : Prop where
  inside : ∀ k ∈ v.touched, k < cIdsSize
  perm : v.toList.Perm (CIds.filled 0).toList
  orders : ∀ c : ℤ, 1 ≤ c → c ≤ 3000 → ∃! o : ℕ, (1 ≤ o ∧ o ≤ 3000) ∧ v.cells (o - 1) = c

variable {rand : ℕ → UInt64} {v : CIds}

theorem touched_kept (i : ℕ) {k : ℕ} (member : k ∈ v.touched) : k ∈ (shuffle rand i v).touched := by
  induction i generalizing v with
  | zero => exact member
  | succ i ih => exact ih (List.mem_cons_of_mem _ (List.mem_cons_of_mem _ member))

theorem touches_end (behind : ℤ) : cIdsSize ∈ (loadedCIds rand behind).touched := by
  rw [loadedCIds, cIdsSize, shuffle]
  apply touched_kept
  exact List.mem_cons_of_mem _ List.mem_cons_self

theorem urand_le (i : ℕ) (r : UInt64) : urand 0 i r ≤ i := by
  have := Nat.mod_lt r.toNat (Nat.succ_pos i)
  rw [urand, Nat.sub_zero]
  exact Nat.le_of_lt_succ this

theorem shuffle_moves (i : ℕ) : ∃ σ : Equiv.Perm ℕ, (shuffle rand i v).cells = v.cells ∘ σ ∧
    ∀ k, i < k → σ k = k := by
  induction i generalizing v with
  | zero => exact ⟨Equiv.refl ℕ, rfl, fun _ _ => rfl⟩
  | succ i ih =>
    have low := urand_le (i + 1) (rand (i + 1))
    obtain ⟨σ, cells, beyond⟩ := @ih (v.swap (urand 0 (i + 1) (rand (i + 1))) (i + 1))
    refine ⟨σ.trans (Equiv.swap (urand 0 (i + 1) (rand (i + 1))) (i + 1)), cells, ?_⟩
    intro k above
    rw [Equiv.trans_apply, beyond k (by omega)]
    exact Equiv.swap_apply_of_ne_of_ne (by omega) (by omega)

/-- A permutation of the places below `n` permutes the list of what they hold. -/
theorem map_perm {A : Type*} (f : ℕ → A) {n : ℕ} {σ : Equiv.Perm ℕ} (beyond : ∀ k, n ≤ k → σ k = k) :
    ((List.range n).map (f ∘ σ)).Perm ((List.range n).map f) := by
  have inside : ∀ k, σ k < n ↔ k < n := by
    intro k
    constructor
    · intro less
      by_contra more
      rw [beyond k (by omega)] at less
      exact more less
    · intro less
      by_contra more
      have := σ.injective (beyond (σ k) (by omega))
      omega
  rw [← List.map_map]
  apply List.Perm.map
  rw [List.perm_ext_iff_of_nodup (List.nodup_range.map σ.injective) List.nodup_range]
  intro k
  rw [List.mem_map, List.mem_range]
  constructor
  · rintro ⟨j, there, rfl⟩
    exact (inside j).mpr (List.mem_range.mp there)
  · intro less
    refine ⟨σ.symm k, ?_, σ.apply_symm_apply k⟩
    rw [List.mem_range, ← inside, σ.apply_symm_apply]
    exact less

/-- The word behind the vector ends as the id that the first turn takes out. -/
theorem shuffle_behind (behind : ℤ) : (loadedCIds rand behind).cells cIdsSize =
    (CIds.filled behind).cells (urand 0 3000 (rand 3000)) := by
  rw [loadedCIds, cIdsSize, shuffle]
  obtain ⟨σ, cells, beyond⟩ := @shuffle_moves rand
    ((CIds.filled behind).swap (urand 0 3000 (rand 3000)) 3000) 2999
  rw [cells, Function.comp_apply, beyond 3000 (by decide)]
  exact congrArg (CIds.filled behind).cells
    (Equiv.swap_apply_right (urand 0 3000 (rand 3000)) 3000)

theorem shuffle_perm (behind : ℤ) : ((loadedCIds rand behind).toList ++
    [(loadedCIds rand behind).cells cIdsSize]).Perm ((CIds.filled 0).toList ++ [behind]) := by
  have below : (List.range cIdsSize).map (CIds.filled behind).cells =
      (List.range cIdsSize).map (CIds.filled 0).cells := by
    apply List.map_congr_left
    intro k member
    simp only [CIds.filled, List.mem_range.mp member, if_true]
  have last : (CIds.filled behind).cells cIdsSize = behind := by
    simp only [CIds.filled, Nat.lt_irrefl, if_false]
  obtain ⟨σ, cells, beyond⟩ := @shuffle_moves rand (.filled behind) cIdsSize
  have whole := @map_perm _ (CIds.filled behind).cells (cIdsSize + 1) σ fun k above =>
    beyond k above
  rw [← cells, List.range_succ, List.map_append, List.map_append, below] at whole
  rw [List.map_cons, List.map_nil, List.map_cons, List.map_nil, last] at whole
  rw [CIds.toList, CIds.toList, loadedCIds]
  exact whole

/-- The ids come out complete only where the word behind the vector is what it displaces. -/
theorem shuffle_complete_iff (behind : ℤ) :
    (loadedCIds rand behind).toList.Perm (CIds.filled 0).toList ↔
      (CIds.filled behind).cells (urand 0 3000 (rand 3000)) = behind := by
  have whole := @shuffle_perm rand behind
  rw [shuffle_behind] at whole
  constructor
  · intro perm
    have rest := (List.perm_append_left_iff _).mp ((perm.append_right _).symm.trans whole)
    exact List.singleton_inj.mp (List.perm_singleton.mp rest)
  · intro same
    rw [same] at whole
    exact (List.perm_append_right_iff _).mp whole

/-- No draws keep the shuffle inside. -/
theorem loadOrders_never (rand : ℕ → UInt64) (behind : ℤ) : ¬ OneOrderEach (loadedCIds rand behind) := by
  intro one
  exact absurd (one.inside _ (touches_end behind)) (Nat.lt_irrefl _)

/-- A generator that returns zeros, before a zero word: customer 1 gets no order. -/
theorem loadOrders_loses : ¬ ∀ (rand : ℕ → UInt64) (behind : ℤ), OneOrderEach (loadedCIds rand behind) := by
  intro all
  have perm := (shuffle_complete_iff 0).mp (all (fun _ => 0) 0).perm
  exact absurd perm (by decide)

end Tpcc
