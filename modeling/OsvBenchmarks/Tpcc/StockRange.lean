import OsvBenchmarks.Tpcc.OrderIds
import Mathlib.Tactic.Linarith
import Mathlib.Tactic.NormNum

/-!
The stock quantities. randomNumeric divides a 64-bit draw by what is made for a
generator that ends at RAND_MAX, so most draws load a quantity far above the
range that it is asked for; newOrder keeps the range where it holds.
-/
namespace Tpcc
open Interleave Runs Table

def randMax : ℚ := 2 ^ 31 - 1

/-- randomNumeric(min, max), given what getRandU64 returns -/
def randomNumeric (min max : ℚ) (rand : UInt64) : ℚ :=
  let range := max - min
  let div := randMax / range
  min + rand.toNat / div

/-- loadStock draws each quantity with randomNumeric(10, 100). -/
def Draws.stocked (draws : Draws) (rand : ℕ → ℕ → UInt64) : Draws :=
  { draws with sQuantity := fun w i => randomNumeric 10 100 (rand w i) }

def QuantitiesIn (o : NewOrder) : Prop := ∀ line ∈ o.lines, 1 ≤ line.qty ∧ line.qty ≤ 10

def InRange (rec : Stock) : Prop := 10 ≤ rec.sQuantity ∧ rec.sQuantity < 101

def StockInRange (s : State) : Prop := ∀ row ∈ s.db.stock, InRange row.2

/-- The draws that the scale still takes into the range. -/
def Scaled (rand : UInt64) : Prop := rand.toNat * 90 < 91 * (2 ^ 31 - 1)

instance (rand : UInt64) : Decidable (Scaled rand) := inferInstanceAs (Decidable (_ < _))

theorem randomNumeric_eq (rand : UInt64) :
    randomNumeric 10 100 rand = 10 + rand.toNat * 90 / (2 ^ 31 - 1) := by
  unfold randomNumeric randMax
  dsimp only
  rw [div_div_eq_mul_div]
  norm_num

theorem randomNumeric_range (rand : UInt64) :
    (10 ≤ randomNumeric 10 100 rand ∧ randomNumeric 10 100 rand < 101) ↔ Scaled rand := by
  have some : (0 : ℚ) ≤ rand.toNat * 90 / (2 ^ 31 - 1) := by
    apply div_nonneg
    · exact mul_nonneg (Nat.cast_nonneg _) (by norm_num)
    · norm_num
  have scale : (rand.toNat * 90 / (2 ^ 31 - 1) : ℚ) < 91 ↔ Scaled rand := by
    rw [div_lt_iff₀ (by norm_num)]
    unfold Scaled
    norm_num
    exact_mod_cast Iff.rfl
  rw [randomNumeric_eq, ← scale]
  constructor
  · rintro ⟨_, high⟩
    linarith
  · intro high
    exact ⟨by linarith, by linarith⟩

theorem taken_inRange {q : ℚ} {qty : ℤ} (low : 10 ≤ q) (high : q < 101) (some : 1 ≤ qty)
    (few : qty ≤ 10) : 10 ≤ (if q ≥ qty + 10 then q - qty else q + 91 - qty) ∧
      (if q ≥ qty + 10 then q - qty else q + 91 - qty) < 101 := by
  have some : (1 : ℚ) ≤ qty := by exact_mod_cast some
  have few : (qty : ℚ) ≤ 10 := by exact_mod_cast few
  split
  · rename_i enough
    exact ⟨by linarith, by linarith⟩
  · rename_i short
    have short := not_le.mp short
    exact ⟨by linarith, by linarith⟩

theorem mem_update {t : Rows Key Stock} {k : Key} {f : Stock → Stock} {P : Stock → Prop}
    (keeps : ∀ r, P r → P (f r)) (all : ∀ row ∈ t, P row.2) : ∀ row ∈ update k f t, P row.2 := by
  induction t with
  | nil => exact fun _ none => absurd none List.not_mem_nil
  | cons e t ih =>
    have rest := ih fun row mem => all row (List.mem_cons_of_mem _ mem)
    have first := all e (by simp)
    intro row mem
    unfold update at mem
    split at mem
    · rcases List.mem_cons.mp mem with rfl | mem
      · exact keeps _ first
      · exact all row (List.mem_cons_of_mem _ mem)
    · rcases List.mem_cons.mp mem with rfl | mem
      · exact first
      · exact rest row mem

theorem newOrder_keeps (i : ℕ) {o : NewOrder} (quantities : QuantitiesIn o) :
    (newOrder i o).Calls fun _ effect => ∀ s, StockInRange s → StockInRange (effect s) := by
  apply MadeBy.newOrder
  constructor
  · intro A f
    exact Prog.Calls.atomic fun s within => within
  · apply Prog.Calls.atomic
    intro s within
    simp only
    split
    · exact within
    · exact within
  · intro f same
    apply Prog.Calls.atomic
    intro s within row mem
    exact within row (by rwa [← same s.db])
  · intro line member
    apply Prog.Calls.atomic
    intro s within
    obtain ⟨some, few⟩ := quantities line member
    exact mem_update (P := InRange) (fun r there => taken_inRange there.1 there.2 some few) within

theorem load_inRange {W : ℕ} {draws : Draws} {rand : ℕ → ℕ → UInt64} :
    StockInRange ⟨load W (draws.stocked rand), []⟩ ↔
      ∀ w i, 1 ≤ w → w ≤ W → 1 ≤ i → i ≤ 100000 → Scaled (rand w i) := by
  constructor
  · intro within w i low high first last
    rw [← randomNumeric_range]
    apply within ([(w : ℤ), (i : ℤ)], ⟨randomNumeric 10 100 (rand w i), 0, 0, 0⟩)
    apply List.mem_flatMap.mpr
    refine ⟨w, List.mem_range'_1.mpr (by omega), ?_⟩
    exact List.mem_map_of_mem (List.mem_range'_1.mpr (by omega))
  · intro scaled row mem
    obtain ⟨w, hw, mem⟩ := List.mem_flatMap.mp mem
    obtain ⟨i, hi, rfl⟩ := List.mem_map.mp mem
    rw [List.mem_range'_1] at hw hi
    exact (randomNumeric_range _).mpr (scaled w i (by omega) (by omega) (by omega) (by omega))

/-- The stock stays in its range, whatever newOrders follow and however their calls
interleave, exactly when every draw of the loader is small enough for the scale. -/
theorem stock_in_range_iff (W : ℕ) (draws : Draws) (rand : ℕ → ℕ → UInt64) :
    (∀ (orders : List NewOrder) (moves : List ℕ) (pool : Pool State Label Outcome),
      (∀ o ∈ orders, QuantitiesIn o) →
        exec next (startPool (load W (draws.stocked rand)) (orders.map .newOrder)) moves =
          some pool → StockInRange pool.shared) ↔
      ∀ w i, 1 ≤ w → w ≤ W → 1 ≤ i → i ≤ 100000 → Scaled (rand w i) := by
  rw [← @load_inRange W draws rand]
  constructor
  · intro always
    exact always [] [] _ (by simp) rfl
  · intro start orders moves pool quantities run
    refine (exec_calls (fun _ _ keeps => keeps) ?_ start run).1
    intro p member
    simp only [startPool, List.mem_iff_getElem?, List.getElem?_mapIdx, List.getElem?_map,
      Option.map_map] at member
    obtain ⟨i, here⟩ := member
    obtain ⟨o, there, rfl⟩ := Option.map_eq_some_iff.mp here
    exact newOrder_keeps i (quantities o (List.mem_of_getElem? there))

/-- A draw beyond the scale, as almost all are. -/
theorem stock_above_range : ¬ ∀ (W : ℕ) (draws : Draws) (rand : ℕ → ℕ → UInt64)
    (orders : List NewOrder) (moves : List ℕ) (pool : Pool State Label Outcome),
    (∀ o ∈ orders, QuantitiesIn o) →
      exec next (startPool (load W (draws.stocked rand)) (orders.map .newOrder)) moves =
        some pool → StockInRange pool.shared := by
  intro all
  have within : StockInRange ⟨load 1 (sampleDraws.stocked fun _ _ => 2 ^ 32), []⟩ :=
    all 1 sampleDraws (fun _ _ => 2 ^ 32) [] [] _ (by simp) rfl
  exact absurd (load_inRange.mp within 1 1 (by omega) (by omega) (by omega) (by omega)) (by decide)

end Tpcc
