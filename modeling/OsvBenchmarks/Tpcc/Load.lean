import OsvBenchmarks.Tpcc.Delivery
import Mathlib.Data.List.Nodup

/-!
The loaded database: which rows it holds, and that it satisfies what the
transactions rely on.
-/
namespace Tpcc
open Interleave Table

variable {warehouseCount : ℕ}

theorem mem_loadedDistricts {w d : ℕ} :
    (w, d) ∈ loadedDistricts warehouseCount ↔ (1 ≤ w ∧ w ≤ warehouseCount) ∧ 1 ≤ d ∧ d ≤ 10 := by
  simp only [loadedDistricts, List.mem_flatMap, List.mem_map, List.mem_range'_1, Prod.mk.injEq]
  constructor
  · rintro ⟨w', hw, d', hd, rfl, rfl⟩
    omega
  · rintro ⟨hw, hd⟩
    exact ⟨w, by omega, d, by omega, rfl, rfl⟩

theorem mem_loadedIds {first last w d n : ℕ} (order : first ≤ last + 1) :
    (w, d, n) ∈ loadedIds warehouseCount first last ↔
      (w, d) ∈ loadedDistricts warehouseCount ∧ first ≤ n ∧ n ≤ last := by
  simp only [loadedIds, List.mem_flatMap, List.mem_map, List.mem_range'_1, Prod.mk.injEq]
  constructor
  · rintro ⟨⟨w', d'⟩, there, n', hn, rfl, rfl, rfl⟩
    exact ⟨there, by omega, by omega⟩
  · rintro ⟨there, low, high⟩
    exact ⟨(w, d), there, n, by omega, rfl, rfl, rfl⟩

theorem loadedDistricts_nodup : (loadedDistricts warehouseCount).Nodup := by
  rw [loadedDistricts, List.nodup_flatMap]
  constructor
  · intro w _
    exact List.Nodup.map (fun _ _ same => (Prod.mk.inj same).2) List.nodup_range'
  · apply List.Pairwise.imp ?_ List.nodup_range'
    intro w w' differ p left right
    obtain ⟨d, _, rfl⟩ := List.mem_map.mp left
    obtain ⟨d', _, same⟩ := List.mem_map.mp right
    exact differ (Prod.mk.inj same).1.symm

theorem loadedIds_nodup (first last : ℕ) : (loadedIds warehouseCount first last).Nodup := by
  rw [loadedIds, List.nodup_flatMap]
  constructor
  · intro p _
    exact List.Nodup.map (fun _ _ same => (Prod.mk.inj (Prod.mk.inj same).2).2) List.nodup_range'
  · apply List.Pairwise.imp ?_ loadedDistricts_nodup
    intro p p' differ q left right
    obtain ⟨n, _, rfl⟩ := List.mem_map.mp left
    obtain ⟨n', _, same⟩ := List.mem_map.mp right
    obtain ⟨h1, h2⟩ := Prod.mk.inj same
    exact differ (Prod.ext h1.symm (Prod.mk.inj h2).1.symm)

section Tables
variable (W : ℕ) (draws : Draws)

theorem rowsAt_loadedLines {w d o : ℕ} (member : (w, d, o) ∈ loadedIds W 1 3000) (l : ℤ) :
    rowsAt (load W draws).orderline ([(w : ℤ), (d : ℤ), (o : ℤ)] ++ [l]) =
      if 1 ≤ l ∧ l ≤ (draws.order w d o).oOlCnt then [draws.orderline w d o l.toNat] else [] := by
  have count : (draws.order w d o).oOlCnt = draws.oOlCnt w d o + 5 := rfl
  rw [count]
  have at_order : rowsAt (load W draws).orderline ([(w : ℤ), (d : ℤ), (o : ℤ)] ++ [l]) =
      rowsAt ((List.range' 1 (draws.oOlCnt w d o + 5)).map fun olNumber : ℕ =>
        ([(w : ℤ), (d : ℤ), (o : ℤ), (olNumber : ℤ)], draws.orderline w d o olNumber))
        ([(w : ℤ), (d : ℤ), (o : ℤ)] ++ [l]) := by
    apply rowsAt_flatMap (loadedIds_nodup 1 3000) member
    rintro ⟨w', d', o'⟩ _ differ
    apply rowsAt_map_none
    intro n _ same
    apply differ
    simp only [List.cons_append, List.nil_append, List.cons.injEq, Int.natCast_inj] at same
    rw [same.1, same.2.1, same.2.2.1]
  rw [at_order]
  split
  · rename_i inside
    have key : [(w : ℤ), (d : ℤ), (o : ℤ)] ++ [l] =
        (fun n : ℕ => [(w : ℤ), (d : ℤ), (o : ℤ), (n : ℤ)]) l.toNat := by
      have : (l.toNat : ℤ) = l := by omega
      simp only [List.cons_append, List.nil_append, this]
    rw [key]
    apply rowsAt_map _ _ List.nodup_range'
    · intro a _ b _ same
      simpa using same
    · rw [List.mem_range'_1]
      omega
  · rename_i outside
    apply rowsAt_map_none
    intro n there same
    rw [List.mem_range'_1] at there
    simp only [List.cons_append, List.nil_append, List.cons.injEq] at same
    omega

theorem view_loaded {w d o : ℕ} (member : (w, d, o) ∈ loadedIds W 1 3000) :
    (view ⟨load W draws, []⟩ [(w : ℤ), (d : ℤ), (o : ℤ)]).order = [draws.order w d o] ∧
      (view ⟨load W draws, []⟩ [(w : ℤ), (d : ℤ), (o : ℤ)]).neworder =
        if 2100 ≤ o then [()] else [] := by
  have inside := (mem_loadedIds (by omega)).mp member
  have injective : ∀ first last, ∀ a ∈ loadedIds W first last, ∀ b ∈ loadedIds W first last,
      (fun p : ℕ × ℕ × ℕ => [(p.1 : ℤ), (p.2.1 : ℤ), (p.2.2 : ℤ)]) a =
        (fun p : ℕ × ℕ × ℕ => [(p.1 : ℤ), (p.2.1 : ℤ), (p.2.2 : ℤ)]) b → a = b := by
    rintro _ _ ⟨a, b, c⟩ _ ⟨a', b', c'⟩ _ same
    simp only [List.cons.injEq, Int.natCast_inj, and_true] at same
    rw [same.1, same.2.1, same.2.2]
  constructor
  · exact rowsAt_map _ (fun p : ℕ × ℕ × ℕ => draws.order p.1 p.2.1 p.2.2)
      (loadedIds_nodup 1 3000) (injective 1 3000) member
  · split
    · rename_i open'
      exact rowsAt_map _ (fun _ => ()) (loadedIds_nodup 2100 3000) (injective 2100 3000)
        ((mem_loadedIds (by omega)).mpr ⟨inside.1, open', inside.2.2⟩)
    · rename_i delivered
      apply rowsAt_map_none
      rintro ⟨w', d', o'⟩ there same
      have := ((mem_loadedIds (by omega)).mp there).2
      simp only [List.cons.injEq, Int.natCast_inj, and_true] at same
      omega

structure View.Vacant (v : View) : Prop where
  order : v.order = []
  neworder : v.neworder = []
  orderWdc : ∀ c, v.orderWdc c = []
  lines : ∀ l, v.lines l = []

theorem view_unloaded {k : Key}
    (other : ∀ w d o : ℕ, (w, d, o) ∈ loadedIds W 1 3000 → k ≠ [(w : ℤ), (d : ℤ), (o : ℤ)]) :
    (view ⟨load W draws, []⟩ k).Vacant := by
  constructor
  · apply rowsAt_map_none
    rintro ⟨w, d, o⟩ there same
    exact other w d o there same.symm
  · apply rowsAt_map_none
    rintro ⟨w, d, o⟩ there same
    have inside := (mem_loadedIds (by omega)).mp there
    exact other w d o ((mem_loadedIds (by omega)).mpr ⟨inside.1, by omega, by omega⟩) same.symm
  · intro c
    simp only [view, wdcRows]
    split
    · rename_i w' d' o'
      apply rowsAt_map_none
      rintro ⟨w, d, o⟩ there same
      simp only [List.cons.injEq, and_true] at same
      apply other w d o there
      rw [← same.1, ← same.2.1, ← same.2.2.2]
    · rfl
  · intro l
    apply rowsAt_flatMap_none
    rintro ⟨w, d, o⟩ there
    apply rowsAt_map_none
    intro n _ same
    have key : [(w : ℤ), (d : ℤ), (o : ℤ)] ++ [(n : ℤ)] = k ++ [l] := same
    exact other w d o there (line_key_inj.mp key).1.symm

theorem loaded_or_vacant (k : Key) :
    (∃ w d o : ℕ, (w, d, o) ∈ loadedIds W 1 3000 ∧ k = [(w : ℤ), (d : ℤ), (o : ℤ)]) ∨
      (view ⟨load W draws, []⟩ k).Vacant := by
  by_cases there : ∃ w d o : ℕ, (w, d, o) ∈ loadedIds W 1 3000 ∧ k = [(w : ℤ), (d : ℤ), (o : ℤ)]
  · exact Or.inl there
  · right
    apply view_unloaded
    intro w d o member same
    exact there ⟨w, d, o, member, same⟩

theorem load_good (k : Key) : (view ⟨load W draws, []⟩ k).Good := by
  have noEvents : (view ⟨load W draws, []⟩ k).orderedBy = [] ∧
      (view ⟨load W draws, []⟩ k).erasedBy = [] ∧ (view ⟨load W draws, []⟩ k).credits = [] :=
    ⟨rfl, rfl, rfl⟩
  obtain ⟨ordered, erased, credited⟩ := noEvents
  rcases loaded_or_vacant W draws k with ⟨w, d, o, member, rfl⟩ | vacant
  · obtain ⟨order, neworder⟩ := view_loaded W draws member
    constructor
    · simp [ordered]
    · simp [erased]
    · intro there
      rw [neworder] at there ⊢
      split at there
      · rename_i high
        exact ⟨if_pos high, erased, by rw [order]; exact List.cons_ne_nil _ _⟩
      · exact absurd rfl there
    · exact fun h => absurd erased h
    · intro none
      rw [order] at none
      cases none
    · intro _
      refine ⟨_, (draws.order w d o).oOlCnt, order, by simp only [Draws.order]; omega,
        Int.le_refl _, ?_⟩
      intro l
      simp only [view]
      rw [rowsAt_loadedLines W draws member l]
      split <;> rfl
    · simp [credited]
    · intro c member
      rw [credited] at member
      cases member
  · constructor
    · simp [ordered]
    · simp [erased]
    · exact fun h => absurd vacant.neworder h
    · exact fun h => absurd erased h
    · intro _ l
      rw [vacant.lines, if_neg (by omega)]
      rfl
    · exact fun h => absurd vacant.order h
    · simp [credited]
    · intro c member
      rw [credited] at member
      cases member

theorem load_district {w d : ℕ} (member : (w, d) ∈ loadedDistricts W) :
    lookup (load W draws).district [(w : ℤ), (d : ℤ)] = some ⟨draws.dTax w d, 3000000, 3001⟩ := by
  rw [lookup_eq]
  have rows : rowsAt (load W draws).district [(w : ℤ), (d : ℤ)] =
      [⟨draws.dTax w d, 3000000, 3001⟩] := by
    apply rowsAt_map (fun p : ℕ × ℕ => [(p.1 : ℤ), (p.2 : ℤ)])
      (fun p => (⟨draws.dTax p.1 p.2, 3000000, 3001⟩ : District)) loadedDistricts_nodup _
      member
    rintro ⟨a, b⟩ _ ⟨a', b'⟩ _ same
    simp only [List.cons.injEq, Int.natCast_inj, and_true] at same
    rw [same.1, same.2]
  rw [rows]
  rfl

theorem load_customer {w d c : ℕ} (member : (w, d, c) ∈ loadedIds W 1 3000) :
    lookup (load W draws).customer [(w : ℤ), (d : ℤ), (c : ℤ)] ≠ none :=
  lookup_present (List.mem_map_of_mem (a := (w, d, c)) member)

theorem load_inv : Inv (load W draws) ⟨load W draws, []⟩ := by
  constructor
  · exact load_good W draws
  · intro w d o high _
    have vacant : (view ⟨load W draws, []⟩ [w, d, o]).Vacant := by
      apply view_unloaded
      intro w' d' o' there same
      have inside := (mem_loadedIds (by omega)).mp there
      simp only [List.cons.injEq, and_true] at same
      omega
    exact ⟨rfl, vacant.order, vacant.neworder, vacant.orderWdc⟩
  · intro w d
    rfl
  · intro w d r found
    rw [lookup_eq] at found
    have member := mem_rowsAt.mp (List.mem_of_mem_head? found)
    obtain ⟨⟨w', d'⟩, _, same⟩ := List.mem_map.mp member
    rw [← (Prod.mk.inj same).2]
    rfl
  · intro c
    simp [creditedTo]
  · exact ⟨rfl, rfl, fun _ => Iff.rfl, fun _ => Iff.rfl, fun _ => Iff.rfl⟩

theorem load_stocked {o : NewOrder} (drawn : (Call.newOrder o).Drawn W) :
    Stocked (load W draws) o := by
  obtain ⟨wLow, wHigh, dLow, dHigh, cLow, cHigh, _, _, items⟩ := drawn
  obtain ⟨w, hw⟩ := Int.eq_ofNat_of_zero_le (show 0 ≤ o.wId by omega)
  obtain ⟨d, hd⟩ := Int.eq_ofNat_of_zero_le (show 0 ≤ o.dId by omega)
  obtain ⟨c, hc⟩ := Int.eq_ofNat_of_zero_le (show 0 ≤ o.cId by omega)
  have district : (w, d) ∈ loadedDistricts W := mem_loadedDistricts.mpr (by omega)
  constructor
  · rw [hw]
    exact lookup_present (List.mem_map_of_mem (List.mem_range'_1.mpr (by omega)))
  · rw [hw, hd, hc]
    exact load_customer W draws ((mem_loadedIds (by omega)).mpr ⟨district, by omega, by omega⟩)
  · rw [hw, hd, load_district W draws district]
    exact Option.some_ne_none _
  · rw [hd]
    omega
  · intro line member
    obtain ⟨low, high⟩ := items line member
    obtain ⟨n, hn⟩ := Int.eq_ofNat_of_zero_le (show 0 ≤ line.itemid by omega)
    rw [hn, hw]
    constructor
    · exact lookup_present (List.mem_map_of_mem (List.mem_range'_1.mpr (by omega)))
    · apply lookup_present
      apply List.mem_flatMap.mpr
      refine ⟨w, List.mem_range'_1.mpr (by omega), ?_⟩
      exact List.mem_map_of_mem (List.mem_range'_1.mpr (by omega))

end Tables
end Tpcc
