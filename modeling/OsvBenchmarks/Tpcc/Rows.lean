import OsvBenchmarks.Tpcc.Adapter
import OsvBenchmarks.Tpcc.Workload
import Mathlib.Data.List.Perm.Basic

/-!
The tables on which the transactions are modelled are what the adapters keep in their
trees: for a key of Integers a folded key compares as the list of its fields does, and
the first row of a scan is the one that `firstFrom` finds.
-/
namespace Tpcc
open BTree BTree.Outcome

/-- A key of Integers only, which is all but that of customerwdl. -/
def Integers (cs : List Column) : Prop := ∀ c ∈ cs, c.kind = .integer

def Kind.number : (k : Kind) → k.Value → ℤ
  | .integer, (v : Integer) => v.toInt
  | .varchar _, _ => 0

def numbers : (cs : List Column) → Values cs → Key
  | [], _ => []
  | c :: cs, (v, vs) => c.kind.number v :: numbers cs vs

section Order
variable {cs : List Column}

theorem Kind.number_less {k : Kind} (integer : k = .integer) (v w : k.Value) :
    k.less v w ↔ k.number v < k.number w := by
  subst integer
  exact Iff.rfl

theorem Kind.number_same {k : Kind} (integer : k = .integer) (v w : k.Value) :
    k.same v w ↔ k.number v = k.number w := by
  subst integer
  exact BitVec.toInt_inj.symm

theorem integers_proper (integers : Integers cs) (key : Values cs) : KeyProper cs key := by
  induction cs with
  | nil => trivial
  | cons c cs ih =>
    obtain ⟨v, vs⟩ := key
    refine ⟨?_, ih (fun c member => integers c (List.mem_cons_of_mem _ member)) vs⟩
    have here := integers c List.mem_cons_self
    revert v
    rw [here]
    exact fun _ => trivial

theorem numbers_order (integers : Integers cs) (a b : Values cs) :
    (keyLess cs a b ↔ numbers cs a < numbers cs b) ∧ (keySame cs a b ↔ numbers cs a = numbers cs b) := by
  induction cs with
  | nil => exact ⟨iff_of_false id (lt_irrefl _), iff_of_true trivial rfl⟩
  | cons c cs ih =>
    obtain ⟨v, vs⟩ := a
    obtain ⟨w, ws⟩ := b
    have here := integers c List.mem_cons_self
    obtain ⟨less, same⟩ := ih (fun c member => integers c (List.mem_cons_of_mem _ member)) vs ws
    rw [keyLess, keySame, numbers, numbers, List.cons_lt_cons_iff, List.cons.injEq, less, same,
      Kind.number_less here, Kind.number_same here]
    exact ⟨Iff.rfl, Iff.rfl⟩

theorem foldKey_lt_iff (integers : Integers cs) {a b : Values cs} :
    foldKey cs a < foldKey cs b ↔ numbers cs a < numbers cs b :=
  (foldKey_keeps cs (integers_proper integers a) (integers_proper integers b)).order.trans
    (numbers_order integers a b).1

theorem foldKey_le_iff (integers : Integers cs) {a b : Values cs} :
    foldKey cs a ≤ foldKey cs b ↔ numbers cs a ≤ numbers cs b := by
  rw [← not_lt, ← not_lt, foldKey_lt_iff integers]

theorem foldKey_eq_iff (integers : Integers cs) {a b : Values cs} :
    foldKey cs a = foldKey cs b ↔ numbers cs a = numbers cs b := by
  rw [le_antisymm_iff, le_antisymm_iff, foldKey_le_iff integers, foldKey_le_iff integers]

end Order

section Rows
variable {cs : List Column} {R : Type}

def rowOf (row : Values cs × R) : Key × R := (numbers cs row.1, row.2)

def SameRows (rows : Table.Rows Key R) (table : Stored cs R) : Prop :=
  rows.Perm (table.rows.map rowOf)

def rowsAfter (rows : Table.Rows Key R) : AdapterCall cs R → Table.Rows Key R
  | .insert key record => Table.insert rows (numbers cs key) record
  | .lookup1 _ => rows
  | .update1 key fn => Table.update (numbers cs key) fn rows
  | .erase key => Table.erase rows (numbers cs key)
  | .count => rows
  | .countw _ _ => rows

def rowsAnswer (rows : Table.Rows Key R) : AdapterCall cs R → AdapterAnswer R
  | .insert _ _ => .unit
  | .lookup1 key => .record (Table.lookup rows (numbers cs key))
  | .update1 _ _ => .unit
  | .erase key => .bool (Table.lookup rows (numbers cs key)).isSome
  | .count => .number (rows.length % 2 ^ 64)
  | .countw w_id _ =>
    .number ((rows.filter fun row => decide (row.1.head? = some w_id.toInt)).length % 2 ^ 64)

def rowsAnswers (rows : Table.Rows Key R) : List (AdapterCall cs R) → List (AdapterAnswer R)
  | [] => []
  | c :: rest => rowsAnswer rows c :: rowsAnswers (rowsAfter rows c) rest

def rowsTake (rows : Table.Rows Key R) : AdapterCall cs R → Prop
  | .insert key _ => Table.lookup rows (numbers cs key) = none
  | .lookup1 _ => True
  | .update1 _ _ => True
  | .erase _ => True
  | .count => True
  | .countw _ _ => True

def rowsAllow (rows : Table.Rows Key R) : List (AdapterCall cs R) → Prop
  | [] => True
  | c :: rest => rowsTake rows c ∧ rowsAllow (rowsAfter rows c) rest

variable {rows : Table.Rows Key R} {table : Stored cs R}

section Same
variable (integers : Integers cs) (same : SameRows rows table)
include integers same

theorem SameRows.distinct : Table.Distinct rows := by
  have sorted : (table.rows.map rowOf).Pairwise fun a b => a.1 ≠ b.1 :=
    List.pairwise_map.mpr (table.sorted.imp fun less => ne_of_lt ((foldKey_lt_iff integers).mp less))
  have apart : Table.Distinct (table.rows.map rowOf) := List.pairwise_map.mpr sorted
  exact apart.perm same

theorem SameRows.lookup (key : Values cs) :
    Table.lookup rows (numbers cs key) = table.lookup key := by
  have distinct := same.distinct integers
  ext rec
  rw [distinct.lookup_iff, same.mem_iff, List.mem_map]
  constructor
  · rintro ⟨row, member, here⟩
    obtain ⟨at_, rfl⟩ := Prod.mk.inj here
    have folded := (foldKey_eq_iff integers).mpr at_
    cases found : table.lookup key with
    | none => exact absurd folded (Stored.absent_iff.mp found row member)
    | some rec => rw [Stored.lookup_unique found member folded]
  · intro found
    obtain ⟨k, member, folded⟩ := Stored.lookup_mem found
    exact ⟨(k, rec), member, Prod.ext ((foldKey_eq_iff integers).mp folded) rfl⟩

omit integers in
theorem SameRows.insert {key : Values cs} {rec : R} (proper : KeyProper cs key)
    (absent : table.lookup key = none) :
    SameRows (Table.insert rows (numbers cs key) rec) (table.insert key rec proper absent) := by
  have parts := List.filter_append_perm (Stored.below key) table.rows
  have whole : (table.insert key rec proper absent).rows.Perm ((key, rec) :: table.rows) :=
    List.perm_middle.trans (parts.cons _)
  exact (same.cons (numbers cs key, rec)).trans (whole.map rowOf).symm

theorem SameRows.update (key : Values cs) (fn : R → R) :
    SameRows (Table.update (numbers cs key) fn rows) (table.update key fn) := by
  rw [(same.distinct integers).update_eq]
  refine (same.map _).trans (List.Perm.of_eq ?_)
  rw [List.map_map, Stored.update, List.map_map]
  refine List.map_congr_left fun row _ => Prod.ext rfl ?_
  exact if_congr (foldKey_eq_iff integers).symm rfl rfl

theorem SameRows.erase (key : Values cs) :
    SameRows (Table.erase rows (numbers cs key)) (table.erase key) := by
  rw [(same.distinct integers).erase_eq]
  refine (same.filter _).trans (List.Perm.of_eq ?_)
  rw [List.filter_map, Stored.erase]
  congr 1
  exact List.filter_congr fun row _ => decide_eq_decide.mpr (not_congr (foldKey_eq_iff integers).symm)

theorem SameRows.firstFrom (key : Values cs) :
    Table.firstFrom (numbers cs key) rows = (table.upFrom key).head?.map rowOf := by
  have distinct := same.distinct integers
  have sorted : (table.upFrom key).Pairwise fun a b => foldKey cs a.1 < foldKey cs b.1 :=
    table.sorted.filter _
  have mem : ∀ row, row ∈ table.upFrom key ↔ row ∈ table.rows ∧ numbers cs key ≤ numbers cs row.1 := by
    intro row
    rw [Stored.upFrom, List.mem_filter, decide_eq_true_iff, foldKey_le_iff integers]
  cases up : table.upFrom key with
  | nil =>
    have none : ∀ e, Table.firstFrom (numbers cs key) rows ≠ some e := by
      intro e first
      obtain ⟨member, above, _⟩ := distinct.firstFrom_iff.mp first
      obtain ⟨row, there, rfl⟩ := List.mem_map.mp (same.mem_iff.mp member)
      have here := (mem row).mpr ⟨there, above⟩
      rw [up] at here
      cases here
    exact Option.eq_none_iff_forall_ne_some.mpr none
  | cons first rest =>
    obtain ⟨there, above⟩ := (mem first).mp (by rw [up]; exact List.mem_cons_self)
    refine distinct.firstFrom_iff.mpr ⟨same.mem_iff.mpr (List.mem_map_of_mem there), above, ?_⟩
    intro d member high
    obtain ⟨row, here, rfl⟩ := List.mem_map.mp (same.mem_iff.mp member)
    have behind := (mem row).mpr ⟨here, high⟩
    rw [up] at behind sorted
    rcases List.mem_cons.mp behind with rfl | later
    · exact le_refl _
    · exact (foldKey_le_iff integers).mp (le_of_lt ((List.pairwise_cons.mp sorted).1 row later))

end Same

theorem Kind.isInteger_number {w_id : Integer} {k : Kind} {v : k.Value} (same : k.isInteger w_id v = true) :
    k.number v = w_id.toInt := by
  cases k with
  | integer =>
    have same : v = w_id := of_decide_eq_true same
    rw [same]
    rfl
  | varchar n => cases same

theorem leading_number {w_id : Integer} {key : Values cs} (first : leading w_id cs key = true) :
    (numbers cs key).head? = some w_id.toInt := by
  cases cs with
  | nil => cases first
  | cons c cs =>
    obtain ⟨v, vs⟩ := key
    exact congrArg some (Kind.isInteger_number first)

end Rows

section Runs
variable {r : RecordType} {R : Type} {rows : Table.Rows Key R} {table : Stored r.key R}

theorem SameRows.countw (same : SameRows rows table) (w_id : Integer) :
    (rows.filter fun row => decide (row.1.head? = some w_id.toInt)).length =
      (table.rows.filter fun row => leading w_id r.key row.1).length := by
  rw [(same.filter _).length_eq, List.filter_map, List.length_map]
  congr 1
  refine List.filter_congr fun row _ => ?_
  obtain ⟨w, first⟩ := record_leading r row.1
  obtain ⟨_, _, only⟩ := leading_fold first
  rw [only]
  refine decide_eq_decide.mpr ?_
  rw [rowOf, leading_number first, Option.some.injEq, BitVec.toInt_inj]

theorem SameRows.call (integers : Integers r.key) (same : SameRows rows table) {c : AdapterCall r.key R}
    (allowed : rowsTake rows c) :
    table.Takes c ∧ table.answer c = rowsAnswer rows c ∧ SameRows (rowsAfter rows c) (table.after c) := by
  cases c with
  | insert key record =>
    have absent : Table.lookup rows (numbers r.key key) = none := allowed
    rw [same.lookup integers] at absent
    have new : KeyProper r.key key ∧ table.lookup key = none := ⟨integers_proper integers key, absent⟩
    refine ⟨new, rfl, ?_⟩
    rw [Stored.after, dif_pos new]
    exact same.insert new.1 new.2
  | lookup1 key =>
    refine ⟨trivial, ?_, same⟩
    rw [Stored.answer, rowsAnswer, same.lookup integers]
  | update1 key fn => exact ⟨trivial, rfl, same.update integers key fn⟩
  | erase key =>
    refine ⟨trivial, ?_, same.erase integers key⟩
    rw [Stored.answer, rowsAnswer, same.lookup integers]
  | count =>
    refine ⟨trivial, ?_, same⟩
    rw [Stored.answer, rowsAnswer, same.length_eq, List.length_map]
  | countw w_id kk =>
    refine ⟨trivial, ?_, same⟩
    rw [Stored.answer, rowsAnswer, same.countw]

theorem SameRows.calls (integers : Integers r.key) (same : SameRows rows table)
    {cs : List (AdapterCall r.key R)} (allow : rowsAllow rows cs) :
    table.Allows cs ∧ table.answers cs = rowsAnswers rows cs ∧
      SameRows (cs.foldl rowsAfter rows) (cs.foldl Stored.after table) := by
  induction cs generalizing rows table with
  | nil => exact ⟨trivial, rfl, same⟩
  | cons c rest ih =>
    obtain ⟨takes, answer, same'⟩ := same.call integers allow.1
    obtain ⟨allows, answers, final⟩ := ih same' allow.2
    refine ⟨⟨takes, allows⟩, ?_, final⟩
    rw [Stored.answers, rowsAnswers, answer, answers]

end Runs

def takeFirst {cs : List Column} {R : Type} (key : Values cs) (rec : R) (_ : Option (Key × R)) :
    Option (Key × R) × Bool :=
  (some (numbers cs key, rec), false)

theorem takeFirst_respects {cs : List Column} {R : Type} (integers : Integers cs) :
    Respects (@takeFirst cs R) := by
  intro a b _ same r st
  rw [takeFirst, takeFirst, (numbers_order integers a b).2.mp same]

theorem deliver_takeFirst {cs : List Column} {R : Type} (rows : List (Values cs × R)) :
    Stored.deliverRows takeFirst rows none = rows.head?.map rowOf := by
  cases rows with
  | nil => rfl
  | cons row rest => rfl

/-- The adapter of a record type whose key has Integers only does to its tree, and answers,
what the tables of the transactions do, up to an insert that runs out of page ids; and the first
row of a scan is the one they take. -/
theorem adapter_is_rows (r : RecordType) (integers : Integers r.key) {R : Type} (layout : Layout r.size R)
    {slotId : ℕ} {s : Store} (pos : metadataPageId < s.allocCount)
    (space : s.allocCount < s.virtCount) (small : s.virtCount ≤ noNeighbour)
    {calls : List (AdapterCall r.key R)} (allow : rowsAllow [] calls) :
    ∃ t s', Tree.create slotId s = done (t, s') ∧
      ((∃ s'', Settles (fun fuel => Adapter.calls layout t fuel s' calls)
          (done (rowsAnswers [] calls, s'')) ∧
          ∀ (key typedKey : Values r.key) (kk : List u8),
            Settles (fun fuel => Adapter.scan layout t fuel s'' typedKey takeFirst key kk none)
              (done (some (Table.firstFrom (numbers r.key key) (calls.foldl rowsAfter []))))) ∨
        Settles (fun fuel => Adapter.calls layout t fuel s' calls) exits ∧
          Adapter.Exhausts layout t s' calls) := by
  have none_yet : SameRows [] (Stored.empty : Stored r.key R) := List.Perm.nil
  obtain ⟨allows, answers, same⟩ := none_yet.calls integers allow
  obtain ⟨s', eq, backs⟩ := Adapter.create_backs layout slotId pos space small
  refine ⟨_, s', eq, ?_⟩
  rcases backs.calls rfl allows with stops | ⟨s'', goes, backs'⟩
  · exact Or.inr stops
  · rw [answers] at goes
    refine Or.inl ⟨s'', goes, fun key typedKey kk => ?_⟩
    rw [same.firstFrom integers, ← deliver_takeFirst]
    exact backs'.scan (takeFirst_respects integers) key kk none

theorem adapter_is_rows_six : ∃ t s' s'', Tree.create 0 blankStore = done (t, s') ∧
    Settles (fun fuel => Adapter.calls customerLayout t fuel s' sixCustomers) (done (sixAnswers, s'')) ∧
    Settles (fun fuel => Adapter.scan customerLayout t fuel s'' (customerOf 0) takeFirst (customerOf 3) [] none)
      (done (some (some ([1, 1, 4], 4)))) := by
  have integers : Integers RecordType.customer.key := by
    intro c member
    rcases List.mem_cons.mp member with rfl | member
    · rfl
    · rcases List.mem_cons.mp member with rfl | member
      · rfl
      · rw [List.mem_singleton.mp member]
        rfl
  have answers : rowsAnswers [] sixCustomers = sixAnswers := by decide +kernel
  have first : Table.firstFrom (numbers RecordType.customer.key (customerOf 3))
      (sixCustomers.foldl rowsAfter []) = some ([1, 1, 4], 4) := by decide +kernel
  have allow : rowsAllow [] sixCustomers :=
    ⟨by rfl, by rfl, by rfl, by rfl, by rfl, by rfl, trivial, trivial, trivial, trivial, trivial⟩
  obtain ⟨s₁, returned, s, eq, ends, _⟩ := Adapter.fresh_settles customerLayout sixCustomers 14
    (fun _ => true) (by decide +kernel)
  obtain ⟨t, s', eq', result⟩ := @adapter_is_rows .customer integers u8 customerLayout 0
    blankStore (by decide) (by decide) (by decide) sixCustomers allow
  cases eq.symm.trans eq'
  rcases result with ⟨s'', goes, scans⟩ | ⟨stops, _⟩
  · rw [answers] at goes
    refine ⟨_, _, s'', eq, goes, ?_⟩
    rw [← first]
    exact scans _ _ []
  · cases ends.unique stops

end Tpcc
