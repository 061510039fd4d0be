import OsvBenchmarks.Tree.FiniteMap
import OsvBenchmarks.Tree.Scan
import OsvBenchmarks.Tpcc.Scan
import Mathlib.Data.List.Sort

/-!
vmcacheAdapter: the records of one type in a tree of their own, under their folded
keys. Its calls, run one at a time, are those of a table sorted by the keys.
-/
namespace Tpcc
open BTree BTree.Outcome

inductive Field
  | integer
  | timestamp
  | numeric
  | varchar (maxLength : ℕ)

namespace Field

def size : Field → ℕ
  | integer => 4
  | timestamp => 8
  | numeric => 8
  | varchar n => (2 + n + 1) / 2 * 2

def align : Field → ℕ
  | integer => 4
  | timestamp => 8
  | numeric => 8
  | varchar _ => 2

end Field

/-- The fields of a record in their order, and not those of its key. -/
def RecordType.fields : RecordType → List Field
  | warehouse => [.varchar 10, .varchar 20, .varchar 20, .varchar 20, .varchar 2, .varchar 9,
      .numeric, .numeric]
  | district => [.varchar 10, .varchar 20, .varchar 20, .varchar 20, .varchar 2, .varchar 9,
      .numeric, .numeric, .integer]
  | customer => [.varchar 16, .varchar 2, .varchar 16, .varchar 20, .varchar 20, .varchar 20,
      .varchar 2, .varchar 9, .varchar 16, .timestamp, .varchar 2, .numeric, .numeric, .numeric,
      .numeric, .numeric, .numeric, .varchar 500]
  | customerWdl => [.integer]
  | history => [.integer, .integer, .integer, .integer, .integer, .timestamp, .numeric, .varchar 24]
  | neworder => []
  | order => [.integer, .timestamp, .integer, .numeric, .numeric]
  | orderWdc => []
  | orderline => [.integer, .integer, .timestamp, .numeric, .numeric, .varchar 24]
  | item => [.integer, .varchar 24, .numeric, .varchar 50]
  | stock => [.numeric, .varchar 24, .varchar 24, .varchar 24, .varchar 24, .varchar 24, .varchar 24,
      .varchar 24, .varchar 24, .varchar 24, .varchar 24, .numeric, .numeric, .numeric, .varchar 50]

def alignUp (offset align : ℕ) : ℕ := (offset + align - 1) / align * align

/-- sizeof: each field at the next multiple of its alignment; an empty class has a byte. -/
def RecordType.size (r : RecordType) : ℕ :=
  let body := r.fields.foldl (fun offset f => alignUp offset f.align + f.size) 0
  if body = 0 then 1 else alignUp body (r.fields.foldl (fun most f => max most f.align) 1)

structure Layout (size : ℕ) (R : Type) where
  bytes : R → List u8
  record : List u8 → R
  sized : ∀ r, (bytes r).length = size
  reads : ∀ r, record (bytes r) = r

namespace Adapter
variable {cs : List Column} {size : ℕ} {R : Type} (layout : Layout size R)
variable (t : Tree) (fuel : ℕ) (s : Store)

def insert (key : Values cs) (record : R) : BTree.Outcome Store :=
  t.insert fuel s (foldKey cs key) (layout.bytes record)

/-- The record that fn gets; without one assert(succ) fails. -/
def lookup1 (key : Values cs) : BTree.Outcome (Option R) := do
  let payload ← t.lookup fuel s (foldKey cs key)
  pure (payload.map layout.record)

/-- fn changes the record where it lies. -/
def onRecord (fn : R → R) : Tree.Callback where
  apply p := (layout.bytes (fn (layout.record p)) ++ p.drop size).take p.length
  length p := by
    have sized := layout.sized (fn (layout.record p))
    rw [List.length_take, List.length_append, List.length_drop]
    omega

def update1 (key : Values cs) (fn : R → R) : BTree.Outcome Store := do
  let (_, s) ← t.updateInPlace fuel s (foldKey cs key) (onRecord layout fn)
  pure s

/-- Returns false if the record was not found -/
def erase (key : Values cs) : BTree.Outcome (Bool × Store) := t.remove fuel s (foldKey cs key)

section Scan
variable {σ : Type} (typedKey : Values cs) (found_record_cb : Values cs → R → σ → σ × Bool)

/-- The lambda of both scans; kk keeps what earlier keys have left behind this one. -/
def onEntry : Option (List u8 × σ) → BTree.Key × Payload → Option (List u8 × σ) × Bool
  | none, _ => (none, false)
  | some (kk, st), e =>
    let kk := e.1 ++ kk.drop e.1.length
    match unfoldKey cs kk typedKey with
    | none => (none, false)
    | some (key, _) =>
      let (st, more) := found_record_cb key (layout.record e.2) st
      (some (kk, st), more)

/-- `kk` and `typedKey` are what the two variables hold before anything is stored in them. -/
def scan (key : Values cs) (kk : List u8) (st : σ) : BTree.Outcome (Option σ) := do
  let r ← t.adapterScan fuel s (foldKey cs key) (onEntry layout typedKey found_record_cb) (some (kk, st))
  pure (r.map Prod.snd)

def scanDesc (key : Values cs) (kk : List u8) (st : σ) : BTree.Outcome (Option σ) := do
  let r ← t.adapterScanDesc fuel s (foldKey cs key) (onEntry layout typedKey found_record_cb)
    (some (kk, st))
  pure (r.map Prod.snd)

end Scan

def count : BTree.Outcome ℕ :=
  t.adapterScan fuel s [] (fun cnt _ => ((cnt + 1) % 2 ^ 64, true)) 0

/-- The lambda of countw; the state is kk and cnt. -/
def onCounted (w_id : Integer) (st : List u8 × ℕ) (e : BTree.Key × Payload) : (List u8 × ℕ) × Bool :=
  let kk := e.1 ++ st.1.drop e.1.length
  if memcmp (Kind.integer.fold w_id) kk 4 ≠ .eq then ((kk, st.2), false)
  else ((kk, (st.2 + 1) % 2 ^ 64), true)

def countw (w_id : Integer) (kk : List u8) : BTree.Outcome ℕ := do
  let (_, cnt) ← t.adapterScan fuel s (Kind.integer.fold w_id) (onCounted w_id) (kk, 0)
  pure cnt

end Adapter

namespace Stored
variable {cs : List Column} {R : Type}

def empty : Stored cs R := ⟨[], fun _ none => absurd none List.not_mem_nil, List.Pairwise.nil⟩

def below (key : Values cs) (row : Values cs × R) : Bool := decide (foldKey cs row.1 < foldKey cs key)

theorem absent_iff {t : Stored cs R} {key : Values cs} :
    t.lookup key = none ↔ ∀ row ∈ t.rows, foldKey cs row.1 ≠ foldKey cs key := by
  rw [lookup, Option.map_eq_none_iff, List.find?_eq_none]
  simp

/-- A new row between those before its key and those behind it. -/
def insert (t : Stored cs R) (key : Values cs) (rec : R) (proper : KeyProper cs key)
    (absent : t.lookup key = none) : Stored cs R where
  rows := t.rows.filter (below key) ++ (key, rec) :: t.rows.filter fun row => !below key row
  proper := by
    intro row member
    rcases List.mem_append.mp member with before | here
    · exact t.proper row (List.mem_of_mem_filter before)
    · rcases List.mem_cons.mp here with rfl | behind
      · exact proper
      · exact t.proper row (List.mem_of_mem_filter behind)
  sorted := by
    have low : ∀ row ∈ t.rows.filter (below key), foldKey cs row.1 < foldKey cs key := by
      intro row member
      exact of_decide_eq_true (List.mem_filter.mp member).2
    have high : ∀ row ∈ t.rows.filter fun row => !below key row, foldKey cs key < foldKey cs row.1 := by
      intro row member
      obtain ⟨there, behind⟩ := List.mem_filter.mp member
      have other := absent_iff.mp absent row there
      simp only [below, Bool.not_eq_true', decide_eq_false_iff_not, not_lt] at behind
      exact lt_of_le_of_ne behind other.symm
    refine List.pairwise_append.mpr ⟨t.sorted.filter _, List.pairwise_cons.mpr ⟨high, t.sorted.filter _⟩, ?_⟩
    intro a before b here
    rcases List.mem_cons.mp here with rfl | behind
    · exact low a before
    · exact lt_trans (low a before) (high b behind)

def update (t : Stored cs R) (key : Values cs) (fn : R → R) : Stored cs R where
  rows := t.rows.map fun row => (row.1, if foldKey cs row.1 = foldKey cs key then fn row.2 else row.2)
  proper := by
    intro row member
    obtain ⟨old, there, rfl⟩ := List.mem_map.mp member
    exact t.proper old there
  sorted := List.pairwise_map.mpr t.sorted

def erase (t : Stored cs R) (key : Values cs) : Stored cs R where
  rows := t.rows.filter fun row => decide (foldKey cs row.1 ≠ foldKey cs key)
  proper := fun row member => t.proper row (List.mem_of_mem_filter member)
  sorted := t.sorted.filter _

end Stored

def Kind.isInteger (w_id : Integer) : (k : Kind) → k.Value → Bool
  | .integer, (v : Integer) => decide (v = w_id)
  | .varchar _, _ => false

def leading (w_id : Integer) : (cs : List Column) → Values cs → Bool
  | [], _ => false
  | c :: _, (v, _) => c.kind.isInteger w_id v

namespace Stored
variable {cs : List Column} {R σ : Type}

/-- The rows in their order, until the callback returns false. -/
def deliverRows (found : Values cs → R → σ → σ × Bool) : List (Values cs × R) → σ → σ
  | [], st => st
  | row :: rows, st =>
    if (found row.1 row.2 st).2 then deliverRows found rows (found row.1 row.2 st).1
    else (found row.1 row.2 st).1

def upFrom (t : Stored cs R) (key : Values cs) : List (Values cs × R) :=
  t.rows.filter fun row => decide (foldKey cs key ≤ foldKey cs row.1)

def downFrom (t : Stored cs R) (key : Values cs) : List (Values cs × R) :=
  (t.rows.filter fun row => decide (foldKey cs row.1 ≤ foldKey cs key)).reverse

theorem mem_upFrom {t : Stored cs R} {key : Values cs} (proper : KeyProper cs key) {row : Values cs × R} :
    row ∈ t.upFrom key ↔ row ∈ t.rows ∧ ¬ keyLess cs row.1 key := by
  rw [upFrom, List.mem_filter, decide_eq_true_iff]
  refine and_congr_right fun member => ?_
  rw [← not_lt, (foldKey_keeps cs (t.proper row member) proper).order]

theorem mem_downFrom {t : Stored cs R} {key : Values cs} (proper : KeyProper cs key)
    {row : Values cs × R} : row ∈ t.downFrom key ↔ row ∈ t.rows ∧ ¬ keyLess cs key row.1 := by
  rw [downFrom, List.mem_reverse, List.mem_filter, decide_eq_true_iff]
  refine and_congr_right fun member => ?_
  rw [← not_lt, (foldKey_keeps cs proper (t.proper row member)).order]

end Stored

theorem Kind.isInteger_self (v : Integer) : integer.isInteger v v = true := decide_eq_true rfl

theorem Kind.isInteger_fold {w_id : Integer} {k : Kind} {v : k.Value} (same : k.isInteger w_id v = true) :
    k.fold v = integer.fold w_id ∧ ∀ w, k.isInteger w v = decide (w_id = w) := by
  cases k with
  | integer =>
    have same : v = w_id := of_decide_eq_true same
    rw [same]
    exact ⟨rfl, fun _ => rfl⟩
  | varchar n => cases same

theorem leading_fold {w_id : Integer} {cs : List Column} {key : Values cs}
    (first : leading w_id cs key = true) : ∃ rest, foldKey cs key = Kind.integer.fold w_id ++ rest ∧
      ∀ w, leading w cs key = decide (w_id = w) := by
  cases cs with
  | nil => cases first
  | cons c cs =>
    obtain ⟨v, vs⟩ := key
    obtain ⟨same, only⟩ := Kind.isInteger_fold first
    exact ⟨foldKey cs vs, by rw [foldKey, same], only⟩

theorem leading_take {w_id w : Integer} {cs : List Column} {key : Values cs}
    (first : leading w cs key = true) :
    (foldKey cs key).take 4 = Kind.integer.fold w_id ↔ leading w_id cs key = true := by
  obtain ⟨rest, same, only⟩ := leading_fold first
  rw [same, only, decide_eq_true_iff]
  change Kind.integer.fold w = Kind.integer.fold w_id ↔ w = w_id
  constructor
  · intro equal
    have read := Kind.unfold_integer w [] w
    rw [equal, Kind.unfold_integer] at read
    cases read
    rfl
  · rintro rfl
    rfl

theorem record_leading (r : RecordType) (key : Values r.key) : ∃ w, leading w r.key key = true := by
  cases r <;> exact ⟨key.1, Kind.isInteger_self key.1⟩

/-- A callback that cannot tell keys with the same fields apart. -/
def Respects {cs : List Column} {R σ : Type} (found : Values cs → R → σ → σ × Bool) : Prop :=
  ∀ a b, KeyProper cs b → keySame cs a b → ∀ r st, found a r st = found b r st

section Deliver
variable {cs : List Column} {size : ℕ} {R σ : Type} {layout : Layout size R}
variable {typedKey : Values cs} {found : Values cs → R → σ → σ × Bool}

def entryOf (layout : Layout size R) (row : Values cs × R) : BTree.Key × Payload :=
  (foldKey cs row.1, layout.bytes row.2)

theorem onEntry_row (respects : Respects found) {row : Values cs × R} (proper : KeyProper cs row.1)
    (kk : List u8) (st : σ) :
    Adapter.onEntry layout typedKey found (some (kk, st)) (entryOf layout row) =
      (some (foldKey cs row.1 ++ kk.drop (foldKey cs row.1).length, (found row.1 row.2 st).1),
        (found row.1 row.2 st).2) := by
  obtain ⟨key, read, same⟩ :=
    unfoldKey_foldKey cs proper (kk.drop (foldKey cs row.1).length) typedKey
  simp only [Adapter.onEntry, entryOf, read, layout.reads, respects key row.1 proper same]

theorem deliver_rows (respects : Respects found) {rows : List (Values cs × R)}
    (proper : ∀ row ∈ rows, KeyProper cs row.1) (kk : List u8) (st : σ) :
    ∃ kk', (deliver (Adapter.onEntry layout typedKey found) (some (kk, st))
      (rows.map (entryOf layout))).1 = some (kk', Stored.deliverRows found rows st) := by
  induction rows generalizing kk st with
  | nil => exact ⟨kk, rfl⟩
  | cons row rows ih =>
    have here := proper row List.mem_cons_self
    rw [List.map_cons, deliver, onEntry_row respects here, Stored.deliverRows]
    split
    · exact ih (fun row member => proper row (List.mem_cons_of_mem _ member)) _ _
    · exact ⟨_, rfl⟩

theorem deliver_count {es : List (BTree.Key × Payload)} (cnt : ℕ) (small : cnt < 2 ^ 64) :
    (deliver (fun cnt _ => ((cnt + 1) % 2 ^ 64, true)) cnt es).1 = (cnt + es.length) % 2 ^ 64 := by
  induction es generalizing cnt with
  | nil => exact (Nat.mod_eq_of_lt small).symm
  | cons e es ih =>
    rw [deliver, if_pos rfl, ih _ (Nat.mod_lt _ (by decide)), List.length_cons]
    omega

theorem take_mono (n : ℕ) {a b : List u8} (le : a ≤ b) : a.take n ≤ b.take n :=
  not_lt.mp fun less => absurd (Prefix.lt_of_take_lt less) (not_lt.mpr le)

theorem memcmp_leading (w_id : Integer) {w : Integer} {key : Values cs} (first : leading w cs key = true)
    (left : List u8) : memcmp (Kind.integer.fold w_id) (foldKey cs key ++ left) 4 = .eq ↔
      leading w_id cs key = true := by
  obtain ⟨rest, same, _⟩ := leading_fold first
  have long : 4 ≤ (foldKey cs key).length := by
    rw [same, List.length_append]
    exact Nat.le_add_right 4 _
  rw [← leading_take first, ← @List.take_append_of_le_length _ _ left _ long]
  constructor
  · exact fun equal => (memcmp_eq equal).symm
  · intro equal
    rw [memcmp, equal]
    simp [Kind.fold, storeU32]

theorem deliver_counted {rows : List (Values cs × R)} (w_id : Integer) (kk : List u8) (cnt : ℕ)
    (small : cnt < 2 ^ 64) (leads : ∀ row ∈ rows, ∃ w, leading w cs row.1 = true) :
    (deliver (Adapter.onCounted w_id) (kk, cnt) (rows.map (entryOf layout))).1.2 =
      (cnt + (rows.takeWhile fun row => leading w_id cs row.1).length) % 2 ^ 64 := by
  induction rows generalizing kk cnt with
  | nil => exact (Nat.mod_eq_of_lt small).symm
  | cons row rows ih =>
    obtain ⟨w, first⟩ := leads row List.mem_cons_self
    have equal := memcmp_leading w_id first (kk.drop (foldKey cs row.1).length)
    have rest := fun row member => leads row (List.mem_cons_of_mem _ member)
    rw [List.map_cons, deliver, List.takeWhile_cons]
    cases here : leading w_id cs row.1 with
    | true =>
      rw [here] at equal
      simp only [Adapter.onCounted, entryOf, equal.mpr rfl, ne_eq, not_true_eq_false, if_false, if_true]
      rw [ih _ _ (Nat.mod_lt _ (by decide)) rest, List.length_cons]
      omega
    | false =>
      rw [here] at equal
      have differ := mt equal.mp Bool.false_ne_true
      simp only [Adapter.onCounted, entryOf, ne_eq, differ, not_false_eq_true, if_true, Bool.false_eq_true, if_false]
      exact (Nat.mod_eq_of_lt small).symm

end Deliver

namespace Adapter
variable {cs : List Column} {size : ℕ} {R : Type} {layout : Layout size R}
variable {t : Tree} {s : Store} {table : Stored cs R}

def Shows (layout : Layout size R) (m : Map) (table : Stored cs R) : Prop :=
  ∀ k v, m.lookup k = some v ↔ ∃ row ∈ table.rows, entryOf layout row = (k, v)

def Backs (layout : Layout size R) (t : Tree) (s : Store) (table : Stored cs R) : Prop :=
  ∃ m : Map, Represents t size s m ∧ Shows layout m table

theorem onRecord_bytes (fn : R → R) (rec : R) :
    (onRecord layout fn).apply (layout.bytes rec) = layout.bytes (fn rec) := by
  have sized := layout.sized rec
  have sized' := layout.sized (fn rec)
  simp only [onRecord, layout.reads]
  rw [List.drop_of_length_le (by omega), List.append_nil, List.take_of_length_le (by omega)]

section Shows
variable {m : Map} (shows_ : Shows layout m table)
include shows_

theorem Shows.lookup (key : Values cs) :
    m.lookup (foldKey cs key) = (table.lookup key).map layout.bytes := by
  cases found : table.lookup key with
  | none =>
    rw [Option.map_none, Option.eq_none_iff_forall_ne_some]
    intro v there
    obtain ⟨row, member, same⟩ := (shows_ _ v).mp there
    exact Stored.absent_iff.mp found row member (congrArg Prod.fst same)
  | some rec =>
    obtain ⟨k, member, same⟩ := Stored.lookup_mem found
    refine (shows_ _ _).mpr ⟨(k, rec), member, ?_⟩
    rw [entryOf, same]

theorem Shows.insert {key : Values cs} {rec : R} (proper : KeyProper cs key)
    (absent : table.lookup key = none) :
    Shows layout (m.insert (foldKey cs key) (layout.bytes rec)) (table.insert key rec proper absent) := by
  intro k v
  have rows : ∀ row, row ∈ (table.insert key rec proper absent).rows ↔
      row = (key, rec) ∨ row ∈ table.rows := by
    intro row
    simp only [Stored.insert, List.mem_append, List.mem_cons, List.mem_filter]
    cases Stored.below key row <;> simp [or_comm]
  rw [lookup_insert_some, shows_ k v]
  constructor
  · rintro (here | ⟨⟨row, member, same⟩, _⟩)
    · exact ⟨(key, rec), (rows _).mpr (Or.inl rfl), here.symm⟩
    · exact ⟨row, (rows _).mpr (Or.inr member), same⟩
  · rintro ⟨row, member, same⟩
    rcases (rows row).mp member with rfl | old
    · exact Or.inl same.symm
    · refine Or.inr ⟨⟨row, old, same⟩, ?_⟩
      have here : foldKey cs row.1 = k := congrArg Prod.fst same
      rw [← here]
      exact Stored.absent_iff.mp absent row old

theorem Shows.erase (key : Values cs) :
    Shows layout (m.erase (foldKey cs key)) (table.erase key) := by
  intro k v
  rw [lookup_erase_some, shows_ k v]
  constructor
  · rintro ⟨⟨row, member, same⟩, differ⟩
    have here : foldKey cs row.1 = k := congrArg Prod.fst same
    exact ⟨row, List.mem_filter.mpr ⟨member, decide_eq_true (here ▸ differ)⟩, same⟩
  · rintro ⟨row, member, same⟩
    obtain ⟨old, differ⟩ := List.mem_filter.mp member
    have here : foldKey cs row.1 = k := congrArg Prod.fst same
    exact ⟨⟨row, old, same⟩, here ▸ of_decide_eq_true differ⟩

theorem Shows.update (key : Values cs) (fn : R → R) :
    Shows layout (m.update (foldKey cs key) (onRecord layout fn)) (table.update key fn) := by
  intro k v
  have rows : (∃ row ∈ (table.update key fn).rows, entryOf layout row = (k, v)) ↔
      ∃ row ∈ table.rows, (foldKey cs row.1,
        layout.bytes (if foldKey cs row.1 = foldKey cs key then fn row.2 else row.2)) = (k, v) := by
    constructor
    · rintro ⟨_, member, same⟩
      obtain ⟨row, old, rfl⟩ := List.mem_map.mp member
      exact ⟨row, old, same⟩
    · rintro ⟨row, old, same⟩
      exact ⟨_, List.mem_map.mpr ⟨row, old, rfl⟩, same⟩
  rw [rows, Map.update, shows_.lookup key]
  cases found : table.lookup key with
  | none =>
    have apart := Stored.absent_iff.mp found
    simp only [Option.map_none]
    rw [shows_ k v]
    refine exists_congr fun row => and_congr_right fun member => ?_
    rw [if_neg (apart row member)]
    rfl
  | some rec =>
    simp only [Option.map_some]
    rw [lookup_insert_some, shows_ k v, onRecord_bytes]
    constructor
    · rintro (new | ⟨⟨row, member, same⟩, differ⟩)
      · obtain ⟨k', member, there⟩ := Stored.lookup_mem found
        refine ⟨(k', rec), member, ?_⟩
        rw [if_pos there, there]
        exact new.symm
      · have here : foldKey cs row.1 = k := congrArg Prod.fst same
        refine ⟨row, member, ?_⟩
        rw [if_neg (here ▸ differ)]
        exact same
    · rintro ⟨row, member, same⟩
      by_cases there : foldKey cs row.1 = foldKey cs key
      · left
        rw [if_pos there, there, Stored.lookup_unique found member there] at same
        exact same.symm
      · right
        rw [if_neg there] at same
        have here : foldKey cs row.1 = k := congrArg Prod.fst same
        exact ⟨⟨row, member, same⟩, here ▸ there⟩

theorem Shows.listed {es : List (BTree.Key × Payload)} (sorted : es.Pairwise fun a b => a.1 < b.1)
    (mem : ∀ k v, (k, v) ∈ es ↔ m.lookup k = some v) : es = table.rows.map (entryOf layout) := by
  have rows : (table.rows.map (entryOf layout)).Pairwise fun a b => a.1 < b.1 :=
    List.pairwise_map.mpr table.sorted
  have : Std.Irrefl fun a b : BTree.Key × Payload => a.1 < b.1 := ⟨fun e => lt_irrefl e.1⟩
  refine sorted.eq_of_mem_iff rows ?_
  rintro ⟨k, v⟩
  rw [mem, shows_ k v, List.mem_map]

end Shows

section Scans
variable {σ : Type} (backs : Backs layout t s table)
include backs

theorem Backs.listed : ∀ (key : BTree.Key) (τ : Type)
    (cb : τ → BTree.Key × Payload → τ × Bool) (st : τ),
    Settles (fun fuel => t.adapterScan fuel s key cb st)
      (done (deliver cb st ((table.rows.map (entryOf layout)).filter fun e => decide (key ≤ e.1))).1) ∧
    Settles (fun fuel => t.adapterScanDesc fuel s key cb st)
      (done (deliver cb st
        ((table.rows.map (entryOf layout)).filter fun e => decide (e.1 ≤ key)).reverse).1) := by
  obtain ⟨m, represents, shows_⟩ := backs
  obtain ⟨es, sorted, mem, scans⟩ := represents.scans
  rw [← shows_.listed sorted mem]
  exact scans

theorem Backs.scan {typedKey : Values cs} {found : Values cs → R → σ → σ × Bool}
    (respects : Respects found) (key : Values cs) (kk : List u8) (st : σ) :
    Settles (fun fuel => Adapter.scan layout t fuel s typedKey found key kk st)
      (done (some (Stored.deliverRows found (table.upFrom key) st))) := by
  have scan := (backs.listed (foldKey cs key) _ (onEntry layout typedKey found) (some (kk, st))).1
  have rows : (table.rows.map (entryOf layout)).filter (fun e => decide (foldKey cs key ≤ e.1)) =
      (table.upFrom key).map (entryOf layout) := List.filter_map
  have proper : ∀ row ∈ table.upFrom key, KeyProper cs row.1 :=
    fun row member => table.proper row (List.mem_of_mem_filter member)
  obtain ⟨kk', delivered⟩ := @deliver_rows _ _ _ _ layout typedKey _ respects _ proper kk st
  rw [rows, delivered] at scan
  exact scan.bind (settles_const _)

theorem Backs.scanDesc {typedKey : Values cs} {found : Values cs → R → σ → σ × Bool}
    (respects : Respects found) (key : Values cs) (kk : List u8) (st : σ) :
    Settles (fun fuel => Adapter.scanDesc layout t fuel s typedKey found key kk st)
      (done (some (Stored.deliverRows found (table.downFrom key) st))) := by
  have scan := (backs.listed (foldKey cs key) _ (onEntry layout typedKey found) (some (kk, st))).2
  have rows : ((table.rows.map (entryOf layout)).filter
      (fun e => decide (e.1 ≤ foldKey cs key))).reverse = (table.downFrom key).map (entryOf layout) := by
    rw [Stored.downFrom, List.map_reverse, List.filter_map]
    rfl
  have proper : ∀ row ∈ table.downFrom key, KeyProper cs row.1 :=
    fun row member => table.proper row (List.mem_of_mem_filter (List.mem_reverse.mp member))
  obtain ⟨kk', delivered⟩ := @deliver_rows _ _ _ _ layout typedKey _ respects _ proper kk st
  rw [rows, delivered] at scan
  exact scan.bind (settles_const _)

theorem Backs.count : Settles (fun fuel => Adapter.count t fuel s) (done (table.rows.length % 2 ^ 64)) := by
  have scan := (backs.listed [] ℕ (fun cnt _ => ((cnt + 1) % 2 ^ 64, true)) 0).1
  have whole : (table.rows.map (entryOf layout)).filter (fun e => decide ([] ≤ e.1)) =
      table.rows.map (entryOf layout) :=
    List.filter_eq_self.mpr fun e _ => decide_eq_true (Prefix.nil_le e.1)
  rw [whole, deliver_count 0 (by decide), List.length_map, Nat.zero_add] at scan
  exact scan

/-- The rows that countw counts lie together from the Integer's bytes on. -/
theorem Backs.countw (w_id : Integer) (kk : List u8)
    (leads : ∀ row ∈ table.rows, ∃ w, leading w cs row.1 = true) :
    Settles (fun fuel => Adapter.countw t fuel s w_id kk)
      (done ((table.rows.filter fun row => leading w_id cs row.1).length % 2 ^ 64)) := by
  have scan := (backs.listed (Kind.integer.fold w_id) (List u8 × ℕ) (Adapter.onCounted w_id) (kk, 0)).1
  have rows : (table.rows.map (entryOf layout)).filter (fun e => decide (Kind.integer.fold w_id ≤ e.1)) =
      (table.rows.filter fun row => decide (Kind.integer.fold w_id ≤ foldKey cs row.1)).map
        (entryOf layout) := List.filter_map
  have together : (table.rows.filter fun row => decide (Kind.integer.fold w_id ≤ foldKey cs row.1)).takeWhile
      (fun row => leading w_id cs row.1) = table.rows.filter fun row => leading w_id cs row.1 := by
    rw [Band.takeWhile_eq_filter (table.sorted.filter _), List.filter_filter]
    · refine List.filter_congr fun row member => ?_
      cases first : leading w_id cs row.1 with
      | false => rfl
      | true =>
        obtain ⟨rest, same, _⟩ := leading_fold first
        rw [Bool.true_and, same]
        exact decide_eq_true (Prefix.le_append _ _)
    · intro a ha b hb less outside
      obtain ⟨old, above⟩ := List.mem_filter.mp ha
      obtain ⟨old', _⟩ := List.mem_filter.mp hb
      obtain ⟨w, first⟩ := leads a old
      by_contra inside
      rw [Bool.not_eq_false] at inside
      refine Bool.eq_false_iff.mp outside ?_
      rw [← leading_take first]
      refine le_antisymm ?_ ?_
      · rw [← (leading_take inside).mpr inside]
        exact take_mono 4 (le_of_lt less)
      · exact take_mono 4 (of_decide_eq_true above)
  have leads' : ∀ row ∈ table.rows.filter fun row => decide (Kind.integer.fold w_id ≤ foldKey cs row.1),
      ∃ w, leading w cs row.1 = true := fun row member => leads row (List.mem_of_mem_filter member)
  have counted := @deliver_counted _ _ _ layout _ w_id kk 0 (by decide) leads'
  rw [together, Nat.zero_add] at counted
  rw [rows] at scan
  rw [← counted]
  exact scan.bind (settles_const _)

end Scans

section Changes
variable {r : RecordType} {layout : Layout r.size R} {table : Stored r.key R}

theorem record_fits (r : RecordType) :
    maxFoldLength r.key ≤ maxKeyLen ∧ maxFoldLength r.key + r.size ≤ maxKVSize := by
  cases r <;> decide

theorem acceptable {key : Values r.key} (proper : KeyProper r.key key) (rec : R) :
    Acceptable r.size (foldKey r.key key) (layout.bytes rec) := by
  have short := foldKey_length_le r.key proper
  obtain ⟨bound, small⟩ := record_fits r
  obtain ⟨w, first⟩ := record_leading r key
  obtain ⟨rest, same, _⟩ := leading_fold first
  refine ⟨?_, le_trans short bound, by omega, layout.sized rec⟩
  rw [same]
  exact List.append_ne_nil_of_left_ne_nil (List.cons_ne_nil _ _) rest

variable (backs : Backs layout t s table)
include backs

theorem Backs.lookup1 (key : Values r.key) :
    Settles (fun fuel => Adapter.lookup1 layout t fuel s key) (done (table.lookup key)) := by
  obtain ⟨m, represents, shows_⟩ := backs
  have found := represents.lookup (foldKey r.key key)
  rw [shows_.lookup key] at found
  have reads : ((table.lookup key).map layout.bytes).map layout.record = table.lookup key := by
    cases table.lookup key with
    | none => rfl
    | some rec => exact congrArg some (layout.reads rec)
  have ends : Settles (fun fuel => Adapter.lookup1 layout t fuel s key)
      (done (((table.lookup key).map layout.bytes).map layout.record)) := found.bind (settles_const _)
  rwa [reads] at ends

theorem Backs.insert (ordered : t.splitOrdered = false) {key : Values r.key} (rec : R)
    (proper : KeyProper r.key key) (absent : table.lookup key = none) :
    (Settles (fun fuel => Adapter.insert layout t fuel s key rec) exits ∧
      t.RunsOut (foldKey r.key key) (layout.bytes rec) s) ∨
    ∃ s', Settles (fun fuel => Adapter.insert layout t fuel s key rec) (done s') ∧
      Backs layout t s' (table.insert key rec proper absent) := by
  obtain ⟨m, represents, shows_⟩ := backs
  have missing : m.lookup (foldKey r.key key) = none := by
    rw [shows_.lookup key, absent]
    rfl
  rcases represents.insert ordered (acceptable proper rec) missing with ends | ⟨s', ends, after⟩
  · exact Or.inl ends
  · exact Or.inr ⟨s', ends, _, after, shows_.insert proper absent⟩

theorem Backs.update1 (key : Values r.key) (fn : R → R) :
    ∃ s', Settles (fun fuel => Adapter.update1 layout t fuel s key fn) (done s') ∧
      Backs layout t s' (table.update key fn) := by
  obtain ⟨m, represents, shows_⟩ := backs
  obtain ⟨s', ends, after⟩ := represents.updateInPlace (foldKey r.key key) (onRecord layout fn)
  exact ⟨s', ends.bind (settles_const _), _, after, shows_.update key fn⟩

theorem Backs.erase (key : Values r.key) :
    ∃ s', Settles (fun fuel => Adapter.erase t fuel s key) (done ((table.lookup key).isSome, s')) ∧
      Backs layout t s' (table.erase key) := by
  obtain ⟨m, represents, shows_⟩ := backs
  obtain ⟨s', ends, after⟩ := represents.remove (foldKey r.key key)
  rw [shows_.lookup key, Option.isSome_map] at ends
  exact ⟨s', ends, _, after, shows_.erase key⟩

end Changes

end Adapter

inductive AdapterCall (cs : List Column) (R : Type)
  | insert (key : Values cs) (record : R)
  | lookup1 (key : Values cs)
  | update1 (key : Values cs) (fn : R → R)
  | erase (key : Values cs)
  | count
  | countw (w_id : Integer) (kk : List u8)

inductive AdapterAnswer (R : Type)
  | unit
  | record (r : Option R)
  | bool (b : Bool)
  | number (n : ℕ)
  deriving DecidableEq

namespace Adapter
variable {cs : List Column} {size : ℕ} {R : Type} (layout : Layout size R) (t : Tree) (fuel : ℕ)

def call (s : Store) : AdapterCall cs R → BTree.Outcome (AdapterAnswer R × Store)
  | .insert key record => do
    let s ← insert layout t fuel s key record
    pure (.unit, s)
  | .lookup1 key => do
    let r ← lookup1 layout t fuel s key
    pure (.record r, s)
  | .update1 key fn => do
    let s ← update1 layout t fuel s key fn
    pure (.unit, s)
  | .erase key => do
    let (found, s) ← erase t fuel s key
    pure (.bool found, s)
  | .count => do
    let n ← count t fuel s
    pure (.number n, s)
  | .countw w_id kk => do
    let n ← countw t fuel s w_id kk
    pure (.number n, s)

def calls (s : Store) : List (AdapterCall cs R) → BTree.Outcome (List (AdapterAnswer R) × Store)
  | [] => done ([], s)
  | c :: rest => do
    let (answer, s) ← call layout t fuel s c
    let (answers, s) ← calls s rest
    pure (answer :: answers, s)

end Adapter

instance Kind.decidableProper : (k : Kind) → (v : k.Value) → Decidable (k.Proper v)
  | .integer, _ => .isTrue trivial
  | .varchar _, x => inferInstanceAs (Decidable (Varchar.Proper x))

instance KeyProper.decidable : (cs : List Column) → (key : Values cs) → Decidable (KeyProper cs key)
  | [], _ => .isTrue trivial
  | c :: cs, (v, vs) =>
    @instDecidableAnd _ _ (Kind.decidableProper c.kind v) (KeyProper.decidable cs vs)

namespace Stored
variable {cs : List Column} {R : Type}

def after (t : Stored cs R) : AdapterCall cs R → Stored cs R
  | .insert key record =>
    if new : KeyProper cs key ∧ t.lookup key = none then t.insert key record new.1 new.2 else t
  | .lookup1 _ => t
  | .update1 key fn => t.update key fn
  | .erase key => t.erase key
  | .count => t
  | .countw _ _ => t

def answer (t : Stored cs R) : AdapterCall cs R → AdapterAnswer R
  | .insert _ _ => .unit
  | .lookup1 key => .record (t.lookup key)
  | .update1 _ _ => .unit
  | .erase key => .bool (t.lookup key).isSome
  | .count => .number (t.rows.length % 2 ^ 64)
  | .countw w_id _ => .number ((t.rows.filter fun row => leading w_id cs row.1).length % 2 ^ 64)

def answers (t : Stored cs R) : List (AdapterCall cs R) → List (AdapterAnswer R)
  | [] => []
  | c :: rest => t.answer c :: (t.after c).answers rest

/-- insert gets a key that is absent at that moment and zero-free where it is text. -/
def Takes (t : Stored cs R) : AdapterCall cs R → Prop
  | .insert key _ => KeyProper cs key ∧ t.lookup key = none
  | .lookup1 _ => True
  | .update1 _ _ => True
  | .erase _ => True
  | .count => True
  | .countw _ _ => True

def Allows (t : Stored cs R) : List (AdapterCall cs R) → Prop
  | [] => True
  | c :: rest => t.Takes c ∧ (t.after c).Allows rest

end Stored

/-- Both scans hand the rows on their side of the key to the callback, in order, and end. -/
def ScansRows {cs : List Column} {size : ℕ} {R : Type} (layout : Layout size R) (t : Tree) (s : Store)
    (table : Stored cs R) : Prop :=
  ∀ (key typedKey : Values cs) (kk : List u8) (σ : Type) (found : Values cs → R → σ → σ × Bool) (st : σ),
    Respects found →
    Settles (fun fuel => Adapter.scan layout t fuel s typedKey found key kk st)
      (done (some (Stored.deliverRows found (table.upFrom key) st))) ∧
    Settles (fun fuel => Adapter.scanDesc layout t fuel s typedKey found key kk st)
      (done (some (Stored.deliverRows found (table.downFrom key) st)))

def AdapterCall.entry {cs : List Column} {size : ℕ} {R : Type} (layout : Layout size R) :
    AdapterCall cs R → Option (BTree.Key × Payload)
  | .insert key record => some (foldKey cs key, layout.bytes record)
  | .lookup1 _ => none
  | .update1 _ _ => none
  | .erase _ => none
  | .count => none
  | .countw _ _ => none

namespace Adapter
variable {r : RecordType} {R : Type} {layout : Layout r.size R} {t : Tree} {s : Store}
variable {table : Stored r.key R}

def Exhausts (layout : Layout r.size R) (t : Tree) (s : Store) (cs : List (AdapterCall r.key R)) : Prop :=
  t.Exhausts (Adapter.call layout t) (AdapterCall.entry layout) s cs

theorem Backs.call (backs : Backs layout t s table) (ordered : t.splitOrdered = false)
    {c : AdapterCall r.key R} (takes : table.Takes c) :
    (Settles (fun fuel => Adapter.call layout t fuel s c) exits ∧ ∀ rest, Exhausts layout t s (c :: rest)) ∨
    ∃ s', Settles (fun fuel => Adapter.call layout t fuel s c) (done (table.answer c, s')) ∧
      Backs layout t s' (table.after c) := by
  cases c with
  | insert key record =>
    have new : KeyProper r.key key ∧ table.lookup key = none := takes
    rw [Stored.after, dif_pos new]
    rcases backs.insert ordered record new.1 new.2 with ⟨ends, out⟩ | ⟨s', ends, backs'⟩
    · exact Or.inl ⟨ends.bind_exits, fun _ => .here rfl out⟩
    · exact Or.inr ⟨s', ends.bind (settles_const _), backs'⟩
  | lookup1 key => exact Or.inr ⟨s, (backs.lookup1 key).bind (settles_const _), backs⟩
  | update1 key fn =>
    obtain ⟨s', ends, backs'⟩ := backs.update1 key fn
    exact Or.inr ⟨s', ends.bind (settles_const _), backs'⟩
  | erase key =>
    obtain ⟨s', ends, backs'⟩ := backs.erase key
    exact Or.inr ⟨s', ends.bind (settles_const _), backs'⟩
  | count => exact Or.inr ⟨s, backs.count.bind (settles_const _), backs⟩
  | countw w_id kk =>
    have counted := backs.countw w_id kk fun row _ => record_leading r row.1
    exact Or.inr ⟨s, counted.bind (settles_const _), backs⟩

theorem Backs.calls (backs : Backs layout t s table) (ordered : t.splitOrdered = false)
    {cs : List (AdapterCall r.key R)} (allows : table.Allows cs) :
    (Settles (fun fuel => Adapter.calls layout t fuel s cs) exits ∧ Exhausts layout t s cs) ∨
    ∃ s', Settles (fun fuel => Adapter.calls layout t fuel s cs) (done (table.answers cs, s')) ∧
      Backs layout t s' (cs.foldl Stored.after table) := by
  induction cs generalizing s table with
  | nil => exact Or.inr ⟨s, settles_const _, backs⟩
  | cons c rest ih =>
    rcases backs.call ordered allows.1 with ⟨ends, out⟩ | ⟨s', ends, backs'⟩
    · exact Or.inl ⟨ends.bind_exits, out rest⟩
    · rcases ih backs' allows.2 with ⟨stops, out⟩ | ⟨s'', goes, backs''⟩
      · exact Or.inl ⟨ends.bind stops.bind_exits, .later ends out⟩
      · exact Or.inr ⟨s'', ends.bind (goes.bind (settles_const _)), backs''⟩

theorem create_backs (layout : Layout r.size R) (slotId : ℕ) (pos : metadataPageId < s.allocCount)
    (space : s.allocCount < s.virtCount) (small : s.virtCount ≤ noNeighbour) :
    ∃ s', Tree.create slotId s = done (⟨slotId, false⟩, s') ∧
      Backs layout ⟨slotId, false⟩ s' (Stored.empty : Stored r.key R) := by
  obtain ⟨s', eq, represents⟩ := create_represents slotId r.size pos space small
  refine ⟨s', eq, ∅, represents, fun k v => ?_⟩
  rw [Finmap.lookup_empty]
  simp [Stored.empty]

end Adapter

namespace Adapter
variable {cs : List Column} {size : ℕ} {R : Type} (layout : Layout size R) (t : Tree) (fuel : ℕ) (s : Store)

theorem call_extends (c : AdapterCall cs R) :
    Extends (Adapter.call layout t fuel s c) (Adapter.call layout t (fuel + 1) s c) := by
  cases c with
  | insert key record => exact (t.insert_extends fuel s _ _).bind fun _ => extends_refl _
  | lookup1 key =>
    exact ((t.lookup_extends fuel s _).bind fun _ => extends_refl _).bind fun _ => extends_refl _
  | update1 key fn =>
    exact ((t.updateInPlace_extends fuel s _ _).bind fun _ => extends_refl _).bind fun _ => extends_refl _
  | erase key => exact (t.remove_extends fuel s _).bind fun _ => extends_refl _
  | count => exact (t.adapterScan_extends fuel s _ _ _).bind fun _ => extends_refl _
  | countw w_id kk =>
    exact ((t.adapterScan_extends fuel s _ _ _).bind fun _ => extends_refl _).bind fun _ => extends_refl _

theorem calls_extends (calls : List (AdapterCall cs R)) :
    Extends (Adapter.calls layout t fuel s calls) (Adapter.calls layout t (fuel + 1) s calls) := by
  induction calls generalizing s with
  | nil => exact extends_refl _
  | cons c rest ih =>
    apply (call_extends layout t fuel s c).bind
    rintro ⟨answer, s⟩
    exact (ih s).bind fun _ => extends_refl _

def freshCalls (calls : List (AdapterCall cs R)) (fuel : ℕ) :
    BTree.Outcome (List (AdapterAnswer R) × Store) := do
  let (t, s) ← Tree.create 0 blankStore
  Adapter.calls layout t fuel s calls

theorem fresh_settles (calls : List (AdapterCall cs R)) (fuel : ℕ)
    (check : List (AdapterAnswer R) × Store → Bool)
    (passes : (freshCalls layout calls fuel).passes check = true) :
    ∃ s₁ answers s, Tree.create 0 blankStore = done (⟨0, false⟩, s₁) ∧
      Settles (fun fuel => Adapter.calls layout ⟨0, false⟩ fuel s₁ calls) (done (answers, s)) ∧
      check (answers, s) = true := by
  obtain ⟨s₁, eq, _⟩ := create_represents (s := blankStore) 0 0 (by decide) (by decide) (by decide)
  obtain ⟨⟨answers, s⟩, ends, good⟩ := passes_done passes
  rw [freshCalls, eq, done_bind] at ends
  exact ⟨s₁, answers, s, eq,
    settles_of_extends (fun fuel => calls_extends layout _ fuel s₁ calls) ends, good⟩

end Adapter

/-- The calls on a fresh adapter of any record type, run one at a time, are answered as by a
sorted table, up to an insert that runs out of page ids; and its scans then deliver the table's
rows. -/
theorem adapter_is_table (r : RecordType) {R : Type} (layout : Layout r.size R) {slotId : ℕ}
    {s : Store} (pos : metadataPageId < s.allocCount) (space : s.allocCount < s.virtCount)
    (small : s.virtCount ≤ noNeighbour) {calls : List (AdapterCall r.key R)}
    (allows : (Stored.empty : Stored r.key R).Allows calls) :
    ∃ t s', Tree.create slotId s = done (t, s') ∧
      ((∃ s'', Settles (fun fuel => Adapter.calls layout t fuel s' calls)
          (done ((Stored.empty : Stored r.key R).answers calls, s'')) ∧
          ScansRows layout t s'' (calls.foldl Stored.after Stored.empty)) ∨
        Settles (fun fuel => Adapter.calls layout t fuel s' calls) exits ∧
          Adapter.Exhausts layout t s' calls) := by
  obtain ⟨s', eq, backs⟩ := Adapter.create_backs layout slotId pos space small
  refine ⟨_, s', eq, ?_⟩
  rcases backs.calls rfl allows with stops | ⟨s'', goes, backs'⟩
  · exact Or.inr stops
  · refine Or.inl ⟨s'', goes, fun key typedKey kk σ found st respects => ?_⟩
    exact ⟨backs'.scan respects key kk st, backs'.scanDesc respects key kk st⟩

/-- A customer_t of which only the first byte is looked at. -/
def customerLayout : Layout RecordType.customer.size u8 where
  bytes r := r :: List.replicate (RecordType.customer.size - 1) 0
  record bs := bs.headD 0
  sized _ := by
    rw [List.length_cons, List.length_replicate]
    rfl
  reads _ := rfl

def customerOf (c_id : Integer) : Values RecordType.customer.key := (1#32, 1#32, c_id, ())

def sixCustomers : List (AdapterCall RecordType.customer.key u8) :=
  [.insert (customerOf 1) 1, .insert (customerOf 2) 2, .insert (customerOf 3) 3, .insert (customerOf 4) 4,
    .insert (customerOf 5) 5, .insert (customerOf 6) 6, .lookup1 (customerOf 2), .count,
    .countw 1#32 [], .erase (customerOf 3)]

def sixAnswers : List (AdapterAnswer u8) :=
  [.unit, .unit, .unit, .unit, .unit, .unit, .record (some 2), .number 6, .number 6, .bool true]

theorem adapter_is_table_six : ∃ t s' s'', Tree.create 0 blankStore = done (t, s') ∧
    Settles (fun fuel => Adapter.calls customerLayout t fuel s' sixCustomers) (done (sixAnswers, s'')) ∧
    ScansRows customerLayout t s'' (sixCustomers.foldl Stored.after Stored.empty) ∧ s''.allocCount = 4 := by
  have answers : (Stored.empty : Stored RecordType.customer.key u8).answers sixCustomers = sixAnswers := by
    decide +kernel
  obtain ⟨s₁, returned, s, eq, ends, checked⟩ := Adapter.fresh_settles customerLayout sixCustomers 14
    (fun r => decide (r.2.allocCount = 4)) (by decide +kernel)
  have proper : ∀ c_id, KeyProper RecordType.customer.key (customerOf c_id) :=
    fun _ => ⟨trivial, trivial, trivial, trivial⟩
  obtain ⟨t, s', eq', result⟩ := @adapter_is_table .customer u8 customerLayout 0 blankStore
    (by decide) (by decide) (by decide) sixCustomers
    ⟨⟨proper 1, by decide⟩, ⟨proper 2, by decide⟩, ⟨proper 3, by decide⟩, ⟨proper 4, by decide⟩,
      ⟨proper 5, by decide⟩, ⟨proper 6, by decide⟩, trivial, trivial, trivial, trivial, trivial⟩
  cases eq.symm.trans eq'
  rcases result with ⟨s'', goes, scans⟩ | ⟨stops, _⟩
  · rw [answers] at goes
    cases ends.unique goes
    exact ⟨_, _, _, eq, goes, scans, of_decide_eq_true checked⟩
  · cases ends.unique stops

end Tpcc
