import OsvBenchmarks.Library.PrefixCode
import OsvBenchmarks.BTree.Heap

/-!
The keys of the schema as bytes. An Integer is folded with its sign bit flipped
and its bytes swapped, a Varchar with a closing zero; the fields of a key follow
each other. Memory is little endian.
-/
namespace Tpcc
open BTree PrefixCode

abbrev Integer := BitVec 32

def byteOf (x : BitVec 32) (i : ℕ) : u8 := Fin.ofNat 256 (x.toNat / 256 ^ i)

def fromBytes (a b c d : u8) : BitVec 32 :=
  BitVec.ofNat 32 (a.val + 256 * (b.val + 256 * (c.val + 256 * d.val)))

def storeU32 (x : BitVec 32) : List u8 := [byteOf x 0, byteOf x 1, byteOf x 2, byteOf x 3]

def loadU32 : List u8 → Option (BitVec 32)
  | a :: b :: c :: d :: _ => some (fromBytes a b c d)
  | _ => none

def bswap32 (x : BitVec 32) : BitVec 32 :=
  fromBytes (byteOf x 3) (byteOf x 2) (byteOf x 1) (byteOf x 0)

def flipSign (x : BitVec 32) : BitVec 32 := x ^^^ (1#32 <<< 31)

/-- `sized`: the array has maxLength characters whatever the length says. -/
structure Varchar (maxLength : ℕ) where
  length : ℤ
  data : List u8
  sized : data.length = maxLength

/-- The constructor from a C string, cut off where its assertion would fail. -/
def varcharOf (n : ℕ) (str : List u8) : Varchar n :=
  ⟨(str.take n).length, str.take n ++ List.replicate (n - (str.take n).length) 0, by simp⟩

namespace Varchar
variable {n : ℕ}

/-- operator== -/
def same (x y : Varchar n) : Prop :=
  x.length = y.length ∧ memcmp x.data y.data x.length.toNat = .eq

/-- operator< -/
def less (x y : Varchar n) : Prop :=
  match memcmp x.data y.data (if x.length < y.length then x.length else y.length).toNat with
  | .lt => True
  | .gt => False
  | .eq => x.length < y.length

def content (x : Varchar n) : List u8 := x.data.take x.length.toNat

def Proper (x : Varchar n) : Prop := 0 ≤ x.length ∧ x.length ≤ n ∧ 0 ∉ x.content

instance (x y : Varchar n) : Decidable (x.same y) := inferInstanceAs (Decidable (_ ∧ _))

instance (x : Varchar n) : Decidable x.Proper := inferInstanceAs (Decidable (_ ∧ _ ∧ _))

end Varchar

def strlen : List u8 → Option ℕ
  | [] => none
  | b :: bs => if b = 0 then some 0 else (strlen bs).map (· + 1)

theorem strlen_lt {input : List u8} {l : ℕ} (found : strlen input = some l) :
    l < input.length := by
  induction input generalizing l with
  | nil => simp [strlen] at found
  | cons b bs ih =>
    simp only [strlen] at found
    split at found
    · cases found
      simp
    · rw [Option.map_eq_some_iff] at found
      obtain ⟨m, rest, rfl⟩ := found
      simpa using ih rest

theorem strlen_terminated {s : List u8} (zeroFree : 0 ∉ s) (rest : List u8) :
    strlen (s ++ 0 :: rest) = some s.length := by
  induction s with
  | nil => rfl
  | cons b s ih =>
    have head : b ≠ 0 := fun h => zeroFree (by simp [h])
    have tail := ih fun h => zeroFree (List.mem_cons_of_mem _ h)
    simp [strlen, head, tail]

inductive Kind
  | integer
  | varchar (maxLength : ℕ)

namespace Kind

abbrev Value : Kind → Type
  | integer => Integer
  | varchar n => Varchar n

/-- sizeof: a Varchar is an int16_t and its characters. -/
def size : Kind → ℕ
  | integer => 4
  | varchar n => (2 + n + 1) / 2 * 2

/-- The bytes written; their number is what fold returns. -/
def fold : (k : Kind) → k.Value → List u8
  | integer, x => storeU32 (bswap32 (flipSign x))
  | varchar _, (x : Varchar _) => x.data.take x.length.toNat ++ [0]

/-- Reads into a value and returns the number of bytes read. -/
def unfold : (k : Kind) → List u8 → k.Value → Option (k.Value × ℕ)
  | integer, input, _ => (loadU32 input).map fun word => (flipSign (bswap32 word), 4)
  | varchar n, input, (x : Varchar n) =>
    match found : strlen input with
    | none => none
    | some l =>
      if fits : l ≤ n then
        some ((⟨l, input.take l ++ x.data.drop l, by
          have bound := strlen_lt found
          have sized := x.sized
          simp only [List.length_append, List.length_take, List.length_drop]
          omega⟩ : Varchar n), l + 1)
      else none

def less : (k : Kind) → k.Value → k.Value → Prop
  | integer, (x : Integer), (y : Integer) => x.toInt < y.toInt
  | varchar _, x, y => Varchar.less x y

def same : (k : Kind) → k.Value → k.Value → Prop
  | integer, (x : Integer), (y : Integer) => x = y
  | varchar _, x, y => Varchar.same x y

def Proper : (k : Kind) → k.Value → Prop
  | integer, _ => True
  | varchar _, x => Varchar.Proper x

end Kind

inductive Column
  | wId
  | dWId | dId
  | cWId | cDId | cId | cLast | cFirst
  | threadId | hPk
  | noWId | noDId | noOId
  | oWId | oDId | oCId | oId
  | olWId | olDId | olOId | olNumber
  | iId
  | sWId | sIId

def Column.kind : Column → Kind
  | .cLast | .cFirst => .varchar 16
  | .wId | .dWId | .dId | .cWId | .cDId | .cId | .threadId | .hPk | .noWId | .noDId | .noOId
  | .oWId | .oDId | .oCId | .oId | .olWId | .olDId | .olOId | .olNumber | .iId | .sWId | .sIId =>
    .integer

inductive RecordType
  | warehouse | district | customer | customerWdl | history | neworder | order | orderWdc
  | orderline | item | stock

/-- The fields in the order in which foldKey and unfoldKey take them. -/
def RecordType.key : RecordType → List Column
  | warehouse => [.wId]
  | district => [.dWId, .dId]
  | customer => [.cWId, .cDId, .cId]
  | customerWdl => [.cWId, .cDId, .cLast, .cFirst]
  | history => [.threadId, .hPk]
  | neworder => [.noWId, .noDId, .noOId]
  | order => [.oWId, .oDId, .oId]
  | orderWdc => [.oWId, .oDId, .oCId, .oId]
  | orderline => [.olWId, .olDId, .olOId, .olNumber]
  | item => [.iId]
  | stock => [.sWId, .sIId]

def Values : List Column → Type
  | [] => Unit
  | c :: cs => c.kind.Value × Values cs

def foldKey : (cs : List Column) → Values cs → List u8
  | [], _ => []
  | c :: cs, (v, vs) => c.kind.fold v ++ foldKey cs vs

def unfoldKey : (cs : List Column) → List u8 → Values cs → Option (Values cs × ℕ)
  | [], _, record => some (record, 0)
  | c :: cs, input, (v, vs) => do
    let (value, pos) ← c.kind.unfold input v
    let (values, rest) ← unfoldKey cs (input.drop pos) vs
    return ((value, values), pos + rest)

def maxFoldLength (cs : List Column) : ℕ := (cs.map fun c => c.kind.size).sum

/-- The field-by-field order of two keys. -/
def keyLess : (cs : List Column) → Values cs → Values cs → Prop
  | [], _, _ => False
  | c :: cs, (v, vs), (w, ws) => c.kind.less v w ∨ c.kind.same v w ∧ keyLess cs vs ws

def keySame : (cs : List Column) → Values cs → Values cs → Prop
  | [], _, _ => True
  | c :: cs, (v, vs), (w, ws) => c.kind.same v w ∧ keySame cs vs ws

def KeyProper : (cs : List Column) → Values cs → Prop
  | [], _ => True
  | c :: cs, (v, vs) => c.kind.Proper v ∧ KeyProper cs vs

theorem byteOf_fromBytes (a b c d : u8) :
    byteOf (fromBytes a b c d) 0 = a ∧ byteOf (fromBytes a b c d) 1 = b ∧
      byteOf (fromBytes a b c d) 2 = c ∧ byteOf (fromBytes a b c d) 3 = d := by
  have ha := a.isLt
  have hb := b.isLt
  have hc := c.isLt
  have hd := d.isLt
  simp only [byteOf, fromBytes, BitVec.toNat_ofNat, Fin.ext_iff, Fin.val_ofNat]
  omega

theorem fromBytes_byteOf (x : BitVec 32) :
    fromBytes (byteOf x 0) (byteOf x 1) (byteOf x 2) (byteOf x 3) = x := by
  have bound := x.isLt
  apply BitVec.eq_of_toNat_eq
  simp only [byteOf, fromBytes, BitVec.toNat_ofNat, Fin.val_ofNat]
  omega

theorem bswap32_bswap32 (x : BitVec 32) : bswap32 (bswap32 x) = x := by
  obtain ⟨h0, h1, h2, h3⟩ := byteOf_fromBytes (byteOf x 3) (byteOf x 2) (byteOf x 1) (byteOf x 0)
  simp only [bswap32, h0, h1, h2, h3]
  exact fromBytes_byteOf x

theorem storeU32_bswap32 (x : BitVec 32) :
    storeU32 (bswap32 x) = [byteOf x 3, byteOf x 2, byteOf x 1, byteOf x 0] := by
  obtain ⟨h0, h1, h2, h3⟩ := byteOf_fromBytes (byteOf x 3) (byteOf x 2) (byteOf x 1) (byteOf x 0)
  simp only [storeU32, bswap32, h0, h1, h2, h3]

theorem pad_storeU32_bswap32 (x : BitVec 32) : pad 4 (storeU32 (bswap32 x)) = x.toNat := by
  have bound := x.isLt
  rw [storeU32_bswap32]
  simp only [pad, byteOf, Fin.val_ofNat]
  omega

theorem flipSign_flipSign (x : BitVec 32) : flipSign (flipSign x) = x := by
  rw [flipSign, flipSign, BitVec.xor_assoc, BitVec.xor_self, BitVec.xor_zero]

theorem xor_signBit {n : ℕ} (bound : n < 2 ^ 32) : n ^^^ 2 ^ 31 = (n + 2 ^ 31) % 2 ^ 32 := by
  apply Nat.eq_of_testBit_eq
  intro i
  rw [Nat.testBit_xor, Nat.testBit_two_pow, Nat.testBit_mod_two_pow, Nat.add_comm]
  rcases Nat.lt_trichotomy i 31 with low | same | high
  · have : 31 ≠ i := by omega
    have : i < 32 := by omega
    simp [Nat.testBit_two_pow_add_gt low, *]
  · subst same
    rw [Nat.testBit_two_pow_add_eq]
    simp
  · have out : ¬ i < 32 := by omega
    have clear : n.testBit i = false := Nat.testBit_lt_two_pow
      (Nat.lt_of_lt_of_le bound (Nat.pow_le_pow_right (by decide) (by omega)))
    have differ : 31 ≠ i := by omega
    simp [out, clear, differ]

/-- Flipping the sign bit shifts the signed range to start at zero. -/
theorem flipSign_toNat (x : Integer) : ((flipSign x).toNat : ℤ) = x.toInt + 2 ^ 31 := by
  have bound := x.isLt
  have sign : (1#32 <<< 31).toNat = 2 ^ 31 := by rfl
  rw [flipSign, BitVec.toNat_xor, sign, xor_signBit bound, BitVec.toInt_eq_toNat_cond]
  omega

theorem integer_keeps (x y : Integer) :
    Keeps (Kind.fold .integer) (Kind.less .integer) (Kind.same .integer) x y := by
  have px := pad_storeU32_bswap32 (flipSign x)
  have py := pad_storeU32_bswap32 (flipSign y)
  have nx := flipSign_toNat x
  have ny := flipSign_toNat y
  constructor
  · simp only [Kind.fold, Kind.less]
    constructor
    · intro less
      by_contra more
      rcases Nat.lt_or_ge (flipSign y).toNat (flipSign x).toNat with high | low
      · rw [← px, ← py] at high
        exact lt_asymm less (lt_of_pad_lt high)
      · have equal : flipSign x = flipSign y := BitVec.eq_of_toNat_eq (by omega)
        rw [equal] at less
        exact lt_irrefl _ less
    · intro less
      have : (flipSign x).toNat < (flipSign y).toNat := by omega
      rw [← px, ← py] at this
      exact lt_of_pad_lt this
  · rintro rfl
    rfl
  · intro differ
    apply apart_of_length (by rfl)
    intro equal
    have word : flipSign x = flipSign y := BitVec.eq_of_toNat_eq (by
      rw [← px, ← py]
      exact congrArg (pad 4) equal)
    have : flipSign (flipSign x) = flipSign (flipSign y) := by rw [word]
    rw [flipSign_flipSign, flipSign_flipSign] at this
    exact differ this

namespace Varchar
variable {n : ℕ} {x y : Varchar n}

theorem Proper.content_length (proper : x.Proper) : x.content.length = x.length.toNat := by
  have sized := x.sized
  have short := proper.2.1
  rw [content, List.length_take]
  omega

theorem content_take {m : ℕ} (inside : m ≤ x.length.toNat) : x.content.take m = x.data.take m := by
  rw [content, List.take_take, Nat.min_eq_left inside]

theorem same_iff_take : same x y ↔
    x.length = y.length ∧ x.data.take x.length.toNat = y.data.take x.length.toNat := by
  constructor
  · rintro ⟨len, bytes⟩
    exact ⟨len, memcmp_eq bytes⟩
  · rintro ⟨len, bytes⟩
    refine ⟨len, ?_⟩
    simp [memcmp, bytes]

/-- For strings that keep inside their arrays operator== compares the characters. -/
theorem same_iff_content (hx : 0 ≤ x.length ∧ x.length ≤ n) (hy : 0 ≤ y.length ∧ y.length ≤ n) :
    same x y ↔ x.content = y.content := by
  have lx : x.content.length = x.length.toNat := by
    have sized := x.sized
    rw [content, List.length_take]
    omega
  have ly : y.content.length = y.length.toNat := by
    have sized := y.sized
    rw [content, List.length_take]
    omega
  rw [same_iff_take]
  constructor
  · rintro ⟨len, bytes⟩
    rw [content, bytes, len, content]
  · intro equal
    have len : x.length = y.length := by
      rw [equal] at lx
      omega
    refine ⟨len, ?_⟩
    rw [← content, equal, content, len]

theorem same_iff (px : x.Proper) (py : y.Proper) : same x y ↔ x.content = y.content :=
  same_iff_content ⟨px.1, px.2.1⟩ ⟨py.1, py.2.1⟩

theorem less_iff (px : x.Proper) (py : y.Proper) : less x y ↔ x.content < y.content := by
  have lx := px.content_length
  have ly := py.content_length
  have h0 := px.1
  have h1 := py.1
  obtain ⟨m, shorter⟩ : ∃ m, m = (if x.length < y.length then x.length else y.length).toNat :=
    ⟨_, rfl⟩
  have inX : m ≤ x.length.toNat := by split at shorter <;> omega
  have inY : m ≤ y.length.toNat := by split at shorter <;> omega
  rw [less, ← shorter]
  split
  · rename_i cmp
    have below := memcmp_lt cmp
    rw [← content_take inX, ← content_take inY] at below
    simp [Prefix.lt_of_take_lt below]
  · rename_i cmp
    have above := memcmp_gt cmp
    rw [← content_take inX, ← content_take inY] at above
    simp [lt_asymm (Prefix.lt_of_take_lt above)]
  · rename_i cmp
    have equal := memcmp_eq cmp
    rw [← content_take inX, ← content_take inY] at equal
    by_cases short : x.length < y.length
    · rw [if_pos short] at shorter
      have whole : x.content.take m = x.content := List.take_of_length_le (by omega)
      have front : y.content.take x.content.length = x.content := by
        rw [lx, ← shorter, ← equal, whole]
      simp [short, Prefix.lt_of_take_eq front (by omega)]
    · rw [if_neg short] at shorter
      have whole : y.content.take m = y.content := List.take_of_length_le (by omega)
      have front : y.content ≤ x.content := by
        rw [← whole, ← equal]
        exact Prefix.take_le m x.content
      simp [short, not_lt.mpr front]

end Varchar

theorem varchar_keeps {n : ℕ} {x y : Varchar n} (px : x.Proper) (py : y.Proper) :
    Keeps (Kind.fold (.varchar n)) (Kind.less (.varchar n)) (Kind.same (.varchar n)) x y := by
  have positive : ∀ {z : Varchar n}, z.Proper → ∀ b ∈ z.content, 0 < b := by
    intro z proper b member
    exact Fin.pos_iff_ne_zero.mpr fun zero => proper.2.2 (zero ▸ member)
  constructor
  · exact (terminated_lt_iff (positive px) (positive py)).trans (Varchar.less_iff px py).symm
  · intro same
    exact congrArg (· ++ [0]) ((Varchar.same_iff px py).mp same)
  · intro differ
    have contents : x.content ≠ y.content := fun h => differ ((Varchar.same_iff px py).mpr h)
    exact apart_terminated px.2.2 py.2.2 contents

namespace Kind

theorem keeps (k : Kind) {v w : k.Value} (pv : k.Proper v) (pw : k.Proper w) :
    Keeps k.fold k.less k.same v w := by
  cases k with
  | integer => exact integer_keeps v w
  | varchar n => exact varchar_keeps pv pw

theorem fold_varchar {n : ℕ} (x : Varchar n) : (varchar n).fold x = x.content ++ [0] := by
  rfl

theorem fold_length_le (k : Kind) {v : k.Value} (proper : k.Proper v) :
    (k.fold v).length ≤ k.size := by
  cases k with
  | integer => exact Nat.le_refl 4
  | varchar n =>
    have short := Varchar.Proper.content_length (x := v) proper
    have bound := proper.2.1
    rw [fold_varchar, List.length_append, List.length_singleton, short, size]
    omega

theorem unfold_integer (x : Integer) (rest : List u8) (record : Integer) :
    integer.unfold (integer.fold x ++ rest) record = some (x, 4) := by
  have load : ∀ w, loadU32 (storeU32 w ++ rest) = some w := by
    intro w
    exact congrArg some (fromBytes_byteOf w)
  simp only [unfold, fold, load, Option.map_some, bswap32_bswap32, flipSign_flipSign]

theorem unfold_varchar {n : ℕ} {x : Varchar n} (proper : x.Proper) (rest : List u8)
    (record : Varchar n) :
    ∃ y : Varchar n, (varchar n).unfold ((varchar n).fold x ++ rest) record =
      some (y, x.content.length + 1) ∧ y.length = x.length ∧ y.content = x.content := by
  have len := proper.content_length
  have positive := proper.1
  have bound := proper.2.1
  have input : (varchar n).fold x ++ rest = x.content ++ 0 :: rest := by
    simp [fold_varchar]
  have found := strlen_terminated proper.2.2 rest
  rw [input, unfold]
  split
  · rename_i none
    rw [none] at found
    cases found
  · rename_i l some
    rw [some] at found
    cases found
    have fits : x.content.length ≤ n := by omega
    rw [dif_pos fits]
    refine ⟨_, rfl, by simp [len, positive], ?_⟩
    simp only [Varchar.content, Int.toNat_natCast, List.take_left]

/-- unfold reads back what fold has written, whatever follows it. -/
theorem unfold_fold (k : Kind) {v : k.Value} (proper : k.Proper v) (rest : List u8)
    (record : k.Value) :
    ∃ w, k.unfold (k.fold v ++ rest) record = some (w, (k.fold v).length) ∧ k.same w v := by
  cases k with
  | integer => exact ⟨v, unfold_integer v rest record, rfl⟩
  | varchar n =>
    obtain ⟨y, result, len, content⟩ := unfold_varchar proper rest record
    have again : Varchar.Proper y := by
      rw [Varchar.Proper, len, content]
      exact proper
    refine ⟨y, ?_, (Varchar.same_iff again proper).mpr content⟩
    rw [result, fold_varchar, List.length_append, List.length_singleton]

end Kind

theorem foldKey_keeps (cs : List Column) {a b : Values cs} (pa : KeyProper cs a)
    (pb : KeyProper cs b) : Keeps (foldKey cs) (keyLess cs) (keySame cs) a b := by
  induction cs with
  | nil =>
    constructor
    · exact iff_of_false (lt_irrefl _) id
    · intro _
      rfl
    · intro differ
      exact absurd trivial differ
  | cons c cs ih =>
    obtain ⟨v, vs⟩ := a
    obtain ⟨w, ws⟩ := b
    exact (c.kind.keeps pa.1 pb.1).pair (ih pa.2 pb.2)

theorem foldKey_length_le (cs : List Column) {a : Values cs} (proper : KeyProper cs a) :
    (foldKey cs a).length ≤ maxFoldLength cs := by
  induction cs with
  | nil => exact Nat.le_refl 0
  | cons c cs ih =>
    obtain ⟨v, vs⟩ := a
    have first := c.kind.fold_length_le proper.1
    have rest := ih proper.2
    rw [foldKey, List.length_append, maxFoldLength, List.map_cons, List.sum_cons]
    exact Nat.add_le_add first rest

theorem unfoldKey_foldKey (cs : List Column) {a : Values cs} (proper : KeyProper cs a)
    (rest : List u8) (record : Values cs) :
    ∃ b, unfoldKey cs (foldKey cs a ++ rest) record = some (b, (foldKey cs a).length) ∧
      keySame cs b a := by
  induction cs with
  | nil => exact ⟨record, rfl, trivial⟩
  | cons c cs ih =>
    obtain ⟨v, vs⟩ := a
    obtain ⟨old, olds⟩ := record
    obtain ⟨w, first, same⟩ := c.kind.unfold_fold proper.1 (foldKey cs vs ++ rest) old
    obtain ⟨ws, others, sames⟩ := ih proper.2 olds
    refine ⟨(w, ws), ?_, same, sames⟩
    simp [foldKey, unfoldKey, first, others]

/-- Folded keys compare as the keys do, fit in maxFoldLength, can be read back whatever
follows them, and are prefixes of each other only when the keys are the same. -/
theorem foldKey_correct (r : RecordType) (a b : Values r.key) (pa : KeyProper r.key a)
    (pb : KeyProper r.key b) :
    (foldKey r.key a < foldKey r.key b ↔ keyLess r.key a b) ∧
    (foldKey r.key a).length ≤ maxFoldLength r.key ∧
    (∀ rest record, ∃ c, unfoldKey r.key (foldKey r.key a ++ rest) record =
      some (c, (foldKey r.key a).length) ∧ keySame r.key c a) ∧
    (foldKey r.key a <+: foldKey r.key b → keySame r.key a b ∧ foldKey r.key a = foldKey r.key b)
    := by
  have keeps := foldKey_keeps r.key pa pb
  refine ⟨keeps.order, foldKey_length_le r.key pa, ?_, ?_⟩
  · intro rest record
    exact unfoldKey_foldKey r.key pa rest record
  · intro front
    have same := keeps.same_of_prefix front
    exact ⟨same, keeps.congr same⟩

/-- The key of a customer of warehouse -1, district 5, by last name. -/
def wdlKey (last : Varchar 16) : Values RecordType.customerWdl.key :=
  (BitVec.ofInt 32 (-1), 5#32, last, last, ())

/-- "A" comes before "AB" in the middle of a key, although the last name ends earlier. -/
theorem foldKey_correct_customerWdl :
    foldKey _ (wdlKey (varcharOf 16 [65])) < foldKey _ (wdlKey (varcharOf 16 [65, 66])) := by
  have first : (varcharOf 16 [65]).Proper := by decide
  have second : (varcharOf 16 [65, 66]).Proper := by decide
  have less : Varchar.less (varcharOf 16 [65]) (varcharOf 16 [65, 66]) :=
    (Varchar.less_iff first second).mpr (by decide)
  have proper : ∀ {x : Varchar 16}, x.Proper → KeyProper _ (wdlKey x) := by
    intro x h
    exact ⟨trivial, trivial, h, h, trivial⟩
  exact (foldKey_correct .customerWdl _ _ (proper first) (proper second)).1.mpr
    (Or.inr ⟨rfl, Or.inr ⟨rfl, Or.inl less⟩⟩)

end Tpcc
