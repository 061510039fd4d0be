import OsvBenchmarks.Library.Runs
import OsvBenchmarks.Tpcc.KeyFold
import OsvBenchmarks.Tpcc.Workload
import Mathlib.Data.List.TakeWhile

/-!
The history text that paymentById and paymentByName write for a customer of bad
credit: the payment in front of the text so far, formatted by snprintf into a
buffer of the field's own size. Both functions do the same here. snprintf returns
the length that it would have needed and keeps the last byte for its zero.
-/
namespace Tpcc
open BTree Runs

/-- The columns of a customer that these functions read and write. -/
structure CreditCustomer extends Customer where
  cCredit : Varchar 2
  cData : Varchar 500

/-- A payment as the format prints it; `hAmountText` is what `%7.2f` makes of the amount. -/
structure PrintedPayment where
  cId : ℤ
  cDId : ℤ
  cWId : ℤ
  dId : ℤ
  wId : ℤ
  hAmount : ℚ
  hAmountText : List u8
  hDate : ℤ
  wName : List u8
  dName : List u8

def ascii (text : List Char) : List u8 := text.map fun c => Fin.ofNat 256 c.toNat

/-- `%<width>d` -/
def decimal (width : ℕ) (x : ℤ) : List u8 :=
  let text := ascii (if x < 0 then ['-'] else []) ++ ascii (Nat.toDigits 10 x.natAbs)
  List.replicate (width - text.length) 32 ++ text

/-- A C string up to its zero. -/
def cStr (bytes : List u8) : List u8 := bytes.takeWhile fun b => b ≠ 0

namespace PrintedPayment

/-- "| %4d %2d %4d %2d %4d $%7.2f %lu %s%s ", the part in front of the text so far. -/
def formatted (p : PrintedPayment) : List u8 :=
  ascii ['|', ' '] ++ decimal 4 p.cId ++ ascii [' '] ++ decimal 2 p.cDId ++ ascii [' '] ++
    decimal 4 p.cWId ++ ascii [' '] ++ decimal 2 p.dId ++ ascii [' '] ++ decimal 4 p.wId ++
    ascii [' ', '$'] ++ p.hAmountText ++ ascii [' '] ++ decimal 0 (p.hDate % 2 ^ 64) ++ ascii [' '] ++
    cStr p.wName ++ cStr p.dName ++ ascii [' ']

end PrintedPayment

/-- The characters that fit before the zero, and the buffer behind them. -/
def snprintf (buffer : List u8) (size : ℕ) (line : List u8) : List u8 :=
  line.take (size - 1) ++ 0 :: buffer.drop (min line.length (size - 1) + 1)

/-- An int stored in an int16_t. -/
def toInt16 (x : ℤ) : ℤ := (x + 2 ^ 15) % 2 ^ 16 - 2 ^ 15

/-- std::string(data, length) throws for a length below zero. -/
def Varchar.toString {n : ℕ} (x : Varchar n) : Option (List u8) :=
  if x.length < 0 then none else some x.content

/-- The constructor without a text. -/
def Varchar.empty (n : ℕ) : Varchar n := ⟨0, List.replicate n 0, List.length_replicate⟩

theorem snprintf_length {buffer line : List u8} {size : ℕ} (sized : buffer.length = size)
    (some : 0 < size) : (snprintf buffer size line).length = size := by
  simp only [snprintf, List.length_append, List.length_take, List.length_cons, List.length_drop]
  omega

theorem snprintf_whole {buffer line : List u8} {size : ℕ} (short : line.length < size) :
    (snprintf buffer size line).take line.length = line := by
  have whole : line.take (size - 1) = line := List.take_of_length_le (by omega)
  rw [snprintf, whole, List.take_left' rfl]

theorem snprintf_zero (buffer line : List u8) (size : ℕ) : 0 ∈ snprintf buffer size line := by
  simp [snprintf]

/-- c_new_data -/
def newData (p : PrintedPayment) (cData : List u8) : Varchar 500 :=
  let line := p.formatted ++ cStr cData
  let numChars := toInt16 line.length
  { length := if numChars > 500 then 500 else numChars
    data := snprintf (Varchar.empty 500).data 500 line
    sized := snprintf_length (Varchar.empty 500).sized (by decide) }

/-- The columns that both branches update. -/
def payBalance (rec : CreditCustomer) (p : PrintedPayment) : CreditCustomer :=
  { rec with
    cBalance := rec.cBalance - p.hAmount
    cYtdPayment := rec.cYtdPayment + p.hAmount
    cPaymentCnt := rec.cPaymentCnt + 1 }

def payCreditCustomer (rec : CreditCustomer) (p : PrintedPayment) : Option CreditCustomer :=
  if rec.cCredit.same (varcharOf 2 (ascii ['B', 'C'])) then
    rec.cData.toString.map fun cData => { payBalance rec p with cData := newData p cData }
  else some (payBalance rec p)

/-- The text after a payment is the newest of the payment's and the one before. -/
structure KeepsNewest (p : PrintedPayment) (before after : CreditCustomer) : Prop where
  content : after.cData.content = (p.formatted ++ before.cData.content).take 500
  length : after.cData.length = min 500 (p.formatted ++ before.cData.content).length
  zeroFree : 0 ∉ after.cData.content

def Kept (rec : CreditCustomer) (p : PrintedPayment) : Prop :=
  ∃ paid, payCreditCustomer rec p = some paid ∧ KeepsNewest p rec paid

structure BadCredit (rec : CreditCustomer) : Prop where
  credit : rec.cCredit.same (varcharOf 2 (ascii ['B', 'C']))
  proper : rec.cData.Proper

section Payment
variable {rec : CreditCustomer} {p : PrintedPayment}

theorem cStr_of_zeroFree {bytes : List u8} (zeroFree : 0 ∉ bytes) : cStr bytes = bytes := by
  rw [cStr, List.takeWhile_eq_self_iff]
  intro b member
  simp only [decide_eq_true_eq]
  rintro rfl
  exact zeroFree member

theorem varcharOf_content {n : ℕ} {str : List u8} (short : str.length ≤ n) :
    (varcharOf n str).content = str := by
  simp [Varchar.content, varcharOf, List.take_of_length_le short]

theorem varcharOf_proper {n : ℕ} {str : List u8} (short : str.length ≤ n) (zeroFree : 0 ∉ str) :
    (varcharOf n str).Proper := by
  refine ⟨Int.natCast_nonneg _, ?_, by rwa [varcharOf_content short]⟩
  simp [varcharOf]

theorem content_length {n : ℕ} {x : Varchar n} (proper : x.Proper) :
    (x.content.length : ℤ) = x.length := by
  obtain ⟨low, high, _⟩ := proper
  rw [Varchar.content, List.length_take, x.sized]
  omega

theorem payCreditCustomer_eq (bad : BadCredit rec) : ∃ paid,
    payCreditCustomer rec p = some paid ∧ paid.cCredit = rec.cCredit ∧
      paid.cData = newData p rec.cData.content := by
  have low := bad.proper.1
  have data : rec.cData.toString = some rec.cData.content := by
    rw [Varchar.toString, if_neg (by omega)]
  refine ⟨{ payBalance rec p with cData := newData p rec.cData.content }, ?_, rfl, rfl⟩
  simp only [payCreditCustomer, bad.credit, if_true, data, Option.map_some]

theorem newData_line (bad : BadCredit rec) :
    p.formatted ++ cStr rec.cData.content = p.formatted ++ rec.cData.content := by
  rw [cStr_of_zeroFree bad.proper.2.2]

theorem newData_short (bad : BadCredit rec)
    (short : (p.formatted ++ rec.cData.content).length < 500) :
    (newData p rec.cData.content).length = (p.formatted ++ rec.cData.content).length ∧
      (newData p rec.cData.content).content = p.formatted ++ rec.cData.content := by
  have length : (newData p rec.cData.content).length = (p.formatted ++ rec.cData.content).length := by
    simp only [newData, newData_line bad, toInt16]
    split <;> omega
  refine ⟨length, ?_⟩
  rw [Varchar.content, length, Int.toNat_natCast]
  simp only [newData, newData_line bad]
  exact snprintf_whole short

theorem newData_full (full : 500 ≤ (newData p rec.cData.content).length) :
    0 ∈ (newData p rec.cData.content).content := by
  have sized := (newData p rec.cData.content).sized
  rw [Varchar.content, List.take_of_length_le (by omega)]
  exact snprintf_zero _ _ _

theorem kept_iff (bad : BadCredit rec) (zeroFree : 0 ∉ p.formatted) :
    (Kept rec p ↔ (p.formatted ++ rec.cData.content).length < 500) ∧
    ((p.formatted ++ rec.cData.content).length < 500 → ∃ paid, payCreditCustomer rec p = some paid ∧
      BadCredit paid ∧ paid.cData.content = p.formatted ++ rec.cData.content) := by
  obtain ⟨paid, pays, credit, data⟩ := payCreditCustomer_eq (p := p) bad
  have free : 0 ∉ p.formatted ++ rec.cData.content := by
    rw [List.mem_append]
    exact not_or.mpr ⟨zeroFree, bad.proper.2.2⟩
  constructor
  · constructor
    · rintro ⟨paid', pays', kept⟩
      rw [pays] at pays'
      cases pays'
      by_contra long
      have length := kept.length
      rw [data] at length
      have zero : 0 ∈ paid.cData.content := data ▸ newData_full (by omega)
      exact kept.zeroFree zero
    · intro short
      obtain ⟨length, content⟩ := newData_short bad short
      refine ⟨paid, pays, ?_, ?_, ?_⟩
      · rw [data, content, List.take_of_length_le (by omega)]
      · rw [data, length, Nat.cast_inj]
        omega
      · rwa [data, content]
  · intro short
    obtain ⟨length, content⟩ := newData_short bad short
    refine ⟨paid, pays, ⟨by rw [credit]; exact bad.credit, ?_⟩, by rw [data, content]⟩
    rw [data]
    refine ⟨by omega, by omega, ?_⟩
    rwa [content]

end Payment

def printed (ps : List PrintedPayment) : ℕ := (ps.map fun p => p.formatted.length).sum

/-- The newest 500 characters are kept after every payment if and only if the first text
    and those of all payments are together shorter than the field. -/
theorem credit_text_kept (rec : CreditCustomer) (ps : List PrintedPayment)
    (credit : rec.cCredit.same (varcharOf 2 (ascii ['B', 'C']))) (proper : rec.cData.Proper)
    (zeroFree : ∀ p ∈ ps, 0 ∉ p.formatted) :
    Allowed payCreditCustomer Kept rec ps ↔
      ps = [] ∨ rec.cData.content.length + printed ps < 500 := by
  have bad : BadCredit rec := ⟨credit, proper⟩
  clear credit proper
  induction ps generalizing rec with
  | nil => simp [Allowed]
  | cons p ps ih =>
    obtain ⟨kept, pays⟩ := kept_iff bad (zeroFree p (by simp))
    rw [List.length_append] at kept pays
    have later := fun rec => ih rec fun q member => zeroFree q (List.mem_cons_of_mem _ member)
    have total : printed (p :: ps) = p.formatted.length + printed ps := by
      simp [printed]
    rw [Allowed, kept, total]
    constructor
    · rintro ⟨short, rest⟩
      obtain ⟨paid, pay, bad', content⟩ := pays short
      rcases (later paid bad').mp (rest paid pay) with none | below
      · right
        rw [none, printed]
        simp only [List.map_nil, List.sum_nil]
        omega
      · right
        rw [content, List.length_append] at below
        omega
    · rintro (none | below)
      · cases none
      · refine ⟨by omega, fun paid pay => ?_⟩
        obtain ⟨paid', pay', bad', content⟩ := pays (by omega)
        rw [pay] at pay'
        cases pay'
        refine (later paid bad').mpr (Or.inr ?_)
        rw [content, List.length_append]
        omega

def owing (text : List u8) : CreditCustomer where
  cDiscount := 0
  cBalance := -10
  cYtdPayment := 10
  cPaymentCnt := 1
  cDeliveryCnt := 0
  cCredit := varcharOf 2 (ascii ['B', 'C'])
  cData := varcharOf 500 text

def tenDollars : PrintedPayment where
  cId := 7
  cDId := 1
  cWId := 1
  dId := 1
  wId := 1
  hAmount := 10
  hAmountText := ascii [' ', ' ', '1', '0', '.', '0', '0']
  hDate := 12345
  wName := ascii ['n', 'o', 'r', 't', 'h']
  dName := ascii ['e', 'a', 's', 't']

theorem credit_text_kept_two :
    Allowed payCreditCustomer Kept (owing (ascii ['o', 'l', 'd'])) [tenDollars, tenDollars] :=
  (credit_text_kept (owing (ascii ['o', 'l', 'd'])) [tenDollars, tenDollars] (by decide) (by decide)
    (by decide)).mpr (by decide)

/-- With 480 characters before, the text of the payment fills the field and ends in a zero. -/
theorem credit_text_cut : ∃ paid,
    payCreditCustomer (owing (List.replicate 480 65)) tenDollars = some paid ∧
      0 ∈ paid.cData.content ∧
      ¬ Allowed payCreditCustomer Kept (owing (List.replicate 480 65)) [tenDollars] := by
  have short : (List.replicate 480 (65 : u8)).length ≤ 500 := by
    rw [List.length_replicate]
    decide
  have letters : (0 : u8) ∉ List.replicate 480 (65 : u8) := by
    intro zero
    exact absurd (List.eq_of_mem_replicate zero) (by decide)
  have bad : BadCredit (owing (List.replicate 480 65)) := ⟨by decide, varcharOf_proper short letters⟩
  have content : (owing (List.replicate 480 65)).cData.content = List.replicate 480 65 :=
    varcharOf_content short
  have text : tenDollars.formatted.length = 48 := by decide
  have free : 0 ∉ tenDollars.formatted := by decide
  obtain ⟨paid, pays, _, data⟩ := payCreditCustomer_eq (p := tenDollars) bad
  have count : (tenDollars.formatted ++ (owing (List.replicate 480 65)).cData.content).length = 528 := by
    rw [List.length_append, content, List.length_replicate, text]
  refine ⟨paid, pays, ?_, fun kept => ?_⟩
  · rw [data]
    apply newData_full
    simp only [newData, newData_line bad, count]
    decide
  · have short := (kept_iff bad free).1.mp kept.1
    omega

end Tpcc
