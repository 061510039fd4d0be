import OsvBenchmarks.Library.Runs
import OsvBenchmarks.Duckdb.FileHandle
import Mathlib.Algebra.Ring.Nat

/-!
The Thrift transport over a file handle of the Parquet reader. The location is
set and advanced unchecked, and `read` clamps with an unsigned subtraction.
Offsets are those from `vma_base`; idx_t and uint64_t are 64-bit, a length is
32-bit. What the mapping holds beyond the file is arbitrary.
-/
namespace Duckdb
open Runs

/-- std::min -/
def stdMin (a b : BitVec 64) : BitVec 64 := if b < a then b else a

structure OsvCachingFileHandle where
  file : List Byte
  vma : BitVec 64 → Byte
  small : file.length < 2 ^ 64
  shows : ∀ i, i < file.length → vma (BitVec.ofNat 64 i) = file.getD i 0

namespace OsvCachingFileHandle
variable (handle : OsvCachingFileHandle)

def file_size : BitVec 64 := BitVec.ofNat 64 handle.file.length

theorem file_size_toNat : handle.file_size.toNat = handle.file.length := by
  have := handle.small
  rw [file_size, BitVec.toNat_ofNat]
  omega

end OsvCachingFileHandle

structure OsvThriftFileTransport where
  handle : OsvCachingFileHandle
  location : BitVec 64

/-- What a read hands over: the offsets that memcpy copied from, the bytes, the result. -/
structure Copied where
  offsets : List (BitVec 64)
  bytes : List Byte
  returned : BitVec 32
  deriving DecidableEq

inductive Call where
  | setLocation (loc : BitVec 64)
  | skip (skip_count : BitVec 64)
  | read (len : BitVec 32)
  deriving DecidableEq, Repr

namespace OsvThriftFileTransport
variable (t : OsvThriftFileTransport)

def opened (handle : OsvCachingFileHandle) : OsvThriftFileTransport := ⟨handle, 0⟩

def size : BitVec 64 := t.handle.file_size

def memcpy (count : BitVec 64) : List (BitVec 64) :=
  (List.range count.toNat).map fun i => t.location + BitVec.ofNat 64 i

def actual (len : BitVec 32) : BitVec 64 := stdMin (len.setWidth 64) (t.size - t.location)

def read (len : BitVec 32) : Copied × OsvThriftFileTransport :=
  let actual := t.actual len
  if actual = 0 then (⟨[], [], 0⟩, t)
  else
    (⟨t.memcpy actual, (t.memcpy actual).map t.handle.vma, actual.setWidth 32⟩,
      { t with location := t.location + actual })

def setLocation (loc : BitVec 64) : OsvThriftFileTransport := { t with location := loc }

def skip (skip_count : BitVec 64) : OsvThriftFileTransport :=
  { t with location := t.location + skip_count }

def next : Call → Option OsvThriftFileTransport
  | .setLocation loc => some (t.setLocation loc)
  | .skip skip_count => some (t.skip skip_count)
  | .read len => some (t.read len).2

/-- What a read of `len` bytes at the location gives back of the file. -/
def due (len : BitVec 32) : ℕ := min len.toNat (t.handle.file.length - t.location.toNat)

structure ReadsFile (len : BitVec 32) : Prop where
  inside : ∀ offset ∈ (t.read len).1.offsets, offset.toNat < t.handle.file.length
  returned : (t.read len).1.returned.toNat = t.due len
  bytes : (t.read len).1.bytes = (t.handle.file.drop t.location.toNat).take (t.due len)
  advanced : (t.read len).2.location = t.location + BitVec.ofNat 64 (t.due len)

/-- What is asked of a call before it is made. -/
def Inside : Call → Prop
  | .setLocation _ => True
  | .skip _ => True
  | .read len => t.location ≤ t.size ∨ len = 0

def Proper : Call → Prop
  | .setLocation _ => True
  | .skip _ => True
  | .read len => t.ReadsFile len

variable {t : OsvThriftFileTransport} {len : BitVec 32}

theorem actual_toNat : (t.actual len).toNat =
    min len.toNat ((2 ^ 64 - t.location.toNat + t.handle.file.length) % 2 ^ 64) := by
  have rest : (t.size - t.location).toNat =
      (2 ^ 64 - t.location.toNat + t.handle.file.length) % 2 ^ 64 := by
    rw [BitVec.toNat_sub, size, OsvCachingFileHandle.file_size_toNat]
  have wide : (len.setWidth 64).toNat = len.toNat := by
    rw [BitVec.toNat_setWidth]
    have := len.isLt
    omega
  rw [actual, stdMin]
  split
  · rename_i less
    rw [BitVec.lt_def, wide, rest] at less
    rw [rest]
    omega
  · rename_i more
    rw [BitVec.lt_def, wide, rest] at more
    rw [wide]
    omega

theorem actual_inside (inside : t.location ≤ t.size) : (t.actual len).toNat = t.due len := by
  rw [BitVec.le_def, size, OsvCachingFileHandle.file_size_toNat] at inside
  have small := t.handle.small
  rw [actual_toNat, due]
  omega

theorem actual_outside (outside : ¬ t.location ≤ t.size) (some : len ≠ 0) :
    0 < (t.actual len).toNat := by
  rw [BitVec.le_def, size, OsvCachingFileHandle.file_size_toNat] at outside
  have bound := t.location.isLt
  have positive : 0 < len.toNat := by
    rw [Nat.pos_iff_ne_zero]
    exact fun zero => some (BitVec.eq_of_toNat_eq zero)
  rw [actual_toNat]
  omega

theorem returned_toNat : (t.read len).1.returned.toNat = (t.actual len).toNat := by
  have short : (t.actual len).toNat ≤ len.toNat := by
    rw [actual_toNat]
    omega
  have := len.isLt
  by_cases none : t.actual len = 0
  · simp [read, none]
  · simp only [read, none, if_false, BitVec.toNat_setWidth]
    omega

theorem due_nothing (none : (t.actual len).toNat = 0) (due : (t.actual len).toNat = t.due len) :
    t.ReadsFile len := by
  have zero : t.actual len = 0 := BitVec.eq_of_toNat_eq none
  rw [none] at due
  constructor
  · simp [read, zero]
  · rw [returned_toNat, none, due]
  · simp [read, zero, ← due]
  · simp [read, zero, ← due]

theorem copied_offset {i : ℕ} (bound : i < t.due len) :
    (t.location + BitVec.ofNat 64 i).toNat = t.location.toNat + i ∧
      t.location.toNat + i < t.handle.file.length := by
  rw [due] at bound
  have small := t.handle.small
  rw [BitVec.toNat_add, BitVec.toNat_ofNat]
  omega

theorem reads_inside (inside : t.location ≤ t.size) : t.ReadsFile len := by
  have due : (t.actual len).toNat = t.due len := actual_inside inside
  by_cases none : (t.actual len).toNat = 0
  · exact due_nothing none due
  · have some : t.actual len ≠ 0 := fun zero => none (by rw [zero]; rfl)
    constructor
    · intro offset member
      simp only [read, some, if_false, memcpy, due, List.mem_map, List.mem_range] at member
      obtain ⟨i, bound, rfl⟩ := member
      obtain ⟨same, below⟩ := copied_offset bound
      omega
    · rw [returned_toNat, due]
    · simp only [read, some, if_false, memcpy, due, List.map_map]
      apply List.ext_getElem
      · simp [OsvThriftFileTransport.due]
      · intro i left right
        have bound : i < t.due len := by simpa using left
        obtain ⟨same, below⟩ := copied_offset bound
        have here := t.handle.shows _ below
        rw [← same, BitVec.ofNat_toNat, BitVec.setWidth_eq, same,
          List.getD_eq_getElem _ _ below] at here
        simpa using here
    · simp only [read, some, if_false, ← due, BitVec.ofNat_toNat, BitVec.setWidth_eq]

/-- A read is one of the file exactly where the location is not past the end. -/
theorem proper_iff (call : Call) : t.Proper call ↔ t.Inside call := by
  cases call with
  | setLocation loc => exact Iff.rfl
  | skip skip_count => exact Iff.rfl
  | read len =>
    constructor
    · intro proper
      by_contra beyond
      obtain ⟨outside, some⟩ := not_or.mp beyond
      have positive := actual_outside outside some
      have returned := proper.returned
      rw [returned_toNat] at returned
      rw [BitVec.le_def, size, OsvCachingFileHandle.file_size_toNat] at outside
      have nothing : t.due len = 0 := by
        rw [due]
        omega
      omega
    · rintro (inside | rfl)
      · exact reads_inside inside
      · apply due_nothing
        · rw [actual_toNat]
          exact Nat.zero_min _
        · rw [actual_toNat, due]
          simp

end OsvThriftFileTransport

open OsvThriftFileTransport

/-- In any sequence of calls the reads are those of the file if and only if none of
    a byte or more is made at a location past the end. -/
theorem transport_reads_file (handle : OsvCachingFileHandle) (calls : List Call) :
    Allowed next Proper (opened handle) calls ↔ Allowed next Inside (opened handle) calls :=
  allowed_congr fun _ call => proper_iff call

def threeBytes : OsvCachingFileHandle where
  file := [1, 2, 3]
  vma := fun offset => [1, 2, 3].getD offset.toNat 9
  small := by decide
  shows := by decide

/-- A footer offset past the end: the read copies four bytes from behind the file. -/
theorem reads_past_end :
    ((opened threeBytes).setLocation 5).read 4 =
      (⟨[5, 6, 7, 8], [9, 9, 9, 9], 4⟩, ⟨threeBytes, 9⟩) ∧
    ¬ Allowed next Proper (opened threeBytes) [.setLocation 5, .read 4] := by
  have copied : ((opened threeBytes).setLocation 5).read 4 =
      (⟨[5, 6, 7, 8], [9, 9, 9, 9], 4⟩, ⟨threeBytes, 9⟩) := rfl
  refine ⟨copied, fun proper => ?_⟩
  have read : ((opened threeBytes).setLocation 5).ReadsFile 4 := (proper.2 _ rfl).1
  have inside := read.inside 5
  rw [copied] at inside
  exact absurd (inside (by decide)) (by decide)

end Duckdb
