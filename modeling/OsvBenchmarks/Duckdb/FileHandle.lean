import OsvBenchmarks.Library.Lockstep
import Mathlib.Data.List.GetD
import Mathlib.Data.Nat.Init
import Mathlib.Logic.Basic

/-!
A file handle of OsvUCacheFileSystem. Reads copy from the mapping, where a page
shows the file as of the first access to it, up to the size taken at the open;
writes open the inner file anew, to be created or truncated, and go to it.
-/
namespace Duckdb
open Lockstep

abbrev Byte := UInt8

/-- The write of the inner file system. -/
def overwrite (file : List Byte) (location : ℕ) (data : List Byte) : List Byte :=
  if data = [] then file
  else
    (file ++ List.replicate (location - file.length) 0).take location ++ data ++
      file.drop (location + data.length)

def pageOf (pageSize : ℕ) (file : List Byte) (page : ℕ) : List Byte :=
  (file.drop (page * pageSize)).take pageSize

/-- The inner file and the handle; `pages` are those that the mapping has loaded, `pageSize` is
mmu::page_size. -/
structure Handle where
  pageSize : ℕ
  positive : 0 < pageSize
  file : List Byte
  pages : ℕ → Option (List Byte)
  file_size : ℕ
  position : ℕ

inductive Op where
  | seek (location : ℕ)
  | reset
  | seekPosition
  | read (buffer : List Byte)
  | readAt (buffer : List Byte) (location : ℕ)
  | write (data : List Byte)
  | writeAt (data : List Byte) (location : ℕ)

inductive Answer where
  | unit
  | position (location : ℕ)
  | read (count : ℕ) (buffer : List Byte)
  | buffer (buffer : List Byte)
  | written (count : ℕ)
  deriving DecidableEq, Repr

namespace Handle
variable (h : Handle)

def opened (pageSize : ℕ) (positive : 0 < pageSize) (file : List Byte) : Handle :=
  ⟨pageSize, positive, file, fun _ => none, file.length, 0⟩

/-- A page in the mapping, loaded from the file where it is not there yet. -/
def shown (page : ℕ) : List Byte := (h.pages page).getD (pageOf h.pageSize h.file page)

def load (a : ℕ) : Byte := (h.shown (a / h.pageSize)).getD (a % h.pageSize) 0

def touch (location count : ℕ) : Handle :=
  { h with pages := fun page =>
      if location < (page + 1) * h.pageSize ∧ page * h.pageSize < location + count then
        some (h.shown page)
      else h.pages page }

def copy (location count : ℕ) : List Byte := (List.range count).map fun i => h.load (location + i)

/-- FILE_FLAGS_FILE_CREATE_NEW: the file is created, or truncated. -/
def createNew : Handle := { h with file := [] }

def read (buffer : List Byte) : Answer × Handle :=
  if h.position ≥ h.file_size ∨ buffer.length ≤ 0 then (.read 0 buffer, h)
  else
    let actual := min buffer.length (h.file_size - h.position)
    (.read actual (h.copy h.position actual ++ buffer.drop actual),
      { h.touch h.position actual with position := h.position + actual })

def readAt (buffer : List Byte) (location : ℕ) : Answer × Handle :=
  if location ≥ h.file_size ∨ buffer.length ≤ 0 then (.buffer buffer, h)
  else
    let actual := min buffer.length (h.file_size - location)
    (.buffer (h.copy location actual ++ List.replicate (buffer.length - actual) 0),
      h.touch location actual)

def write (data : List Byte) : Answer × Handle :=
  let wh := h.createNew
  (.written data.length,
    { wh with
      file := overwrite wh.file h.position data
      position := h.position + data.length })

def writeAt (data : List Byte) (location : ℕ) : Answer × Handle :=
  let wh := h.createNew
  (.unit, { wh with file := overwrite wh.file location data })

def next : Op → Answer × Handle
  | .seek location => (.unit, { h with position := location })
  | .reset => (.unit, { h with position := 0 })
  | .seekPosition => (.position h.position, h)
  | .read buffer => h.read buffer
  | .readAt buffer location => h.readAt buffer location
  | .write data => h.write data
  | .writeAt data location => h.writeAt data location

def Covered (location count : ℕ) : Prop := h.file = [] ∨ location = 0 ∧ h.file.length ≤ count

/-- As far as a read reaches, the size is that of the open, and no page that was
    accessed before has changed since. -/
structure Current (location count : ℕ) : Prop where
  size : min (location + count) h.file_size = min (location + count) h.file.length
  pages : ∀ page content, h.pages page = some content → location < (page + 1) * h.pageSize →
    page * h.pageSize < location + count → content = pageOf h.pageSize h.file page

def Plain : Op → Prop
  | .seek _ | .reset | .seekPosition => True
  | .read buffer => buffer = [] ∨ h.Current h.position buffer.length
  | .readAt buffer location =>
    buffer = [] ∨ location < h.file_size ∧ h.Current location buffer.length
  | .write data => h.Covered h.position data.length
  | .writeAt data location => h.Covered location data.length

end Handle

structure ByteArrayFile where
  bytes : List Byte
  cursor : ℕ

namespace ByteArrayFile
variable (f : ByteArrayFile)

def slice (location count : ℕ) : List Byte := (f.bytes.drop location).take count

def next : Op → Answer × ByteArrayFile
  | .seek location => (.unit, { f with cursor := location })
  | .reset => (.unit, { f with cursor := 0 })
  | .seekPosition => (.position f.cursor, f)
  | .read buffer =>
    let got := f.slice f.cursor buffer.length
    (.read got.length (got ++ buffer.drop got.length), { f with cursor := f.cursor + got.length })
  | .readAt buffer location =>
    let got := f.slice location buffer.length
    (.buffer (got ++ List.replicate (buffer.length - got.length) 0), f)
  | .write data =>
    (.written data.length, ⟨overwrite f.bytes f.cursor data, f.cursor + data.length⟩)
  | .writeAt data location => (.unit, { f with bytes := overwrite f.bytes location data })

end ByteArrayFile

structure Stands (h : Handle) (f : ByteArrayFile) : Prop where
  bytes : h.file = f.bytes
  cursor : h.position = f.cursor

/-- What is written over everything does not need what was there. -/
theorem overwrite_covered {h : Handle} {location : ℕ} {data : List Byte}
    (covered : h.Covered location data.length) :
    overwrite [] location data = overwrite h.file location data := by
  rcases covered with empty | ⟨rfl, short⟩
  · rw [empty]
  · by_cases none : data = []
    · have empty : h.file = [] := by
        rw [none] at short
        exact List.length_eq_zero_iff.mp (Nat.le_zero.mp short)
      rw [empty]
    · simp [overwrite, none, List.drop_of_length_le short]

theorem load_current {h : Handle} {location count a : ℕ} (current : h.Current location count)
    (low : location ≤ a) (high : a < location + count) (inside : a < h.file.length) :
    h.load a = h.file[a] := by
  have parts := Nat.div_add_mod a h.pageSize
  have rest := Nat.mod_lt a h.positive
  have here : h.shown (a / h.pageSize) = pageOf h.pageSize h.file (a / h.pageSize) := by
    unfold Handle.shown
    cases loaded : h.pages (a / h.pageSize) with
    | none => rfl
    | some content =>
      refine current.pages _ content loaded ?_ ?_
      · rw [Nat.add_mul, Nat.mul_comm]
        omega
      · rw [Nat.mul_comm]
        omega
  unfold Handle.load
  rw [here, pageOf, List.getD_eq_getElem?_getD, List.getElem?_take_of_lt rest, List.getElem?_drop,
    Nat.mul_comm, parts, List.getElem?_eq_getElem inside]
  rfl

theorem copy_current {h : Handle} {location count : ℕ} (current : h.Current location count)
    (below : location ≤ h.file_size) :
    h.copy location (min count (h.file_size - location)) = (h.file.drop location).take count ∧
      ((h.file.drop location).take count).length = min count (h.file_size - location) := by
  have size := current.size
  have len : ((h.file.drop location).take count).length = min count (h.file_size - location) := by
    rw [List.length_take, List.length_drop]
    omega
  refine ⟨List.ext_getElem (by simp [Handle.copy, len]) fun i hi hj => ?_, len⟩
  have hi : i < min count (h.file_size - location) := by simpa [Handle.copy] using hi
  have inside : location + i < h.file.length := by omega
  simp only [Handle.copy, List.getElem_map, List.getElem_range, List.getElem_take, List.getElem_drop]
  exact load_current current (by omega) (by omega) inside

theorem stands_next {h : Handle} {f : ByteArrayFile} {op : Op} (stands : Stands h f)
    (plain : h.Plain op) :
    (h.next op).1 = (f.next op).1 ∧ Stands (h.next op).2 (f.next op).2 := by
  obtain ⟨bytes, cursor⟩ := f
  obtain ⟨rfl, rfl⟩ := stands
  cases op with
  | seek location => exact ⟨rfl, rfl, rfl⟩
  | reset => exact ⟨rfl, rfl, rfl⟩
  | seekPosition => exact ⟨rfl, rfl, rfl⟩
  | read buffer =>
    simp only [Handle.next, Handle.read, ByteArrayFile.next, ByteArrayFile.slice]
    split
    · rename_i nothing
      have none : (h.file.drop h.position).take buffer.length = [] := by
        refine List.length_eq_zero_iff.mp ?_
        rw [List.length_take, List.length_drop]
        rcases plain with rfl | current
        · exact Nat.zero_min _
        · have size := current.size
          omega
      simp only [none, List.length_nil, List.nil_append, List.drop_zero, Nat.add_zero, true_and]
      exact ⟨rfl, rfl⟩
    · rename_i something
      have current : h.Current h.position buffer.length := plain.resolve_left (by
        rintro rfl
        exact something (Or.inr (Nat.le_refl 0)))
      obtain ⟨copied, len⟩ := copy_current current (by omega)
      rw [copied, len]
      exact ⟨rfl, rfl, rfl⟩
  | readAt buffer location =>
    simp only [Handle.next, Handle.readAt, ByteArrayFile.next, ByteArrayFile.slice]
    rcases plain with rfl | ⟨inside, current⟩
    · simp only [List.length_nil, Nat.le_refl, or_true, if_true, List.take_zero, Nat.zero_sub,
        List.replicate_zero, List.append_nil, true_and]
      exact ⟨rfl, rfl⟩
    · split
      · rename_i nothing
        have empty : buffer = [] := List.length_eq_zero_iff.mp (by omega)
        simp only [empty, List.length_nil, List.take_zero, Nat.zero_sub, List.replicate_zero,
          List.append_nil, true_and]
        exact ⟨rfl, rfl⟩
      · obtain ⟨copied, len⟩ := copy_current current (by omega)
        rw [copied, len]
        exact ⟨rfl, rfl, rfl⟩
  | write data => exact ⟨rfl, overwrite_covered plain, rfl⟩
  | writeAt data location => exact ⟨rfl, overwrite_covered plain, rfl⟩

/-- In a run whose steps are all plain the handle behaves as a byte array with a
    cursor, and the file has the array's bytes. -/
theorem handle_is_byte_array {pageSize : ℕ} (positive : 0 < pageSize) (file : List Byte) {ops : List Op}
    (plain : Meets Handle.next Handle.Plain (Handle.opened pageSize positive file) ops) :
    answers Handle.next (Handle.opened pageSize positive file) ops =
        answers ByteArrayFile.next ⟨file, 0⟩ ops ∧
      Stands (last Handle.next (Handle.opened pageSize positive file) ops)
        (last ByteArrayFile.next ⟨file, 0⟩ ops) :=
  answers_eq Handle.Plain Stands (fun _ _ op stands plain => @stands_next _ _ op stands plain)
    ⟨rfl, rfl⟩ plain

def small (file : List Byte) : Handle := .opened 4096 (Nat.succ_pos 4095) file

/-- A file written over as a whole, then read. -/
theorem handle_is_byte_array_rewritten :
    answers Handle.next (small [1, 2]) [.write [7, 8], .reset, .read [0, 0, 0]] =
      answers ByteArrayFile.next ⟨[1, 2], 0⟩ [.write [7, 8], .reset, .read [0, 0, 0]] := by
  have covered : (small [1, 2]).Covered 0 2 := Or.inr ⟨rfl, by decide⟩
  refine (@handle_is_byte_array 4096 (by decide) [1, 2] [.write [7, 8], .reset, .read [0, 0, 0]] ?_).1
  refine ⟨covered, trivial, ?_, trivial⟩
  exact Or.inr ⟨by decide, fun page content none => by cases none⟩

/-- A write of one byte at the front discards the others. -/
theorem write_discards : answers Handle.next (small [1, 2, 3])
    [.writeAt [9] 0, .readAt [0, 0, 0] 0] ≠
      answers ByteArrayFile.next ⟨[1, 2, 3], 0⟩ [.writeAt [9] 0, .readAt [0, 0, 0] 0] := by
  decide

end Duckdb
