import Mathlib.Data.Vector.Basic
import Mathlib.Tactic.IntervalCases
import HectoOs.Fatfs.Disk
import HectoOs.Lib.Serial

/-! # Directory entries (`fatfs/src/dir_entry.rs`, `fatfs/src/time.rs`)

An entry has 32 bytes. It describes a file, or it holds a part of the long name of the file whose
entry follows.
-/

open HectoOs.Lib

namespace HectoOs.Fatfs

/-! ## Times -/

structure Date where
  year : BitVec 16
  month : BitVec 16
  day : BitVec 16
  deriving DecidableEq

namespace Date

def decode (dos_date : BitVec 16) : Date :=
  ⟨(dos_date >>> 9) + 1980#16, (dos_date >>> 5) &&& 0xF#16, dos_date &&& 0x1F#16⟩

def encode (d : Date) : BitVec 16 := ((d.year - 1980#16) <<< 9) ||| (d.month <<< 5) ||| d.day

end Date

structure Time where
  hour : BitVec 16
  min : BitVec 16
  sec : BitVec 16
  millis : BitVec 16
  deriving DecidableEq

namespace Time

def decode (dos_time : BitVec 16) (dos_time_hi_res : Byte) : Time where
  hour := dos_time >>> 11
  min := (dos_time >>> 5) &&& 0x3F#16
  sec := (dos_time &&& 0x1F#16) * 2#16 + dos_time_hi_res.setWidth 16 / 100#16
  millis := dos_time_hi_res.setWidth 16 % 100#16 * 10#16

def encode (t : Time) : BitVec 16 × Byte :=
  ((t.hour <<< 11) ||| (t.min <<< 5) ||| t.sec / 2#16,
    (t.millis / 10#16 + t.sec % 2#16 * 100#16).setWidth 8)

end Time

structure DateTime where
  date : Date
  time : Time
  deriving DecidableEq

def DateTime.decode (dos_date dos_time : BitVec 16) (dos_time_hi_res : Byte) : DateTime :=
  ⟨.decode dos_date, .decode dos_time dos_time_hi_res⟩

/-! ## Attributes -/

/-- The attributes of an entry: no bits but those that have a name. -/
structure FileAttributes where
  bits : Byte
  named : bits &&& 0xC0#8 = 0#8
  deriving DecidableEq

namespace FileAttributes

theorem truncated (b : Byte) : b &&& 0x3F#8 &&& 0xC0#8 = 0#8 := by
  rw [BitVec.and_assoc]
  exact BitVec.and_zero

def from_bits_truncate (b : Byte) : FileAttributes := ⟨b &&& 0x3F#8, truncated b⟩

def LFN : FileAttributes := from_bits_truncate 0x0F#8

def DIRECTORY : FileAttributes := from_bits_truncate 0x10#8

def VOLUME_ID : FileAttributes := from_bits_truncate 0x08#8

def contains (a b : FileAttributes) : Bool := a.bits &&& b.bits = b.bits

theorem from_bits_truncate_bits (a : FileAttributes) : from_bits_truncate a.bits = a := by
  obtain ⟨b, hb⟩ := a
  simp only [from_bits_truncate, mk.injEq]
  ext i hi
  have := congrArg (fun x => x.getLsbD i) hb
  simp only [BitVec.getLsbD_and] at this
  simp only [← BitVec.getLsbD_eq_getElem]
  interval_cases i <;> simp_all

end FileAttributes

/-! ## Arrays -/

/-- An array of zeros after the bytes `l` have been read into it. -/
def fill {α : Type} (zero : α) (n : Nat) (l : List α) : List.Vector α n :=
  ⟨(l ++ List.replicate n zero).take n, by simp⟩

theorem fill_of_length {α : Type} {zero : α} {n : Nat} {l : List α} (h : l.length = n) :
    (fill zero n l).toList = l := by
  subst h
  simp [fill, List.Vector.toList]

theorem fill_toList {α : Type} (zero : α) {n : Nat} (v : List.Vector α n) :
    fill zero n v.toList = v := by
  apply List.Vector.eq
  exact fill_of_length v.toList_length

/-- `from_slice_u16`. -/
def words : List Byte → List (BitVec 16)
  | a :: b :: l => BitVec.ofNat 16 (leValue [a, b]) :: words l
  | _ => []

def bytes_of_words (l : List (BitVec 16)) : List Byte := l.flatMap fun w => leBytes 2 w.toNat

@[simp] theorem words_bytes_of_words (l : List (BitVec 16)) : words (bytes_of_words l) = l := by
  induction l with
  | nil => rfl
  | cons w l ih =>
    have h := leValue_leBytes_toNat (n := 2) rfl w
    simp only [bytes_of_words, List.flatMap_cons, leBytes, List.cons_append,
      List.nil_append, words] at ih h ⊢
    rw [h, ih]

theorem length_bytes_of_words (l : List (BitVec 16)) :
    (bytes_of_words l).length = 2 * l.length := by
  induction l with
  | nil => rfl
  | cons w l ih =>
    simp only [bytes_of_words, List.flatMap_cons, List.length_append, length_leBytes,
      List.length_cons] at ih ⊢
    omega

theorem bytes_of_words_words {n : Nat} {l : List Byte} (h : l.length = 2 * n) :
    bytes_of_words (words l) = l ∧ (words l).length = n := by
  induction n generalizing l with
  | zero =>
    obtain rfl := List.length_eq_zero_iff.mp h
    exact ⟨rfl, rfl⟩
  | succ n ih =>
    match l, h with
    | a :: b :: l, h =>
      obtain ⟨h1, h2⟩ := ih (l := l) (by simpa [Nat.mul_succ] using h)
      have hw := leBytes_word (n := 2) (w := 16) rfl (l := [a, b]) rfl
      refine ⟨?_, by rw [words, List.length_cons, h2]⟩
      rw [words, bytes_of_words, List.flatMap_cons, hw]
      exact congrArg (fun r => a :: b :: r) h1

/-! ## The two kinds of entries -/

abbrev DIR_ENTRY_SIZE : Nat := 32

def DIR_ENTRY_DELETED_FLAG : Byte := 0xE5#8

structure DirFileEntryData where
  name : List.Vector Byte 11
  attrs : FileAttributes
  reserved_0 : Byte
  create_time_0 : Byte
  create_time_1 : BitVec 16
  create_date : BitVec 16
  access_date : BitVec 16
  first_cluster_hi : BitVec 16
  modify_time : BitVec 16
  modify_date : BitVec 16
  first_cluster_lo : BitVec 16
  size : BitVec 32
  deriving DecidableEq

abbrev FatPort (σ : Type) := Port Panic Error σ

abbrev FatM (σ : Type) := Fallible Panic Error σ

namespace DirFileEntryData

def new (name : List.Vector Byte 11) (attrs : FileAttributes) : DirFileEntryData :=
  ⟨name, attrs, 0#8, 0#8, 0#16, 0#16, 0#16, 0#16, 0#16, 0#16, 0#16, 0#32⟩

/-- The derived default. -/
def empty : DirFileEntryData := new (.replicate 11 0#8) (.from_bits_truncate 0#8)

variable (d : DirFileEntryData)

def first_cluster (fat_type : FatType) : Option Nat :=
  let hi := if fat_type = .Fat32 then d.first_cluster_hi else 0#16
  let n := (hi.setWidth 32 <<< 16 ||| d.first_cluster_lo.setWidth 32).toNat
  if n = 0 then none else some n

def set_first_cluster (cluster : Option Nat) (fat_type : FatType) : DirFileEntryData :=
  let n : BitVec 32 := BitVec.ofNat 32 (cluster.getD 0)
  let d := if fat_type = .Fat32 then { d with first_cluster_hi := (n >>> 16).setWidth 16 } else d
  { d with first_cluster_lo := (n &&& 0xFFFF#32).setWidth 16 }

def is_dir : Bool := d.attrs.contains .DIRECTORY

def is_file : Bool := !d.is_dir

/-- `size`. A directory has none. -/
def file_size : Option Nat := if d.is_file then some d.size.toNat else none

def set_size (size : Nat) : DirFileEntryData := { d with size := BitVec.ofNat 32 size }

def accessed : Date := .decode d.access_date

def modified : DateTime := .decode d.modify_date d.modify_time 0#8

def set_accessed (t : Date) : DirFileEntryData := { d with access_date := t.encode }

def set_modified (t : DateTime) : DirFileEntryData :=
  { d with modify_date := t.date.encode, modify_time := t.time.encode.1 }

def is_deleted : Bool := d.name.head = DIR_ENTRY_DELETED_FLAG

def is_end : Bool := d.name.head = 0#8

def is_volume : Bool := d.attrs.contains .VOLUME_ID

def serialize {σ : Type} (wrt : FatPort σ) : FatM σ Unit := do
  wrt.write_all d.name.toList
  wrt.write_u8 d.attrs.bits
  wrt.write_u8 d.reserved_0
  wrt.write_u8 d.create_time_0
  wrt.write_u16 d.create_time_1
  wrt.write_u16 d.create_date
  wrt.write_u16 d.access_date
  wrt.write_u16 d.first_cluster_hi
  wrt.write_u16 d.modify_time
  wrt.write_u16 d.modify_date
  wrt.write_u16 d.first_cluster_lo
  wrt.write_u32 d.size

end DirFileEntryData

structure DirLfnEntryData where
  order : Byte
  name_0 : List.Vector (BitVec 16) 5
  attrs : FileAttributes
  entry_type : Byte
  checksum : Byte
  name_1 : List.Vector (BitVec 16) 6
  reserved_0 : BitVec 16
  name_2 : List.Vector (BitVec 16) 2
  deriving DecidableEq

/-- `for ch in l.iter() { wrt.write_u16(*ch)?; }` -/
def write_words {σ : Type} (wrt : FatPort σ) : List (BitVec 16) → FatM σ Unit
  | [] => pure ()
  | w :: l => do
    wrt.write_u16 w
    write_words wrt l

namespace DirLfnEntryData

variable (d : DirLfnEntryData)

def is_deleted : Bool := d.order = DIR_ENTRY_DELETED_FLAG

def is_end : Bool := d.order = 0#8

def serialize {σ : Type} (wrt : FatPort σ) : FatM σ Unit := do
  wrt.write_u8 d.order
  write_words wrt d.name_0.toList
  wrt.write_u8 d.attrs.bits
  wrt.write_u8 d.entry_type
  wrt.write_u8 d.checksum
  write_words wrt d.name_1.toList
  wrt.write_u16 d.reserved_0
  write_words wrt d.name_2.toList

end DirLfnEntryData

inductive DirEntryData where
  | File (file : DirFileEntryData)
  | Lfn (lfn : DirLfnEntryData)
  deriving DecidableEq

namespace DirEntryData

def serialize {σ : Type} (wrt : FatPort σ) : DirEntryData → FatM σ Unit
  | .File file => file.serialize wrt
  | .Lfn lfn => lfn.serialize wrt

/-- `read_u16_into`. -/
def read_words {σ : Type} (rdr : FatPort σ) (n : Nat) : FatM σ (List.Vector (BitVec 16) n) := do
  return fill 0#16 n (words (← rdr.read_exact (2 * n)))

/-- A stream that ends where an entry should begin yields an empty entry, which ends the
directory. -/
def deserialize {σ : Type} (rdr : FatPort σ) : FatM σ DirEntryData := do
  match ← attempt (rdr.read_exact 11) with
  | .error err => if err.kind = .UnexpectedEof then return .File .empty else throw err
  | .ok bytes =>
    let name := fill 0#8 11 bytes
    let attrs := FileAttributes.from_bits_truncate (← rdr.read_u8)
    if attrs.contains .LFN then
      let order := name.head
      let name_0 := fill 0#16 5 (words name.tail.toList)
      let entry_type ← rdr.read_u8
      let checksum ← rdr.read_u8
      let name_1 ← read_words rdr 6
      let reserved_0 ← rdr.read_u16
      let name_2 ← read_words rdr 2
      return .Lfn ⟨order, name_0, attrs, entry_type, checksum, name_1, reserved_0, name_2⟩
    else
      let reserved_0 ← rdr.read_u8
      let create_time_0 ← rdr.read_u8
      let create_time_1 ← rdr.read_u16
      let create_date ← rdr.read_u16
      let access_date ← rdr.read_u16
      let first_cluster_hi ← rdr.read_u16
      let modify_time ← rdr.read_u16
      let modify_date ← rdr.read_u16
      let first_cluster_lo ← rdr.read_u16
      let size ← rdr.read_u32
      return .File ⟨name, attrs, reserved_0, create_time_0, create_time_1,
        create_date, access_date, first_cluster_hi,
        modify_time, modify_date, first_cluster_lo, size⟩

def is_deleted : DirEntryData → Bool
  | .File file => file.is_deleted
  | .Lfn lfn => lfn.is_deleted

def is_end : DirEntryData → Bool
  | .File file => file.is_end
  | .Lfn lfn => lfn.is_end

end DirEntryData

/-! ## The editor -/

/-- An entry that is in use, and its place on the disk. -/
structure DirEntryEditor where
  data : DirFileEntryData
  pos : Nat
  dirty : Bool
  deriving DecidableEq

namespace DirEntryEditor

def new (data : DirFileEntryData) (pos : Nat) : DirEntryEditor := ⟨data, pos, false⟩

variable (e : DirEntryEditor)

def set_first_cluster (first_cluster : Option Nat) (fat_type : FatType) : DirEntryEditor :=
  if first_cluster ≠ e.data.first_cluster fat_type then
    { e with data := e.data.set_first_cluster first_cluster fat_type, dirty := true }
  else e

def set_size (size : Nat) : DirEntryEditor :=
  match e.data.file_size with
  | some n => if size ≠ n then { e with data := e.data.set_size size, dirty := true } else e
  | none => e

def set_accessed (t : Date) : DirEntryEditor :=
  if t ≠ e.data.accessed then { e with data := e.data.set_accessed t, dirty := true } else e

def set_modified (t : DateTime) : DirEntryEditor :=
  if t ≠ e.data.modified then { e with data := e.data.set_modified t, dirty := true } else e

end DirEntryEditor

end HectoOs.Fatfs
