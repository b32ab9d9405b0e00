import HectoOs.Lib.Bytes
import HectoOs.Lib.Fallible

/-! # The disk under a FAT file system (`fatfs/src/fs.rs`, `core_io/src/io/mod.rs`)

The disk is a parameter: its bytes, and what one `read` and one `write` at a place do. The crate
seeks before its accesses, so an access names its place. What the crate relies on is
`Device.Serves`: a request that is not empty gets at least one byte, in order, and one of up to four
bytes is written whole. The block device of the kernel does not keep to this (`HectoOs.Block`).

`DiskSlice` is a part of the disk that is kept in several copies.
-/

open HectoOs.Lib

namespace HectoOs.Fatfs

inductive ErrorKind where
  | InvalidInput
  | UnexpectedEof
  | WriteZero
  | NotFound
  | AlreadyExists
  | Other
  deriving DecidableEq

structure Error where
  kind : ErrorKind
  msg : String
  deriving DecidableEq

inductive Panic where
  | special_cluster
  | endless
  | no_cluster
  | unknown_size
  | not_a_file
  | unwrap
  deriving DecidableEq

inductive FatType where
  | Fat12
  | Fat16
  | Fat32
  deriving DecidableEq

/-- An integer of 64 bits read as a signed one. -/
def as_i64 (n : Nat) : Int := (BitVec.ofNat 64 n).toInt

theorem as_i64_of_lt {n : Nat} (h : n < 2 ^ 63) : as_i64 n = n := by
  rw [as_i64, BitVec.toInt_eq_toNat_cond, BitVec.toNat_ofNat, Nat.mod_eq_of_lt (by omega),
    if_pos (by omega)]

inductive SeekFrom where
  | Start (n : Nat)
  | End (n : Int)
  | Current (n : Int)

/-! ## Whole buffers

`read_exact` and `write_all` call `read` and `write` until the buffer is done. A call that makes no
progress ends the loop, so there are no more calls than bytes.
-/

section Whole

variable {σ : Type}

def unexpected_eof : Error := ⟨.UnexpectedEof, "failed to fill whole buffer"⟩

def write_zero : Error := ⟨.WriteZero, "failed to write whole buffer"⟩

def read_exact_loop (read : Nat → Fallible Panic Error σ (List Byte)) :
    Nat → Nat → Fallible Panic Error σ (List Byte)
  | _, 0 => pure []
  | 0, _ + 1 => throw unexpected_eof
  | calls + 1, n + 1 => do
    let bytes ← read (n + 1)
    if bytes.length = 0 then throw unexpected_eof
    let rest ← read_exact_loop read calls (n + 1 - bytes.length)
    return bytes ++ rest

/-- `default_read_exact`. -/
def read_exact (read : Nat → Fallible Panic Error σ (List Byte)) (n : Nat) :
    Fallible Panic Error σ (List Byte) :=
  read_exact_loop read n n

def write_all_loop (write : List Byte → Fallible Panic Error σ Nat) :
    Nat → List Byte → Fallible Panic Error σ Unit
  | _, [] => pure ()
  | 0, _ :: _ => throw write_zero
  | calls + 1, b :: buf => do
    let n ← write (b :: buf)
    if n = 0 then throw write_zero
    write_all_loop write calls ((b :: buf).drop n)

/-- `Write::write_all`. -/
def write_all (write : List Byte → Fallible Panic Error σ Nat) (buf : List Byte) :
    Fallible Panic Error σ Unit :=
  write_all_loop write buf.length buf

variable {s s' : σ} {n : Nat} {all buf : List Byte}

theorem read_exact_loop_of_pieces {read : Nat → Fallible Panic Error σ (List Byte)} {st : Nat → σ}
    (h : ∀ j, j < all.length → ∃ k, 0 < k ∧ j + k ≤ all.length ∧
      read (all.length - j) (st j) = .ok (.ok ((all.drop j).take k), st (j + k)))
    {calls j : Nat} (hj : j ≤ all.length) (hcalls : all.length - j ≤ calls) :
    read_exact_loop read calls (all.length - j) (st j) = .ok (.ok (all.drop j), st all.length) := by
  induction calls generalizing j with
  | zero =>
    obtain rfl : j = all.length := by omega
    rw [Nat.sub_self, List.drop_length]
    rfl
  | succ calls ih =>
    cases hn : all.length - j with
    | zero =>
      obtain rfl : j = all.length := by omega
      rw [List.drop_length]
      rfl
    | succ n =>
      obtain ⟨k, hk, hle, hread⟩ := h j (by omega)
      have hlen : ((all.drop j).take k).length = k := by
        rw [List.length_take, List.length_drop]
        omega
      rw [hn] at hread
      rw [read_exact_loop, bind_of_ok hread, hlen, if_neg (by omega)]
      have hrest := ih hle (by omega)
      rw [show n + 1 - k = all.length - (j + k) by omega]
      refine (bind_of_ok hrest).trans ?_
      have hsplit : (all.drop j).take k ++ all.drop (j + k) = all.drop j := by
        rw [← List.drop_drop, List.take_append_drop]
      rw [hsplit]
      rfl

theorem read_exact_of_pieces (read : Nat → Fallible Panic Error σ (List Byte))
    (all : List Byte) (st : Nat → σ) (h : ∀ j, j < all.length → ∃ k, 0 < k ∧ j + k ≤ all.length ∧
      read (all.length - j) (st j) = .ok (.ok ((all.drop j).take k), st (j + k))) :
    read_exact read all.length (st 0) = .ok (.ok all, st all.length) :=
  read_exact_loop_of_pieces h (Nat.zero_le _) (le_refl _)

theorem write_all_loop_of_pieces {write : List Byte → Fallible Panic Error σ Nat} {st : Nat → σ}
    (h : ∀ j, j < buf.length → ∃ k, 0 < k ∧ j + k ≤ buf.length ∧
      write (buf.drop j) (st j) = .ok (.ok k, st (j + k)))
    {calls j : Nat} (hj : j ≤ buf.length) (hcalls : buf.length - j ≤ calls) :
    write_all_loop write calls (buf.drop j) (st j) = .ok (.ok (), st buf.length) := by
  induction calls generalizing j with
  | zero =>
    obtain rfl : j = buf.length := by omega
    rw [List.drop_length]
    rfl
  | succ calls ih =>
    cases hb : buf.drop j with
    | nil =>
      obtain rfl : j = buf.length := Nat.le_antisymm hj (List.drop_eq_nil_iff.mp hb)
      rfl
    | cons b rest =>
      have hlt : j < buf.length := by
        by_contra hle
        rw [List.drop_of_length_le (Nat.le_of_not_lt hle)] at hb
        cases hb
      obtain ⟨k, hk, hle, hwrite⟩ := h j hlt
      rw [hb] at hwrite
      rw [write_all_loop, bind_of_ok hwrite, if_neg (by omega), ← hb, List.drop_drop]
      exact ih hle (by omega)

theorem write_all_of_pieces (write : List Byte → Fallible Panic Error σ Nat)
    (buf : List Byte) (st : Nat → σ) (h : ∀ j, j < buf.length → ∃ k, 0 < k ∧ j + k ≤ buf.length ∧
      write (buf.drop j) (st j) = .ok (.ok k, st (j + k))) :
    write_all write buf (st 0) = .ok (.ok (), st buf.length) :=
  write_all_loop_of_pieces (j := 0) h (Nat.zero_le _) (le_refl _)

theorem write_all_of_write {write : List Byte → Fallible Panic Error σ Nat}
    (h : buf ≠ [] → write buf s = .ok (.ok buf.length, s')) (hn : buf = [] → s' = s) :
    write_all write buf s = .ok (.ok (), s') := by
  cases buf with
  | nil =>
    rw [hn rfl]
    rfl
  | cons b buf =>
    rw [write_all, List.length_cons, write_all_loop, bind_of_ok (h (List.cons_ne_nil b buf)),
      if_neg (by simp)]
    simp only [List.drop_length]
    cases buf.length <;> rfl

end Whole

/-! ## The disk, byte by byte -/

/-- What a `read` of some bytes at a place returns, and how much of a buffer a `write` takes. -/
structure Device where
  read : Nat → Nat → Fallible Panic Error Mem (List Byte)
  write : Nat → List Byte → Fallible Panic Error Mem Nat

/-- What the crate relies on in a disk. -/
structure Device.Serves (d : Device) : Prop where
  read : ∀ pos n m, 0 < n → ∃ k, 0 < k ∧ k ≤ n ∧ d.read pos n m = .ok (.ok (bytesAt m pos k), m)
  write : ∀ pos buf m, buf ≠ [] → ∃ k, 0 < k ∧ k ≤ buf.length ∧ (buf.length ≤ 4 → k = buf.length) ∧
    d.write pos buf m = .ok (.ok k, writeBytes m pos (buf.take k))

/-- A disk that serves `k` bytes at a time. -/
def Device.pieces (k : Nat) : Device where
  read pos n m := .ok (.ok (bytesAt m pos (min n k)), m)
  write pos buf m := .ok (.ok (min buf.length k), writeBytes m pos (buf.take (min buf.length k)))

theorem Device.pieces_serves {k : Nat} (hk : 4 ≤ k) : (Device.pieces k).Serves where
  read pos n m hn := ⟨min n k, by omega, Nat.min_le_left n k, rfl⟩
  write pos buf m hb := by
    have hpos := List.length_pos_iff.mpr hb
    exact ⟨min buf.length k, by omega, Nat.min_le_left _ k, fun _ => by omega, rfl⟩

/-- A disk and its position. -/
structure DiskCursor where
  device : Device
  disk : Mem
  pos : Nat

namespace DiskCursor

def on_device {α : Type} (x : Fallible Panic Error Mem α) :
    Fallible Panic Error DiskCursor α := fun c =>
  (x c.disk).map fun r => (r.1, { c with disk := r.2 })

def seek (pos : Nat) : Fallible Panic Error DiskCursor Unit := modify fun c => { c with pos := pos }

def read (n : Nat) : Fallible Panic Error DiskCursor (List Byte) := do
  let c ← getThe DiskCursor
  let bytes ← on_device (c.device.read c.pos n)
  seek (c.pos + bytes.length)
  return bytes

def write (buf : List Byte) : Fallible Panic Error DiskCursor Nat := do
  let c ← getThe DiskCursor
  let n ← on_device (c.device.write c.pos buf)
  seek (c.pos + n)
  return n

def read_exact (n : Nat) : Fallible Panic Error DiskCursor (List Byte) := Fatfs.read_exact read n

def write_all (buf : List Byte) : Fallible Panic Error DiskCursor Unit := Fatfs.write_all write buf

variable {c : DiskCursor} {n : Nat} {buf : List Byte}

theorem read_spec (hs : c.device.Serves) (hn : 0 < n) : ∃ k, 0 < k ∧ k ≤ n ∧
    read n c = .ok (.ok (bytesAt c.disk c.pos k), { c with pos := c.pos + k }) := by
  obtain ⟨k, hk, hle, hread⟩ := hs.read c.pos n c.disk hn
  have hon : on_device (c.device.read c.pos n) c = .ok (.ok (bytesAt c.disk c.pos k), c) := by
    rw [on_device, hread]
    rfl
  refine ⟨k, hk, hle, (bind_of_ok (x := getThe DiskCursor) rfl).trans ((bind_of_ok hon).trans ?_)⟩
  rw [length_bytesAt]
  rfl

theorem write_spec (hs : c.device.Serves) (hb : buf ≠ []) :
    ∃ k, 0 < k ∧ k ≤ buf.length ∧ (buf.length ≤ 4 → k = buf.length) ∧ write buf c =
      .ok (.ok k, ⟨c.device, writeBytes c.disk c.pos (buf.take k), c.pos + k⟩) := by
  obtain ⟨k, hk, hle, hsmall, hwrite⟩ := hs.write c.pos buf c.disk hb
  have hon : on_device (c.device.write c.pos buf) c =
      .ok (.ok k, { c with disk := writeBytes c.disk c.pos (buf.take k) }) := by
    rw [on_device, hwrite]
    rfl
  exact ⟨k, hk, hle, hsmall, (bind_of_ok (x := getThe DiskCursor) rfl).trans (bind_of_ok hon)⟩

theorem read_exact_spec (hs : c.device.Serves) (n : Nat) :
    read_exact n c = .ok (.ok (bytesAt c.disk c.pos n), { c with pos := c.pos + n }) := by
  have h := read_exact_of_pieces read (bytesAt c.disk c.pos n)
    (fun j => { c with pos := c.pos + j }) fun j hj => ?_
  · rw [length_bytesAt] at h
    exact h
  · rw [length_bytesAt] at hj ⊢
    obtain ⟨k, hk, hle, hread⟩ :=
      read_spec (c := { c with pos := c.pos + j }) (n := n - j) hs (by omega)
    refine ⟨k, hk, by omega, hread.trans ?_⟩
    have hpart : ((bytesAt c.disk c.pos n).drop j).take k = bytesAt c.disk (c.pos + j) k := by
      rw [show n = j + (k + (n - j - k)) by omega, bytesAt_append,
        List.drop_left' (length_bytesAt _ _ _),
        bytesAt_append, List.take_left' (length_bytesAt _ _ _)]
    rw [hpart, Nat.add_assoc]

theorem write_all_spec (hs : c.device.Serves) (buf : List Byte) : write_all buf c =
    .ok (.ok (), ⟨c.device, writeBytes c.disk c.pos buf, c.pos + buf.length⟩) := by
  have h := write_all_of_pieces write buf
    (fun j => ⟨c.device, writeBytes c.disk c.pos (buf.take j), c.pos + j⟩) fun j hj => ?_
  · rw [List.take_length, List.take_zero, writeBytes_nil] at h
    exact h
  · have hne : buf.drop j ≠ [] := by
      rw [ne_eq, List.drop_eq_nil_iff]
      omega
    obtain ⟨k, hk, hle, -, hwrite⟩ := write_spec
      (c := ⟨c.device, writeBytes c.disk c.pos (buf.take j), c.pos + j⟩) hs hne
    rw [List.length_drop] at hle
    refine ⟨k, hk, by omega, hwrite.trans ?_⟩
    have hlen : (buf.take j).length = j := by
      rw [List.length_take]
      omega
    rw [List.take_add, ← writeBytes_append, hlen, Nat.add_assoc]

end DiskCursor

/-! ## Status flags -/

structure FsStatusFlags where
  dirty : Bool
  io_error : Bool
  deriving DecidableEq

namespace FsStatusFlags

def encode (f : FsStatusFlags) : Byte :=
  let res : Byte := 0
  let res := if f.dirty then res ||| 1 else res
  if f.io_error then res ||| 2 else res

def decode (flags : Byte) : FsStatusFlags := ⟨flags &&& 1 != 0, flags &&& 2 != 0⟩

theorem decode_encode (f : FsStatusFlags) : decode f.encode = f := by
  obtain ⟨d, e⟩ := f
  cases d <;> cases e <;> rfl

end FsStatusFlags

/-! ## The disk of a file system -/

/-- What the adapter that the slices write through sees of a file system. `reserved_1` is the field
of the boot sector that the flags were mounted with. -/
structure FsIoAdapter where
  device : Device
  disk : Mem
  fat_type : FatType
  reserved_1 : Byte
  current_status_flags : FsStatusFlags

/-- The adapter, with the position of the disk. -/
structure IoCursor where
  io : FsIoAdapter
  pos : Nat

namespace IoCursor

/-- An access to the disk below. -/
def on_disk {α : Type} (x : Fallible Panic Error DiskCursor α) :
    Fallible Panic Error IoCursor α := fun c =>
  (x ⟨c.io.device, c.io.disk, c.pos⟩).map fun r => (r.1, ⟨{ c.io with disk := r.2.disk }, r.2.pos⟩)

end IoCursor

namespace FsIoAdapter

variable (io : FsIoAdapter)

/-- Where the flags are on the disk. -/
def flags_offset : Nat := if io.fat_type = .Fat32 then 0x041 else 0x025

/-- The flags that the file system was mounted with, and `dirty`. -/
def flags_with (dirty : Bool) : FsStatusFlags :=
  let flags := FsStatusFlags.decode io.reserved_1
  { flags with dirty := flags.dirty || dirty }

/-- `set_dirty_flag`. It leaves the disk at another position if it writes. -/
def set_dirty_flag (dirty : Bool) : Fallible Panic Error IoCursor Unit := do
  let c ← getThe IoCursor
  let flags := c.io.flags_with dirty
  if flags = c.io.current_status_flags then return ()
  IoCursor.on_disk (DiskCursor.seek c.io.flags_offset)
  IoCursor.on_disk (DiskCursor.write_all (leBytes 1 flags.encode.toNat))
  modify fun c => { c with io := { c.io with current_status_flags := flags } }

def write (buf : List Byte) : Fallible Panic Error IoCursor Nat := do
  let size ← IoCursor.on_disk (DiskCursor.write buf)
  if size > 0 then set_dirty_flag true
  return size

/-! ### What a disk that serves holds afterwards -/

def with_dirty_flag (dirty : Bool) : FsIoAdapter :=
  if io.flags_with dirty = io.current_status_flags then io
  else { io with
    disk := writeBytes io.disk io.flags_offset (leBytes 1 (io.flags_with dirty).encode.toNat)
    current_status_flags := io.flags_with dirty }

/-- The adapter after `buf` has been written at `pos`. -/
def written (pos : Nat) (buf : List Byte) : FsIoAdapter :=
  let io := { io with disk := writeBytes io.disk pos buf }
  if buf.length > 0 then io.with_dirty_flag true else io

@[simp] theorem with_dirty_flag_device (d : Bool) : (io.with_dirty_flag d).device = io.device := by
  unfold with_dirty_flag
  split <;> rfl

@[simp] theorem with_dirty_flag_fat_type (d : Bool) :
    (io.with_dirty_flag d).fat_type = io.fat_type := by
  unfold with_dirty_flag
  split <;> rfl

@[simp] theorem with_dirty_flag_reserved_1 (d : Bool) :
    (io.with_dirty_flag d).reserved_1 = io.reserved_1 := by
  unfold with_dirty_flag
  split <;> rfl

@[simp] theorem with_dirty_flag_current (d : Bool) :
    (io.with_dirty_flag d).current_status_flags = io.flags_with d := by
  unfold with_dirty_flag
  split
  · rename_i h
    exact h.symm
  · rfl

@[simp] theorem written_device (pos : Nat) (buf : List Byte) :
    (io.written pos buf).device = io.device := by
  unfold written
  dsimp only
  split <;> simp

@[simp] theorem written_fat_type (pos : Nat) (buf : List Byte) :
    (io.written pos buf).fat_type = io.fat_type := by
  unfold written
  dsimp only
  split <;> simp

@[simp] theorem written_reserved_1 (pos : Nat) (buf : List Byte) :
    (io.written pos buf).reserved_1 = io.reserved_1 := by
  unfold written
  dsimp only
  split <;> simp

theorem flags_offset_lt : io.flags_offset < 0x42 := by
  unfold flags_offset
  split <;> omega

theorem flags_offset_congr {io' : FsIoAdapter} (h : io'.fat_type = io.fat_type) :
    io'.flags_offset = io.flags_offset := by
  unfold flags_offset
  rw [h]

theorem with_dirty_flag_disk (d : Bool) {x : Nat} (hx : x ≠ io.flags_offset) :
    (io.with_dirty_flag d).disk x = io.disk x := by
  unfold with_dirty_flag
  split
  · rfl
  · refine writeBytes_sameOn _ _ _ x (x + 1) ?_ x (le_refl x) (Nat.lt_succ_self x)
    rw [length_leBytes]
    omega

theorem written_disk (pos : Nat) (buf : List Byte) {x : Nat} (hx : x ≠ io.flags_offset) :
    (io.written pos buf).disk x = writeBytes io.disk pos buf x := by
  unfold written
  dsimp only
  split
  · exact with_dirty_flag_disk _ true hx
  · rfl

/-- The flags on the disk are the ones that are kept in memory. -/
def Stamped : Prop := FsStatusFlags.decode (io.disk io.flags_offset) = io.current_status_flags

theorem Stamped.with_dirty_flag {io : FsIoAdapter} (h : io.Stamped) (d : Bool) :
    (io.with_dirty_flag d).Stamped := by
  unfold FsIoAdapter.with_dirty_flag
  split
  · exact h
  · have hbyte :=
      bytesAt_writeBytes io.disk io.flags_offset (leBytes 1 (io.flags_with d).encode.toNat)
    have hone : leBytes 1 (io.flags_with d).encode.toNat = [(io.flags_with d).encode] := by
      simp [leBytes]
    rw [hone] at hbyte ⊢
    have hstored := (List.cons.inj hbyte).1
    exact (congrArg FsStatusFlags.decode hstored).trans (FsStatusFlags.decode_encode _)

theorem Stamped.written {io : FsIoAdapter} (h : io.Stamped) {pos : Nat}
    (hpos : io.flags_offset < pos) (buf : List Byte) : (io.written pos buf).Stamped := by
  have hsame : writeBytes io.disk pos buf io.flags_offset = io.disk io.flags_offset :=
    writeBytes_sameOn _ _ _ io.flags_offset (io.flags_offset + 1) (.inl hpos) _ (le_refl _)
      (Nat.lt_succ_self _)
  have hstamped : ({ io with disk := writeBytes io.disk pos buf } : FsIoAdapter).Stamped :=
    (congrArg FsStatusFlags.decode hsame).trans h
  unfold FsIoAdapter.written
  dsimp only
  split
  · exact hstamped.with_dirty_flag true
  · exact hstamped

section Serving

variable {io} {buf : List Byte}

theorem set_dirty_flag_spec (hs : io.device.Serves) (d : Bool) (pos : Nat) :
    ∃ pos', set_dirty_flag d ⟨io, pos⟩ = .ok (.ok (), ⟨io.with_dirty_flag d, pos'⟩) := by
  unfold with_dirty_flag
  by_cases hf : io.flags_with d = io.current_status_flags
  · refine ⟨pos, (bind_of_ok (x := getThe IoCursor) rfl).trans ?_⟩
    dsimp only
    rw [if_pos hf, if_pos hf]
    rfl
  · obtain ⟨b, hb⟩ : ∃ b, b = leBytes 1 (io.flags_with d).encode.toNat := ⟨_, rfl⟩
    have hwrite := DiskCursor.write_all_spec (c := ⟨io.device, io.disk, io.flags_offset⟩) hs b
    have hon : IoCursor.on_disk (DiskCursor.write_all b) ⟨io, io.flags_offset⟩ = .ok (.ok (),
        ⟨{ io with disk := writeBytes io.disk io.flags_offset b },
          io.flags_offset + b.length⟩) := by
      rw [IoCursor.on_disk, hwrite]
      rfl
    refine ⟨io.flags_offset + b.length, (bind_of_ok (x := getThe IoCursor) rfl).trans ?_⟩
    dsimp only
    rw [if_neg hf, if_neg hf, ← hb]
    exact (bind_of_ok (x := IoCursor.on_disk (DiskCursor.seek _)) rfl).trans (bind_of_ok hon)

theorem write_all_spec (hs : io.device.Serves) (hlen : buf.length ≤ 4) (pos : Nat) :
    ∃ pos', write_all write buf ⟨io, pos⟩ = .ok (.ok (), ⟨io.written pos buf, pos'⟩) := by
  by_cases hb : buf = []
  · subst hb
    refine ⟨pos, ?_⟩
    rw [written, writeBytes_nil]
    rfl
  · have hpos := List.length_pos_iff.mpr hb
    obtain ⟨k, -, -, hsmall, hwrite⟩ := DiskCursor.write_spec (c := ⟨io.device, io.disk, pos⟩) hs hb
    obtain rfl := hsmall hlen
    rw [List.take_length] at hwrite
    have hon : IoCursor.on_disk (DiskCursor.write buf) ⟨io, pos⟩ = .ok (.ok buf.length,
        ⟨{ io with disk := writeBytes io.disk pos buf }, pos + buf.length⟩) := by
      rw [IoCursor.on_disk, hwrite]
      rfl
    obtain ⟨pos', hflag⟩ := @set_dirty_flag_spec
      { io with disk := writeBytes io.disk pos buf } hs true (pos + buf.length)
    refine ⟨pos', write_all_of_write (fun _ => (bind_of_ok hon).trans ?_) fun h => absurd h hb⟩
    rw [if_pos hpos, written, if_pos hpos]
    exact bind_of_ok hflag

end Serving

end FsIoAdapter

/-! ## Slices -/

structure DiskSlice where
  begin_ : Nat
  size : Nat
  offset : Nat
  mirrors : Nat
  inner : FsIoAdapter

abbrev SliceM := Fallible Panic Error DiskSlice

namespace DiskSlice

/-- A `seek` of the adapter to `pos`, and an access there. -/
def on_inner {α : Type} (pos : Nat) (x : Fallible Panic Error IoCursor α) : SliceM α := fun s =>
  (x ⟨s.inner, pos⟩).map fun r => (r.1, { s with inner := r.2.io })

def read (n : Nat) : SliceM (List Byte) := do
  let s ← getThe DiskSlice
  let read_size := min (s.size - s.offset) n
  let bytes ← on_inner (s.begin_ + s.offset) (IoCursor.on_disk (DiskCursor.read read_size))
  modify fun s => { s with offset := s.offset + bytes.length }
  return bytes

/-- Writes `buf` to the first `mirrors` of the copies. -/
def write_copies (offset size : Nat) (buf : List Byte) : Nat → SliceM Unit
  | 0 => pure ()
  | i + 1 => do
    write_copies offset size buf i
    on_inner (offset + i * size) (write_all FsIoAdapter.write buf)

def write (buf : List Byte) : SliceM Nat := do
  let s ← getThe DiskSlice
  let write_size := min (s.size - s.offset) buf.length
  if write_size = 0 then return 0
  write_copies (s.begin_ + s.offset) s.size (buf.take write_size) s.mirrors
  modify fun s => { s with offset := s.offset + write_size }
  return write_size

def seek (pos : SeekFrom) : SliceM Nat := fun s =>
  let new_offset := match pos with
    | .Current x => s.offset + x
    | .Start x => as_i64 x
    | .End x => s.size + x
  if new_offset < 0 ∨ s.size < new_offset.toNat then
    .ok (.error ⟨.InvalidInput, "Seek to a negative offset"⟩, s)
  else .ok (.ok new_offset.toNat, { s with offset := new_offset.toNat })

def read_u8 : SliceM Byte := do
  return BitVec.ofNat 8 (leValue (← read_exact read 1))

def read_u16 : SliceM (BitVec 16) := do
  return BitVec.ofNat 16 (leValue (← read_exact read 2))

def read_u32 : SliceM (BitVec 32) := do
  return BitVec.ofNat 32 (leValue (← read_exact read 4))

def write_u16 (w : BitVec 16) : SliceM Unit := write_all write (leBytes 2 w.toNat)

def write_u32 (w : BitVec 32) : SliceM Unit := write_all write (leBytes 4 w.toNat)

/-! ### What a slice holds -/

variable {s s' s'' : DiskSlice} {n pos : Nat} {buf : List Byte}

/-- The first copy. -/
def table (s : DiskSlice) : Mem := fun k => s.inner.disk (s.begin_ + k)

/-- A slice behind the flags of the boot sector. -/
structure Valid (s : DiskSlice) : Prop where
  serves : s.inner.device.Serves
  behind : 0x42 ≤ s.begin_
  copies : 0 < s.mirrors

/-- All copies hold the same bytes. -/
def Mirrored (s : DiskSlice) : Prop := ∀ i, i < s.mirrors → ∀ k, k < s.size →
  s.inner.disk (s.begin_ + i * s.size + k) = s.table k

/-- What no access to a slice changes: where it is, and the disk beside it but for the flags. -/
structure Kept (s s' : DiskSlice) : Prop where
  begin_ : s'.begin_ = s.begin_
  size : s'.size = s.size
  mirrors : s'.mirrors = s.mirrors
  device : s'.inner.device = s.inner.device
  fat_type : s'.inner.fat_type = s.inner.fat_type
  reserved_1 : s'.inner.reserved_1 = s.inner.reserved_1
  mirrored : s.Mirrored → s'.Mirrored
  stamped : s.inner.Stamped → s'.inner.Stamped
  outside : ∀ x, x ≠ s.inner.flags_offset → x < s.begin_ ∨ s.begin_ + s.mirrors * s.size ≤ x →
    s'.inner.disk x = s.inner.disk x

theorem Kept.refl (s : DiskSlice) : Kept s s :=
  ⟨rfl, rfl, rfl, rfl, rfl, rfl, id, id, fun _ _ _ => rfl⟩

theorem Kept.trans (h : Kept s s') (h' : Kept s' s'') : Kept s s'' := by
  have hflags := s.inner.flags_offset_congr h.fat_type
  refine ⟨h'.begin_.trans h.begin_, h'.size.trans h.size, h'.mirrors.trans h.mirrors,
    h'.device.trans h.device, h'.fat_type.trans h.fat_type, h'.reserved_1.trans h.reserved_1,
    fun hm => h'.mirrored (h.mirrored hm), fun hs => h'.stamped (h.stamped hs), fun x hx hout => ?_⟩
  rw [h'.outside x (hflags ▸ hx) (by rw [h.begin_, h.size, h.mirrors]; exact hout),
    h.outside x hx hout]

theorem Kept.valid (h : Kept s s') (hs : s.Valid) : s'.Valid :=
  ⟨h.device ▸ hs.serves, h.begin_ ▸ hs.behind, h.mirrors ▸ hs.copies⟩

theorem kept_of_moved (s : DiskSlice) (o : Nat) : Kept s { s with offset := o } :=
  ⟨rfl, rfl, rfl, rfl, rfl, rfl, id, id, fun _ _ _ => rfl⟩

/-- The bytes `buf` have been written at `pos`, to all copies. -/
structure Stored (s : DiskSlice) (pos : Nat) (buf : List Byte) (s' : DiskSlice) :
    Prop extends Kept s s' where
  table : SameOn (writeBytes s.table pos buf) s'.table 0 s.size

/-- The adapter after `buf` has been written to each of the copies. -/
def copies_written (io : FsIoAdapter) (offset size : Nat) (buf : List Byte) : Nat → FsIoAdapter
  | 0 => io
  | i + 1 => (copies_written io offset size buf i).written (offset + i * size) buf

theorem copies_written_fields (io : FsIoAdapter) (offset size k : Nat) (buf : List Byte) :
    (copies_written io offset size buf k).device = io.device ∧
    (copies_written io offset size buf k).fat_type = io.fat_type ∧
    (copies_written io offset size buf k).reserved_1 = io.reserved_1 := by
  induction k with
  | zero => exact ⟨rfl, rfl, rfl⟩
  | succ k ih =>
    unfold copies_written
    simpa using ih

theorem copies_written_disk (io : FsIoAdapter) (offset k : Nat) {size : Nat} {buf : List Byte}
    (hbuf : buf.length ≤ size) {x : Nat} (hx : x ≠ io.flags_offset) :
    (∀ i, i < k → offset + i * size ≤ x → x < offset + i * size + buf.length →
      (copies_written io offset size buf k).disk x = buf.getD (x - (offset + i * size)) 0) ∧
    ((∀ i, i < k → x < offset + i * size ∨ offset + i * size + buf.length ≤ x) →
      (copies_written io offset size buf k).disk x = io.disk x) := by
  induction k with
  | zero => exact ⟨fun i hi => absurd hi (Nat.not_lt_zero i), fun _ => rfl⟩
  | succ k ih =>
    have hflags := io.flags_offset_congr (copies_written_fields io offset size k buf).2.1
    rw [copies_written, FsIoAdapter.written_disk _ _ _ (hflags.symm ▸ hx)]
    constructor
    · intro i hi hlo hhi
      by_cases hik : i = k
      · subst hik
        rw [writeBytes, if_pos ⟨hlo, hhi⟩]
      · -- the copies do not overlap
        have hle : (i + 1) * size ≤ k * size := Nat.mul_le_mul_right _ (by omega)
        rw [Nat.succ_mul] at hle
        rw [writeBytes_sameOn _ _ _ x (x + 1) (by omega) x (by omega) (by omega)]
        exact ih.1 i (by omega) hlo hhi
    · intro hout
      have := hout k (by omega)
      rw [writeBytes_sameOn _ _ _ x (x + 1) (by omega) x (by omega) (by omega)]
      exact ih.2 fun i hi => hout i (by omega)

theorem copies_written_stamped {io : FsIoAdapter} {offset : Nat}
    (h : io.Stamped) (ho : io.flags_offset < offset) (size k : Nat) :
    (copies_written io offset size buf k).Stamped := by
  induction k with
  | zero => exact h
  | succ k ih =>
    have hflags := io.flags_offset_congr (copies_written_fields io offset size k buf).2.1
    exact ih.written (by omega) buf

theorem write_copies_spec (hs : s.Valid) (hlen : buf.length ≤ 4) (offset size k : Nat) :
    write_copies offset size buf k s =
      .ok (.ok (), { s with inner := copies_written s.inner offset size buf k }) := by
  induction k with
  | zero => rfl
  | succ k ih =>
    have hserves : (copies_written s.inner offset size buf k).device.Serves :=
      (copies_written_fields s.inner offset size k buf).1 ▸ hs.serves
    obtain ⟨pos, hwrite⟩ := FsIoAdapter.write_all_spec hserves hlen (offset + k * size)
    rw [write_copies, bind_of_ok ih, on_inner, hwrite]
    rfl

theorem read_spec (hs : s.inner.device.Serves) (hn : 0 < n) (h : s.offset + n ≤ s.size) :
    ∃ k, 0 < k ∧ k ≤ n ∧
    read n s = .ok (.ok (bytesAt s.table s.offset k), { s with offset := s.offset + k }) := by
  have hmin : min (s.size - s.offset) n = n := by omega
  obtain ⟨k, hk, hle, hread⟩ :=
    DiskCursor.read_spec (c := ⟨s.inner.device, s.inner.disk, s.begin_ + s.offset⟩) hs hn
  have hbytes : bytesAt s.inner.disk (s.begin_ + s.offset) k = bytesAt s.table s.offset k := by
    apply List.ext_getElem
    · simp
    · intro i h1 h2
      rw [getElem_bytesAt, getElem_bytesAt, table]
      congr 1
      omega
  dsimp only at hread
  rw [hbytes] at hread
  have hon : on_inner (s.begin_ + s.offset)
    (IoCursor.on_disk (DiskCursor.read (min (s.size - s.offset) n))) s =
      .ok (.ok (bytesAt s.table s.offset k), s) := by
    rw [hmin, on_inner, IoCursor.on_disk, hread]
    rfl
  refine ⟨k, hk, hle, (bind_of_ok (x := getThe DiskSlice) rfl).trans ((bind_of_ok hon).trans ?_)⟩
  rw [length_bytesAt]
  rfl

theorem read_exact_spec (hs : s.inner.device.Serves) (h : s.offset + n ≤ s.size) :
    read_exact read n s =
    .ok (.ok (bytesAt s.table s.offset n), { s with offset := s.offset + n }) := by
  have hall := read_exact_of_pieces read (bytesAt s.table s.offset n)
    (fun j => { s with offset := s.offset + j }) fun j hj => ?_
  · rw [length_bytesAt] at hall
    exact hall
  · rw [length_bytesAt] at hj ⊢
    obtain ⟨k, hk, hle, hread⟩ := read_spec (s := { s with offset := s.offset + j }) (n := n - j)
      hs (by omega) (by dsimp only; omega)
    refine ⟨k, hk, by omega, hread.trans ?_⟩
    have hpart : ((bytesAt s.table s.offset n).drop j).take k =
      bytesAt s.table (s.offset + j) k := by
      rw [show n = j + (k + (n - j - k)) by omega, bytesAt_append,
        List.drop_left' (length_bytesAt _ _ _),
        bytesAt_append, List.take_left' (length_bytesAt _ _ _)]
    rw [hpart, Nat.add_assoc]
    rfl

theorem copies_written_copy (hs : s.Valid) (h : s.offset + buf.length ≤ s.size) {i k : Nat}
    (hi : i < s.mirrors) (hk : k < s.size) :
    (copies_written s.inner (s.begin_ + s.offset) s.size buf s.mirrors).disk
      (s.begin_ + i * s.size + k) =
      if s.offset ≤ k ∧ k < s.offset + buf.length then buf.getD (k - s.offset) 0
      else s.inner.disk (s.begin_ + i * s.size + k) := by
  have hb := hs.behind
  have hflags := s.inner.flags_offset_lt
  obtain ⟨hin, hout⟩ := copies_written_disk s.inner (s.begin_ + s.offset) s.mirrors
    (show buf.length ≤ s.size by omega)
      (show s.begin_ + i * s.size + k ≠ s.inner.flags_offset by omega)
  split
  · rw [hin i hi (by omega) (by omega)]
    congr 1
    omega
  · apply hout
    intro j hj
    rcases Nat.lt_trichotomy j i with hji | rfl | hji
    · have hle : (j + 1) * s.size ≤ i * s.size := Nat.mul_le_mul_right _ hji
      rw [Nat.succ_mul] at hle
      omega
    · omega
    · have hle : (i + 1) * s.size ≤ j * s.size := Nat.mul_le_mul_right _ hji
      rw [Nat.succ_mul] at hle
      omega

theorem stored_copies_written (hs : s.Valid) (h : s.offset + buf.length ≤ s.size) (offset : Nat) :
    Stored s s.offset buf { s with
      inner := copies_written s.inner (s.begin_ + s.offset) s.size buf s.mirrors, offset := offset } := by
  obtain ⟨hdev, hfat, hres⟩ :=
    copies_written_fields s.inner (s.begin_ + s.offset) s.size s.mirrors buf
  have hb := hs.behind
  have hflags := s.inner.flags_offset_lt
  refine ⟨⟨rfl, rfl, rfl, hdev, hfat, hres, ?_,
    fun hst => copies_written_stamped hst (by omega) _ _, ?_⟩, ?_⟩
  · intro hm i hi k hk
    have h0 := copies_written_copy hs h hs.copies hk
    rw [Nat.zero_mul, Nat.add_zero] at h0
    have hold : s.inner.disk (s.begin_ + i * s.size + k) =
      s.inner.disk (s.begin_ + k) := hm i hi k hk
    exact (copies_written_copy hs h hi hk).trans (hold ▸ h0.symm)
  · intro x hx hout
    refine (copies_written_disk s.inner _ _ (by omega) hx).2 fun i hi => ?_
    have hle : (i + 1) * s.size ≤ s.mirrors * s.size := Nat.mul_le_mul_right _ hi
    rw [Nat.succ_mul] at hle
    omega
  · intro k _ hk
    have := copies_written_copy hs h hs.copies hk
    rw [Nat.zero_mul, Nat.add_zero] at this
    exact this

theorem write_spec (hs : s.Valid) (hlen : buf.length ≤ 4) (h : s.offset + buf.length ≤ s.size) :
    ∃ s', write_all write buf s = .ok (.ok (), s') ∧ s'.offset = s.offset + buf.length ∧
      Stored s s.offset buf s' := by
  have hmin : min (s.size - s.offset) buf.length = buf.length := by omega
  by_cases hb : buf = []
  · subst hb
    refine ⟨s, rfl, rfl, Kept.refl s, ?_⟩
    intro x _ _
    rw [writeBytes, if_neg (by simp)]
  · have hpos := List.length_pos_iff.mpr hb
    have hcopies := write_copies_spec hs hlen (s.begin_ + s.offset) s.size s.mirrors
    refine ⟨_, write_all_of_write (fun _ => (bind_of_ok (x := getThe DiskSlice) rfl).trans ?_)
      fun h => absurd h hb, rfl, stored_copies_written hs h (s.offset + buf.length)⟩
    simp only [hmin, List.take_length]
    rw [if_neg (by omega)]
    exact bind_of_ok hcopies

theorem seek_start (h : pos ≤ s.size) (hp : pos < 2 ^ 63) :
    seek (.Start pos) s = .ok (.ok pos, { s with offset := pos }) := by
  simp only [seek, as_i64_of_lt hp, Int.toNat_natCast]
  rw [if_neg (by omega)]

end DiskSlice

end HectoOs.Fatfs
