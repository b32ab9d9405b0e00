import HectoOs.Fatfs.Disk

/-! # The file allocation table (`fatfs/src/table.rs`)

An entry of the table says of its cluster that it is free, bad, the last of a chain, or followed by
another cluster. An entry has 12, 16 or 32 bits. Numbers of clusters are `u32`.
-/

open HectoOs.Lib

namespace HectoOs.Fatfs

open DiskSlice

abbrev RESERVED_FAT_ENTRIES : Nat := 2

inductive FatValue where
  | Free
  | Data (n : Nat)
  | Bad
  | EndOfChain
  deriving DecidableEq

namespace FatValue

/-- What a raw entry means, where `bad` marks a bad cluster and the values above it up to `last` the
end of a chain. -/
def decode (bad last val : Nat) : FatValue :=
  if val = 0 then .Free
  else if val = bad then .Bad
  else if bad < val ∧ val ≤ last then .EndOfChain
  else .Data val

def encode (bad last : Nat) : FatValue → Nat
  | .Free => 0
  | .Bad => bad
  | .EndOfChain => last
  | .Data n => n

end FatValue

def no_space : Error := ⟨.Other, "No space left on device"⟩

def u32 (n : Nat) : Nat := n % 2 ^ 32

/-- The scan of a table whose entries can be read one after the other, over `n` entries from
`cluster` on. -/
def find_free_loop (read : SliceM Nat) : Nat → Nat → SliceM Nat
  | 0, _ => throw no_space
  | n + 1, cluster => do
    let val ← read
    if val = 0 then return cluster
    find_free_loop read n (cluster + 1)

def count_free_loop (read : SliceM Nat) : Nat → Nat → SliceM Nat
  | 0, count => pure count
  | n + 1, count => do
    let val ← read
    count_free_loop read n (if val = 0 then count + 1 else count)

/-! ## FAT12 -/

namespace Fat12

/-- Two entries share three bytes. The entry of an even cluster is in the low bits of its two
bytes. -/
def unpack (cluster : Nat) (packed_val : BitVec 16) : BitVec 16 :=
  if cluster % 2 = 0 then packed_val &&& 0x0FFF#16 else packed_val >>> 4

def pack (cluster : Nat) (old_packed raw_val : BitVec 16) : BitVec 16 :=
  if cluster % 2 = 0 then (old_packed &&& 0xF000#16) ||| raw_val
  else (old_packed &&& 0x000F#16) ||| (raw_val <<< 4)

def get_raw (cluster : Nat) : SliceM Nat := do
  let fat_offset := u32 (cluster + cluster / 2)
  let _ ← seek (.Start fat_offset)
  let packed_val ← read_u16
  return (unpack cluster packed_val).toNat

def get (cluster : Nat) : SliceM FatValue := do
  let val ← get_raw cluster
  return .decode 0xFF7 0xFFF val

def set_raw (cluster raw_val : Nat) : SliceM Unit := do
  let fat_offset := u32 (cluster + cluster / 2)
  let _ ← seek (.Start fat_offset)
  let old_packed ← read_u16
  let _ ← seek (.Start fat_offset)
  write_u16 (pack cluster old_packed (BitVec.ofNat 16 raw_val))

def set (cluster : Nat) (value : FatValue) : SliceM Unit := do
  let raw_val : BitVec 16 := BitVec.ofNat 16 (value.encode 0xFF7 0xFFF)
  set_raw cluster raw_val.toNat

/-- The word of `cluster`, given the word of the cluster before it. -/
def next_packed (cluster : Nat) (packed_val : BitVec 16) : SliceM (BitVec 16) :=
  if cluster % 2 = 0 then read_u16
  else do
    let next_byte ← read_u8
    return (packed_val >>> 8) ||| (next_byte.setWidth 16 <<< 8)

/-- Each turn reads a byte at least, so the table ends before `turns` do. -/
def find_free_loop (end_cluster : Nat) : Nat → Nat → BitVec 16 → SliceM Nat
  | 0, _, _ => throw unexpected_eof
  | turns + 1, cluster, packed_val => do
    let val := unpack cluster packed_val
    if val = 0 then return cluster
    let cluster := cluster + 1
    if cluster = end_cluster then throw no_space
    let packed_val ← next_packed cluster packed_val
    find_free_loop end_cluster turns cluster packed_val

def find_free (start_cluster end_cluster : Nat) : SliceM Nat := do
  let fat_offset := u32 (start_cluster + start_cluster / 2)
  let _ ← seek (.Start fat_offset)
  let packed_val ← read_u16
  let s ← getThe DiskSlice
  find_free_loop end_cluster (s.size + 1) start_cluster packed_val

/-- The bytes that the entry of `cluster` adds to those of the entry before it. -/
def read_packed (cluster : Nat) : SliceM (BitVec 16) :=
  if cluster % 2 = 0 then read_u16
  else do return (← read_u8).setWidth 16

def count_free_loop : Nat → Nat → BitVec 16 → Nat → SliceM Nat
  | 0, _, _, count => pure count
  | n + 1, cluster, prev_packed_val, count => do
    let packed_val ← read_packed cluster
    let val := if cluster % 2 = 0 then packed_val &&& 0x0FFF#16 else (packed_val <<< 8) |||
      (prev_packed_val >>> 12)
    count_free_loop n (cluster + 1) packed_val (if val = 0 then count + 1 else count)

def count_free (end_cluster : Nat) : SliceM Nat := do
  let _ ← seek (.Start (RESERVED_FAT_ENTRIES * 3 / 2))
  count_free_loop (end_cluster - RESERVED_FAT_ENTRIES) RESERVED_FAT_ENTRIES 0 0

end Fat12

/-! ## FAT16 -/

namespace Fat16

def get_raw (cluster : Nat) : SliceM Nat := do
  let _ ← seek (.Start (u32 (cluster * 2)))
  return (← read_u16).toNat

def get (cluster : Nat) : SliceM FatValue := do
  let val ← get_raw cluster
  return .decode 0xFFF7 0xFFFF val

def set_raw (cluster raw_value : Nat) : SliceM Unit := do
  let _ ← seek (.Start (u32 (cluster * 2)))
  write_u16 (BitVec.ofNat 16 raw_value)

def set (cluster : Nat) (value : FatValue) : SliceM Unit := do
  let raw_value : BitVec 16 := BitVec.ofNat 16 (value.encode 0xFFF7 0xFFFF)
  set_raw cluster raw_value.toNat

def find_free (start_cluster end_cluster : Nat) : SliceM Nat := do
  let _ ← seek (.Start (u32 (start_cluster * 2)))
  find_free_loop (do return (← read_u16).toNat) (end_cluster - start_cluster) start_cluster

def count_free (end_cluster : Nat) : SliceM Nat := do
  let _ ← seek (.Start (u32 (RESERVED_FAT_ENTRIES * 2)))
  count_free_loop (do return (← read_u16).toNat) (end_cluster - RESERVED_FAT_ENTRIES) 0

end Fat16

/-! ## FAT32 -/

namespace Fat32

/-- Numbers of clusters that mean something else in an entry. -/
def special (cluster : Nat) : Bool := 0x0FFFFFF7 ≤ cluster ∧ cluster ≤ 0x0FFFFFFF

def get_raw (cluster : Nat) : SliceM (BitVec 32) := do
  let _ ← seek (.Start (u32 (cluster * 4)))
  read_u32

/-- The entry of a special cluster is never reported as free or as a link. -/
def get (cluster : Nat) : SliceM FatValue := do
  let val := ((← get_raw cluster) &&& 0x0FFFFFFF#32).toNat
  return match FatValue.decode 0x0FFFFFF7 0x0FFFFFFF val with
    | .Free => if special cluster then .Bad else .Free
    | .Data n => if special cluster then .Bad else .Data n
    | v => v

def set_raw (cluster : Nat) (raw_value : BitVec 32) : SliceM Unit := do
  let _ ← seek (.Start (u32 (cluster * 4)))
  write_u32 raw_value

def set (cluster : Nat) (value : FatValue) : SliceM Unit := do
  let old_reserved_bits := (← get_raw cluster) &&& 0xF0000000#32
  if value = .Free ∧ special cluster then throwThe Panic .special_cluster
  let raw_val : BitVec 32 := BitVec.ofNat 32 (value.encode 0x0FFFFFF7 0x0FFFFFFF)
  let raw_val := raw_val ||| old_reserved_bits
  set_raw cluster raw_val

def find_free (start_cluster end_cluster : Nat) : SliceM Nat := do
  let _ ← seek (.Start (u32 (start_cluster * 4)))
  find_free_loop (do return ((← read_u32) &&& 0x0FFFFFFF#32).toNat)
    (end_cluster - start_cluster) start_cluster

def count_free (end_cluster : Nat) : SliceM Nat := do
  let _ ← seek (.Start (u32 (RESERVED_FAT_ENTRIES * 4)))
  count_free_loop (do return ((← read_u32) &&& 0x0FFFFFFF#32).toNat)
    (end_cluster - RESERVED_FAT_ENTRIES) 0

end Fat32

/-! ## Tables of each type -/

def read_fat (fat_type : FatType) (cluster : Nat) : SliceM FatValue :=
  match fat_type with
  | .Fat12 => Fat12.get cluster
  | .Fat16 => Fat16.get cluster
  | .Fat32 => Fat32.get cluster

def write_fat (fat_type : FatType) (cluster : Nat) (value : FatValue) : SliceM Unit :=
  match fat_type with
  | .Fat12 => Fat12.set cluster value
  | .Fat16 => Fat16.set cluster value
  | .Fat32 => Fat32.set cluster value

def get_next_cluster (fat_type : FatType) (cluster : Nat) : SliceM (Option Nat) := do
  let val ← read_fat fat_type cluster
  return match val with
    | .Data n => some n
    | _ => none

def find_free_cluster (fat_type : FatType) (start_cluster end_cluster : Nat) : SliceM Nat :=
  match fat_type with
  | .Fat12 => Fat12.find_free start_cluster end_cluster
  | .Fat16 => Fat16.find_free start_cluster end_cluster
  | .Fat32 => Fat32.find_free start_cluster end_cluster

def alloc_cluster (fat_type : FatType) (prev_cluster hint : Option Nat) (total_clusters : Nat) :
    SliceM Nat := do
  let end_cluster := total_clusters + RESERVED_FAT_ENTRIES
  let start_cluster := match hint with
    | some n => if n < end_cluster then n else RESERVED_FAT_ENTRIES
    | none => RESERVED_FAT_ENTRIES
  let new_cluster ← tryCatch (find_free_cluster fat_type start_cluster end_cluster) fun e =>
    if start_cluster > RESERVED_FAT_ENTRIES then
      find_free_cluster fat_type RESERVED_FAT_ENTRIES start_cluster
    else throw e
  write_fat fat_type new_cluster .EndOfChain
  match prev_cluster with
  | some n => write_fat fat_type n (.Data new_cluster)
  | none => pure ()
  return new_cluster

def count_free_clusters (fat_type : FatType) (total_clusters : Nat) : SliceM Nat :=
  let end_cluster := total_clusters + RESERVED_FAT_ENTRIES
  match fat_type with
  | .Fat12 => Fat12.count_free end_cluster
  | .Fat16 => Fat16.count_free end_cluster
  | .Fat32 => Fat32.count_free end_cluster

end HectoOs.Fatfs
