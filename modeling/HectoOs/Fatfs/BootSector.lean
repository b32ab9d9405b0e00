import HectoOs.Fatfs.DirEntry
import HectoOs.Fatfs.Table

/-! # The boot sector (`fatfs/src/boot_sector.rs`)

The BIOS parameter block says how a volume is divided: reserved sectors, copies of the table, the
root directory of FAT12 and FAT16, and clusters. Numbers of sectors and clusters are `u32`.
-/

open HectoOs.Lib

namespace HectoOs.Fatfs

def other (msg : String) : Error := ⟨.Other, msg⟩

namespace FatType

/-- Every volume is taken for a FAT32 one. -/
def from_clusters (_total_clusters : Nat) : FatType := .Fat32

end FatType

structure BiosParameterBlock where
  bytes_per_sector : BitVec 16
  sectors_per_cluster : Byte
  reserved_sectors : BitVec 16
  fats : Byte
  root_entries : BitVec 16
  total_sectors_16 : BitVec 16
  media : Byte
  sectors_per_fat_16 : BitVec 16
  sectors_per_track : BitVec 16
  heads : BitVec 16
  hidden_sectors : BitVec 32
  total_sectors_32 : BitVec 32
  sectors_per_fat_32 : BitVec 32
  extended_flags : BitVec 16
  fs_version : BitVec 16
  root_dir_first_cluster : BitVec 32
  fs_info_sector : BitVec 16
  backup_boot_sector : BitVec 16
  reserved_0 : List.Vector Byte 12
  drive_num : Byte
  reserved_1 : Byte
  ext_sig : Byte
  volume_id : BitVec 32
  volume_label : List.Vector Byte 11
  fs_type_label : List.Vector Byte 8

/-- `count_ones`. -/
def count_ones {w : Nat} (x : BitVec w) : Nat := (List.range w).countP fun i => x.getLsbD i

namespace BiosParameterBlock

variable (bpb : BiosParameterBlock)

def is_fat32 : Bool := bpb.sectors_per_fat_16 = 0#16

/-- The fields from the number of the drive on, which are only valid after the extended boot
signature. -/
def deserialize_tail {σ : Type} (rdr : FatPort σ) (bpb : BiosParameterBlock) :
    FatM σ BiosParameterBlock := do
  let drive_num ← rdr.read_u8
  let reserved_1 ← rdr.read_u8
  let ext_sig ← rdr.read_u8
  let volume_id ← rdr.read_u32
  let volume_label := fill 0#8 11 (← rdr.read_exact 11)
  let fs_type_label := fill 0#8 8 (← rdr.read_exact 8)
  let bpb := { bpb with
    drive_num := drive_num
    reserved_1 := reserved_1
    ext_sig := ext_sig
    volume_id := volume_id
    volume_label := volume_label
    fs_type_label := fs_type_label }
  if ext_sig ≠ 0x29#8 then
    return { bpb with
      volume_id := 0#32, volume_label := .replicate 11 0#8, fs_type_label := .replicate 8 0#8 }
  else return bpb

def deserialize {σ : Type} (rdr : FatPort σ) : FatM σ BiosParameterBlock := do
  let bytes_per_sector ← rdr.read_u16
  let sectors_per_cluster ← rdr.read_u8
  let reserved_sectors ← rdr.read_u16
  let fats ← rdr.read_u8
  let root_entries ← rdr.read_u16
  let total_sectors_16 ← rdr.read_u16
  let media ← rdr.read_u8
  let sectors_per_fat_16 ← rdr.read_u16
  let sectors_per_track ← rdr.read_u16
  let heads ← rdr.read_u16
  let hidden_sectors ← rdr.read_u32
  let total_sectors_32 ← rdr.read_u32
  let bpb : BiosParameterBlock :=
    ⟨bytes_per_sector, sectors_per_cluster, reserved_sectors, fats, root_entries, total_sectors_16,
    media, sectors_per_fat_16, sectors_per_track, heads, hidden_sectors,
    total_sectors_32, 0#32, 0#16, 0#16, 0#32, 0#16, 0#16,
    .replicate 12 0#8, 0#8, 0#8, 0#8, 0#32, .replicate 11 0#8, .replicate 8 0#8⟩
  if bpb.is_fat32 then
    let sectors_per_fat_32 ← rdr.read_u32
    let extended_flags ← rdr.read_u16
    let fs_version ← rdr.read_u16
    let root_dir_first_cluster ← rdr.read_u32
    let fs_info_sector ← rdr.read_u16
    let backup_boot_sector ← rdr.read_u16
    let reserved_0 := fill 0#8 12 (← rdr.read_exact 12)
    deserialize_tail rdr { bpb with
      sectors_per_fat_32 := sectors_per_fat_32
      extended_flags := extended_flags
      fs_version := fs_version
      root_dir_first_cluster := root_dir_first_cluster
      fs_info_sector := fs_info_sector
      backup_boot_sector := backup_boot_sector
      reserved_0 := reserved_0 }
  else deserialize_tail rdr bpb

/-! ## Sizes -/

def mirroring_enabled : Bool := bpb.extended_flags &&& 0x80#16 = 0#16

def active_fat : Nat := if bpb.mirroring_enabled then 0 else (bpb.extended_flags &&& 0x0F#16).toNat

def status_flags : FsStatusFlags := .decode bpb.reserved_1

def sectors_per_fat : Nat :=
  if bpb.is_fat32 then bpb.sectors_per_fat_32.toNat else bpb.sectors_per_fat_16.toNat

def total_sectors : Nat :=
  if bpb.total_sectors_16 = 0#16 then bpb.total_sectors_32.toNat else bpb.total_sectors_16.toNat

def root_dir_sectors : Nat :=
  let root_dir_bytes := bpb.root_entries.toNat * DIR_ENTRY_SIZE
  (root_dir_bytes + bpb.bytes_per_sector.toNat - 1) / bpb.bytes_per_sector.toNat

def sectors_per_all_fats : Nat := u32 (bpb.fats.toNat * bpb.sectors_per_fat)

def first_data_sector : Nat :=
  u32 (u32 (bpb.reserved_sectors.toNat + bpb.sectors_per_all_fats) + bpb.root_dir_sectors)

def total_clusters : Nat :=
  let data_sectors := u32 (bpb.total_sectors + 2 ^ 32 - bpb.first_data_sector)
  data_sectors / bpb.sectors_per_cluster.toNat

def bytes_from_sectors (sectors : Nat) : Nat := sectors * bpb.bytes_per_sector.toNat

def sectors_from_clusters (clusters : Nat) : Nat := u32 (clusters * bpb.sectors_per_cluster.toNat)

def cluster_size : Nat := bpb.sectors_per_cluster.toNat * bpb.bytes_per_sector.toNat

def clusters_from_bytes (bytes : Nat) : Nat :=
  u32 ((bytes + bpb.cluster_size - 1) / bpb.cluster_size)

/-- The checks in their order. Those that only log a warning are left out. -/
def validate : Except Error Unit := do
  if count_ones bpb.bytes_per_sector ≠ 1 then
    throw (other "invalid bytes_per_sector value in BPB (not power of two)")
  else if bpb.bytes_per_sector.toNat < 512 then
    throw (other "invalid bytes_per_sector value in BPB (value < 512)")
  else if 4096 < bpb.bytes_per_sector.toNat then
    throw (other "invalid bytes_per_sector value in BPB (value > 4096)")
  if count_ones bpb.sectors_per_cluster ≠ 1 then
    throw (other "invalid sectors_per_cluster value in BPB (not power of two)")
  else if bpb.sectors_per_cluster.toNat < 1 then
    throw (other "invalid sectors_per_cluster value in BPB (value < 1)")
  else if 128 < bpb.sectors_per_cluster.toNat then
    throw (other "invalid sectors_per_cluster value in BPB (value > 128)")
  if bpb.reserved_sectors.toNat < 1 then throw (other "invalid reserved_sectors value in BPB")
  if bpb.fats = 0#8 then throw (other "invalid fats value in BPB")
  if bpb.is_fat32 ∧ bpb.root_entries ≠ 0#16 then
    throw (other "Invalid root_entries value in BPB (should be zero for FAT32)")
  if ¬ bpb.is_fat32 ∧ bpb.root_entries = 0#16 then
    throw (other "Empty root directory region defined in FAT12/FAT16 BPB")
  if (bpb.total_sectors_16 = 0#16) = (bpb.total_sectors_32 = 0#32) then
    throw (other "Invalid BPB (total_sectors_16 or total_sectors_32 should be non-zero)")
  if bpb.is_fat32 ∧ bpb.sectors_per_fat_32 = 0#32 then
    throw (other "Invalid sectors_per_fat_32 value in BPB (should be non-zero for FAT32)")
  if bpb.fs_version ≠ 0#16 then throw (other "Unknown FS version")
  if bpb.total_sectors ≤ bpb.first_data_sector then
    throw (other "Invalid BPB (total_sectors field value is too small)")
  if bpb.is_fat32 ∧ bpb.reserved_sectors.toNat ≤ bpb.backup_boot_sector.toNat then
    throw (other "Invalid BPB (backup boot-sector not in a reserved region)")
  if bpb.is_fat32 ∧ bpb.reserved_sectors.toNat ≤ bpb.fs_info_sector.toNat then
    throw (other "Invalid BPB (FSInfo sector not in a reserved region)")
  let total_clusters := bpb.total_clusters
  let fat_type := FatType.from_clusters total_clusters
  if bpb.is_fat32 ≠ (fat_type == .Fat32) then
    throw (other "Invalid BPB (result of FAT32 determination from total number of clusters and sectors_per_fat_16 field differs)")
  if fat_type = .Fat32 ∧ 0x0FFFFFFF < total_clusters then
    throw (other "Invalid BPB (too many clusters)")

end BiosParameterBlock

structure BootSector where
  bootjmp : List.Vector Byte 3
  oem_name : List.Vector Byte 8
  bpb : BiosParameterBlock
  boot_code : List.Vector Byte 448
  boot_sig : List.Vector Byte 2

namespace BootSector

def deserialize {σ : Type} (rdr : FatPort σ) : FatM σ BootSector := do
  let bootjmp := fill 0#8 3 (← rdr.read_exact 3)
  let oem_name := fill 0#8 8 (← rdr.read_exact 8)
  let bpb ← BiosParameterBlock.deserialize rdr
  let boot_code := fill 0#8 448 (← rdr.read_exact (if bpb.is_fat32 then 420 else 448))
  let boot_sig := fill 0#8 2 (← rdr.read_exact 2)
  return ⟨bootjmp, oem_name, bpb, boot_code, boot_sig⟩

def validate (boot : BootSector) : Except Error Unit :=
  if boot.boot_sig.toList ≠ [0x55#8, 0xAA#8] then throw (other "Invalid boot sector signature")
  else boot.bpb.validate

end BootSector

end HectoOs.Fatfs
