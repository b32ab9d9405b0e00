import HectoOs.Fatfs.BootSector
import HectoOs.Fatfs.Clusters

/-! # The file system (`fatfs/src/fs.rs`)

A mounted volume: its disk, the division of the disk, and what is known of the free clusters. The
tables are accessed through a slice of the disk, the clusters directly.
-/

open HectoOs.Lib

namespace HectoOs.Fatfs

/-! ## Zeros -/

namespace DiskCursor

/-- Zeros in chunks of 512 bytes. -/
def write_zeros (len : Nat) : FatM DiskCursor Unit :=
  if _h : len = 0 then pure ()
  else do
    write_all (List.replicate (min len 512) 0#8)
    write_zeros (len - min len 512)
termination_by len

def port : FatPort DiskCursor := ⟨read_exact, write_all⟩

end DiskCursor

/-! ## The FSInfo sector -/

structure FsInfoSector where
  free_cluster_count : Option Nat
  next_free_cluster : Option Nat
  dirty : Bool
  deriving DecidableEq

namespace FsInfoSector

def LEAD_SIG : BitVec 32 := 0x41615252#32

def STRUC_SIG : BitVec 32 := 0x61417272#32

def TRAIL_SIG : BitVec 32 := 0xAA550000#32

def empty : FsInfoSector := ⟨none, none, false⟩

def deserialize {σ : Type} (rdr : FatPort σ) : FatM σ FsInfoSector := do
  let lead_sig ← rdr.read_u32
  if lead_sig ≠ LEAD_SIG then throw (other "invalid lead_sig in FsInfo sector")
  let _ ← rdr.read_exact 480
  let struc_sig ← rdr.read_u32
  if struc_sig ≠ STRUC_SIG then throw (other "invalid struc_sig in FsInfo sector")
  let n ← rdr.read_u32
  let free_cluster_count := if n = 0xFFFFFFFF#32 then none else some n.toNat
  let n ← rdr.read_u32
  let next_free_cluster := if n = 0xFFFFFFFF#32 ∨ n.toNat ≤ 1 then none else some n.toNat
  let _ ← rdr.read_exact 12
  let trail_sig ← rdr.read_u32
  if trail_sig ≠ TRAIL_SIG then throw (other "invalid trail_sig in FsInfo sector")
  return ⟨free_cluster_count, next_free_cluster, false⟩

def serialize {σ : Type} (f : FsInfoSector) (wrt : FatPort σ) : FatM σ Unit := do
  wrt.write_u32 LEAD_SIG
  wrt.write_all (List.replicate 480 0#8)
  wrt.write_u32 STRUC_SIG
  wrt.write_u32 (BitVec.ofNat 32 (f.free_cluster_count.getD 0xFFFFFFFF))
  wrt.write_u32 (BitVec.ofNat 32 (f.next_free_cluster.getD 0xFFFFFFFF))
  wrt.write_all (List.replicate 12 0#8)
  wrt.write_u32 TRAIL_SIG

def validate_and_fix (f : FsInfoSector) (total_clusters : Nat) : FsInfoSector :=
  let max_valid_cluster_number := u32 (total_clusters + RESERVED_FAT_ENTRIES)
  { f with
    free_cluster_count := f.free_cluster_count.filter fun n => n ≤ total_clusters
    next_free_cluster := f.next_free_cluster.filter fun n => n ≤ max_valid_cluster_number }

/-- `(n as i32 + free_clusters) as u32`. -/
def add_free_clusters (f : FsInfoSector) (free_clusters : Int) : FsInfoSector :=
  match f.free_cluster_count with
  | some n =>
    { f with free_cluster_count := some (((n : Int) + free_clusters) % 2 ^ 32).toNat, dirty := true }
  | none => f

def set_next_free_cluster (f : FsInfoSector) (cluster : Nat) : FsInfoSector :=
  { f with next_free_cluster := some cluster, dirty := true }

def set_free_cluster_count (f : FsInfoSector) (free_cluster_count : Nat) : FsInfoSector :=
  { f with free_cluster_count := some free_cluster_count, dirty := true }

end FsInfoSector

/-! ## The file system -/

/-- What the clock of the options returns. The default one returns the same time always. -/
structure TimeProvider where
  get_current_date : Date
  get_current_date_time : DateTime

structure FsOptions where
  update_accessed_date : Bool
  time_provider : TimeProvider

structure FileSystem where
  device : Device
  disk : Mem
  options : FsOptions
  fat_type : FatType
  bpb : BiosParameterBlock
  first_data_sector : Nat
  root_dir_sectors : Nat
  total_clusters : Nat
  fs_info : FsInfoSector
  current_status_flags : FsStatusFlags

abbrev FsM := FatM FileSystem

def or_throw {σ α : Type} : Except Error α → FatM σ α
  | .ok a => pure a
  | .error e => throw e

namespace FileSystem

/-- `FileSystem::new`, on a disk that is not seeked. -/
def new (options : FsOptions) : FatM DiskCursor FileSystem := do
  let boot ← BootSector.deserialize DiskCursor.port
  or_throw boot.validate
  let bpb := boot.bpb
  let total_clusters := bpb.total_clusters
  let fat_type := FatType.from_clusters total_clusters
  let fs_info ← if fat_type = .Fat32 then do
      DiskCursor.seek (bpb.bytes_from_sectors bpb.fs_info_sector.toNat)
      FsInfoSector.deserialize DiskCursor.port
    else pure .empty
  let fs_info :=
    if bpb.status_flags.dirty then { fs_info with free_cluster_count := none } else fs_info
  let c ← getThe DiskCursor
  return {
    device := c.device
    disk := c.disk
    options := options
    fat_type := fat_type
    bpb := bpb
    first_data_sector := bpb.first_data_sector
    root_dir_sectors := bpb.root_dir_sectors
    total_clusters := total_clusters
    fs_info := fs_info.validate_and_fix total_clusters
    current_status_flags := bpb.status_flags }

variable (fs : FileSystem)

def offset_from_sector (sector : Nat) : Nat := fs.bpb.bytes_from_sectors sector

def sector_from_cluster (cluster : Nat) : Nat :=
  u32 (fs.first_data_sector + fs.bpb.sectors_from_clusters
    (u32 (cluster + 2 ^ 32 - RESERVED_FAT_ENTRIES)))

def cluster_size : Nat := fs.bpb.cluster_size

def offset_from_cluster (cluster : Nat) : Nat :=
  fs.offset_from_sector (fs.sector_from_cluster cluster)

def bytes_from_clusters (clusters : Nat) : Nat :=
  fs.bpb.bytes_from_sectors (fs.bpb.sectors_from_clusters clusters)

def clusters_from_bytes (bytes : Nat) : Nat := fs.bpb.clusters_from_bytes bytes

/-- `FsIoAdapter`. -/
def adapter : FsIoAdapter :=
  ⟨fs.device, fs.disk, fs.fat_type, fs.bpb.reserved_1, fs.current_status_flags⟩

/-- The file system after accesses through the adapter. -/
def with_adapter (io : FsIoAdapter) : FileSystem :=
  { fs with disk := io.disk, current_status_flags := io.current_status_flags }

def fat_first_sector : Nat :=
  if fs.bpb.mirroring_enabled then fs.bpb.reserved_sectors.toNat
  else u32 (fs.bpb.reserved_sectors.toNat + u32 (fs.bpb.active_fat * fs.bpb.sectors_per_fat))

def fat_slice : DiskSlice where
  begin_ := fs.bpb.bytes_from_sectors fs.fat_first_sector
  size := fs.bpb.bytes_from_sectors fs.bpb.sectors_per_fat
  offset := 0
  mirrors := if fs.bpb.mirroring_enabled then fs.bpb.fats.toNat else 1
  inner := fs.adapter

/-- An access to the tables, through a slice of its own. -/
def on_fat {α : Type} (x : SliceM α) : FsM α :=
  fun fs => (x fs.fat_slice).map fun r => (r.1, fs.with_adapter r.2.inner)

/-- An access to the disk that starts at `pos`. -/
def on_disk {α : Type} (pos : Nat) (x : FatM DiskCursor α) : FsM α := fun fs =>
  (x ⟨fs.device, fs.disk, pos⟩).map fun r => (r.1, { fs with disk := r.2.disk })

def set_dirty_flag (dirty : Bool) : FsM Unit := fun fs =>
  (FsIoAdapter.set_dirty_flag dirty ⟨fs.adapter, 0⟩).map fun r => (r.1, fs.with_adapter r.2.io)

def update_fs_info (f : FsInfoSector → FsInfoSector) : FsM Unit :=
  modify fun fs => { fs with fs_info := f fs.fs_info }

def truncate_cluster_chain (cluster : Nat) : FsM Unit := do
  let fs ← getThe FileSystem
  let num_free ← on_fat (ClusterIterator.new fs.fat_type cluster).truncate
  update_fs_info fun i => i.add_free_clusters num_free

def free_cluster_chain (cluster : Nat) : FsM Unit := do
  let fs ← getThe FileSystem
  let num_free ← on_fat (ClusterIterator.new fs.fat_type cluster).free
  update_fs_info fun i => i.add_free_clusters num_free

def alloc_cluster (prev_cluster : Option Nat) (zero : Bool) : FsM Nat := do
  let fs ← getThe FileSystem
  let cluster ← on_fat
    (Fatfs.alloc_cluster fs.fat_type prev_cluster fs.fs_info.next_free_cluster fs.total_clusters)
  if zero then on_disk (fs.offset_from_cluster cluster) (DiskCursor.write_zeros fs.cluster_size)
  update_fs_info fun i => (i.set_next_free_cluster (cluster + 1)).add_free_clusters (-1)
  return cluster

def recalc_free_clusters : FsM Nat := do
  let fs ← getThe FileSystem
  let free_cluster_count ← on_fat (count_free_clusters fs.fat_type fs.total_clusters)
  update_fs_info fun i => i.set_free_cluster_count free_cluster_count
  return free_cluster_count

/-- The number of free clusters of `stats`. -/
def free_clusters : FsM Nat := do
  let fs ← getThe FileSystem
  match fs.fs_info.free_cluster_count with
  | some n => return n
  | none => recalc_free_clusters

def flush_fs_info : FsM Unit := do
  let fs ← getThe FileSystem
  if fs.fat_type = .Fat32 ∧ fs.fs_info.dirty then
    on_disk (fs.offset_from_sector fs.bpb.fs_info_sector.toNat)
      (fs.fs_info.serialize DiskCursor.port)
    update_fs_info fun i => { i with dirty := false }

def unmount_internal : FsM Unit := do
  flush_fs_info
  set_dirty_flag false

/-- The volume is dropped at the end, which unmounts it once more and only logs an error. -/
def unmount : FsM Unit := do
  let r ← attempt unmount_internal
  let _ ← attempt unmount_internal
  or_throw r

end FileSystem

/-! ## Entries on the disk -/

namespace DirEntryEditor

def write (e : DirEntryEditor) : FsM Unit :=
  FileSystem.on_disk e.pos (e.data.serialize DiskCursor.port)

/-- `flush`. The result is the editor afterwards. -/
def flush (e : DirEntryEditor) : FsM DirEntryEditor := do
  if e.dirty then
    e.write
    return { e with dirty := false }
  else return e

end DirEntryEditor

end HectoOs.Fatfs
