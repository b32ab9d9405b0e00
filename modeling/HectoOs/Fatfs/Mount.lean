import HectoOs.Fatfs.BootCodec
import HectoOs.Fatfs.EntryDisk

/-! # Unmounting and mounting

Unmounting writes what was only known in memory: the free count, and that the volume is in order. A
volume that is mounted again is divided as before, and holds the same bytes.
-/

open HectoOs.Lib

namespace HectoOs.Fatfs

section Sectors

variable {m m' : Mem} {a n k : Nat}

theorem getElem?_bytesAt (m : Mem) (a : Nat) {n i : Nat} (hi : i < n) :
    (bytesAt m a n)[i]? = some (m (a + i)) := by
  have hlt : i < (bytesAt m a n).length := by rwa [length_bytesAt]
  rw [List.getElem?_eq_getElem hlt, getElem_bytesAt]

theorem byte_at_bytesAt (m : Mem) (a : Nat) (hk : k < n) :
    byte_at (bytesAt m a n) k = m (a + k) := by
  have hslice : slice (bytesAt m a n) k 1 = [m (a + k)] := by
    apply List.ext_getElem?
    intro i
    unfold slice
    cases i with
    | zero =>
      rw [List.getElem?_take, if_pos Nat.one_pos, List.getElem?_drop]
      exact getElem?_bytesAt m a hk
    | succ i => simp
  rw [byte_at, hslice]
  simp [leValue]

end Sectors

namespace FileSystem

variable (fs : FileSystem)

/-- Where the FSInfo sector is. -/
def info_offset : Nat := fs.offset_from_sector fs.bpb.fs_info_sector.toNat

end FileSystem

/-- The boot sector says what is known in memory, and so does the FSInfo sector as long as nothing
has changed. It lies behind the boot sector and in front of the tables. -/
structure Mountable (fs : FileSystem) : Prop where
  fat_type : fs.fat_type = .Fat32
  fat32 : fs.bpb.is_fat32 = true
  boot : (BootSector.decode (bytesAt fs.disk 0 512)).bpb =
    { fs.bpb with reserved_1 := fs.disk STATUS_FLAGS }
  valid : (BootSector.decode (bytesAt fs.disk 0 512)).validate = .ok ()
  first_data_sector : fs.first_data_sector = fs.bpb.first_data_sector
  total_clusters : fs.total_clusters = fs.bpb.total_clusters
  info_behind : 512 ≤ fs.info_offset
  info_before : fs.info_offset + 512 ≤ fs.fat_slice.begin_
  stamped : fs.adapter.Stamped
  recorded : fs.fs_info.dirty = false →
    ∃ info, FsInfoSector.decode (bytesAt fs.disk fs.info_offset 512) = .ok info ∧
    ((FsStatusFlags.decode fs.bpb.reserved_1).dirty = false →
      (info.validate_and_fix fs.total_clusters).free_cluster_count = fs.fs_info.free_cluster_count)

section Steps

variable {ι : Type} {fs fs' : FileSystem} {chains : ι → List Nat} {free : Nat}

theorem Mountable.flags_offset (hm : Mountable fs) : fs.adapter.flags_offset = STATUS_FLAGS :=
  if_pos hm.fat_type

/-- A volume whose boot sector is the same but for the flags is still mountable. -/
theorem Mountable.same (hm : Mountable fs) (hsame : SameVolume fs fs')
    (hboot : ∀ x, x < 512 → x ≠ STATUS_FLAGS → fs'.disk x = fs.disk x)
    (hs : fs'.adapter.Stamped) (hr : fs'.fs_info.dirty = false →
    ∃ info, FsInfoSector.decode (bytesAt fs'.disk fs.info_offset 512) = .ok info ∧
      ((FsStatusFlags.decode fs.bpb.reserved_1).dirty = false →
        (info.validate_and_fix fs.total_clusters).free_cluster_count =
          fs'.fs_info.free_cluster_count)) : Mountable fs' := by
  have hoffset : fs'.info_offset = fs.info_offset := by
    rw [FileSystem.info_offset, FileSystem.info_offset, FileSystem.offset_from_sector,
      FileSystem.offset_from_sector, hsame.bpb]
  have h32 : (BootSector.decode (bytesAt fs.disk 0 512)).bpb.is_fat32 = true := by
    rw [hm.boot]
    exact hm.fat32
  have hdecode := @decode_with_flags _ (bytesAt fs'.disk 0 512) h32 fun i hi => ?_
  rotate_left
  · by_cases hlt : i < 512
    · rw [getElem?_bytesAt _ _ hlt, getElem?_bytesAt _ _ hlt, Nat.zero_add, hboot i hlt hi]
    · rw [List.getElem?_eq_none (by simpa using hlt), List.getElem?_eq_none (by simpa using hlt)]
  have hflags : byte_at (bytesAt fs'.disk 0 512) STATUS_FLAGS = fs'.disk STATUS_FLAGS :=
    (byte_at_bytesAt fs'.disk 0 (by decide)).trans (by rw [Nat.zero_add])
  rw [hflags] at hdecode
  refine ⟨hsame.fat_type.trans hm.fat_type, hsame.bpb ▸ hm.fat32, ?_, ?_, ?_, ?_, ?_, ?_, hs, ?_⟩
  · rw [hdecode, hsame.bpb, BootSector.with_flags, hm.boot]
  · rw [hdecode, validate_with_flags]
    exact hm.valid
  · rw [hsame.first_data_sector, hsame.bpb]
    exact hm.first_data_sector
  · rw [hsame.total_clusters, hsame.bpb]
    exact hm.total_clusters
  · rw [hoffset]
    exact hm.info_behind
  · rw [hoffset, hsame.begin_]
    exact hm.info_before
  · rw [hoffset, hsame.bpb, hsame.total_clusters]
    exact hr

theorem Mountable.below (hm : Mountable fs) (hsame : SameVolume fs fs') (hb : Below fs fs') :
    Mountable fs' := by
  have hbehind := hm.info_behind
  have hbefore := hm.info_before
  have hflags := hm.flags_offset
  refine hm.same hsame (fun x hx hne => hb.reserved x (hflags ▸ hne) (by omega))
    (hb.stamped hm.stamped) fun hd => ?_
  obtain ⟨hd', hcount⟩ := hb.marked hd
  have hsector : bytesAt fs'.disk fs.info_offset 512 = bytesAt fs.disk fs.info_offset 512 := by
    refine bytesAt_same fun x hlo hhi => hb.reserved x ?_ (by omega)
    rw [hflags]
    unfold STATUS_FLAGS
    omega
  rw [hsector, hcount]
  exact hm.recorded hd'

/-! ## Unmounting -/

/-- What a mount finds on the disk. -/
def mounted (d : Device) (m : Mem) (options : FsOptions) (bpb : BiosParameterBlock)
    (info : FsInfoSector) : FileSystem where
  device := d
  disk := m
  options := options
  fat_type := .Fat32
  bpb := bpb
  first_data_sector := bpb.first_data_sector
  root_dir_sectors := bpb.root_dir_sectors
  total_clusters := bpb.total_clusters
  fs_info := (if bpb.status_flags.dirty then { info with
    free_cluster_count := none } else info).validate_and_fix bpb.total_clusters
  current_status_flags := bpb.status_flags

/-- The volume with other status flags, and another idea of what is free. -/
def reflagged (fs : FileSystem) (flags : Byte) (root_dir_sectors : Nat)
    (info : FsInfoSector) : FileSystem :=
  { fs with
    bpb := { fs.bpb with reserved_1 := flags }
    root_dir_sectors := root_dir_sectors
    fs_info := info
    current_status_flags := .decode flags }

theorem Volume.reflagged (h : Volume fs chains free) (flags : Byte) (n : Nat)
    {info : FsInfoSector} (hcounted : ∀ n ∈ info.free_cluster_count, n = free)
    (hhint : ∀ n ∈ info.next_free_cluster, RESERVED_FAT_ENTRIES ≤ n) :
    Volume (reflagged fs flags n info) chains free := by
  have hg := h.geometry
  have hclusters : (Fatfs.reflagged fs flags n info).clusters = fs.clusters := rfl
  refine ⟨⟨⟨⟨hg.serves, hg.covers.valid.behind, hg.covers.valid.copies⟩,
    hg.covers.fits, hg.covers.below⟩, hg.clusters, hg.cluster_size,
    hg.fat_before_data, hg.placed⟩, fun i hi k hk => h.mirrored i hi k hk, ?_, ?_, hcounted, hhint⟩
  · rw [hclusters]
    exact h.partition
  · rw [hclusters]
    exact h.free_count

/-- What a mount makes of the FSInfo sector of a volume with these flags. -/
def trusted (flags : Byte) (info : FsInfoSector) (total_clusters : Nat) : FsInfoSector :=
  (if (FsStatusFlags.decode flags).dirty then { info with
    free_cluster_count := none } else info).validate_and_fix total_clusters

theorem mounted_eq (hm : Mountable fs) (info : FsInfoSector) :
    mounted fs.device fs.disk fs.options { fs.bpb with reserved_1 := fs.disk STATUS_FLAGS } info =
      reflagged fs (fs.disk STATUS_FLAGS) fs.bpb.root_dir_sectors
        (trusted (fs.disk STATUS_FLAGS) info fs.total_clusters) := by
  unfold mounted reflagged trusted
  rw [hm.fat_type, hm.first_data_sector, hm.total_clusters]
  rfl

end Steps

end HectoOs.Fatfs
