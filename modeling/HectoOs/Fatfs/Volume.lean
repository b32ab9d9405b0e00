import HectoOs.Fatfs.FileSystem

/-! # Volumes

A volume is divided into reserved sectors, the copies of the table, and the clusters. What an
operation does to one of the parts leaves the others alone. The number of free clusters is known
exactly, if it is known at all.
-/

open HectoOs.Lib

namespace HectoOs.Fatfs

/-! ## The parts of a volume -/

namespace FileSystem

variable (fs : FileSystem)

/-- The first byte of the first cluster. -/
def data_start : Nat := fs.bpb.bytes_from_sectors fs.first_data_sector

/-- The first byte behind the copies of the table. -/
def fat_end : Nat := fs.fat_slice.begin_ + fs.fat_slice.mirrors * fs.fat_slice.size

/-- The number behind the one of the last cluster. -/
def stop : Nat := fs.total_clusters + RESERVED_FAT_ENTRIES

def clusters : Nat → FatValue := Fatfs.clusters fs.fat_type fs.stop fs.fat_slice

def cluster_bytes (c : Nat) : List Byte :=
  bytesAt fs.disk (fs.offset_from_cluster c) fs.cluster_size

/-- What the clusters of `l` hold. -/
def chain_bytes (l : List Nat) : List Byte := l.flatMap fs.cluster_bytes

end FileSystem

/-- The parts are apart from each other, and the table has an entry for each cluster. -/
structure Geometry (fs : FileSystem) : Prop where
  covers : Covers fs.fat_type fs.stop fs.fat_slice
  clusters : 0 < fs.total_clusters
  cluster_size : 0 < fs.cluster_size
  fat_before_data : fs.fat_end ≤ fs.data_start
  placed : ∀ c, InRange fs.stop c →
    fs.offset_from_cluster c = fs.data_start + (c - RESERVED_FAT_ENTRIES) * fs.cluster_size

/-- What no operation changes. -/
structure SameVolume (fs fs' : FileSystem) : Prop where
  device : fs'.device = fs.device
  options : fs'.options = fs.options
  fat_type : fs'.fat_type = fs.fat_type
  bpb : fs'.bpb = fs.bpb
  first_data_sector : fs'.first_data_sector = fs.first_data_sector
  total_clusters : fs'.total_clusters = fs.total_clusters

namespace SameVolume

variable {fs fs' fs'' : FileSystem}

theorem refl (fs : FileSystem) : SameVolume fs fs := ⟨rfl, rfl, rfl, rfl, rfl, rfl⟩

theorem trans (h : SameVolume fs fs') (h' : SameVolume fs' fs'') : SameVolume fs fs'' :=
  ⟨h'.device.trans h.device, h'.options.trans h.options, h'.fat_type.trans h.fat_type,
    h'.bpb.trans h.bpb,
    h'.first_data_sector.trans h.first_data_sector, h'.total_clusters.trans h.total_clusters⟩

theorem with_info (h : SameVolume fs fs') (info : FsInfoSector) :
    SameVolume fs { fs' with fs_info := info } :=
  ⟨h.device, h.options, h.fat_type, h.bpb, h.first_data_sector, h.total_clusters⟩

theorem with_disk (h : SameVolume fs fs') (disk : Mem) : SameVolume fs { fs' with disk := disk } :=
  ⟨h.device, h.options, h.fat_type, h.bpb, h.first_data_sector, h.total_clusters⟩

theorem cluster_size (h : SameVolume fs fs') : fs'.cluster_size = fs.cluster_size := by
  rw [FileSystem.cluster_size, FileSystem.cluster_size, h.bpb]

theorem data_start (h : SameVolume fs fs') : fs'.data_start = fs.data_start := by
  rw [FileSystem.data_start, FileSystem.data_start, h.bpb, h.first_data_sector]

theorem stop (h : SameVolume fs fs') : fs'.stop = fs.stop := by
  rw [FileSystem.stop, FileSystem.stop, h.total_clusters]

theorem offset_from_cluster (h : SameVolume fs fs') (c : Nat) :
    fs'.offset_from_cluster c = fs.offset_from_cluster c := by
  simp only [FileSystem.offset_from_cluster, FileSystem.offset_from_sector,
    FileSystem.sector_from_cluster, h.bpb,
    h.first_data_sector]

theorem begin_ (h : SameVolume fs fs') : fs'.fat_slice.begin_ = fs.fat_slice.begin_ := by
  simp only [FileSystem.fat_slice, FileSystem.fat_first_sector, h.bpb]

theorem size (h : SameVolume fs fs') : fs'.fat_slice.size = fs.fat_slice.size := by
  simp only [FileSystem.fat_slice, h.bpb]

theorem mirrors (h : SameVolume fs fs') : fs'.fat_slice.mirrors = fs.fat_slice.mirrors := by
  simp only [FileSystem.fat_slice, h.bpb]

theorem fat_device (h : SameVolume fs fs') :
    fs'.fat_slice.inner.device = fs.fat_slice.inner.device := h.device

theorem fat_end (h : SameVolume fs fs') : fs'.fat_end = fs.fat_end := by
  rw [FileSystem.fat_end, FileSystem.fat_end, h.begin_, h.size, h.mirrors]

theorem geometry (h : SameVolume fs fs') (hg : Geometry fs) : Geometry fs' := by
  obtain ⟨⟨⟨hserves, hbehind, hcopies⟩, hfits, hbelow⟩, hclusters, hsize, hbefore, hplaced⟩ := hg
  refine ⟨⟨⟨?_, ?_, ?_⟩, ?_, ?_⟩, ?_, ?_, ?_, fun c hc => ?_⟩
  · rwa [h.fat_device]
  · rwa [h.begin_]
  · rwa [h.mirrors]
  · rwa [h.fat_type, h.size, h.stop]
  · rwa [h.fat_type, h.stop]
  · rwa [h.total_clusters]
  · rwa [h.cluster_size]
  · rwa [h.fat_end, h.data_start]
  · rw [h.stop] at hc
    rw [h.offset_from_cluster, h.data_start, h.cluster_size]
    exact hplaced c hc

end SameVolume

section Parts

variable {fs fs' : FileSystem} {c d x : Nat} {l : List Nat}

theorem Geometry.apart (hg : Geometry fs) (hc : InRange fs.stop c) (hd : InRange fs.stop d)
    (hcd : c < d) :
    fs.offset_from_cluster c + fs.cluster_size ≤ fs.offset_from_cluster d := by
  have hc2 := hc.1
  have hle : (c - RESERVED_FAT_ENTRIES + 1) * fs.cluster_size ≤
    (d - RESERVED_FAT_ENTRIES) * fs.cluster_size :=
    Nat.mul_le_mul_right _ (by omega)
  rw [Nat.succ_mul] at hle
  rw [hg.placed c hc, hg.placed d hd]
  omega

theorem Geometry.data_le (hg : Geometry fs) (hc : InRange fs.stop c) :
    fs.data_start ≤ fs.offset_from_cluster c := by
  rw [hg.placed c hc]
  exact Nat.le_add_right _ _

theorem Geometry.flags_before (hg : Geometry fs) : 0x42 ≤ fs.fat_slice.begin_ :=
  hg.covers.valid.behind

theorem Geometry.flags_lt (hg : Geometry fs) : fs.adapter.flags_offset < fs.fat_slice.begin_ :=
  lt_of_lt_of_le fs.adapter.flags_offset_lt hg.flags_before

theorem Geometry.serves (hg : Geometry fs) : fs.device.Serves := hg.covers.valid.serves

theorem Geometry.begin_le_data (hg : Geometry fs) : fs.fat_slice.begin_ ≤ fs.data_start :=
  le_trans (Nat.le_add_right _ _) hg.fat_before_data

theorem cluster_bytes_same (h : SameVolume fs fs') (hs : ∀ x, fs.offset_from_cluster c ≤ x →
    x < fs.offset_from_cluster c + fs.cluster_size → fs'.disk x = fs.disk x) :
    fs'.cluster_bytes c = fs.cluster_bytes c := by
  rw [FileSystem.cluster_bytes, FileSystem.cluster_bytes, h.offset_from_cluster, h.cluster_size]
  exact bytesAt_same hs

theorem cluster_bytes_written (h : SameVolume fs fs') {m : Mem} {b : List Byte}
    (hb : b.length = fs.cluster_size) (hd : fs'.disk = writeBytes m (fs.offset_from_cluster c) b) :
    fs'.cluster_bytes c = b := by
  rw [FileSystem.cluster_bytes, hd, h.offset_from_cluster, h.cluster_size, ← hb, bytesAt_writeBytes]

theorem chain_bytes_same (h : ∀ c ∈ l, fs'.cluster_bytes c = fs.cluster_bytes c) :
    fs'.chain_bytes l = fs.chain_bytes l := by
  unfold FileSystem.chain_bytes
  induction l with
  | nil => rfl
  | cons c l ih =>
    rw [List.flatMap_cons, List.flatMap_cons, h c List.mem_cons_self,
      ih fun d hd => h d (List.mem_cons_of_mem c hd)]

@[simp] theorem length_cluster_bytes (fs : FileSystem) (c : Nat) :
    (fs.cluster_bytes c).length = fs.cluster_size :=
  length_bytesAt _ _ _

@[simp] theorem length_chain_bytes (fs : FileSystem) (l : List Nat) :
    (fs.chain_bytes l).length = l.length * fs.cluster_size := by
  induction l with
  | nil => simp [FileSystem.chain_bytes]
  | cons c l ih =>
    rw [FileSystem.chain_bytes] at ih ⊢
    rw [List.flatMap_cons, List.length_append, ih, length_cluster_bytes,
      List.length_cons, Nat.succ_mul, Nat.add_comm]

theorem clusters_same (h : SameVolume fs fs') (hg : Geometry fs)
    (hs : ∀ x, fs.fat_slice.begin_ ≤ x → x < fs.fat_end → fs'.disk x = fs.disk x) :
    fs'.clusters = fs.clusters := by
  have htable : SameOn fs.fat_slice.table fs'.fat_slice.table 0 fs.fat_slice.size := by
    intro k _ hk
    unfold DiskSlice.table
    rw [h.begin_]
    refine hs _ (Nat.le_add_right _ _) ?_
    have hone : 1 * fs.fat_slice.size ≤ fs.fat_slice.mirrors * fs.fat_slice.size :=
      Nat.mul_le_mul_right _ hg.covers.valid.copies
    rw [FileSystem.fat_end]
    omega
  funext c
  rw [FileSystem.clusters, FileSystem.clusters, h.stop, h.fat_type]
  by_cases hc : InRange fs.stop c
  · rw [clusters_of_inRange hc, clusters_of_inRange hc]
    exact value_same htable (hg.covers.fits_of_lt hc.2)
  · unfold Fatfs.clusters
    unfold InRange at hc
    rw [if_neg hc, if_neg hc]

theorem mirrored_same (h : SameVolume fs fs') (hg : Geometry fs)
    (hs : ∀ x, fs.fat_slice.begin_ ≤ x → x < fs.fat_end → fs'.disk x = fs.disk x)
    (hm : fs.fat_slice.Mirrored) :
    fs'.fat_slice.Mirrored := by
  have hcopies := hg.covers.valid.copies
  intro i hi k hk
  rw [h.mirrors] at hi
  rw [h.size] at hk
  have hend : ∀ j, j < fs.fat_slice.mirrors →
    fs.fat_slice.begin_ + j * fs.fat_slice.size + k < fs.fat_end := by
    intro j hj
    have hle : (j + 1) * fs.fat_slice.size ≤ fs.fat_slice.mirrors * fs.fat_slice.size :=
      Nat.mul_le_mul_right _ hj
    rw [Nat.succ_mul] at hle
    rw [FileSystem.fat_end]
    omega
  have h0 := hend 0 hcopies
  rw [Nat.zero_mul, Nat.add_zero] at h0
  have hold := hm i hi k hk
  unfold DiskSlice.table at hold ⊢
  rw [h.begin_, h.size]
  show fs'.disk _ = fs'.disk _
  rw [hs _ (by omega) (hend i hi), hs _ (by omega) h0]
  exact hold

end Parts

/-! ## Sound volumes -/

/-- The clusters of the volume are divided among the chains, with `free` of them left. -/
structure Volume {ι : Type} (fs : FileSystem) (chains : ι → List Nat) (free : Nat) : Prop where
  geometry : Geometry fs
  mirrored : fs.fat_slice.Mirrored
  partition : Partition fs.clusters fs.stop chains
  free_count : free_count fs.clusters fs.stop = free
  counted : ∀ n ∈ fs.fs_info.free_cluster_count, n = free
  hint : ∀ n ∈ fs.fs_info.next_free_cluster, RESERVED_FAT_ENTRIES ≤ n

/-- What no operation does in front of the tables: only the flags change there, and they are the
ones kept in memory. A free count that changes is marked. -/
structure Below (fs fs' : FileSystem) : Prop where
  reserved : ∀ x, x ≠ fs.adapter.flags_offset → x < fs.fat_slice.begin_ → fs'.disk x = fs.disk x
  stamped : fs.adapter.Stamped → fs'.adapter.Stamped
  marked : fs'.fs_info.dirty = false →
    fs.fs_info.dirty = false ∧ fs'.fs_info.free_cluster_count = fs.fs_info.free_cluster_count

namespace Below

variable {fs fs' fs'' : FileSystem}

theorem refl (fs : FileSystem) : Below fs fs := ⟨fun _ _ _ => rfl, id, fun h => ⟨h, rfl⟩⟩

theorem trans (h : Below fs fs') (hsame : SameVolume fs fs') (h' : Below fs' fs'') :
    Below fs fs'' := by
  have hflags : fs'.adapter.flags_offset = fs.adapter.flags_offset :=
    fs.adapter.flags_offset_congr hsame.fat_type
  refine ⟨fun x hx hlt => ?_, fun hs => h'.stamped (h.stamped hs), fun hd => ?_⟩
  · rw [h'.reserved x (hflags ▸ hx) (by rwa [hsame.begin_]), h.reserved x hx hlt]
  · obtain ⟨hd', hcount⟩ := h'.marked hd
    obtain ⟨hd'', hcount'⟩ := h.marked hd'
    exact ⟨hd'', hcount.trans hcount'⟩

end Below

/-- What an access to the tables leaves alone. -/
structure TableOnly (fs fs' : FileSystem) : Prop where
  same : SameVolume fs fs'
  fs_info : fs'.fs_info = fs.fs_info
  mirrored : fs.fat_slice.Mirrored → fs'.fat_slice.Mirrored
  stamped : fs.adapter.Stamped → fs'.adapter.Stamped
  outside : ∀ x, x ≠ fs.adapter.flags_offset → x < fs.fat_slice.begin_ ∨
    fs.fat_end ≤ x → fs'.disk x = fs.disk x

theorem TableOnly.below {fs fs' : FileSystem} (h : TableOnly fs fs')
    {info : FsInfoSector} (hm : info.dirty = false → fs.fs_info.dirty = false ∧
    info.free_cluster_count = fs.fs_info.free_cluster_count) :
    Below fs { fs' with fs_info := info } :=
  ⟨fun x hx hlt => h.outside x hx (.inl hlt), h.stamped, hm⟩

section Accesses

variable {ι α : Type} {fs fs' : FileSystem} {chains : ι → List Nat} {free c : Nat}
  {x : SliceM α} {r : Except Error α} {s' : DiskSlice}

theorem on_fat_spec (hx : x fs.fat_slice = .ok (r, s')) (hk : DiskSlice.Kept fs.fat_slice s') :
    ∃ fs', FileSystem.on_fat x fs = .ok (r, fs') ∧
    TableOnly fs fs' ∧ fs'.clusters = Fatfs.clusters fs.fat_type fs.stop s' := by
  have hinner : (fs.with_adapter s'.inner).adapter = s'.inner := by
    unfold FileSystem.adapter FileSystem.with_adapter
    rw [← show s'.inner.device = fs.device from hk.device,
      ← show s'.inner.fat_type = fs.fat_type from hk.fat_type,
      ← show s'.inner.reserved_1 = fs.bpb.reserved_1 from hk.reserved_1]
  have hslice : (fs.with_adapter s'.inner).fat_slice = { s' with offset := 0 } := by
    obtain ⟨b, n, o, m, io⟩ := s'
    obtain ⟨hb, hn, hm, _⟩ := hk
    simp only at hb hn hm hinner ⊢
    rw [hb, hn, hm, ← hinner]
    rfl
  refine ⟨fs.with_adapter s'.inner, ?_,
    ⟨⟨rfl, rfl, rfl, rfl, rfl, rfl⟩, rfl, fun hm => ?_, fun hs => ?_, hk.outside⟩, ?_⟩
  · rw [FileSystem.on_fat, hx]
    rfl
  · rw [hslice]
    exact hk.mirrored hm
  · rw [hinner]
    exact hk.stamped hs
  · rw [FileSystem.clusters, hslice]
    exact clusters_moved 0

theorem on_fat_reads {o : Nat} (h : x fs.fat_slice = .ok (r, { fs.fat_slice with offset := o })) :
    FileSystem.on_fat x fs = .ok (r, fs) := by
  rw [FileSystem.on_fat, h]
  rfl

theorem free_count_le (f : Nat → FatValue) (n : Nat) :
    Fatfs.free_count f (n + RESERVED_FAT_ENTRIES) ≤ n := by
  refine le_trans List.countP_le_length ?_
  rw [List.length_range', Nat.add_sub_cancel]

theorem Geometry.free_count_lt (h : Geometry fs) (f : Nat → FatValue) :
    Fatfs.free_count f fs.stop < 2 ^ 28 := by
  have hle : Fatfs.free_count f fs.stop ≤ fs.total_clusters := free_count_le f fs.total_clusters
  have hbelow := h.covers.below
  have hbad : bad_value fs.fat_type ≤ 0x0FFFFFF7 := by
    cases fs.fat_type <;> decide
  simp only [FileSystem.stop, RESERVED_FAT_ENTRIES] at hbelow hle ⊢
  omega

theorem Volume.free_lt (h : Volume fs chains free) : free < 2 ^ 28 := by
  rw [← h.free_count]
  exact h.geometry.free_count_lt fs.clusters

theorem Volume.same (h : Volume fs chains free)
    (hsame : SameVolume fs fs') (hinfo : fs'.fs_info = fs.fs_info)
    (hs : ∀ x, fs.fat_slice.begin_ ≤ x → x < fs.fat_end → fs'.disk x = fs.disk x) :
    Volume fs' chains free := by
  have hclusters := clusters_same hsame h.geometry hs
  refine ⟨hsame.geometry h.geometry, mirrored_same hsame h.geometry hs h.mirrored, ?_, ?_, ?_, ?_⟩
  · rw [hclusters, hsame.stop]
    exact h.partition
  · rw [hclusters, hsame.stop]
    exact h.free_count
  · rw [hinfo]
    exact h.counted
  · rw [hinfo]
    exact h.hint

theorem set_dirty_flag_spec (h : Volume fs chains free) (dirty : Bool) :
    ∃ fs', FileSystem.set_dirty_flag dirty fs = .ok (.ok (), fs') ∧
    Volume fs' chains free ∧ SameVolume fs fs' ∧ Below fs fs' ∧
    fs'.current_status_flags = fs.adapter.flags_with dirty ∧ fs'.fs_info = fs.fs_info ∧
    ∀ x, x ≠ fs.adapter.flags_offset → fs'.disk x = fs.disk x := by
  obtain ⟨pos, hset⟩ := fs.adapter.set_dirty_flag_spec h.geometry.serves dirty 0
  have hdisk : ∀ x, x ≠ fs.adapter.flags_offset →
    (fs.with_adapter (fs.adapter.with_dirty_flag dirty)).disk x = fs.disk x :=
    fun x hx => FsIoAdapter.with_dirty_flag_disk fs.adapter dirty hx
  have hinner : (fs.with_adapter (fs.adapter.with_dirty_flag dirty)).adapter =
    fs.adapter.with_dirty_flag dirty := by
    unfold FsIoAdapter.with_dirty_flag
    split <;> rfl
  have hsame : SameVolume fs (fs.with_adapter (fs.adapter.with_dirty_flag dirty)) :=
    ⟨rfl, rfl, rfl, rfl, rfl, rfl⟩
  have hflags := h.geometry.flags_lt
  have hbelow : Below fs (fs.with_adapter (fs.adapter.with_dirty_flag dirty)) := by
    refine ⟨fun x hx _ => hdisk x hx, fun hs => ?_, fun hd => ⟨hd, rfl⟩⟩
    rw [hinner]
    exact hs.with_dirty_flag dirty
  refine ⟨_, ?_, h.same hsame rfl fun x hx _ => hdisk x (by omega), hsame, hbelow,
    fs.adapter.with_dirty_flag_current dirty, rfl, hdisk⟩
  rw [FileSystem.set_dirty_flag, hset]
  rfl

end Accesses

/-! ## Allocating and freeing -/

section Chains

variable {ι : Type} {fs fs' : FileSystem} {chains : ι → List Nat} {free c n : Nat}
  {prev : Option Nat} {zero : Bool} {i : ι} {l r : List Nat}

theorem add_free_clusters_counted {f : FsInfoSector} {k : Int}
    (h : ∀ n ∈ f.free_cluster_count, n = free) (hfree : (free : Int) + k = n) (hn : n < 2 ^ 28) :
    ∀ m ∈ (f.add_free_clusters k).free_cluster_count, m = n := by
  intro m hm
  unfold FsInfoSector.add_free_clusters at hm
  cases hcount : f.free_cluster_count with
  | none =>
    rw [hcount] at hm
    simp only [hcount] at hm
    cases hm
  | some old =>
    obtain rfl := h old hcount
    rw [hcount] at hm
    simp only [Option.mem_def, Option.some.injEq, hfree] at hm
    rw [← hm, Int.emod_eq_of_lt (by omega) (by omega)]
    rfl

@[simp] theorem add_free_clusters_hint (info : FsInfoSector) (k : Int) :
    (info.add_free_clusters k).next_free_cluster = info.next_free_cluster := by
  unfold FsInfoSector.add_free_clusters
  split <;> rfl

theorem add_free_clusters_marked {f : FsInfoSector} {k : Int}
    (h : (f.add_free_clusters k).dirty = false) :
    f.dirty = false ∧ (f.add_free_clusters k).free_cluster_count = f.free_cluster_count := by
  unfold FsInfoSector.add_free_clusters at h ⊢
  cases hcount : f.free_cluster_count with
  | none =>
    simp only [hcount] at h
    exact ⟨h, hcount⟩
  | some n =>
    simp only [hcount] at h
    cases h

theorem write_zeros_spec (len : Nat) (d : DiskCursor) (hs : d.device.Serves) :
    DiskCursor.write_zeros len d =
    .ok (.ok (), ⟨d.device, writeBytes d.disk d.pos (List.replicate len 0#8), d.pos + len⟩) := by
  induction len using Nat.strongRecOn generalizing d with
  | ind len ih =>
    unfold DiskCursor.write_zeros
    split
    · subst len
      rw [List.replicate_zero, writeBytes_nil]
      rfl
    · have hchunk : List.replicate (min len 512) (0#8 : Byte) ++
        List.replicate (len - min len 512) 0#8 = List.replicate len 0#8 := by
        rw [List.replicate_append_replicate]
        congr 1
        omega
      have hone : DiskCursor.write_all (List.replicate (min len 512) 0#8) d =
          .ok (.ok (), ⟨d.device, writeBytes d.disk d.pos (List.replicate (min len 512) 0#8),
            d.pos + min len 512⟩) := by
        rw [DiskCursor.write_all_spec hs, List.length_replicate]
      have happ := writeBytes_append d.disk d.pos (List.replicate (min len 512) (0#8 : Byte))
        (List.replicate (len - min len 512) 0#8)
      rw [List.length_replicate, hchunk] at happ
      rw [bind_of_ok hone, ih (len - min len 512) (by omega) _ (by exact hs)]
      simp only [happ]
      congr 3
      omega

theorem alloc_free_count (h : Volume fs chains free) (hr : InRange fs.stop c)
    (hc : fs.clusters c = .Free) :
    Fatfs.free_count (append fs.clusters (chains i) c) fs.stop + 1 = free := by
  have htake : Fatfs.free_count (Function.update fs.clusters c .EndOfChain) fs.stop + 1 = free := by
    rw [free_count_take hr hc (by simp), h.free_count]
  unfold append put
  cases hlast : (chains i).getLast? with
  | none => exact htake
  | some p =>
    have hp : p ∈ chains i := List.mem_of_getLast? hlast
    have hne : p ≠ c := by
      rintro rfl
      exact h.partition.not_mem_of_free hc i hp
    have hused : Function.update fs.clusters c .EndOfChain p ≠ .Free := by
      rw [Function.update_of_ne hne]
      exact (h.partition.links i).not_free hp
    show Fatfs.free_count (Function.update (Function.update fs.clusters c .EndOfChain) p (.Data c))
      fs.stop + 1 = free
    rw [free_count_used hused (by simp), htake]

theorem free_count_pos (f : Nat → FatValue) (stop : Nat) (h : 0 < Fatfs.free_count f stop) :
    ∃ c, InRange stop c ∧ f c = .Free := by
  rw [free_count_eq_card] at h
  obtain ⟨c, hc⟩ := Finset.card_pos.mp h
  rw [Finset.mem_filter, Finset.mem_Ico] at hc
  exact ⟨c, hc⟩

theorem free_count_zero (f : Nat → FatValue) (stop : Nat) (h : Fatfs.free_count f stop = 0)
    (hc : InRange stop c) : f c ≠ .Free := by
  rw [free_count_eq_card, Finset.card_eq_zero] at h
  intro hf
  have : c ∈ ({c ∈ Finset.Ico RESERVED_FAT_ENTRIES stop | f c = .Free} : Finset Nat) :=
    Finset.mem_filter.mpr ⟨Finset.mem_Ico.mpr hc, hf⟩
  rw [h] at this
  exact absurd this (Finset.notMem_empty c)

theorem alloc_on_fat (h : Volume fs chains free) (hprev : prev = (chains i).getLast?) :
    (free = 0 → FileSystem.on_fat
      (Fatfs.alloc_cluster fs.fat_type prev fs.fs_info.next_free_cluster fs.total_clusters) fs =
      .ok (.error no_space, fs)) ∧
    (0 < free → ∃ c fs', FileSystem.on_fat
      (Fatfs.alloc_cluster fs.fat_type prev fs.fs_info.next_free_cluster fs.total_clusters) fs =
      .ok (.ok c, fs') ∧ TableOnly fs fs' ∧ InRange fs.stop c ∧ fs.clusters c = .Free ∧
      fs'.clusters = append fs.clusters (chains i) c) := by
  have h2 : RESERVED_FAT_ENTRIES < fs.stop := Nat.lt_add_of_pos_left h.geometry.clusters
  have hr : ∀ p ∈ prev, InRange fs.stop p := by
    rintro p hp
    rw [hprev] at hp
    exact h.partition.inRange i p (List.mem_of_getLast? hp)
  have hspec := alloc_cluster_spec (show Covers fs.fat_type
    (fs.total_clusters + RESERVED_FAT_ENTRIES) fs.fat_slice from h.geometry.covers)
    h.geometry.clusters h.hint hr
  constructor
  · rintro rfl
    have hnone := (choose_eq_none (f := fs.clusters) h2 h.hint).mpr fun c hc =>
      free_count_zero _ _ h.free_count hc
    unfold FileSystem.clusters FileSystem.stop at hnone
    rw [hnone] at hspec
    obtain ⟨o, ho⟩ := hspec
    rw [FileSystem.on_fat, ho]
    rfl
  · intro hpos
    obtain ⟨d, hd, hfree⟩ := free_count_pos fs.clusters fs.stop (h.free_count ▸ hpos)
    cases hchoose : choose fs.clusters fs.fs_info.next_free_cluster fs.stop with
    | none => exact absurd hfree ((choose_eq_none h2 h.hint).mp hchoose d hd)
    | some c =>
      obtain ⟨hc, hrange⟩ := choose_eq_some h2 h.hint hchoose
      unfold FileSystem.clusters FileSystem.stop at hchoose
      rw [hchoose] at hspec
      obtain ⟨s', hs', hk, hput⟩ := hspec
      obtain ⟨fs', hon, htable, hclusters⟩ := on_fat_spec hs' hk
      refine ⟨c, fs', hon, htable, hrange, hc, ?_⟩
      rw [hclusters, append, ← hprev]
      exact hput

theorem Volume.table (h : Volume fs chains free) {chains' : ι → List Nat}
    (ht : TableOnly fs fs') (hpart : Partition fs'.clusters fs.stop chains')
    (hcount : Fatfs.free_count fs'.clusters fs.stop = n)
    {info : FsInfoSector} (hcounted : ∀ m ∈ info.free_cluster_count, m = n)
    (hhint : ∀ m ∈ info.next_free_cluster, RESERVED_FAT_ENTRIES ≤ m) :
    Volume { fs' with fs_info := info } chains' n := by
  refine ⟨(ht.same.with_info info).geometry h.geometry, ht.mirrored h.mirrored,
    ?_, ?_, hcounted, hhint⟩
  · rw [← ht.same.stop] at hpart
    exact hpart
  · rw [← ht.same.stop] at hcount
    exact hcount

theorem data_write_same (hg : Geometry fs) {pos : Nat} (hpos : fs.data_start ≤ pos)
    (buf : List Byte) :
    ∀ x, fs.fat_slice.begin_ ≤ x → x < fs.fat_end → writeBytes fs.disk pos buf x = fs.disk x := by
  intro x _ hx
  have := hg.fat_before_data
  exact writeBytes_sameOn _ _ _ x (x + 1) (by omega) x (le_refl x) (Nat.lt_succ_self x)

theorem Geometry.data_write_below (hg : Geometry fs) {pos : Nat} (hpos : fs.data_start ≤ pos)
    (buf : List Byte) :
    Below fs { fs with disk := writeBytes fs.disk pos buf } := by
  have hbegin := hg.begin_le_data
  have hflags := hg.flags_lt
  have hsame : ∀ x, x < fs.fat_slice.begin_ →
    writeBytes fs.disk pos buf x = fs.disk x := fun x hx =>
    writeBytes_sameOn _ _ _ x (x + 1) (by omega) x (le_refl x) (Nat.lt_succ_self x)
  refine ⟨fun x _ hx => hsame x hx, fun hs => ?_, fun hd => ⟨hd, rfl⟩⟩
  exact (congrArg FsStatusFlags.decode (hsame _ hflags)).trans hs

theorem Volume.write (h : Volume fs chains free) {pos : Nat} (hpos : fs.data_start ≤ pos)
    (buf : List Byte) :
    Volume { fs with disk := writeBytes fs.disk pos buf } chains free :=
  h.same ⟨rfl, rfl, rfl, rfl, rfl, rfl⟩ rfl (data_write_same h.geometry hpos buf)

theorem on_disk_write_zeros (hs : fs.device.Serves) (pos len : Nat) :
    FileSystem.on_disk pos (DiskCursor.write_zeros len) fs =
    .ok (.ok (), { fs with disk := writeBytes fs.disk pos (List.replicate len 0#8) }) := by
  rw [FileSystem.on_disk, write_zeros_spec len _ hs]
  rfl

variable [DecidableEq ι]

/-- What allocating a cluster for chain `i` does to the volume. -/
structure Allocated (fs : FileSystem) (chains : ι → List Nat) (free : Nat)
    (i : ι) (zero : Bool) (c : Nat) (fs' : FileSystem) : Prop where
  volume : Volume fs' (Function.update chains i (chains i ++ [c])) (free - 1)
  same : SameVolume fs fs'
  inRange : InRange fs.stop c
  fresh : ∀ j, c ∉ chains j
  zeros : zero = true → fs'.cluster_bytes c = List.replicate fs.cluster_size 0#8
  below : Below fs fs'
  others : ∀ x, x ≠ fs.adapter.flags_offset → x < fs.fat_slice.begin_ ∨ fs.data_start ≤ x →
    x < fs.offset_from_cluster c ∨ fs.offset_from_cluster c + fs.cluster_size ≤ x ∨
    zero = false → fs'.disk x = fs.disk x

theorem Allocated.zeroed (h : Allocated fs chains free i false c fs') (hg : Geometry fs) :
    Allocated fs chains free i true c
    { fs' with disk := writeBytes fs'.disk (fs.offset_from_cluster c) (List.replicate fs.cluster_size 0#8) } := by
  have hsame := h.same.with_disk
    (writeBytes fs'.disk (fs.offset_from_cluster c) (List.replicate fs.cluster_size 0#8))
  have hdata := hg.data_le h.inRange
  rw [← h.same.data_start] at hdata
  have hbelow := h.below.trans h.same
    ((h.same.geometry hg).data_write_below hdata (List.replicate fs.cluster_size 0#8))
  refine ⟨h.volume.write hdata _, hsame, h.inRange, h.fresh,
    fun _ => cluster_bytes_written hsame List.length_replicate rfl, hbelow, ?_⟩
  intro x hx ho hin
  refine Eq.trans (writeBytes_sameOn _ _ _ x (x + 1) ?_ x (le_refl x) (Nat.lt_succ_self x))
    (h.others x hx ho (.inr (.inr rfl)))
  rw [List.length_replicate]
  rcases hin with hin | hin | hin
  · exact .inl hin
  · exact .inr hin
  · cases hin

theorem allocated_of_table (h : Volume fs chains free) (hpos : 0 < free)
    (ht : TableOnly fs fs') (hr : InRange fs.stop c) (hc : fs.clusters c = .Free)
    (hclusters : fs'.clusters = append fs.clusters (chains i) c) :
    Allocated fs chains free i false c
      { fs' with fs_info := (fs'.fs_info.set_next_free_cluster (c + 1)).add_free_clusters (-1) } := by
  have hcount := alloc_free_count (i := i) h hr hc
  rw [← hclusters] at hcount
  have hpart : Partition fs'.clusters fs.stop (Function.update chains i (chains i ++ [c])) := by
    rw [hclusters]
    exact h.partition.append hr hc
  have hlt := h.free_lt
  have hcounted := add_free_clusters_counted (f := fs'.fs_info.set_next_free_cluster (c + 1))
    (k := -1) (n := free - 1)
    (by rw [ht.fs_info]; exact h.counted) (by omega) (by omega)
  have hhint :
    ∀ m ∈ ((fs'.fs_info.set_next_free_cluster (c + 1)).add_free_clusters (-1)).next_free_cluster,
    RESERVED_FAT_ENTRIES ≤ m := by
    rw [add_free_clusters_hint]
    rintro m ⟨rfl⟩
    exact le_trans hr.1 (Nat.le_succ c)
  refine ⟨h.table ht hpart (by omega) hcounted hhint, ht.same.with_info _,
    hr, h.partition.not_mem_of_free hc,
    fun hz => absurd hz (by decide), ht.below fun hd => ?_,
      fun x hx ho _ => ht.outside x hx (ho.imp id (le_trans h.geometry.fat_before_data))⟩
  cases (add_free_clusters_marked hd).1

theorem alloc_cluster_volume (h : Volume fs chains free) (hprev : prev = (chains i).getLast?) :
    (free = 0 → FileSystem.alloc_cluster prev zero fs = .ok (.error no_space, fs)) ∧
    (0 < free → ∃ c fs', FileSystem.alloc_cluster prev zero fs = .ok (.ok c, fs') ∧
      Allocated fs chains free i zero c fs') := by
  obtain ⟨hfull, hspace⟩ := alloc_on_fat h hprev
  refine ⟨fun hfree => (bind_of_ok (x := getThe FileSystem) rfl).trans
    (bind_of_error (hfull hfree)), fun hpos => ?_⟩
  obtain ⟨c, fs₁, hon, ht, hr, hc, hclusters⟩ := hspace hpos
  have hall := allocated_of_table h hpos ht hr hc hclusters
  cases zero with
  | false => exact ⟨c, _, (bind_of_ok (x := getThe FileSystem) rfl).trans (bind_of_ok hon), hall⟩
  | true =>
    have hz := on_disk_write_zeros (ht.same.geometry h.geometry).serves
      (fs.offset_from_cluster c) fs.cluster_size
    exact ⟨c, _, (bind_of_ok (x := getThe FileSystem) rfl).trans
      ((bind_of_ok hon).trans (bind_of_ok hz)), hall.zeroed h.geometry⟩

/-- What freeing clusters of chain `i` does to the volume: `l` is left of the chain, and `num`
clusters are free again. -/
structure Freed (fs : FileSystem) (chains : ι → List Nat) (free : Nat)
    (i : ι) (l : List Nat) (num : Nat) (fs' : FileSystem) : Prop where
  volume : Volume fs' (Function.update chains i l) (free + num)
  same : SameVolume fs fs'
  below : Below fs fs'
  outside : ∀ x, x ≠ fs.adapter.flags_offset → x < fs.fat_slice.begin_ ∨
    fs.fat_end ≤ x → fs'.disk x = fs.disk x

theorem freed_of_table (h : Volume fs chains free) (ht : TableOnly fs fs')
    (hpart : Partition fs'.clusters fs.stop (Function.update chains i l))
    (hcount : Fatfs.free_count fs'.clusters fs.stop = free + n) :
    Freed fs chains free i l n { fs' with fs_info := fs'.fs_info.add_free_clusters n } := by
  have hlt : free + n < 2 ^ 28 := by
    rw [← hcount]
    exact h.geometry.free_count_lt fs'.clusters
  refine ⟨h.table ht hpart hcount ?_ ?_, ht.same.with_info _, ht.below fun hd => ?_, ht.outside⟩
  · exact add_free_clusters_counted (by rw [ht.fs_info]; exact h.counted) (by push_cast; rfl) hlt
  · rw [add_free_clusters_hint, ht.fs_info]
    exact h.hint
  · rw [← ht.fs_info]
    exact add_free_clusters_marked hd

theorem truncate_cluster_chain_spec (h : Volume fs chains free)
    (hi : chains i = l ++ c :: r) : ∃ fs',
    FileSystem.truncate_cluster_chain c fs = .ok (.ok (), fs') ∧
    Freed fs chains free i (l ++ [c]) r.length fs' := by
  have hlinks := h.partition.links i
  have hnd := h.partition.nodup i
  have hrange := h.partition.inRange i
  rw [hi] at hlinks hnd hrange
  have hnd' := (List.nodup_append.mp hnd).2.1
  have hrange' : ∀ d ∈ c :: r, InRange fs.stop d :=
    fun d hd => hrange d (List.mem_append_right _ hd)
  obtain ⟨s', hs', hk, hclusters⟩ := truncate_spec h.geometry.covers hlinks.right hnd' hrange'
  obtain ⟨fs', hon, ht, hclusters'⟩ := on_fat_spec hs' hk
  rw [hclusters] at hclusters'
  refine ⟨_, bind_of_ok hon, freed_of_table h ht ?_ ?_⟩
  · rw [hclusters']
    exact h.partition.cut hi
  · obtain ⟨hout, hnd''⟩ := List.nodup_cons.mp hnd'
    have hused : ∀ d ∈ r, fs.clusters d ≠ .Free :=
      fun d hd => hlinks.not_free (List.mem_append_right _ (List.mem_cons_of_mem c hd))
    have hc : free_all fs.clusters r c ≠ .Free := by
      rw [free_all, if_neg hout]
      exact hlinks.not_free (List.mem_append_right _ List.mem_cons_self)
    rw [hclusters']
    exact ((free_count_used hc (by simp)).trans
      (free_count_free_all hnd'' (fun d hd => hrange' d (List.mem_cons_of_mem c hd)) hused)).trans
      (congrArg (· + r.length) h.free_count)

theorem free_cluster_chain_spec (h : Volume fs chains free)
    (hi : (chains i).head? = some c) : ∃ fs',
    FileSystem.free_cluster_chain c fs = .ok (.ok (), fs') ∧ Freed fs chains free i []
    (chains i).length fs' := by
  have hlinks := h.partition.links i
  have hnd := h.partition.nodup i
  obtain ⟨s', hs', hk, hclusters⟩ := free_spec h.geometry.covers hlinks hnd (h.partition.inRange i)
  rw [hi] at hs'
  obtain ⟨fs', hon, ht, hclusters'⟩ := on_fat_spec hs' hk
  rw [hclusters] at hclusters'
  refine ⟨_, bind_of_ok hon, freed_of_table h ht ?_ ?_⟩
  · rw [hclusters']
    exact h.partition.free
  · rw [hclusters']
    exact (free_count_free_all hnd (h.partition.inRange i) fun d hd => hlinks.not_free hd).trans
      (congrArg (· + (chains i).length) h.free_count)

end Chains

end HectoOs.Fatfs
