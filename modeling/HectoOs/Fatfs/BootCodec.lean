import HectoOs.Fatfs.EntryCodec
import HectoOs.Fatfs.FileSystem

/-! # What the boot sector and the FSInfo sector read as

Both are functions of the 512 bytes of their sector. The status flags have a byte of the boot sector
to themselves.
-/

open HectoOs.Lib

namespace HectoOs.Fatfs

/-! ## Sectors as bytes -/

def bytes_at (b : List Byte) (k n : Nat) : List.Vector Byte n := fill 0#8 n (slice b k n)

namespace BiosParameterBlock

def decode_tail (b : List Byte) (k : Nat) (bpb : BiosParameterBlock) : BiosParameterBlock :=
  let bpb := { bpb with
    drive_num := byte_at b k
    reserved_1 := byte_at b (k + 1)
    ext_sig := byte_at b (k + 2)
    volume_id := dword_at b (k + 3)
    volume_label := bytes_at b (k + 7) 11
    fs_type_label := bytes_at b (k + 18) 8 }
  if bpb.ext_sig ≠ 0x29#8 then
    { bpb with volume_id := 0#32, volume_label := .replicate 11 0#8, fs_type_label := .replicate 8 0#8 }
  else bpb

/-- The fields that every type of volume has. -/
def decode_common (b : List Byte) : BiosParameterBlock :=
  ⟨word_at b 11, byte_at b 13, word_at b 14, byte_at b 16, word_at b 17,
    word_at b 19, byte_at b 21, word_at b 22,
    word_at b 24, word_at b 26, dword_at b 28, dword_at b 32, 0#32, 0#16, 0#16, 0#32, 0#16, 0#16,
    .replicate 12 0#8, 0#8, 0#8, 0#8, 0#32, .replicate 11 0#8, .replicate 8 0#8⟩

def decode (b : List Byte) : BiosParameterBlock :=
  if (decode_common b).is_fat32 then decode_tail b 64 { decode_common b with
    sectors_per_fat_32 := dword_at b 36
    extended_flags := word_at b 40
    fs_version := word_at b 42
    root_dir_first_cluster := dword_at b 44
    fs_info_sector := word_at b 48
    backup_boot_sector := word_at b 50
    reserved_0 := bytes_at b 52 12 }
  else decode_tail b 36 (decode_common b)

end BiosParameterBlock

def BootSector.decode (b : List Byte) : BootSector where
  bootjmp := bytes_at b 0 3
  oem_name := bytes_at b 3 8
  bpb := .decode b
  boot_code :=
    fill 0#8 448 (if (BiosParameterBlock.decode b).is_fat32 then slice b 90 420 else slice b 62 448)
  boot_sig := bytes_at b 510 2

namespace FsInfoSector

def decode (b : List Byte) : Except Error FsInfoSector :=
  if dword_at b 0 ≠ LEAD_SIG then .error (other "invalid lead_sig in FsInfo sector")
  else if dword_at b 484 ≠ STRUC_SIG then .error (other "invalid struc_sig in FsInfo sector")
  else if dword_at b 508 ≠ TRAIL_SIG then .error (other "invalid trail_sig in FsInfo sector")
  else
    let free := dword_at b 488
    let next := dword_at b 492
    .ok ⟨if free = 0xFFFFFFFF#32 then none else some free.toNat,
      if next = 0xFFFFFFFF#32 ∨ next.toNat ≤ 1 then none else some next.toNat, false⟩

def bytes (f : FsInfoSector) : List Byte :=
  leBytes 4 LEAD_SIG.toNat ++ List.replicate 480 0#8 ++ leBytes 4 STRUC_SIG.toNat ++
    leBytes 4 (BitVec.ofNat 32 (f.free_cluster_count.getD 0xFFFFFFFF)).toNat ++
    leBytes 4 (BitVec.ofNat 32 (f.next_free_cluster.getD 0xFFFFFFFF)).toNat ++
    List.replicate 12 0#8 ++ leBytes 4 TRAIL_SIG.toNat

@[simp] theorem length_bytes (f : FsInfoSector) : f.bytes.length = 512 := by
  simp only [bytes, List.length_append, length_leBytes, List.length_replicate]

end FsInfoSector

/-! ## Ports -/

section Ports

variable {σ : Type} {p : FatPort σ} {bytes : List Byte} {R : List Byte → σ → Prop} {s : σ} {k : Nat}

theorem decode_is_fat32 (b : List Byte) :
    (BiosParameterBlock.decode b).is_fat32 = (BiosParameterBlock.decode_common b).is_fat32 := by
  unfold BiosParameterBlock.decode BiosParameterBlock.decode_tail
  split <;> (dsimp only; split <;> rfl)

end Ports

/-! ## What is written is read back -/

namespace FsInfoSector

variable {f info : FsInfoSector} {b : List Byte}

theorem decode_bytes (hfree : ∀ n ∈ f.free_cluster_count, n < 0xFFFFFFFF) :
    ∃ info, decode f.bytes = .ok info ∧ info.free_cluster_count = f.free_cluster_count := by
  have hnil : f.bytes = [] ++ f.bytes := rfl
  have hlead : dword_at f.bytes 0 = LEAD_SIG := by
    rw [hnil, bytes]
    simp (disch := simp only [List.length_append, List.length_replicate,
      length_leBytes, List.length_nil,
      Nat.reduceAdd, Nat.reduceLeDiff]) only [← List.append_assoc, dword_at_left, dword_at_last]
  have hstruc : dword_at f.bytes 484 = STRUC_SIG := by
    rw [bytes]
    simp (disch := simp only [List.length_append, List.length_replicate, length_leBytes,
      Nat.reduceAdd, Nat.reduceLeDiff]) only [dword_at_left, dword_at_last]
  have hcount : dword_at f.bytes 488 = BitVec.ofNat 32 (f.free_cluster_count.getD 0xFFFFFFFF) := by
    rw [bytes]
    simp (disch := simp only [List.length_append, List.length_replicate, length_leBytes,
      Nat.reduceAdd, Nat.reduceLeDiff]) only [dword_at_left, dword_at_last]
  have htrail : dword_at f.bytes 508 = TRAIL_SIG := by
    rw [bytes]
    simp (disch := simp only [List.length_append, List.length_replicate, length_leBytes,
      Nat.reduceAdd, Nat.reduceLeDiff]) only [dword_at_last]
  unfold decode
  rw [hlead, hstruc, htrail, hcount]
  refine ⟨_, rfl, ?_⟩
  dsimp only
  cases hf : f.free_cluster_count with
  | none => rfl
  | some n =>
    have hlt := hfree n hf
    have hne : BitVec.ofNat 32 n ≠ 0xFFFFFFFF#32 := by
      intro heq
      have := congrArg BitVec.toNat heq
      simp only [BitVec.toNat_ofNat] at this
      omega
    rw [Option.getD_some, if_neg hne, BitVec.toNat_ofNat, Nat.mod_eq_of_lt (by omega)]

end FsInfoSector

/-! ## The byte of the status flags -/

/-- The place of the status flags of a FAT32 volume in its boot sector. -/
def STATUS_FLAGS : Nat := 0x41

/-- The sector with other status flags. -/
def BootSector.with_flags (boot : BootSector) (flags : Byte) : BootSector :=
  { boot with bpb := { boot.bpb with reserved_1 := flags } }

theorem validate_with_flags (boot : BootSector) (flags : Byte) :
    (boot.with_flags flags).validate = boot.validate := (rfl)

section Flags

variable {b b' : List Byte}

theorem slice_same {k n : Nat} (h : ∀ i, k ≤ i → i < k + n → b'[i]? = b[i]?) :
    slice b' k n = slice b k n := by
  apply List.ext_getElem?
  intro i
  unfold slice
  rw [List.getElem?_take, List.getElem?_take, List.getElem?_drop, List.getElem?_drop]
  split
  · rw [h (k + i) (by omega) (by omega)]
  · rfl

theorem decode_with_flags (h32 : (BootSector.decode b).bpb.is_fat32 = true)
    (h : ∀ i, i ≠ STATUS_FLAGS → b'[i]? = b[i]?) :
    BootSector.decode b' = (BootSector.decode b).with_flags (byte_at b' STATUS_FLAGS) := by
  have hslice : ∀ k n, k + n ≤ 0x41 ∨ 0x42 ≤ k → slice b' k n = slice b k n := by
    intro k n hk
    refine slice_same fun i hlo hhi => h i ?_
    unfold STATUS_FLAGS
    omega
  have hcommon : BiosParameterBlock.decode_common b' = BiosParameterBlock.decode_common b := by
    unfold BiosParameterBlock.decode_common byte_at word_at dword_at
    simp (disch := decide) only [hslice]
  replace h32 : (BiosParameterBlock.decode b).is_fat32 = true := h32
  have h32' := h32
  rw [decode_is_fat32] at h32'
  have hbpb : BiosParameterBlock.decode b' =
    { BiosParameterBlock.decode b with reserved_1 := byte_at b' STATUS_FLAGS } := by
    unfold BiosParameterBlock.decode
    rw [hcommon, if_pos h32', if_pos h32']
    unfold BiosParameterBlock.decode_tail word_at dword_at bytes_at byte_at STATUS_FLAGS
    simp (disch := decide) only [hslice]
    split <;> rfl
  unfold BootSector.decode BootSector.with_flags
  rw [hbpb]
  have h32'' : ({ BiosParameterBlock.decode b with
    reserved_1 := byte_at b' STATUS_FLAGS } : BiosParameterBlock).is_fat32 = true := h32
  rw [if_pos h32, if_pos h32'']
  unfold bytes_at
  simp (disch := decide) only [hslice]

end Flags

end HectoOs.Fatfs
