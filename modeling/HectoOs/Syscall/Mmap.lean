import HectoOs.Mm.DevicePages
import HectoOs.Mm.FreshMemory
import HectoOs.Mm.NewArea
import HectoOs.Mm.UserArea
import HectoOs.Syscall.Files

/-! # Files in memory (`sys_mmap` in `syscall/mm.rs`)

A file is copied into the new area when it is mapped. The position that `FileDescriptor::seek` gives
to the inode is not the one that `FileDescriptor::read` starts from.
-/

open HectoOs.Lib HectoOs.Mm HectoOs.Fs HectoOs.Files

namespace HectoOs.Mmap

inductive Panic where
  | mm (p : Mm.Panic)
  | files (p : Files.Panic)
  /-- The `unwrap` of an empty slot, of `seek` or of `read`. -/
  | unwrap
  deriving DecidableEq, Repr

/-- The memory and one process; `stored` are the addresses of the process that the kernel has stored
to. -/
structure State (τ ι : Type) where
  phys : Phys
  address_space : AddressSpace
  sys : Sys τ ι
  stored : List Nat

abbrev Call (τ ι : Type) := Exec Panic (State τ ι)

variable {τ ι α : Type} (cfg : Config) (I : Inodes τ ι)

/-! ## The system call -/

def on_phys (x : Kernel α) : Call τ ι α := fun s =>
  match x s.phys with
  | .ok (a, phys) => .ok (a, { s with phys })
  | .error p => .error (.mm p)

def on_sys (x : Sc τ ι α) : Call τ ι α := fun s =>
  match x s.sys with
  | .ok (a, sys) => .ok (a, { s with sys })
  | .error p => .error (.files p)

/-- `FileDescriptor::seek`: the inode moves, and the descriptor does not. -/
def file_seek (f offset : Nat) : Sc τ ι (Option Nat) := do
  let vnode ← get_vnode f
  let s ← get
  return I.seek s.vfs.disk vnode.inode offset

/-- The kernel stores a byte at an address of the process. -/
def store (va : Nat) (b : Byte) : Call τ ι Unit := do
  let s ← get
  let address_space ← on_phys (s.address_space.poke cfg va b)
  modify fun s => { s with address_space, stored := s.stored ++ [va] }

def store_bytes (va : Nat) : List Byte → Call τ ι Unit
  | [] => pure ()
  | b :: bytes => do
    store cfg va b
    store_bytes (va + 1) bytes

/-- The file behind a slot of the table, and a `\0` behind the area. -/
def fill (fd va_end length offset : Nat) : Call τ ι Unit := do
  let s ← get
  match s.sys.inner.fd_table[fd]? with
  | some slot =>
    let f ← Exec.unwrap .unwrap slot
    let pos ← on_sys (file_seek I f offset)
    let _ ← Exec.unwrap .unwrap pos
    let bytes ← Exec.unwrap .unwrap (← on_sys (file_read I f length))
    store_bytes cfg (va_end - length) bytes
    store cfg va_end 0
  | none => pure ()

/-- `sys_mmap`; its flags are not looked at. -/
def sys_mmap (addr length : Nat) (prot : AddressSpace.Prot) (fd offset : Nat) : Call τ ι Nat := do
  let s ← get
  if addr ≠ 0 then
    on_phys (s.address_space.mmap_fixed cfg addr length prot)
    return addr
  else
    let (address_space, va_end) ← on_phys
      (s.address_space.insert_user_area cfg length prot.map_perm)
    modify fun s => { s with address_space }
    fill cfg I fd va_end length offset
    return va_end - length

/-! ## What the call has to do -/

/-- The inode behind a descriptor of the process. -/
def open_file (s : State τ ι) (fd : Nat) : Option ι := do
  let f ← (s.sys.inner.fd_table[fd]?).join
  let desc ← s.sys.vfs.files.get f
  let vnode ← s.sys.vfs.vnodes.get desc.vnode
  return vnode.inode

/-- The byte at an address of a process. -/
def byte_at (m : Mem) (as : AddressSpace) (va : Nat) : Option Byte :=
  (PageTableImpl.lookup cfg m as.page_table (floor va)).map fun e =>
    m (frame_va (e.ppn cfg) + page_offset va)

/-- A read of a file returns some of the bytes behind the position. -/
structure Lawful (contents : τ → ι → List Byte) : Prop where
  read : ∀ disk inode pos count bytes disk', I.read disk inode pos count = .ok (some bytes, disk') →
    bytes.length ≤ count ∧ bytes <+: (contents disk inode).drop pos

/-- The call returns, the area shows the file from the offset on, and nothing is stored
elsewhere. -/
def ShowsFile (file : List Byte) (s : State τ ι) (length : Nat) (prot : AddressSpace.Prot)
    (fd offset : Nat) : Prop :=
  ∃ r s', sys_mmap cfg I 0 length prot fd offset { s with stored := [] } = .ok (r, s') ∧
    (∀ k < min length (file.length - offset), byte_at cfg s'.phys.mem s'.address_space (r + k) =
      file[offset + k]?) ∧
    ∀ va ∈ s'.stored, r ≤ va ∧ va < r + length

section Stores

variable {cfg I} {may : Panic → Prop} {s : State τ ι} {Q : α → State τ ι → Prop}
  {f va_end length offset fd va addr : Nat}
  {prot : AddressSpace.Prot} {b : Byte}

theorem wp_on_phys {x : Kernel α} :
    wp may (on_phys x) Q s ↔
    wp (fun p => may (.mm p)) x (fun a φ => Q a { s with phys := φ }) s.phys := by
  unfold wp on_phys
  cases x s.phys <;> rfl

theorem wp_on_sys {x : Sc τ ι α} :
    wp may (on_sys x) Q s ↔
    wp (fun p => may (.files p)) x (fun a t => Q a { s with sys := t }) s.sys := by
  unfold wp on_sys
  cases x s.sys <;> rfl

theorem insert_user_area_end {as : AddressSpace} {size : Nat} {perm : PTEImpl} {φ : Phys} :
    wp Mm.anyPanic (as.insert_user_area cfg size perm) (fun r _ => size ≤ r.2) φ := by
  rw [AddressSpace.insert_user_area, wp_bind, wp_unwrap]
  refine ⟨fun stop hstop => ?_, fun _ => trivial⟩
  have hge := alloc_user_area_ge hstop
  rw [wp_bind]
  refine wp_mono (wp_any _) fun as' φ' _ => ?_
  show size ≤ stop
  omega

theorem store_stored :
    wp (fun _ => True) (store cfg va b) (fun _ s' => s'.stored = s.stored ++ [va]) s := by
  rw [store, wp_bind, wp_get, wp_bind, wp_on_phys]
  refine wp_mono (wp_any _) fun as φ _ => ?_
  rw [wp_modify]

theorem fill_stored (hslot : s.sys.inner.fd_table[fd]? = some (some f)) :
    wp (fun _ => True) (fill cfg I fd va_end length offset) (fun _ s' => va_end ∈ s'.stored) s := by
  rw [fill, wp_bind, wp_get, hslot]
  dsimp only
  rw [wp_bind]
  refine wp_mono (wp_any _) fun _ s₁ _ => ?_
  rw [wp_bind]
  refine wp_mono (wp_any _) fun pos s₂ _ => ?_
  rw [wp_bind]
  refine wp_mono (wp_any _) fun _ s₃ _ => ?_
  rw [wp_bind]
  refine wp_mono (wp_any _) fun r s₄ _ => ?_
  rw [wp_bind]
  refine wp_mono (wp_any _) fun bytes s₅ _ => ?_
  rw [wp_bind]
  refine wp_mono (wp_any _) fun _ s₆ _ => ?_
  refine wp_mono store_stored fun _ s' hs' => ?_
  rw [hs']
  exact List.mem_append_right _ (List.mem_singleton_self _)

theorem sys_mmap_stored (hslot : s.sys.inner.fd_table[fd]? = some (some f)) :
    wp (fun _ => True) (sys_mmap cfg I 0 length prot fd offset)
    (fun r s' => r + length ∈ s'.stored) s := by
  rw [sys_mmap, wp_bind, wp_get, if_neg (by decide), wp_bind, wp_on_phys]
  refine wp_mono insert_user_area_end ?_
  rintro ⟨as, va_end⟩ φ hlength
  dsimp only at hlength ⊢
  rw [wp_bind, wp_modify]
  refine wp_call (fill_stored hslot) fun _ s' hs' => ?_
  rw [wp_pure, Nat.sub_add_cancel hlength]
  exact hs'

end Stores

/-- Whatever the file and the frames are: the `\0` is stored behind the area, or the call does not
return. -/
theorem mmap_never_shows (cfg : Config) (I : Inodes τ ι) (contents : τ → ι → List Byte)
    (s : State τ ι) (length : Nat) (prot : AddressSpace.Prot) (fd offset : Nat)
    (inode : ι) (hopen : open_file s fd = some inode) :
    ¬ ShowsFile cfg I (contents s.sys.vfs.disk inode) s length prot fd offset := by
  rintro ⟨r, s', hok, _, hstored⟩
  obtain ⟨f, hslot, _⟩ := Option.bind_eq_some_iff.mp hopen
  have hspec : wp (fun _ => True) (sys_mmap cfg I 0 length prot fd offset) _
    { s with stored := [] } :=
    sys_mmap_stored (Option.join_eq_some_iff.mp hslot)
  have hlast := wp_ok hspec hok
  have hrange := hstored _ hlast
  omega

/-! ## A small file -/

/-- Files that are their contents, and read in full. -/
def plainFiles : Inodes Unit (List Byte) where
  seek _ _ pos := some pos
  read _ file pos count := .ok (some ((file.drop pos).take count), ())
  write _ _ _ _ := .ok (none, ())
  get_dents64 _ _ := .error .inode
  get_fstat _ _ := .error .inode

theorem plainFiles_lawful : Lawful plainFiles fun _ file => file := by
  refine ⟨fun _ file pos count bytes _ hread => ?_⟩
  obtain ⟨hbytes, _⟩ := Prod.mk.inj (Except.ok.inj hread)
  obtain rfl := Option.some.inj hbytes
  exact ⟨List.length_take_le _ _, List.take_prefix _ _⟩

/-- A process with a descriptor on a file of four bytes. -/
def fourBytes (phys : Phys) (address_space : AddressSpace) : State Unit (List Byte) where
  phys := phys
  address_space := address_space
  sys :=
    { vfs :=
        { (Vfs.empty () : Vfs Unit (List Byte)) with
          vnodes := (Arcs.empty.new ⟨none, [], [10, 20, 30, 40]⟩).2
          files := (Arcs.empty.new ⟨⟨0⟩, 0, 0⟩).2 }
      inner := ⟨[some 0], [SLASH]⟩ }
  stored := []

theorem fourBytes_open (φ : Phys) (as : AddressSpace) :
    open_file (fourBytes φ as) 0 = some [10, 20, 30, 40] := rfl

open PageTableImpl in
theorem mmap_never_shows_start : ∃ kernel φ s os as,
    boot qemu smallLayout ⟨fun _ => 0, PhyPageAllocator.new⟩ = .ok (kernel, φ) ∧
    run (Os.step qemu) (Os.start kernel φ)
    [.from_elf (onePage 0x1000)] = .ok (s, os) ∧ s.spaces[0]? = some (some as) ∧
    ¬ ShowsFile qemu plainFiles [10, 20, 30, 40]
    (fourBytes s.phys as) 4 ⟨true, true, false⟩ 0 0 := by
  obtain ⟨kernel, φ, s, os, hboot, hrun, hseen⟩ := small_run_ends [.from_elf (onePage 0x1000)]
    (fun s => (s.spaces[0]?).join.isSome = true) (by decide +kernel)
  obtain ⟨as, has⟩ := Option.isSome_iff_exists.mp hseen
  exact ⟨kernel, φ, s, os, as, hboot, hrun, Option.join_eq_some_iff.mp has,
    mmap_never_shows qemu plainFiles (fun _ file => file)
      (fourBytes s.phys as) 4 _ 0 0 _ (fourBytes_open s.phys as)⟩

/-- Two bytes of the file from offset 2 on: the first byte that the process has then. -/
def mapped_byte (s : Os) : Option (Option Byte) := do
  let as ← (s.spaces[0]?).join
  let r ← (sys_mmap qemu plainFiles 0 2 ⟨true, true, false⟩ 0 2 (fourBytes s.phys as)).toOption
  return byte_at qemu r.2.phys.mem r.2.address_space r.1

open PageTableImpl in
/-- The area starts with the first byte of the file, and not with the third. -/
theorem mmap_ignores_offset : ∃ kernel φ s os as r s',
    boot qemu smallLayout ⟨fun _ => 0, PhyPageAllocator.new⟩ = .ok (kernel, φ) ∧
    run (Os.step qemu) (Os.start kernel φ)
    [.from_elf (onePage 0x1000)] = .ok (s, os) ∧ s.spaces[0]? = some (some as) ∧
    Lawful plainFiles (fun _ file => file) ∧
    open_file (fourBytes s.phys as) 0 = some [10, 20, 30, 40] ∧
    sys_mmap qemu plainFiles 0 2 ⟨true, true, false⟩ 0 2 (fourBytes s.phys as) = .ok (r, s') ∧
    byte_at qemu s'.phys.mem s'.address_space r = some 10 ∧
    ¬ ShowsFile qemu plainFiles [10, 20, 30, 40]
    (fourBytes s.phys as) 2 ⟨true, true, false⟩ 0 2 := by
  obtain ⟨kernel, φ, s, os, hboot, hrun, hseen⟩ := small_run_ends [.from_elf (onePage 0x1000)]
    (fun s => mapped_byte s = some (some 10)) (by decide +kernel)
  obtain ⟨as, has, hseen⟩ := Option.bind_eq_some_iff.mp hseen
  obtain ⟨⟨r, s'⟩, hmap, hbyte⟩ := Option.bind_eq_some_iff.mp hseen
  have hok : sys_mmap qemu plainFiles 0 2 ⟨true, true, false⟩ 0 2 (fourBytes s.phys as) =
    .ok (r, s') :=
    toOption_eq_some.mp hmap
  have hbyte := Option.some.inj hbyte
  dsimp only at hbyte
  refine ⟨kernel, φ, s, os, as, r, s', hboot, hrun, Option.join_eq_some_iff.mp has,
    plainFiles_lawful,
    fourBytes_open s.phys as, hok, hbyte, ?_⟩
  rintro ⟨r', s'', hok', hshows, _⟩
  have heq := hok.symm.trans hok'
  obtain ⟨rfl, rfl⟩ := Prod.mk.inj (Except.ok.inj heq)
  have hfirst := hshows 0 (by decide)
  rw [Nat.add_zero, hbyte] at hfirst
  exact absurd hfirst (by decide)

/-! ## What the area shows -/

section Contents

open PageTableImpl

variable {cfg I} {os : Os} {new : List Page} {as : AddressSpace} {φ : Phys}
  {s : State τ ι} {va r f fd length offset : Nat}
  {prot : AddressSpace.Prot} {b : Byte} {x : Page}

/-- The address lies in a new page. -/
def InArea (new : List Page) (va : Nat) : Prop := ∃ x ∈ new, x.vpn = floor va

/-- The new pages of an area, each with its own frame. -/
structure Area (cfg : Config) (os : Os) (φ : Phys) (as : AddressSpace)
    (new : List Page) : Prop where
  supplied : Supplied cfg os φ as new
  nodup : (new.map (·.ppn)).Nodup
  low : ∀ x ∈ new, x.ppn < 2 ^ 26

theorem Area.byte_at (h : Area cfg os φ as new) (hx : x ∈ new) (hva : x.vpn = floor va) :
    byte_at cfg φ.mem as va = some (φ.mem (frame_va x.ppn + page_offset va)) := by
  have hlow := h.low x hx
  rw [Mmap.byte_at, ← hva, h.supplied.mapped x hx, Option.map_some, PTEImpl.ppn_new cfg (by omega)]

theorem poke_area (h : Area cfg os φ as new) (hx : x ∈ new) (hva : x.vpn = floor va) :
    wp Mm.anyPanic (as.poke cfg va b) (fun as' φ' => as' = as ∧
      φ' = φ.set_mem (storeByte φ.mem (frame_va x.ppn + page_offset va) b)) φ := by
  rw [AddressSpace.poke, wp_bind, wp_get, wp_bind, wp_unwrap]
  refine ⟨fun pte hpte => ?_, fun _ => trivial⟩
  have hlook : lookup cfg φ.mem as.page_table (floor va) =
    some (read_pte φ.mem pte.table pte.index) := by
    rw [lookup, hpte]
    rfl
  rw [← hva, h.supplied.mapped x hx, Option.some.injEq] at hlook
  have hlow := h.low x hx
  rw [wp_bind, wp_assert]
  refine ⟨fun _ => ?_, fun _ => trivial⟩
  rw [wp_bind, wp_modify, wp_pure, ← hlook, PTEImpl.ppn_new cfg (by omega)]
  exact ⟨rfl, rfl⟩

theorem store_area (h : Area cfg os s.phys s.address_space new) (hin : InArea new va) :
    wp (fun _ => True) (store cfg va b)
    (fun _ s' => s'.address_space = s.address_space ∧ s'.sys = s.sys ∧
      Area cfg os s'.phys s.address_space new ∧
      byte_at cfg s'.phys.mem s.address_space va = some b ∧
      ∀ u, u ≠ va → InArea new u →
        byte_at cfg s'.phys.mem s.address_space u =
          byte_at cfg s.phys.mem s.address_space u) s := by
  obtain ⟨x, hx, hva⟩ := hin
  rw [store, wp_bind, wp_get, wp_bind, wp_on_phys]
  refine wp_mono (poke_area h hx hva) ?_
  rintro as' φ' ⟨rfl, rfl⟩
  rw [wp_modify]
  dsimp only
  have harea : Area cfg os (s.phys.set_mem
    (storeByte s.phys.mem (frame_va x.ppn + page_offset va) b)) s.address_space new :=
    ⟨h.supplied.write hx fun q hq => storeByte_sameFrame (Ne.symm hq), h.nodup, h.low⟩
  refine ⟨rfl, rfl, harea, ?_, ?_⟩
  · rw [harea.byte_at hx hva, Phys.set_mem_mem, storeByte, if_pos rfl]
  · rintro u hne ⟨y, hy, hu⟩
    rw [harea.byte_at hy hu, h.byte_at hy hu, Phys.set_mem_mem, storeByte, if_neg ?_]
    intro heq
    have hxo : page_offset va < 4096 := Nat.mod_lt _ (by decide)
    have hyo : page_offset u < 4096 := Nat.mod_lt _ (by decide)
    have hxy : y.ppn = x.ppn := by
      by_contra hapart
      rcases frame_va_apart hapart with hle | hle <;> omega
    obtain rfl : y = x := List.inj_on_of_nodup_map h.nodup hy hx hxy
    rw [hu] at hva
    simp only [floor, page_offset, PAGE_SIZE] at hva heq
    omega

theorem store_bytes_area {bytes : List Byte} (h : Area cfg os s.phys s.address_space new)
    (hin : ∀ k < bytes.length, InArea new (va + k)) :
    wp (fun _ => True) (store_bytes cfg va bytes) (fun _ s' => s'.address_space = s.address_space ∧
      Area cfg os s'.phys s.address_space new ∧
      (∀ k (hk : k < bytes.length), byte_at cfg s'.phys.mem s.address_space (va + k) =
        some bytes[k]) ∧
      ∀ u < va, InArea new u →
        byte_at cfg s'.phys.mem s.address_space u =
          byte_at cfg s.phys.mem s.address_space u) s := by
  induction bytes generalizing va s with
  | nil => exact ⟨rfl, h, fun k hk => absurd hk (Nat.not_lt_zero k), fun _ _ _ => rfl⟩
  | cons b bytes ih =>
    have hfirst := hin 0 (Nat.zero_lt_succ _)
    refine wp_call (store_area h hfirst) ?_
    rintro _ s₁ ⟨has, _, h₁, hb, hkeep⟩
    rw [← has] at h₁
    refine wp_mono (ih h₁ fun k hk => ?_) ?_
    · have hnext := hin (k + 1) (Nat.succ_lt_succ hk)
      rwa [Nat.add_right_comm]
    · rintro _ s₂ ⟨has₂, h₂, hbytes, hkeep₂⟩
      rw [has] at has₂ h₂ hbytes hkeep₂
      refine ⟨has₂, h₂, fun k hk => ?_, fun u hu hin' => ?_⟩
      · cases k with
        | zero => exact (hkeep₂ va (Nat.lt_succ_self va) hfirst).trans hb
        | succ k =>
          have hbyte := hbytes k (Nat.lt_of_succ_lt_succ hk)
          rwa [Nat.add_right_comm] at hbyte
      · exact (hkeep₂ u (Nat.lt_succ_of_lt hu) hin').trans (hkeep u (Nat.ne_of_lt hu) hin')

theorem get_vnode_reads {t : Sys τ ι} :
    wp (fun _ => True) (get_vnode f) (fun vnode t' => t' = t ∧ ∃ desc,
    t.vfs.files.get f = some desc ∧ t.vfs.vnodes.get desc.vnode = some vnode) t := by
  rw [get_vnode, get_file, wp_bind, wp_bind, wp_get, wp_unwrap]
  refine ⟨fun desc hdesc => ?_, fun _ => trivial⟩
  rw [wp_bind, wp_get, wp_unwrap]
  exact ⟨fun vnode hvnode => ⟨rfl, desc, hdesc, hvnode⟩, fun _ => trivial⟩

theorem file_seek_reads {t : Sys τ ι} :
    wp (fun _ => True) (file_seek I f offset) (fun _ t' => t' = t) t := by
  refine wp_call get_vnode_reads ?_
  rintro vnode t' ⟨rfl, _⟩
  rw [wp_bind, wp_get, wp_pure]

theorem wp_ask {x : τ → Except Files.Panic (α × τ)} {may : Files.Panic → Prop}
    {Q : α → Sys τ ι → Prop} {t : Sys τ ι} :
    wp may (ask x) Q t ↔
    (∀ a disk, x t.vfs.disk = .ok (a, disk) → Q a { t with vfs := { t.vfs with disk } }) ∧
      ∀ p, x t.vfs.disk = .error p → may p := by
  unfold wp ask
  cases x t.vfs.disk with
  | error p => simp
  | ok r =>
    obtain ⟨a, disk⟩ := r
    simp

theorem file_read_reads {count : Nat} {t : Sys τ ι} :
    wp (fun _ => True) (file_read I f count) (fun r _ => ∀ bytes,
    r = some bytes → ∃ desc vnode disk', t.vfs.files.get f = some desc ∧
    t.vfs.vnodes.get desc.vnode = some vnode ∧
      I.read t.vfs.disk vnode.inode desc.pos count = .ok (some bytes, disk')) t := by
  rw [file_read, get_file, wp_bind, wp_bind, wp_get, wp_unwrap]
  refine ⟨fun fd hfd => wp_call get_vnode_reads ?_, fun _ => trivial⟩
  rintro vnode t' ⟨rfl, desc, hdesc, hvnode⟩
  rw [wp_ite]
  refine ⟨fun _ => ?_, fun _ => ?_⟩
  · rw [wp_bind, wp_get, wp_bind, wp_unwrap]
    refine ⟨fun _ _ => ?_, fun _ => trivial⟩
    rw [wp_bind, wp_ask]
    refine ⟨fun r disk' hread => ?_, fun _ _ => trivial⟩
    cases r with
    | none => exact fun bytes hno => by simp at hno
    | some bytes =>
      rw [wp_bind, set_file, wp_modify, wp_pure]
      rintro _ ⟨⟩
      rw [hfd] at hdesc
      obtain rfl := Option.some.inj hdesc
      exact ⟨fd, vnode, disk', hfd, hvnode, hread⟩
  · rw [wp_pure]
    exact fun bytes hno => by simp at hno

variable {kernel : AddressSpace} {l₁ l₂ : List (Option AddressSpace)}

theorem insert_user_area_area {size : Nat} {perm : PTEImpl}
    (hs : Consistent cfg ⟨φ, kernel, l₁ ++ some as :: l₂⟩)
    (hfit : ∀ stop, as.alloc_user_area size = some stop → stop ≤ 2 ^ 38) :
    wp Mm.anyPanic (as.insert_user_area cfg size perm)
    (fun r φ' => as.alloc_user_area size = some r.2 ∧ ∃ new,
      Area cfg ⟨φ, kernel, l₁ ++ some as :: l₂⟩ φ' r.1 new ∧
      ∀ va, r.2 - size ≤ va → floor va < ceil r.2 → InArea new va) φ := by
  have hready := hs.tracked.ready (hs.keys as (by simp))
  refine wp_mono (insert_user_area_outside hready hfit) ?_
  rintro ⟨as', stop⟩ φ' ⟨halloc, φ₁, area', new, hnew, hi, _⟩
  dsimp only at halloc hnew hi ⊢
  have hsup : Supplied cfg ⟨φ, kernel, l₁ ++ some as :: l₂⟩ φ' as' (new.map (Page.of perm)) :=
    hi.supplied hs rfl (by simp [MapArea.frames])
  refine ⟨halloc, _, ⟨hsup, ?_, fun x hx => hs.tracked.half.alloc.lt (hsup.fresh x hx).1⟩,
    fun va hlo hhi => ?_⟩
  · rw [List.map_map]
    exact hi.filled.nodup
  · have hmem : floor va ∈ (VARange.mk (stop - size) stop).pages :=
      mem_vpns.mpr ⟨Nat.div_le_div_right hlo, hhi⟩
    rw [← hnew] at hmem
    obtain ⟨x, hx, hxv⟩ := List.mem_map.mp hmem
    exact ⟨_, List.mem_map_of_mem hx, hxv⟩

theorem sys_mmap_shows {contents : τ → ι → List Byte} (hI : Lawful I contents)
    (hs : Consistent cfg ⟨s.phys, kernel, l₁ ++ some s.address_space :: l₂⟩)
    (hlimit : s.address_space.data_segment_max % PAGE_SIZE = 0)
    (hfit : ∀ stop, s.address_space.alloc_user_area length = some stop → stop ≤ 2 ^ 38)
    (hpage : length % PAGE_SIZE ≠ 0) (hslot : s.sys.inner.fd_table[fd]? = some (some f)) :
    wp (fun _ => True) (sys_mmap cfg I 0 length prot fd offset)
    (fun r s' => ∃ desc vnode bytes disk',
      s.sys.vfs.files.get f = some desc ∧ s.sys.vfs.vnodes.get desc.vnode = some vnode ∧
      I.read s.sys.vfs.disk vnode.inode desc.pos length = .ok (some bytes, disk') ∧
      ∀ k < bytes.length, byte_at cfg s'.phys.mem s'.address_space (r + k) =
        (contents s.sys.vfs.disk vnode.inode)[desc.pos + k]?) s := by
  rw [sys_mmap, wp_bind, wp_get, if_neg (by decide), wp_bind, wp_on_phys]
  refine wp_mono (insert_user_area_area hs hfit) ?_
  rintro ⟨as, va_end⟩ φ ⟨halloc, new, harea, hin⟩
  dsimp only at halloc harea hin ⊢
  have hge := alloc_user_area_ge halloc
  have haligned := alloc_user_area_aligned hlimit halloc
  rw [wp_bind, wp_modify, fill, wp_bind, wp_bind, wp_get, hslot]
  dsimp only
  rw [wp_bind, wp_unwrap]
  refine ⟨fun f' hf => ?_, fun _ => trivial⟩
  obtain rfl := Option.some.inj hf
  rw [wp_bind, wp_on_sys]
  refine wp_mono file_seek_reads ?_
  rintro pos t rfl
  rw [wp_bind, wp_unwrap]
  refine ⟨fun _ _ => ?_, fun _ => trivial⟩
  rw [wp_bind, wp_on_sys]
  refine wp_mono file_read_reads fun r t hread => ?_
  rw [wp_bind, wp_unwrap]
  refine ⟨fun bytes hbytes => ?_, fun _ => trivial⟩
  obtain ⟨desc, vnode, disk', hdesc, hvnode, hread⟩ := hread bytes hbytes
  obtain ⟨hlen, hprefix⟩ := hI.read _ _ _ _ _ _ hread
  have hlast : InArea new va_end :=
    hin va_end (Nat.sub_le _ _) (by simp only [floor, ceil, PAGE_SIZE] at hpage ⊢; omega)
  have hall : ∀ k < bytes.length, InArea new (va_end - length + k) := fun k hk =>
    hin _ (Nat.le_add_right _ _) (by simp only [floor, ceil, PAGE_SIZE] at hpage ⊢; omega)
  refine wp_call (store_bytes_area harea hall) ?_
  rintro _ s₁ ⟨has, h₁, hstored, _⟩
  dsimp only at has h₁ hstored
  subst has
  refine wp_mono (store_area h₁ hlast) ?_
  rintro _ s₂ ⟨has, _, _, _, hkeep⟩
  rw [wp_pure, has]
  refine ⟨desc, vnode, bytes, disk', hdesc, hvnode, hread, fun k hk => ?_⟩
  rw [hkeep _ (by omega) (hall k hk), hstored k hk, ← List.getElem?_drop]
  exact ((List.getElem?_eq_getElem _).trans
    (congrArg some (List.IsPrefix.getElem hprefix hk).symm)).symm

end Contents

/-- The area shows the file from the position of the descriptor on, wherever the offset is, in every
state of every run. -/
theorem mmap_shows_position (cfg : Config) (I : Inodes τ ι) (contents : τ → ι → List Byte)
    (hI : Lawful I contents) (sym : Layout) (mem : Mem) (kernel : PageTableImpl)
    (φ : Phys) (es : List Mm.Event) (os : Os) (us : List Unit)
    (hboot : PageTableImpl.boot cfg sym ⟨mem, PhyPageAllocator.new⟩ = .ok (kernel, φ))
    (hfits : Meets (Os.step cfg) (fun s (e : Mm.Event) => e.fits s = true) (Os.start kernel φ) es)
    (hrun : run (Os.step cfg) (Os.start kernel φ) es = .ok (os, us))
    (s : State τ ι) (i f fd length offset : Nat) (prot : AddressSpace.Prot)
    (hphys : s.phys = os.phys) (hspace : os.spaces[i]? = some (some s.address_space))
    (hfit : s.address_space.user_area_fits length = true) (hpage : length % PAGE_SIZE ≠ 0)
    (hslot : s.sys.inner.fd_table[fd]? = some (some f)) (r : Nat) (s' : State τ ι)
    (hok : sys_mmap cfg I 0 length prot fd offset s = .ok (r, s')) : ∃ desc vnode bytes disk',
      s.sys.vfs.files.get f = some desc ∧ s.sys.vfs.vnodes.get desc.vnode = some vnode ∧
      I.read s.sys.vfs.disk vnode.inode desc.pos length = .ok (some bytes, disk') ∧
      ∀ k < bytes.length, byte_at cfg s'.phys.mem s'.address_space (r + k) =
        (contents s.sys.vfs.disk vnode.inode)[desc.pos + k]? := by
  have hconsistent : Consistent cfg os := run_consistent hboot hfits hrun
  have haligned : ∀ as, some as ∈ os.spaces → as.data_segment_max % PAGE_SIZE = 0 :=
    run_invariant (fun s => ∀ as, some as ∈ s.spaces → as.data_segment_max % PAGE_SIZE = 0)
      (fun _ _ _ _ h hs => step_aligned h hs) (by simp [Os.start]) hrun
  have hend : ∀ stop, s.address_space.alloc_user_area length = some stop → stop ≤ 2 ^ 38 := by
    intro stop hstop
    rw [AddressSpace.user_area_fits, hstop] at hfit
    exact of_decide_eq_true hfit
  have hmem := List.mem_of_getElem? hspace
  obtain ⟨φ', kernel', spaces⟩ := os
  obtain ⟨l₁, l₂, hl, _, _⟩ := split_at hspace
  dsimp only at hl hphys
  have hs : Consistent cfg ⟨s.phys, kernel', l₁ ++ some s.address_space :: l₂⟩ := by
    rw [hphys, ← hl]
    exact hconsistent
  have hspec : wp (fun _ => True) (sys_mmap cfg I 0 length prot fd offset) _ s :=
    sys_mmap_shows hI hs (haligned _ hmem) hend hpage hslot
  exact wp_ok hspec hok

open PageTableImpl in
/-- Two bytes of the file, asked for from offset 2 on. -/
theorem mmap_shows_position_pair : ∃ kernel φ s os as r s',
    boot qemu smallLayout ⟨fun _ => 0, PhyPageAllocator.new⟩ = .ok (kernel, φ) ∧
    run (Os.step qemu) (Os.start kernel φ)
    [.from_elf (onePage 0x1000)] = .ok (s, os) ∧ s.spaces[0]? = some (some as) ∧
    sys_mmap qemu plainFiles 0 2 ⟨true, true, false⟩ 0 2 (fourBytes s.phys as) = .ok (r, s') ∧
    byte_at qemu s'.phys.mem s'.address_space (r + 1) = some 20 := by
  obtain ⟨kernel, φ, s, os, hboot, hfits, hrun, hseen⟩ :=
    small_run_meets [.from_elf (onePage 0x1000)]
      (fun s e => e.fits s = true) (fun s => (s.spaces[0]?).join.any (fun as => as.user_area_fits 2 &&
        (sys_mmap qemu plainFiles 0 2 ⟨true, true, false⟩ 0 2
          (fourBytes s.phys as)).toOption.isSome) = true)
      (by decide +kernel)
  obtain ⟨as, has, hseen⟩ := (Option.any_eq_true _ _).mp hseen
  obtain ⟨hfit, hmap⟩ := Bool.and_eq_true_iff.mp hseen
  obtain ⟨⟨r, s'⟩, hok⟩ := ok_of_isSome hmap
  have has := Option.join_eq_some_iff.mp has
  have hslot : (fourBytes s.phys as).sys.inner.fd_table[0]? = some (some 0) := rfl
  obtain ⟨desc, vnode, bytes, disk', hdesc, hvnode, hread, hbytes⟩ :=
    mmap_shows_position qemu plainFiles
      (fun _ file => file) plainFiles_lawful smallLayout (fun _ => 0) kernel φ
      [.from_elf (onePage 0x1000)] s os hboot hfits hrun (fourBytes s.phys as) 0 0 0 2 2
      ⟨true, true, false⟩ rfl has hfit (by decide) hslot r s' hok
  obtain rfl : ⟨⟨0⟩, 0, 0⟩ = desc := Option.some.inj hdesc
  obtain rfl : ⟨none, [], [10, 20, 30, 40]⟩ = vnode := Option.some.inj hvnode
  obtain ⟨hbytes', _⟩ := Prod.mk.inj (Except.ok.inj hread)
  obtain rfl := Option.some.inj hbytes'
  exact ⟨kernel, φ, s, os, as, r, s', hboot, hrun, has, hok, hbytes 1 (by decide)⟩

end HectoOs.Mmap
