import HectoOs.Mm.PageTable

/-! # Address spaces (`mm/address_space.rs`, `syscall/mm.rs`)

`areas` is a `BTreeMap` keyed by ranges; two ranges compare equal if one contains the other. Which
of several equal keys a search meets first depends on the tree: `shape` is that of `areas`.
-/

open HectoOs.Lib

namespace HectoOs.Mm

structure AddressSpace where
  page_table : PageTableImpl
  areas : List (VARange × MapArea)
  shape : SearchTree.Shape
  data_segment_end : Nat
  data_segment_max : Nat
  deriving Repr

/-- The frames an area holds. -/
def MapArea.frames (area : MapArea) : List Nat := area.data_frames.map (·.2)

/-- `round_up!(value, PAGE_SIZE)`; the sum can overflow. -/
@[irreducible] def checked_round_up (value : Nat) : Option Nat :=
  if value + PAGE_SIZE < USIZE then some (round_up value) else none

/-- A sum of addresses; it can overflow. -/
@[irreducible] def checked_add (a b : Nat) : Option Nat :=
  if a + b < USIZE then some (a + b) else none

/-- A program header of an ELF file. -/
structure ProgramHeader where
  load : Bool
  virtual_addr : Nat
  mem_size : Nat
  offset : Nat
  file_size : Nat
  is_read : Bool
  is_write : Bool
  is_execute : Bool
  deriving Repr

/-- An ELF file: its program headers and its bytes. -/
structure ElfFile where
  program_iter : List ProgramHeader
  file : List Byte

namespace ProgramHeader

/-- The addresses of a segment, when their end can be computed. -/
def va_range (ph : ProgramHeader) : VARange := ⟨ph.virtual_addr, ph.virtual_addr + ph.mem_size⟩

def map_perm (ph : ProgramHeader) : PTEImpl :=
  ((PTEImpl.USER.set .READABLE ph.is_read).set .WRITABLE ph.is_write).set .EXECUTABLE ph.is_execute

end ProgramHeader

/-- `File::read_exact` of `n` bytes from `pos` on. -/
def read_exact (file : List Byte) (pos n : Nat) : Option (List Byte) :=
  if n = 0 then some [] else if pos + n ≤ file.length then some ((file.drop pos).take n) else none

namespace AddressSpace

abbrev BRK_MAX : Nat := 0x3000

/-- `areas` as it is searched. -/
def tree (as : AddressSpace) : BinaryTree (VARange × MapArea) := SearchTree.fill as.shape as.areas

theorem inorder_tree (as : AddressSpace) : SearchTree.inorder as.tree = as.areas :=
  SearchTree.inorder_fill _ _

section Search

variable {as : AddressSpace} {k : VARange} {e : VARange × MapArea} {l : List (VARange × MapArea)}

theorem find_spec (h : SearchTree.find VARange.cmp k as.tree = some e) :
    ∃ l₁ l₂, as.areas = l₁ ++ e :: l₂ ∧
    k.cmp e.1 = .eq ∧ ∀ area, SearchTree.update VARange.cmp k area as.tree =
      l₁ ++ (e.1, area) :: l₂ := by
  rw [← as.inorder_tree]
  exact SearchTree.find_spec h

theorem remove_spec (h : SearchTree.remove VARange.cmp k as.tree = some (e, l)) :
    ∃ l₁ l₂, as.areas = l₁ ++ e :: l₂ ∧ l = l₁ ++ l₂ ∧ k.cmp e.1 = .eq := by
  rw [← as.inorder_tree]
  exact SearchTree.remove_spec h

theorem insert_perm (area : MapArea) (h : ∀ a ∈ as.areas, k.cmp a.1 ≠ .eq) :
    (SearchTree.insert VARange.cmp k area as.tree).1.Perm ((k, area) :: as.areas) := by
  rw [← as.inorder_tree] at h ⊢
  exact SearchTree.insert_perm area h

theorem remove_perm (h : SearchTree.remove VARange.cmp k as.tree = some (e, l)) :
    as.areas.Perm (e :: l) := by
  rw [← as.inorder_tree]
  exact SearchTree.remove_perm h

theorem mem_insert {area : MapArea} (h : e ∈ (SearchTree.insert VARange.cmp k area as.tree).1) :
    e.1 = k ∨ ∃ a ∈ as.areas, e.1 = a.1 := by
  rw [← as.inorder_tree]
  exact SearchTree.mem_insert h

end Search

/-- The frames of all areas. -/
def frames (as : AddressSpace) : List Nat := as.areas.flatMap (·.2.frames)

/-- All frame trackers of the address space. -/
def trackers (as : AddressSpace) : List Nat := as.page_table.tables ++ as.frames

/-- Dropping the address space. -/
def drop (as : AddressSpace) : Kernel Unit := drop_frames as.trackers

variable (cfg : Config)

/-- `self.areas.insert(va_range, area)`; a replaced area is dropped. -/
def insert_area (as : AddressSpace) (va_range : VARange) (area : MapArea) :
    Kernel AddressSpace := do
  let (areas, old) := SearchTree.insert VARange.cmp va_range area as.tree
  let shape := cfg.balance.inserted as.shape (as.areas.map (·.1)) va_range
  drop_frames (old.toList.flatMap MapArea.frames)
  return { as with areas, shape }

def new_kernel (kernel_root : Nat) : Kernel AddressSpace := do
  let page_table ← PageTableImpl.new_kernel kernel_root
  let page_table ← cfg.devices.foldlM (map_device cfg) page_table
  return { page_table, areas := [], shape := .nil, data_segment_end := 1, data_segment_max := 1 }

/-! ## Fork -/

/-- The pages of the area become copy-on-write. -/
def is_cow (map_perm : PTEImpl) : Bool := map_perm.contains .WRITABLE || map_perm.contains .COW

/-- The flags both address spaces use for the pages of an area. -/
def fork_flags (map_perm : PTEImpl) : PTEImpl :=
  if is_cow map_perm then (map_perm.remove .WRITABLE).insert .COW else map_perm

/-- The loop body of `fork`: the page of the child, and if it is copy-on-write that of the
parent. -/
def fork_page (parent : PageTableImpl) (map_perm : PTEImpl) (child : PageTableImpl)
    (page : Nat × Nat) :
    Kernel PageTableImpl := do
  let child ← child.map_one cfg page.1 page.2 (fork_flags map_perm)
  if is_cow map_perm then
    parent.remap_one cfg page.1 page.2 (fork_flags map_perm)
  return child

/-- `area.clone()`: each tracker is cloned. -/
def clone_area (area : MapArea) : Kernel MapArea := do
  area.frames.foldlM (fun _ p => PhyPageAllocator.clone p) ()
  return area

def fork_area (parent : PageTableImpl) (new_as : AddressSpace) (entry : VARange × MapArea) :
    Kernel AddressSpace := do
  let page_table ← entry.2.data_frames.foldlM
    (fork_page cfg parent entry.2.map_perm) new_as.page_table
  let area ← clone_area entry.2
  insert_area cfg { new_as with page_table } entry.1 area

/-- `fork`, with the root of `KERNEL_PAGE_TABLE`. The address space keeps its areas; its entries in
memory change. -/
def fork (kernel_root : Nat) (as : AddressSpace) : Kernel AddressSpace := do
  let new_as ← new_kernel cfg kernel_root
  let new_as ← as.areas.foldlM (fork_area cfg as.page_table) new_as
  return { new_as with
    data_segment_end := as.data_segment_end, data_segment_max := as.data_segment_max }

/-! ## Page faults -/

/-- The frame of a copy-on-write page that others use too is copied. -/
def copy_frame (pte : Slot) (frame : Nat) : Kernel Nat := do
  let new_frame ← frame_alloc
  let e := read_pte (← get).mem pte.table pte.index
  modify fun φ => φ.set_mem (copyBytes φ.mem (frame_va new_frame) (frame_va (e.ppn cfg)) 4096)
  PageTableImpl.set_pte pte (e.set_ppn new_frame)
  PhyPageAllocator.dealloc frame
  return new_frame

/-- The area has the frame `frame` for `vpn`, instead of the one it had. -/
def set_frame (as : AddressSpace) (va vpn : Nat) (area : MapArea) (frame : Nat) : AddressSpace :=
  let area := { area with
    data_frames := SearchTree.update compare vpn frame (SearchTree.spine area.data_frames) }
  { as with areas := SearchTree.update VARange.cmp ⟨va, va⟩ area as.tree }

def handle_pagefault (as : AddressSpace) (va : Nat) : Kernel AddressSpace := do
  let vpn := floor va
  let φ ← get
  let pte ← Exec.unwrap .assert (as.page_table.find_pte cfg φ.mem vpn)
  let e := read_pte φ.mem pte.table pte.index
  assert (e.contains .COW)
  PageTableImpl.set_pte pte ((e.remove .COW).insert .WRITABLE)
  let (_, area) ← Exec.unwrap .assert (SearchTree.find VARange.cmp ⟨va, va⟩ as.tree)
  let (_, frame) ← Exec.unwrap
    .assert (SearchTree.find compare vpn (SearchTree.spine area.data_frames))
  let count ← PhyPageAllocator.get_ref_count frame
  if count > 1 then
    let new_frame ← copy_frame cfg pte frame
    return set_frame as va vpn area new_frame
  else
    return as

/-! ## Areas -/

/-- `remove_area`: the pages of the key are unmapped, then the area is dropped. -/
def remove_area (as : AddressSpace) (va : Nat) : Kernel AddressSpace := do
  let (entry, areas) ← Exec.unwrap .assert (SearchTree.remove VARange.cmp ⟨va, va⟩ as.tree)
  let shape := cfg.balance.removed as.shape (as.areas.map (·.1)) ⟨va, va⟩
  let vpn_range ← Exec.unwrap .assert entry.1.vpn_range
  vpn_range.foldlM (fun _ vpn => as.page_table.unmap_one cfg vpn) ()
  drop_frames entry.2.frames
  return { as with areas, shape }

/-- The area that `insert_framed_area` and `insert_kernel_stack_area` map and insert. -/
def map_and_insert (as : AddressSpace) (va_range : VARange) (area : MapArea)
    (data : Option (List Byte)) :
    Kernel AddressSpace := do
  let (page_table, area) ← as.page_table.map cfg va_range area data
  insert_area cfg { as with page_table } va_range area

def insert_framed_area (as : AddressSpace) (va_range : VARange) (map_perm : PTEImpl)
    (data : Option (List Byte)) : Kernel AddressSpace :=
  map_and_insert cfg as va_range ⟨[], .Framed, map_perm⟩ data

def insert_kernel_stack_area (as : AddressSpace) (va_range : VARange) : Kernel AddressSpace :=
  map_and_insert cfg as va_range ⟨[], .KernelStack, .READABLE ||| .WRITABLE⟩ none

/-! ## ELF files -/

/-- The slice of a page that a segment fills from the file ends here. -/
def data_end (bss_start vpn : Nat) : Nat :=
  if vpn_va (vpn + 1) ≤ bss_start then 4096
  else if bss_start ≤ vpn_va vpn then 0
  else page_offset bss_start

/-- The slice of a page that a segment fills with zeros ends here. -/
def bss_end (stop vpn : Nat) : Nat := if vpn_va (vpn + 1) ≤ stop then 4096 else page_offset stop

/-- What the loop over the pages of a segment changes: the tables, the area, the position in the
file, and where the next page starts. -/
structure Loading where
  page_table : PageTableImpl
  area : MapArea
  pos : Nat
  start : Nat

/-- The loop body of `from_elf` for the page `vpn` of a segment. -/
def load_page (file : List Byte) (ph : ProgramHeader) (s : Loading) (vpn : Nat) :
    Kernel Loading := do
  let dst_frame ← frame_alloc
  let stop := data_end (ph.virtual_addr + ph.file_size) vpn
  let stop2 := bss_end ph.va_range.stop vpn
  -- `data[start..end]` and `data[end..end2]`
  assert (s.start ≤ stop)
  let bytes ← Exec.unwrap .assert (read_exact file s.pos (stop - s.start))
  modify fun φ => φ.set_mem (writeBytes φ.mem (frame_va dst_frame + s.start) bytes)
  assert (stop ≤ stop2)
  modify fun φ => φ.set_mem (zeroBytes φ.mem (frame_va dst_frame + stop) (stop2 - stop))
  let page_table ← s.page_table.map_one cfg vpn dst_frame ph.map_perm
  let area ← s.area.insert_frame vpn dst_frame
  return { page_table, area, pos := s.pos + (stop - s.start), start := 0 }

/-- The loop body of `from_elf` for one program header. -/
def load_segment (file : List Byte) (as : AddressSpace) (ph : ProgramHeader) :
    Kernel AddressSpace := do
  if ph.load then
    assert (ph.virtual_addr + ph.mem_size < USIZE)
    assert (ph.virtual_addr + ph.file_size < USIZE)
    let vpn_range ← Exec.unwrap .assert ph.va_range.vpn_range
    let s ← vpn_range.foldlM (load_page cfg file ph)
      ⟨as.page_table, ⟨[], .Framed, ph.map_perm⟩, ph.offset, page_offset ph.virtual_addr⟩
    insert_area cfg { as with page_table := s.page_table, data_segment_end := ph.va_range.stop }
      ph.va_range s.area
  else
    return as

def from_elf (kernel_root : Nat) (elf : ElfFile) : Kernel AddressSpace := do
  let as ← new_kernel cfg kernel_root
  let as ← elf.program_iter.foldlM (load_segment cfg elf.file) as
  let stop ← Exec.unwrap .assert (checked_round_up as.data_segment_end)
  let data_segment_max ← Exec.unwrap .assert (checked_add stop BRK_MAX)
  return { as with data_segment_max }

/-! ## System calls -/

/-- The loop of `alloc_user_area` over the remaining keys. -/
def alloc_user_area_loop (size : Nat) : List (VARange × MapArea) → Nat → Option Nat
  | [], va_end => some va_end
  | (r, _) :: areas, va_end => do
    let gap ← checked_add va_end PAGE_SIZE
    if gap ≤ r.start then
      return va_end
    else
      let stop ← checked_round_up r.stop
      let next ← checked_add stop PAGE_SIZE
      let next ← checked_add next size
      alloc_user_area_loop size areas (max va_end next)

/-- `alloc_user_area`: the end of the free range. -/
def alloc_user_area (as : AddressSpace) (size : Nat) : Option Nat := do
  let va_end ← checked_add as.data_segment_max PAGE_SIZE
  let va_end ← checked_add va_end size
  alloc_user_area_loop size as.areas va_end

/-- `brk`, without the conversion of the result to `isize`. -/
def brk (as : AddressSpace) (addr : Nat) : Kernel (AddressSpace × Int) := do
  let cur_end ← Exec.unwrap .assert (checked_round_up as.data_segment_end)
  if addr = 0 then
    return (as, cur_end)
  else if addr > as.data_segment_max then
    return (as, -1)
  else
    let (entry, areas) ← Exec.unwrap .assert
      (SearchTree.remove VARange.cmp ⟨as.data_segment_end, as.data_segment_end⟩ as.tree)
    let shape :=
      cfg.balance.removed as.shape (as.areas.map (·.1)) ⟨as.data_segment_end, as.data_segment_end⟩
    let (page_table, area) ←
      if cur_end ≤ addr then do
        let vpn_range ← Exec.unwrap .assert (VARange.vpn_range ⟨cur_end, addr⟩)
        vpn_range.foldlM (PageTableImpl.map_frame cfg false) (as.page_table, entry.2)
      else
        pure (as.page_table, entry.2)
    let as ← insert_area cfg { as with page_table, areas, shape, data_segment_end := addr }
      ⟨entry.1.start, addr⟩ area
    return (as, addr)

/-- The bits of `PROT` that `sys_mmap` looks at. -/
structure Prot where
  read : Bool
  write : Bool
  exec : Bool
  deriving DecidableEq, Repr

def Prot.map_perm (prot : Prot) : PTEImpl :=
  ((PTEImpl.USER.set .READABLE prot.read).set .WRITABLE prot.write).set .EXECUTABLE prot.exec

/-- `sys_mmap` at a given address: the pages get new flags. -/
def mmap_fixed (as : AddressSpace) (addr length : Nat) (prot : Prot) : Kernel Unit := do
  let stop ← Exec.unwrap .assert (checked_add addr length)
  let vpn_range ← Exec.unwrap .assert (VARange.vpn_range ⟨addr, stop⟩)
  vpn_range.foldlM (fun _ vpn => as.page_table.modify_flags cfg vpn prot.map_perm) ()

/-- A framed area of `size` bytes at the place `alloc_user_area` finds, and its end: `sys_mmap`
without an address, and the user stack of a thread. -/
def insert_user_area (as : AddressSpace) (size : Nat) (map_perm : PTEImpl) :
    Kernel (AddressSpace × Nat) := do
  let va_end ← Exec.unwrap .assert (alloc_user_area as size)
  let as ← insert_framed_area cfg as ⟨va_end - size, va_end⟩ map_perm none
  return (as, va_end)

/-- `sys_mmap`, up to the contents of a mapped file, which are stores to the new pages. -/
def sys_mmap (as : AddressSpace) (addr length : Nat) (prot : Prot) :
    Kernel (AddressSpace × Nat) := do
  if addr ≠ 0 then
    mmap_fixed cfg as addr length prot
    return (as, addr)
  else
    let (as, va_end) ← insert_user_area cfg as length prot.map_perm
    return (as, va_end - length)

end AddressSpace

/-- `get_kernel_stack_range`; both operations can overflow. -/
def get_kernel_stack_range (tid : Nat) : Option VARange :=
  if tid * KERNEL_STACK_ALIGN_SIZE < USIZE ∧
  tid * KERNEL_STACK_ALIGN_SIZE + KERNEL_STACK_SIZE ≤ KERNEL_STACK_TOP then
    some ⟨KERNEL_STACK_TOP - tid * KERNEL_STACK_ALIGN_SIZE - KERNEL_STACK_SIZE,
      KERNEL_STACK_TOP - tid * KERNEL_STACK_ALIGN_SIZE⟩
  else none

end HectoOs.Mm
