import HectoOs.Lib.Radix
import HectoOs.Mm.PhysicalPageProofs
import HectoOs.Mm.Pte

/-! # The page table (`mm/page_table.rs`, `arch/riscv/page_table.rs`)

A table is a frame with 512 entries of eight bytes. Everything is read from and written to memory.
-/

open HectoOs.Lib

namespace HectoOs.Mm

/-- A page table: the frame of its root, and the frames of its other tables. -/
structure PageTableImpl where
  root : Nat
  frames : List Nat
  deriving Repr

/-- `&mut PTEImpl`: an entry of a table. -/
structure Slot where
  table : Nat
  index : Fin 512

def pte_addr (t : Nat) (i : Fin 512) : Nat := frame_va t + 8 * i.val

def read_pte (m : Mem) (t : Nat) (i : Fin 512) : PTEImpl :=
  BitVec.ofNat 64 (load64 m (pte_addr t i))

def write_pte (m : Mem) (t : Nat) (i : Fin 512) (e : PTEImpl) : Mem :=
  store64 m (pte_addr t i) e.toNat

/-- One index of `VPN::indexes`. -/
def vpn_index (vpn shift : Nat) : Fin 512 :=
  ⟨(vpn >>> shift) &&& 511, Nat.lt_of_le_of_lt Nat.and_le_right (by omega)⟩

/-- `VPN::indexes`. -/
def indexes (vpn : Nat) : List (Fin 512) := [vpn_index vpn 18, vpn_index vpn 9, vpn_index vpn 0]

namespace PageTableImpl

/-- The frames that hold tables. -/
def tables (pt : PageTableImpl) : List Nat := pt.root :: pt.frames

variable (cfg : Config)

/-- The loop of `find_pte` over the remaining indices. -/
def find_pte_loop (m : Mem) (pte : Slot) : List (Fin 512) → Option Slot
  | [] => if (read_pte m pte.table pte.index).is_valid then some pte else none
  | idx :: idxs =>
    let e := read_pte m pte.table pte.index
    if e.is_valid then find_pte_loop m ⟨e.ppn cfg, idx⟩ idxs else none

def find_pte (m : Mem) (pt : PageTableImpl) (vpn : Nat) : Option Slot :=
  find_pte_loop cfg m ⟨pt.root, vpn_index vpn 18⟩ (indexes vpn).tail

/-- A new, empty table that the entry `pte` then points to. -/
def create_table (pt : PageTableImpl) (pte : Slot) : Kernel PageTableImpl := do
  let frame ← frame_alloc
  modify fun φ => φ.set_mem (zeroBytes φ.mem (frame_va frame) 4096)
  modify fun φ => φ.set_mem (write_pte φ.mem pte.table pte.index (.new frame .VALID))
  return { pt with frames := pt.frames ++ [frame] }

/-- The loop of `find_pte_create` over the remaining indices. -/
def find_pte_create_loop (pt : PageTableImpl) (pte : Slot) :
    List (Fin 512) → Kernel (PageTableImpl × Slot)
  | [] => return (pt, pte)
  | idx :: idxs => do
    let e := read_pte (← get).mem pte.table pte.index
    if e.is_valid then
      find_pte_create_loop pt ⟨e.ppn cfg, idx⟩ idxs
    else
      let pt ← create_table pt pte
      let e := read_pte (← get).mem pte.table pte.index
      find_pte_create_loop pt ⟨e.ppn cfg, idx⟩ idxs

def find_pte_create (pt : PageTableImpl) (vpn : Nat) : Kernel (PageTableImpl × Slot) :=
  find_pte_create_loop cfg pt ⟨pt.root, vpn_index vpn 18⟩ (indexes vpn).tail

/-- `new_kernel`, with the root of `KERNEL_PAGE_TABLE`: the lower half is empty, the upper half is
that of the kernel. -/
def new_kernel (kernel_root : Nat) : Kernel PageTableImpl := do
  let frame ← frame_alloc
  modify fun φ => φ.set_mem (zeroBytes φ.mem (frame_va frame) 2048)
  modify fun φ =>
    φ.set_mem (copyBytes φ.mem (frame_va frame + 2048) (frame_va kernel_root + 2048) 2048)
  return { root := frame, frames := [] }

def translate_va (m : Mem) (pt : PageTableImpl) (va : Nat) : Option Nat :=
  (find_pte cfg m pt (floor va)).map fun pte =>
    (read_pte m pte.table pte.index).ppn cfg * PAGE_SIZE + page_offset va

/-- The entry that `find_pte` must find, and that must be valid. -/
def find_valid (pt : PageTableImpl) (vpn : Nat) : Kernel Slot := do
  let φ ← get
  let pte ← Exec.unwrap .assert (find_pte cfg φ.mem pt vpn)
  assert (read_pte φ.mem pte.table pte.index).is_valid
  return pte

def set_pte (pte : Slot) (e : PTEImpl) : Kernel Unit :=
  modify fun φ => φ.set_mem (write_pte φ.mem pte.table pte.index e)

def remap_one (pt : PageTableImpl) (vpn ppn : Nat) (flags : PTEImpl) : Kernel Unit := do
  let pte ← find_valid cfg pt vpn
  set_pte pte (.new ppn (flags ||| .VALID))

def modify_flags (pt : PageTableImpl) (vpn : Nat) (flags : PTEImpl) : Kernel Unit := do
  let pte ← find_valid cfg pt vpn
  let ppn := (read_pte (← get).mem pte.table pte.index).ppn cfg
  set_pte pte (.new ppn (flags ||| .VALID))

def map_one (pt : PageTableImpl) (vpn ppn : Nat) (flags : PTEImpl) : Kernel PageTableImpl := do
  let (pt, pte) ← find_pte_create cfg pt vpn
  assert !(read_pte (← get).mem pte.table pte.index).is_valid
  set_pte pte (.new ppn (flags ||| .VALID))
  return pt

def unmap_one (pt : PageTableImpl) (vpn : Nat) : Kernel Unit := do
  let pte ← find_valid cfg pt vpn
  set_pte pte .EMPTY

end PageTableImpl

/-! ## Mapping an area -/

inductive MapType where
  | Linear
  | Framed
  | Device
  | KernelStack
  deriving DecidableEq, Repr

/-- `MapArea`; `data_frames` is a map from pages to frame trackers. -/
structure MapArea where
  data_frames : List (Nat × Nat)
  map_type : MapType
  map_perm : PTEImpl
  deriving Repr

/-- Dropping what an insertion replaced. -/
def drop_frames (frames : List Nat) : Kernel Unit :=
  frames.foldlM (fun _ p => PhyPageAllocator.dealloc p) ()

/-- `area.data_frames.insert(vpn, frame)`. -/
def MapArea.insert_frame (area : MapArea) (vpn frame : Nat) : Kernel MapArea := do
  let (data_frames, old) := SearchTree.insert compare vpn frame (SearchTree.spine area.data_frames)
  drop_frames old.toList
  return { area with data_frames }

namespace PageTableImpl

variable (cfg : Config)

/-- The body of the loops that map a page to a frame of its own. -/
def map_frame (fill : Bool) (s : PageTableImpl × MapArea) (vpn : Nat) :
    Kernel (PageTableImpl × MapArea) := do
  let dst_frame ← frame_alloc
  let pt ← map_one cfg s.1 vpn dst_frame s.2.map_perm
  if fill then
    modify fun φ => φ.set_mem (zeroBytes φ.mem (frame_va dst_frame) 4096)
  let area ← s.2.insert_frame vpn dst_frame
  return (pt, area)

/-- The body of the loop of a linear mapping; the page number of the frame is checked. -/
def map_linear (perm : PTEImpl) (pt : PageTableImpl) (vpn : Nat) : Kernel PageTableImpl := do
  assert (KERNEL_VPN_OFFSET ≤ vpn)
  map_one cfg pt vpn (vpn_ppn vpn) perm

def map (pt : PageTableImpl) (va_range : VARange) (area : MapArea) (data : Option (List Byte)) :
    Kernel (PageTableImpl × MapArea) := do
  let vpn_range ← Exec.unwrap .assert va_range.vpn_range
  match area.map_type, data with
  | .Linear, _ =>
    let pt ← vpn_range.foldlM (map_linear cfg area.map_perm) pt
    match data with
    | some data => modify fun φ => φ.set_mem (writeBytes φ.mem va_range.start data)
    | none => pure ()
    return (pt, area)
  -- data is copied nowhere yet: `todo!()`
  | .Framed, some (_ :: _) => Exec.panic .assert
  -- a bss segment
  | .Framed, some [] => vpn_range.foldlM (map_frame cfg true) (pt, area)
  -- a user stack, or `mmap`
  | .Framed, none => vpn_range.foldlM (map_frame cfg false) (pt, area)
  | .Device, _ =>
    let pt ← vpn_range.foldlM (fun pt vpn => map_one cfg pt vpn vpn area.map_perm) pt
    return (pt, area)
  | .KernelStack, some _ => Exec.panic .assert
  | .KernelStack, none => vpn_range.foldlM (map_frame cfg false) (pt, area)

end PageTableImpl

/-! ## The kernel's page table -/

abbrev KERNEL_STACK_SIZE : Nat := 2 ^ 13
abbrev KERNEL_STACK_ALIGN_SIZE : Nat := 2 ^ 14
abbrev KERNEL_STACK_TOP : Nat := USIZE - KERNEL_STACK_ALIGN_SIZE

/-- The symbols of the linker script, and the end of memory. All of it lies in the linear mapping,
from the start of the memory on and below the last gibibyte, which is the place of the kernel
stacks. -/
structure Layout where
  stext : Nat
  etext : Nat
  srodata : Nat
  erodata : Nat
  sdata : Nat
  edata : Nat
  sbss_with_stack : Nat
  ebss : Nat
  ekernel : Nat
  memory_end : Nat
  above : ∀ start ∈ [stext, srodata, sdata, sbss_with_stack, ekernel], MEMORY_START ≤ start
  below : ∀ stop ∈ [etext, erodata, edata, ebss, memory_end], stop ≤ 0xFFFF_FFFF_C000_0000

/-- The areas of the kernel with their permissions. -/
def Layout.areas (sym : Layout) : List (VARange × PTEImpl) :=
  [(⟨sym.stext, sym.etext⟩, .READABLE ||| .EXECUTABLE),
    (⟨sym.srodata, sym.erodata⟩, .READABLE),
    (⟨sym.sdata, sym.edata⟩, .READABLE ||| .WRITABLE),
    (⟨sym.sbss_with_stack, sym.ebss⟩, .READABLE ||| .WRITABLE),
    (⟨sym.ekernel, sym.memory_end⟩, .READABLE ||| .WRITABLE)]

/-- The ranges of the devices. -/
def Config.devices (cfg : Config) : List VARange := cfg.MMIO.map fun d => ⟨d.1, d.1 + d.2⟩

/-- Maps an area for the kernel and forgets the area. -/
def map_area (cfg : Config) (map_type : MapType) (pt : PageTableImpl) (va_range : VARange)
    (map_perm : PTEImpl) :
    Kernel PageTableImpl := do
  let (pt, _) ← pt.map cfg va_range ⟨[], map_type, map_perm⟩ none
  return pt

def map_device (cfg : Config) (pt : PageTableImpl) (va_range : VARange) : Kernel PageTableImpl :=
  map_area cfg .Device pt va_range (.READABLE ||| .WRITABLE)

def kernel_page_table (cfg : Config) (sym : Layout) : Kernel PageTableImpl := do
  let frame ← frame_alloc
  modify fun φ => φ.set_mem (zeroBytes φ.mem (frame_va frame) 4096)
  let pt : PageTableImpl := { root := frame, frames := [] }
  let pt ← sym.areas.foldlM (fun pt area => map_area cfg .Linear pt area.1 area.2) pt
  let pt ← cfg.devices.foldlM (map_device cfg) pt
  -- the table of the kernel stacks
  pt.create_table ⟨pt.root, vpn_index (floor KERNEL_STACK_TOP) 18⟩

end HectoOs.Mm
