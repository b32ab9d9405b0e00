import HectoOs.Heap.SlabClass
import HectoOs.Mm.KernelStacks
import HectoOs.Mm.PageTableMap
import HectoOs.Process.UserStack

/-! # The top of a kernel stack (`process/thread.rs`, `trap.asm`)

A pointer to the thread stands at the end of its kernel stack, and the frame of the trap from user
mode below it. Four places compute where that is.
-/

open HectoOs.Lib HectoOs.Mm

namespace HectoOs.KernelStack

open UserStack (checked_sub)

/-! ## In Rust -/

abbrev KERNEL_STACK_GUARD_PAGE_SIZE : Nat := KERNEL_STACK_ALIGN_SIZE - KERNEL_STACK_SIZE

abbrev THREAD_PTR_OFFSET : Nat := 8

/-- `TrapFrameImpl`: 32 registers, `sstatus` and `sepc`. -/
abbrev TRAP_FRAME_WORDS : Nat := 32 + 1 + 1

abbrev TRAP_FRAME_OFFSET : Nat := THREAD_PTR_OFFSET + 8 * TRAP_FRAME_WORDS

/-- `round_up!`, whose sum can overflow. -/
def round_up (value boundary : Nat) : Option Nat :=
  (checked_add value boundary).map fun _ => Slab.round_up value boundary

def get_cur_kernel_stack_top (sp : Nat) : Option Nat := round_up sp KERNEL_STACK_ALIGN_SIZE

/-- `get_current_trapframe`, from the stack pointer. -/
def get_current_trapframe (sp : Nat) : Option Nat := do
  let top ← get_cur_kernel_stack_top sp
  checked_sub top TRAP_FRAME_OFFSET

/-- `Thread::get_trapframe`, from the identifier of the thread. -/
def get_trapframe (tid : Nat) : Option Nat := do
  let kernel_stack_top ← checked_sub KERNEL_STACK_TOP (tid * KERNEL_STACK_ALIGN_SIZE)
  checked_sub kernel_stack_top TRAP_FRAME_OFFSET

/-! ## In assembly -/

/-- The registers that `__trap` and `__restore` move a stack pointer between. -/
structure Regs where
  sp : BitVec 64
  sscratch : BitVec 64
  deriving DecidableEq, Repr

/-- `TRAP_FRAME_SIZE * REG_SIZE`. -/
abbrev FRAME_BYTES : BitVec 64 := 34 * 8

/-- `__trap`, up to the call of `handle_trap`: the stack pointer is the frame, and the old one is
saved there. -/
def trap (r : Regs) : Regs × BitVec 64 :=
  -- csrrw sp, sscratch, sp
  let r : Regs := ⟨r.sscratch, r.sp⟩
  let sp := if r.sp ≠ 0 then r.sp else r.sscratch
  -- csrrw t2, sscratch, x0
  (⟨sp - FRAME_BYTES, 0⟩, r.sscratch)

/-- `__restore` of a frame with the stack pointer `x2`; `spp` says that the trap came from the
kernel. -/
def restore (spp : Bool) (x2 : BitVec 64) (r : Regs) : Regs :=
  ⟨x2, if spp then r.sscratch else r.sp + FRAME_BYTES⟩

/-! ## They agree -/

section Geometry

variable {tid tid' sp va : Nat} {r r' : VARange}

/-- The end of a stack, which is a multiple of the alignment and not the last one below 2^64. -/
structure Stack (tid : Nat) (r : VARange) : Prop where
  start : r.start + 2 ^ 13 = r.stop
  stop : r.stop = 2 ^ 14 * (2 ^ 50 - 1 - tid)
  lt : tid < 2 ^ 16 - 1

theorem range_stack (ht : tid < MAX_TID) (h : get_kernel_stack_range tid = some r) :
    Stack tid r := by
  have hr := stack_range_eq h
  simp only [MAX_TID] at ht
  subst hr
  refine ⟨?_, ?_, by omega⟩ <;> dsimp only <;> omega

namespace Stack

variable (h : Stack tid r)
include h

theorem bounds : 2 ^ 64 - 2 ^ 30 + 2 ^ 14 ≤ r.stop ∧ r.stop ≤ 2 ^ 64 - 2 ^ 14 := by
  have hstop := h.stop
  have hlt := h.lt
  omega

theorem offset_le : TRAP_FRAME_OFFSET ≤ r.stop := by
  have hbounds := h.bounds
  simp only [TRAP_FRAME_OFFSET, THREAD_PTR_OFFSET, TRAP_FRAME_WORDS]
  omega

theorem frame_end :
    r.stop - TRAP_FRAME_OFFSET + TRAP_FRAME_WORDS * 8 = r.stop - THREAD_PTR_OFFSET := by
  have hle := h.offset_le
  simp only [TRAP_FRAME_OFFSET, THREAD_PTR_OFFSET, TRAP_FRAME_WORDS] at *
  omega

theorem round_up_eq (hlo : r.start ≤ sp) (hhi : sp < r.stop) :
    get_cur_kernel_stack_top sp = some r.stop := by
  have hstart := h.start
  have hstop := h.stop
  have hbounds := h.bounds
  have hlt : sp + KERNEL_STACK_ALIGN_SIZE < USIZE := by
    simp only [KERNEL_STACK_ALIGN_SIZE, USIZE]
    omega
  rw [get_cur_kernel_stack_top, round_up, checked_add_of_lt hlt, Option.map_some, Slab.round_up_pow]
  congr 1
  omega

theorem trapframe_eq (hlo : r.start ≤ sp) (hhi : sp < r.stop) :
    get_current_trapframe sp = some (r.stop - TRAP_FRAME_OFFSET) := by
  rw [get_current_trapframe, h.round_up_eq hlo hhi]
  exact if_pos h.offset_le

theorem thread_trapframe_eq : get_trapframe tid = some (r.stop - TRAP_FRAME_OFFSET) := by
  have hstop := h.stop
  have hlt := h.lt
  have htop : checked_sub KERNEL_STACK_TOP (tid * KERNEL_STACK_ALIGN_SIZE) = some r.stop := by
    simp only [KERNEL_STACK_TOP, KERNEL_STACK_ALIGN_SIZE, USIZE]
    rw [checked_sub, if_pos (by omega)]
    congr 1
    omega
  rw [get_trapframe, htop]
  exact if_pos h.offset_le

theorem apart (h' : Stack tid' r') (hne : tid' ≠ tid) :
    r.stop + KERNEL_STACK_GUARD_PAGE_SIZE ≤ r'.start ∨
    r'.stop + KERNEL_STACK_GUARD_PAGE_SIZE ≤ r.start := by
  have h₁ := h.start
  have h₂ := h.stop
  have h₃ := h.lt
  have h₄ := h'.start
  have h₅ := h'.stop
  have h₆ := h'.lt
  show r.stop + (2 ^ 14 - 2 ^ 13) ≤ r'.start ∨ r'.stop + (2 ^ 14 - 2 ^ 13) ≤ r.start
  omega

theorem root_index (hlo : r.start ≤ va) (hhi : va < r.stop) :
    vpn_index (floor va) 18 = vpn_index (floor KERNEL_STACK_TOP) 18 := by
  have hstart := h.start
  have hbounds := h.bounds
  refine Fin.ext ?_
  rw [vpn_index_val, vpn_index_val]
  simp only [floor, PAGE_SIZE, KERNEL_STACK_TOP, KERNEL_STACK_ALIGN_SIZE, USIZE]
  omega

theorem restore_eq (x2 sscratch : BitVec 64) :
    restore false x2 ⟨BitVec.ofNat 64 (r.stop - TRAP_FRAME_OFFSET), sscratch⟩ =
      ⟨x2, BitVec.ofNat 64 (r.stop - THREAD_PTR_OFFSET)⟩ := by
  have hbounds := h.bounds
  have hsscratch : BitVec.ofNat 64 (r.stop - TRAP_FRAME_OFFSET) + FRAME_BYTES =
      BitVec.ofNat 64 (r.stop - THREAD_PTR_OFFSET) := by
    simp only [TRAP_FRAME_OFFSET, THREAD_PTR_OFFSET, TRAP_FRAME_WORDS, FRAME_BYTES]
    bv_omega
  rw [restore, if_neg Bool.false_ne_true, hsscratch]

theorem trap_eq (sp : BitVec 64) : trap ⟨sp, BitVec.ofNat 64 (r.stop - THREAD_PTR_OFFSET)⟩ =
    (⟨BitVec.ofNat 64 (r.stop - TRAP_FRAME_OFFSET), 0⟩, sp) := by
  have hbounds := h.bounds
  have hne : BitVec.ofNat 64 (r.stop - THREAD_PTR_OFFSET) ≠ 0 := by
    simp only [THREAD_PTR_OFFSET]
    bv_omega
  have hframe : BitVec.ofNat 64 (r.stop - THREAD_PTR_OFFSET) - FRAME_BYTES =
      BitVec.ofNat 64 (r.stop - TRAP_FRAME_OFFSET) := by
    simp only [TRAP_FRAME_OFFSET, THREAD_PTR_OFFSET, TRAP_FRAME_WORDS, FRAME_BYTES]
    bv_omega
  rw [trap]
  dsimp only
  rw [if_pos hne, hframe]

end Stack

theorem root_entry_valid {cfg : Config} {sym : Layout} {mem : Mem} {kernel : PageTableImpl}
    {φ : Phys} (hboot : PageTableImpl.boot cfg sym ⟨mem, PhyPageAllocator.new⟩ = .ok (kernel, φ)) :
    (read_pte φ.mem kernel.root (vpn_index (floor KERNEL_STACK_TOP) 18)).is_valid = true := by
  have hindex : vpn_index (floor KERNEL_STACK_TOP) 18 = 511 := by decide +kernel
  obtain ⟨-, -, -, hstack, -⟩ := wp_ok (PageTableImpl.boot_spec cfg sym mem) hboot
  rw [hindex]
  exact hstack.valid

end Geometry

/-- From the identifier, from every stack pointer on the stack and from `sscratch` the frame is at
one address. -/
theorem kernel_stack_geometry (tid : Nat) (ht : tid < MAX_TID) : ∃ r frame,
    get_kernel_stack_range tid = some r ∧ get_trapframe tid = some frame ∧
    (∀ sp, r.start ≤ sp → sp < r.stop →
      get_cur_kernel_stack_top sp = some r.stop ∧ get_current_trapframe sp = some frame) ∧
    (∀ tid' r', tid' < MAX_TID → tid' ≠ tid → get_kernel_stack_range tid' = some r' →
      r.stop + KERNEL_STACK_GUARD_PAGE_SIZE ≤ r'.start ∨
        r'.stop + KERNEL_STACK_GUARD_PAGE_SIZE ≤ r.start) ∧
    (∀ cfg sym mem kernel φ, PageTableImpl.boot cfg sym ⟨mem, PhyPageAllocator.new⟩ =
      .ok (kernel, φ) →
      ∀ va, r.start ≤ va → va < r.stop →
        vpn_index (floor va) 18 = vpn_index (floor KERNEL_STACK_TOP) 18 ∧
        (read_pte φ.mem kernel.root (vpn_index (floor va) 18)).is_valid = true) ∧
    frame + TRAP_FRAME_WORDS * 8 = r.stop - THREAD_PTR_OFFSET ∧
    (∀ x2 sscratch, (restore false x2 ⟨BitVec.ofNat 64 frame, sscratch⟩).sscratch =
      BitVec.ofNat 64 (r.stop - THREAD_PTR_OFFSET)) ∧
    (∀ sp, trap ⟨sp, BitVec.ofNat 64 (r.stop - THREAD_PTR_OFFSET)⟩ =
      (⟨BitVec.ofNat 64 frame, 0⟩, sp)) := by
  obtain ⟨r, hr⟩ := stack_range_isSome ht
  have h := range_stack ht hr
  refine ⟨r, r.stop - TRAP_FRAME_OFFSET, hr, h.thread_trapframe_eq, ?sp,
    ?guard, ?root, h.frame_end, ?out, h.trap_eq⟩
  case sp =>
    intro sp hlo hhi
    exact ⟨h.round_up_eq hlo hhi, h.trapframe_eq hlo hhi⟩
  case guard =>
    intro tid' r' ht' hne hr'
    exact h.apart (range_stack ht' hr') hne
  case root =>
    intro cfg sym mem kernel φ hboot va hlo hhi
    have hindex := h.root_index hlo hhi
    refine ⟨hindex, ?_⟩
    rw [hindex]
    exact root_entry_valid hboot
  case out =>
    intro x2 sscratch
    rw [h.restore_eq]

/-- The first stack, with a stack pointer at its last byte. -/
theorem kernel_stack_geometry_first :
    ∃ r, get_kernel_stack_range 0 = some r ∧ r.stop - 1 = 0xFFFF_FFFF_FFFF_BFFF ∧
    get_cur_kernel_stack_top 0xFFFF_FFFF_FFFF_BFFF = some 0xFFFF_FFFF_FFFF_C000 ∧
    get_current_trapframe 0xFFFF_FFFF_FFFF_BFFF = get_trapframe 0 := by
  obtain ⟨r, frame, hr, hframe, hsp, -⟩ := kernel_stack_geometry 0 (by decide)
  have hstart : r.start = 0xFFFF_FFFF_FFFF_A000 := by simp [stack_range_eq hr]
  have hstop : r.stop = 0xFFFF_FFFF_FFFF_C000 := by simp [stack_range_eq hr]
  obtain ⟨htop, hcur⟩ := hsp 0xFFFF_FFFF_FFFF_BFFF (by omega) (by omega)
  refine ⟨r, hr, by omega, ?_, ?_⟩
  · rw [htop, hstop]
  · rw [hcur, hframe]

end HectoOs.KernelStack
