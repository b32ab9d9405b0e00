import HectoOs.Mm.Changes

/-! # The first user stack (`alloc_user_stack` in `process/process.rs`)

The strings of the environment and of the arguments, the auxiliary vector and the pointers are
written from the top of the stack down. The kernel writes them where it sees the frame of the last
page.
-/

open HectoOs.Lib HectoOs.Mm

namespace HectoOs.UserStack

/-- A difference of addresses; it can overflow. -/
def checked_sub (a b : Nat) : Option Nat := if b ≤ a then some (a - b) else none

/-- What is read of the header of an ELF file. -/
structure ElfHeader where
  ph_offset : Nat
  ph_entry_size : Nat
  ph_count : Nat
  entry_point : Nat
  deriving Repr

/-- The tags that the auxiliary vector has. -/
inductive AUXV where
  | AT_NULL
  | AT_PHDR
  | AT_PHENT
  | AT_PHNUM
  | AT_PAGESZ
  | AT_BASE
  | AT_ENTRY
  deriving DecidableEq, Repr

def AUXV.val : AUXV → Nat
  | AT_NULL => 0
  | AT_PHDR => 3
  | AT_PHENT => 4
  | AT_PHNUM => 5
  | AT_PAGESZ => 6
  | AT_BASE => 7
  | AT_ENTRY => 9

/-- The loop that looks for the address of the program headers, which stand at `addr` in the
file. -/
def ph_head_addr (addr : Nat) : List ProgramHeader → Option Nat
  | [] => some addr
  | ph :: rest =>
    if ph.load && ph.offset ≤ addr then do
      let shift ← checked_sub ph.virtual_addr ph.offset
      checked_add addr shift
    else
      ph_head_addr addr rest

def auvx (header : ElfHeader) (ph_head_addr : Nat) : List (AUXV × Nat) :=
  [(.AT_PHDR, ph_head_addr), (.AT_PHENT, header.ph_entry_size), (.AT_PHNUM, header.ph_count),
    (.AT_PAGESZ, 4096),
    (.AT_BASE, 0), (.AT_ENTRY, header.entry_point), (.AT_NULL, 0)]

/-- The pairs as words of memory. -/
def auvx_words (l : List (AUXV × Nat)) : List Nat := l.flatMap fun x => [x.1.val, x.2]

/-- `VA::from(pa + 8) - user_stack_top`. -/
def stack_offset (pa user_stack_top : Nat) : Option Nat := do
  let pa ← checked_add pa 8
  let va ← checked_add pa KERNEL_MAP_OFFSET
  checked_sub va user_stack_top

/-- A string with its `\0`, below the stack pointer; the new stack pointer joins the pointers. The
sum lies below `VA::from(pa + 8)` and does not overflow. -/
def push_string (user_sp_offset : Nat) (s : Nat × List Nat) (str : List Byte) :
    Kernel (Nat × List Nat) := do
  let user_sp ← Exec.unwrap .assert (checked_sub s.1 (str.length + 1))
  modify fun φ => φ.set_mem (writeBytes φ.mem (user_sp + user_sp_offset) (str ++ [0]))
  return (user_sp, s.2 ++ [user_sp])

/-- Words below the stack pointer, where they start. -/
def push_words (user_sp_offset user_sp : Nat) (words : List Nat) : Kernel Nat := do
  let base ← Exec.unwrap .assert (checked_sub user_sp (8 * words.length))
  modify fun φ => φ.set_mem (storeWords φ.mem (base + user_sp_offset) words)
  return base

/-- What `alloc_user_stack` returns, and what it puts into the trap frame on the kernel stack. -/
structure Stack where
  user_stack_top : Nat
  user_sp : Nat
  argv_base : Nat
  envp_base : Nat
  auxv_base : Nat
  deriving Repr

def stack_perm : PTEImpl := .READABLE ||| .WRITABLE ||| .USER

/-- What is written into the page at `user_stack_top - 8`. -/
def write_stack (user_stack_top user_sp_offset : Nat) (arguments environments : List (List Byte))
    (elf : ElfFile) (header : ElfHeader) : Kernel Stack := do
  let user_sp := user_stack_top - 8
  let (user_sp, envp) ← environments.foldlM (push_string user_sp_offset) (user_sp, [])
  let (user_sp, argv) ← arguments.foldlM (push_string user_sp_offset) (user_sp, [])
  let ph_head_addr ← Exec.unwrap .assert (ph_head_addr header.ph_offset elf.program_iter)
  -- padding
  let user_sp := user_sp - user_sp % 16
  let auxv_base ← push_words user_sp_offset user_sp (auvx_words (auvx header ph_head_addr))
  let envp_base ← push_words user_sp_offset auxv_base (envp ++ [0])
  let argv_base ← push_words user_sp_offset envp_base (argv ++ [0])
  let user_sp ← push_words user_sp_offset argv_base [arguments.length]
  return { user_stack_top, user_sp, argv_base, envp_base, auxv_base }

def alloc_user_stack (cfg : Config) (as : AddressSpace) (arguments environments : List (List Byte))
    (elf : ElfFile) (header : ElfHeader) : Kernel (AddressSpace × Stack) := do
  let (as, user_stack_top) ← as.insert_user_area cfg USER_STACK_SIZE stack_perm
  let last ← Exec.unwrap .assert (checked_sub user_stack_top 8)
  let pa ← Exec.unwrap .assert (as.page_table.translate_va cfg (← get).mem last)
  let user_sp_offset ← Exec.unwrap .assert (stack_offset pa user_stack_top)
  let stack ← write_stack user_stack_top user_sp_offset arguments environments elf header
  return (as, stack)

/-- The bytes of a string of ASCII characters. -/
def ascii (str : String) : List Byte := str.toList.map fun c => BitVec.ofNat 8 c.toNat

/-- The environment that `new_thread` gives to a program. -/
def new_thread_environment : List (List Byte) :=
  ["SHELL=/bin/bash", "PWD=/", "HOME=/", "LANG=C.UTF-8", "USER=root", "PATH=/",
    "OLDPWD=/root"].map ascii

/-! ## Which arguments fit -/

/-- The bytes of some strings, each with its `\0`. -/
def strings_size (l : List (List Byte)) : Nat := (l.map (·.length + 1)).sum

/-- All that is written, with the padding. -/
def stack_size (user_stack_top : Nat) (arguments environments : List (List Byte)) : Nat :=
  let strings := strings_size environments + strings_size arguments
  strings + (user_stack_top - 8 - strings) % 16 + 112 + 8 * (environments.length + 1) +
    8 * (arguments.length + 1) + 8

/-- The stack lies in the lower half, and what is written stays in its last page. -/
def stack_fits (as : AddressSpace) (arguments environments : List (List Byte)) : Bool :=
  as.user_area_fits USER_STACK_SIZE && (as.alloc_user_area USER_STACK_SIZE).all fun top =>
    stack_size top arguments environments ≤ page_offset (top - 8)

theorem checked_sub_eq {a b c : Nat} (h : checked_sub a b = some c) : b ≤ a ∧ c = a - b := by
  unfold checked_sub at h
  split at h
  · rename_i hle
    exact ⟨hle, (Option.some.inj h).symm⟩
  · simp at h

end HectoOs.UserStack
