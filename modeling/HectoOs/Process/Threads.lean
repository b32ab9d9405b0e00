import HectoOs.Lib.Arc
import HectoOs.Mm.System
import HectoOs.Process.Wait

/-! # Threads (`process/thread.rs`, `syscall/process.rs`, `schedule` in `lib.rs`)

A thread is a pointer into `threads`, where its references are counted. The references are those of
the pool, the `next_thread` of the scheduling loop, the `new_thread` that a parent keeps while it
waits in `sys_clone`, and those of kernel threads. Kernel code runs without preemption between two
switches, so what a thread does between them is one step.
-/

open HectoOs.Lib HectoOs.Sync
open HectoOs.UserStack (ElfHeader ascii new_thread_environment)
open HectoOs.Wait (TidAllocator)

namespace HectoOs.Threads

structure Thread where
  tid : Nat
  deriving Repr

/-- What changes of a thread and its process. -/
structure ThreadInner where
  status : ThreadStatus
  user_stack_top : Nat
  /-- The place of the address space in `Os.spaces`; threads of the kernel's process have none. -/
  space : Option Nat
  deriving Repr

structure System where
  os : Mm.Os
  TID_ALLOCATOR : TidAllocator
  threads : Arcs Thread
  inner : Nat → ThreadInner
  /-- The queue of `SCHEDULER`, front first. -/
  pool : List Nat
  /-- `next_thread` in `schedule`. -/
  next_thread : Option Nat
  /-- `new_thread` in `sys_clone`, for each parent that has not come back from `switch_to`. -/
  new_thread : List (Nat × Nat)
  /-- The reference that `switch_to_schedule` never gives up. -/
  sched_thread : Option Nat
  /-- Other kernel threads in the hands of whoever made them. -/
  kernel_threads : List Nat
  /-- The thread that runs, if it is not the scheduling thread. -/
  current : Option Nat

/-- The thread on whose stack the kernel runs. -/
def System.running (s : System) : Option Nat := s.current <|> s.sched_thread

/-- `stack_mapped`, `stack_unmapped` and `running` name the reason of a failure, where the source
has an assertion of `map_one` or `unmap_one` or no check at all. -/
inductive Panic where
  | mm (p : Mm.Panic)
  /-- A page of the new stack is mapped, so `map_one` fails. -/
  | stack_mapped
  /-- A page of the stack is not mapped, so `unmap_one` fails. -/
  | stack_unmapped
  /-- A thread is destroyed on its own stack. -/
  | running
  /-- An assertion of `TidAllocator::dealloc`. -/
  | dealloc
  /-- The assertion of `FifoScheduler::remove_thread`. -/
  | remove_thread
  /-- `CLONE_THREAD`. -/
  | unimplemented
  /-- A step of a thread that does not run, or of a user process where there is none. -/
  | absent
  deriving DecidableEq, Repr

abbrev Op := Exec Panic System

variable (cfg : Mm.Config)

/-- A change of the address spaces. -/
def mm (e : Mm.Event) : Op Unit := fun s =>
  match s.os.step cfg e with
  | .ok (os, _) => .ok ((), { s with os })
  | .error p => .error (.mm p)

/-! ## Making and dropping threads -/

def alloc : Op Nat := do
  let s ← get
  let (tid, a) := s.TID_ALLOCATOR.alloc
  set { s with TID_ALLOCATOR := a }
  return tid

/-- `Tid::drop`. -/
def dealloc (tid : Nat) : Op Unit := do
  let s ← get
  let a ← Exec.unwrap .dealloc (s.TID_ALLOCATOR.dealloc tid)
  set { s with TID_ALLOCATOR := a }

/-- The pages of a kernel stack. -/
def stack_pages (tid : Nat) : List Nat :=
  (Mm.get_kernel_stack_range tid).elim [] fun r => Mm.vpns (Mm.floor r.start) (Mm.ceil r.stop)

/-- A page has an entry in the kernel's page table. -/
def kernel_maps (os : Mm.Os) (vpn : Nat) : Bool :=
  (Mm.PageTableImpl.lookup cfg os.phys.mem os.kernel.page_table vpn).isSome

def insert_kernel_stack_area (tid : Nat) : Op Unit := do
  let s ← get
  Exec.require .stack_mapped ((stack_pages tid).all (!kernel_maps cfg s.os ·))
  mm cfg (.insert_kernel_stack tid)

/-- `Arc::new` of a thread that is ready. -/
def new_arc (tid user_stack_top : Nat) (space : Option Nat) : Op Nat := do
  let s ← get
  let (t, threads) := s.threads.new ⟨tid⟩
  set { s with threads, inner := Function.update s.inner t ⟨.Ready, user_stack_top, space⟩ }
  return t

def new_kernel : Op Nat := do
  let tid ← alloc
  insert_kernel_stack_area cfg tid
  new_arc tid 0 none

/-- `alloc_user_stack`: the end of the stack. -/
def alloc_user_stack (i : Nat) (arguments environments : List (List Byte))
    (elf : Mm.ElfFile) (header : ElfHeader) :
    Op Nat := do
  let s ← get
  let as ← Exec.unwrap .absent (s.os.spaces[i]?).join
  let user_stack_top ← Exec.unwrap (.mm .assert) (as.alloc_user_area Mm.USER_STACK_SIZE)
  mm cfg (.alloc_user_stack i arguments environments elf header)
  return user_stack_top

def new_thread (arguments : List (List Byte)) (elf : Mm.ElfFile) (header : ElfHeader) : Op Nat := do
  let tid ← alloc
  let space := (← get).os.spaces.length
  mm cfg (.from_elf elf)
  insert_kernel_stack_area cfg tid
  let user_stack_top ← alloc_user_stack cfg space arguments new_thread_environment elf header
  new_arc tid user_stack_top (some space)

/-- `Thread::fork`, without the store to the child's memory that `CLONE_CHILD_SETTID` asks for. -/
def fork (t : Nat) (clone_thread : Bool) : Op Nat := do
  let tid ← alloc
  let s ← get
  let i ← Exec.unwrap .absent (s.inner t).space
  let space := s.os.spaces.length
  mm cfg (.fork i)
  insert_kernel_stack_area cfg tid
  Exec.require .unimplemented !clone_thread
  new_arc tid (s.inner t).user_stack_top (some space)

/-- `Thread::drop` and the drops of its fields: the kernel stack, the number, and the process. -/
def drop (t : Nat) (thread : Thread) : Op Unit := do
  let s ← get
  Exec.require .running (s.running ≠ some t)
  Exec.require .stack_unmapped ((stack_pages thread.tid).all (kernel_maps cfg s.os ·))
  mm cfg (.remove_kernel_stack thread.tid)
  dealloc thread.tid
  match (s.inner t).space with
  | some i => mm cfg (.drop i)
  | none => pure ()

/-- A reference is dropped. -/
def release (t : Nat) : Op Unit := do
  let s ← get
  let (thread, threads) := s.threads.drop t
  set { s with threads }
  match thread with
  | some thread => drop cfg t thread
  | none => pure ()

/-! ## The scheduler -/

def add_thread (t : Nat) : Op Unit := modify fun s => { s with pool := s.pool ++ [t] }

/-- `get_next`: the first thread is put back at the end, and a clone of it returned. -/
def get_next : Op (Option Nat) := do
  let s ← get
  match s.pool with
  | [] => return none
  | t :: pool =>
    set { s with pool := pool ++ [t], threads := s.threads.clone t }
    return some t

/-- The number of a thread. -/
def System.tid (s : System) (t : Nat) : Option Nat := (s.threads.get t).map Thread.tid

/-- `remove_thread`: the threads with the same number. -/
def remove_thread (t : Nat) : Op Unit := do
  let s ← get
  let removed := s.pool.filter (s.tid · = s.tid t)
  set { s with pool := s.pool.filter (s.tid · ≠ s.tid t) }
  match removed with
  | [u] => release cfg u
  | _ => Exec.panic .remove_thread

def set_status (t : Nat) (status : ThreadStatus) : Op Unit :=
  modify fun s => { s with inner := Function.update s.inner t { s.inner t with status } }

/-- `__switch` to the scheduling thread, which drops `next_thread` at the end of the loop body. -/
def yield_to_sched : Op Unit := do
  modify fun s => { s with current := none }
  let s ← get
  match s.next_thread with
  | some t =>
    set { s with next_thread := none }
    release cfg t
  | none => pure ()

/-- A thread goes on where it was. If that was in `sys_clone`, the call ends. -/
def resume (t : Nat) : Op Unit := do
  modify fun s => { s with current := some t }
  let s ← get
  match s.new_thread.lookup t with
  | some child =>
    set { s with new_thread := s.new_thread.filter (·.1 ≠ t) }
    release cfg child
  | none => pure ()

/-- The loop body of `schedule`, up to the switch. -/
def schedule : Op Unit := do
  match ← get_next with
  | some t =>
    let s ← get
    if (s.inner t).status = .Ready then
      set { s with next_thread := some t }
      resume cfg t
    else
      release cfg t
  | none => pure ()

/-! ## System calls -/

/-- `sys_exit` of the thread `t`, without the message to the parent. -/
def sys_exit (t : Nat) : Op Unit := do
  set_status t .Zombie
  remove_thread cfg t
  let s ← get
  let i ← Exec.unwrap .absent (s.inner t).space
  mm cfg (.munmap i (s.inner t).user_stack_top)
  yield_to_sched cfg

/-- `sys_clone` by the thread `t`, up to the switch to the child. -/
def sys_clone (t : Nat) (clone_thread : Bool) : Op Unit := do
  let child ← fork cfg t clone_thread
  modify fun s => { s with threads := s.threads.clone child }
  add_thread child
  set_status t .Ready
  modify fun s => { s with new_thread := (t, child) :: s.new_thread, current := some child }

/-- `execve`: the new address space, the end of the old one, and a new user stack. -/
def execve (t : Nat) (argv envp : List (List Byte)) (elf : Mm.ElfFile)
    (header : ElfHeader) : Op Unit := do
  let s ← get
  let i ← Exec.unwrap .absent (s.inner t).space
  let space := s.os.spaces.length
  mm cfg (.from_elf elf)
  mm cfg (.drop i)
  let user_stack_top ← alloc_user_stack cfg space argv envp elf header
  modify fun s =>
    { s with inner := Function.update s.inner t ⟨(s.inner t).status, user_stack_top, some space⟩ }

/-- What a process does to its own address space. -/
inductive MemoryCall where
  | handle_pagefault (va : Nat)
  | brk (addr : Nat)
  | mmap (addr length : Nat) (prot : Mm.AddressSpace.Prot)
  | munmap (addr : Nat)
  | poke (va : Nat) (b : Byte)

def MemoryCall.event (i : Nat) : MemoryCall → Mm.Event
  | .handle_pagefault va => .handle_pagefault i va
  | .brk addr => .brk i addr
  | .mmap addr length prot => .mmap i addr length prot
  | .munmap addr => .munmap i addr
  | .poke va b => .poke i va b

/-! ## The system -/

inductive Event where
  /-- Kernel code makes a kernel thread, and drops it. -/
  | new_kernel
  | drop_kernel (t : Nat)
  /-- The scheduling thread starts a process. -/
  | new_thread (arguments : List (List Byte)) (elf : Mm.ElfFile) (header : ElfHeader)
  | schedule
  /-- The thread that runs gives up the processor, or the timer takes it. -/
  | yield
  /-- The thread that runs marks itself as waiting. -/
  | wait
  /-- A condition variable, a timer or a child makes a thread ready. -/
  | wake (t : Nat)
  | clone (clone_thread : Bool)
  | execve (argv envp : List (List Byte)) (elf : Mm.ElfFile) (header : ElfHeader)
  | memory (call : MemoryCall)
  | exit

/-- A step of the thread that runs. -/
def by_current (f : Nat → Op Unit) : Op Unit := do
  let s ← get
  let t ← Exec.unwrap .absent s.current
  f t

/-- A step of the scheduling thread. -/
def by_sched (x : Op Unit) : Op Unit := do
  let s ← get
  Exec.require .absent s.current.isNone
  x

def Event.exec : Event → Op Unit
  | .new_kernel => do
    let t ← Threads.new_kernel cfg
    modify fun s => { s with kernel_threads := t :: s.kernel_threads }
  | .drop_kernel t => do
    let s ← get
    Exec.require .absent (t ∈ s.kernel_threads)
    set { s with kernel_threads := s.kernel_threads.erase t }
    release cfg t
  | .new_thread arguments elf header => by_sched do
    let t ← Threads.new_thread cfg arguments elf header
    add_thread t
  | .schedule => by_sched (Threads.schedule cfg)
  | .yield => by_current fun _ => yield_to_sched cfg
  | .wait => by_current fun t => set_status t .Waiting
  | .wake t => set_status t .Ready
  | .clone clone_thread => by_current fun t => sys_clone cfg t clone_thread
  | .execve argv envp elf header => by_current fun t => Threads.execve cfg t argv envp elf header
  | .memory call => by_current fun t => do
    let s ← get
    let i ← Exec.unwrap .absent (s.inner t).space
    mm cfg (call.event i)
  | .exit => by_current fun t => sys_exit cfg t

def step (s : System) (e : Event) : Except Panic (System × Unit) :=
  (e.exec cfg s).map fun r => (r.2, r.1)

/-- Before the first thread. -/
def System.empty (os : Mm.Os) : System :=
  ⟨os, ⟨0, []⟩, .empty, fun _ => ⟨.Ready, 0, none⟩, [], none, [], none, [], none⟩

/-- `switch_to_schedule`. -/
def switch_to_schedule : Op Unit := do
  let t ← new_kernel cfg
  modify fun s => { s with sched_thread := some t }

/-! ## Small systems -/

/-- A machine with forty frames. -/
def fortyFrames : Mm.Layout :=
  ⟨0xFFFF_FFC0_8020_0000, 0xFFFF_FFC0_8020_0000, 0xFFFF_FFC0_8020_0000,
    0xFFFF_FFC0_8020_0000, 0xFFFF_FFC0_8020_0000,
    0xFFFF_FFC0_8020_0000, 0xFFFF_FFC0_8020_0000, 0xFFFF_FFC0_8020_0000,
    0xFFFF_FFC0_8020_0000, 0xFFFF_FFC0_8022_8000,
    Mm.PageTableImpl.smallLayout.above, by decide⟩

/-- The machine when `schedule` begins. -/
def small_system : Except Panic System :=
  ((Mm.PageTableImpl.boot Mm.qemu fortyFrames ⟨fun _ => 0, .new⟩).mapError .mm).bind fun r =>
    (switch_to_schedule Mm.qemu (System.empty (Mm.Os.start r.1 r.2))).map Prod.snd

/-- The start of `ls`, whose file has one page. -/
def new_ls (va : Nat) : Event := .new_thread [ascii "ls"] (Mm.onePage va) ⟨64, 56, 1, va⟩

theorem small_system_eq {s₀ : System} (h : small_system = .ok s₀) : ∃ kernel φ,
    Mm.PageTableImpl.boot Mm.qemu fortyFrames ⟨fun _ => 0, .new⟩ = .ok (kernel, φ) ∧
    switch_to_schedule Mm.qemu (System.empty (Mm.Os.start kernel φ)) = .ok ((), s₀) := by
  obtain ⟨r, hr, h⟩ := bind_eq_ok h
  cases hboot : Mm.PageTableImpl.boot Mm.qemu fortyFrames ⟨fun _ => 0, .new⟩ with
  | error p =>
    rw [hboot] at hr
    cases hr
  | ok q =>
    rw [hboot] at hr
    obtain rfl := Except.ok.inj hr
    cases hs : switch_to_schedule Mm.qemu (System.empty (Mm.Os.start q.1 q.2)) with
    | error p =>
      rw [hs] at h
      cases h
    | ok w =>
      rw [hs] at h
      obtain rfl := Except.ok.inj h
      exact ⟨q.1, q.2, rfl, hs⟩

end HectoOs.Threads
