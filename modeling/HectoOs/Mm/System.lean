import HectoOs.Mm.Areas
import HectoOs.Mm.Os
import HectoOs.Mm.PageTableMap
import HectoOs.Process.UserStack

/-! # The address spaces as a state machine

The events are the system calls and traps that change an address space, by any process, and the
kernel stacks that threads take and give back. An event that panics ends the run.
-/

open HectoOs.Lib

namespace HectoOs.Mm

/-- A process is named by its place in `spaces`. `execve` is `from_elf` and `drop`; the user stack
of a thread that exits goes away by `munmap`. -/
inductive Event where
  | from_elf (elf : ElfFile)
  | fork (i : Nat)
  | drop (i : Nat)
  | handle_pagefault (i va : Nat)
  | brk (i addr : Nat)
  | mmap (i addr length : Nat) (prot : AddressSpace.Prot)
  | munmap (i addr : Nat)
  | alloc_user_stack (i : Nat) (arguments environments : List (List Byte)) (elf : ElfFile)
    (header : UserStack.ElfHeader)
  | poke (i va : Nat) (b : Byte)
  | insert_kernel_stack (tid : Nat)
  | remove_kernel_stack (tid : Nat)

variable (cfg : Config)

/-- A byte that a system call writes for a process, at an address that the process chose. -/
def AddressSpace.poke (as : AddressSpace) (va : Nat) (b : Byte) : Kernel AddressSpace := do
  let φ ← get
  let pte ← Exec.unwrap .assert (as.page_table.find_pte cfg φ.mem (floor va))
  let e := read_pte φ.mem pte.table pte.index
  assert (e.contains .WRITABLE)
  modify fun φ => φ.set_mem (storeByte φ.mem (frame_va (e.ppn cfg) + page_offset va) b)
  return as

namespace Os

/-- A process changes its address space. -/
def on_space (s : Os) (i : Nat) (f : AddressSpace → Kernel AddressSpace) :
    Except Panic (Os × Unit) :=
  match s.spaces[i]? with
  | some (some as) =>
    (f as s.phys).map fun (as', φ) => (⟨φ, s.kernel, s.spaces.set i (some as')⟩, ())
  | _ => .error .assert

/-- A process makes a new address space from its own. -/
def new_from (s : Os) (i : Nat) (f : AddressSpace → Kernel AddressSpace) :
    Except Panic (Os × Unit) :=
  match s.spaces[i]? with
  | some (some as) => (f as s.phys).map fun (as', φ) => (⟨φ, s.kernel, s.spaces ++ [some as']⟩, ())
  | _ => .error .assert

/-- The address space of a process is dropped. -/
def drop_space (s : Os) (i : Nat) : Except Panic (Os × Unit) :=
  match s.spaces[i]? with
  | some (some as) => (as.drop s.phys).map fun (_, φ) => (⟨φ, s.kernel, s.spaces.set i none⟩, ())
  | _ => .error .assert

/-- The kernel stack of a thread. -/
def on_stack (s : Os) (tid : Nat) (f : VARange → Kernel AddressSpace) : Except Panic (Os × Unit) :=
  match get_kernel_stack_range tid with
  | some r => (f r s.phys).map fun (as, φ) => (⟨φ, as, s.spaces⟩, ())
  | none => .error .assert

def step (s : Os) : Event → Except Panic (Os × Unit)
  | .from_elf elf =>
    (AddressSpace.from_elf cfg s.kernel.page_table.root elf s.phys).map fun (as, φ) =>
    (⟨φ, s.kernel, s.spaces ++ [some as]⟩, ())
  | .fork i => s.new_from i (AddressSpace.fork cfg s.kernel.page_table.root)
  | .drop i => s.drop_space i
  | .handle_pagefault i va => s.on_space i (AddressSpace.handle_pagefault cfg · va)
  | .brk i addr => s.on_space i fun as => do return (← as.brk cfg addr).1
  | .mmap i addr length prot =>
    s.on_space i fun as => do return (← as.sys_mmap cfg addr length prot).1
  | .munmap i addr => s.on_space i (AddressSpace.remove_area cfg · addr)
  | .alloc_user_stack i arguments environments elf header => s.on_space i fun as => do
    return (← UserStack.alloc_user_stack cfg as arguments environments elf header).1
  | .poke i va b => s.on_space i (AddressSpace.poke cfg · va b)
  | .insert_kernel_stack tid => s.on_stack tid (s.kernel.insert_kernel_stack_area cfg)
  | .remove_kernel_stack tid => s.on_stack tid fun r => s.kernel.remove_area cfg r.stop

/-- The system after `boot`: the address space of `KERNEL_PROCESS`, and no process. -/
def start (kernel : PageTableImpl) (φ : Phys) : Os := ⟨φ, ⟨kernel, [], .nil, 1, 1⟩, []⟩

end Os

/-! ## What the steps can do -/

section Steps

variable {s s' : Os} {i : Nat} {u : Unit} {f : AddressSpace → Kernel AddressSpace}

theorem on_space_set (h : s.on_space i f = .ok (s', u)) :
    ∃ as as' φ', s.spaces[i]? = some (some as) ∧
    f as s.phys = .ok (as', φ') ∧ s' = ⟨φ', s.kernel, s.spaces.set i (some as')⟩ := by
  unfold Os.on_space at h
  split at h
  · rename_i as has
    cases hf : f as s.phys with
    | error e => simp [hf, Except.map] at h
    | ok r =>
      simp only [hf, Except.map, Except.ok.injEq, Prod.mk.injEq] at h
      exact ⟨as, r.1, r.2, has, hf, h.1.symm⟩
  · simp at h

theorem on_space_cases (h : s.on_space i f = .ok (s', u)) :
    ∃ as as' φ' l₁ l₂, s.spaces[i]? = some (some as) ∧
    f as s.phys = .ok (as', φ') ∧ s.spaces = l₁ ++ some as :: l₂ ∧
    s' = ⟨φ', s.kernel, l₁ ++ some as' :: l₂⟩ := by
  obtain ⟨as, as', φ', has, hf, rfl⟩ := on_space_set h
  obtain ⟨l₁, l₂, hl, _, hset⟩ := split_at has
  exact ⟨as, as', φ', l₁, l₂, has, hf, hl, by rw [hset]⟩

theorem new_from_cases (h : s.new_from i f = .ok (s', u)) :
    ∃ as as' φ' l₁ l₂, s.spaces[i]? = some (some as) ∧
    f as s.phys = .ok (as', φ') ∧ s.spaces = l₁ ++ some as :: l₂ ∧
    s' = ⟨φ', s.kernel, s.spaces ++ [some as']⟩ := by
  unfold Os.new_from at h
  split at h
  · rename_i as has
    cases hf : f as s.phys with
    | error e => simp [hf, Except.map] at h
    | ok r =>
      simp only [hf, Except.map, Except.ok.injEq, Prod.mk.injEq] at h
      obtain ⟨l₁, l₂, hl, _, _⟩ := split_at has
      exact ⟨as, r.1, r.2, l₁, l₂, has, hf, hl, h.1.symm⟩
  · simp at h

theorem drop_space_cases (h : s.drop_space i = .ok (s', u)) :
    ∃ as φ' l₁ l₂, as.drop s.phys = .ok ((), φ') ∧
    s.spaces = l₁ ++ some as :: l₂ ∧ s' = ⟨φ', s.kernel, l₁ ++ none :: l₂⟩ := by
  unfold Os.drop_space at h
  split at h
  · rename_i as has
    cases hf : as.drop s.phys with
    | error e => simp [hf, Except.map] at h
    | ok r =>
      simp only [hf, Except.map, Except.ok.injEq, Prod.mk.injEq] at h
      obtain ⟨l₁, l₂, hl, _, hset⟩ := split_at has
      exact ⟨as, r.2, l₁, l₂, hf, hl, by rw [← h.1, hset]⟩
  · simp at h

theorem on_stack_cases {tid : Nat} {g : VARange → Kernel AddressSpace}
    (h : s.on_stack tid g = .ok (s', u)) :
    ∃ r as φ', get_kernel_stack_range tid = some r ∧ g r s.phys = .ok (as, φ') ∧
    s' = ⟨φ', as, s.spaces⟩ := by
  unfold Os.on_stack at h
  split at h
  · rename_i r hr
    cases hf : g r s.phys with
    | error e => simp [hf, Except.map] at h
    | ok q =>
      simp only [hf, Except.map, Except.ok.injEq, Prod.mk.injEq] at h
      exact ⟨r, q.1, q.2, hr, hf, h.1.symm⟩
  · simp at h

end Steps

/-! ## Small systems -/

open PageTableImpl in
/-- A run of events on the small machine, from empty memory on. -/
def small_run (es : List Event) : Except Panic (Os × List Unit) :=
  (boot qemu smallLayout ⟨fun _ => 0, PhyPageAllocator.new⟩).bind fun r =>
    run (Os.step qemu) (Os.start r.1 r.2) es

open PageTableImpl in
theorem small_run_ends (es : List Event) (P : Os → Prop) [DecidablePred P]
    (h : ((small_run es).bind fun t => permit .assert (P t.1) ()).toOption.isSome) :
    ∃ kernel φ s os,
    boot qemu smallLayout ⟨fun _ => 0, PhyPageAllocator.new⟩ = .ok (kernel, φ) ∧
    run (Os.step qemu) (Os.start kernel φ) es = .ok (s, os) ∧ P s := by
  obtain ⟨t, hrun, hseen⟩ := ok_of_bind h
  obtain ⟨r, hboot, hrun⟩ := bind_eq_ok hrun
  obtain ⟨_, hseen⟩ := ok_of_isSome hseen
  exact ⟨r.1, r.2, t.1, t.2, hboot, hrun, (permit_eq_ok hseen).1⟩

open PageTableImpl in
theorem small_run_meets (es : List Event) (cond : Os → Event → Prop)
    [∀ s e, Decidable (cond s e)] (P : Os → Prop) [DecidablePred P]
    (h : ((boot qemu smallLayout ⟨fun _ => 0, PhyPageAllocator.new⟩).bind fun r =>
      (permit .assert (Meets (Os.step qemu) cond (Os.start r.1 r.2) es) ()).bind fun _ =>
        (run (Os.step qemu) (Os.start r.1 r.2) es).bind fun t => permit .assert (P t.1)
          ()).toOption.isSome) :
    ∃ kernel φ s os, boot qemu smallLayout ⟨fun _ => 0, PhyPageAllocator.new⟩ = .ok (kernel, φ) ∧
      Meets (Os.step qemu) cond (Os.start kernel φ) es ∧ run (Os.step qemu)
      (Os.start kernel φ) es = .ok (s, os) ∧ P s := by
  obtain ⟨r, hboot, h⟩ := ok_of_bind h
  obtain ⟨_, hmeets, h⟩ := ok_of_bind h
  obtain ⟨t, hrun, h⟩ := ok_of_bind h
  obtain ⟨_, hseen⟩ := ok_of_isSome h
  exact ⟨r.1, r.2, t.1, t.2, hboot, (permit_eq_ok hmeets).1, hrun, (permit_eq_ok hseen).1⟩

theorem exists_space {s : Os} {p : AddressSpace → Bool} (h : s.spaces.any (·.any p) = true) :
    ∃ as, some as ∈ s.spaces ∧ p as = true := by
  obtain ⟨o, ho, hp⟩ := List.any_eq_true.mp h
  cases o with
  | none => simp at hp
  | some as => exact ⟨as, ho, hp⟩

/-- A file with one writable page at `va`, full of zeros. -/
def onePage (va : Nat) : ElfFile := ⟨[⟨true, va, 4096, 0, 0, true, true, false⟩], []⟩

end HectoOs.Mm
