import HectoOs.Lib.Exec

/-! # Interrupts on the way back to user mode (`arch/riscv/trap.rs`, `trap.asm`, `sync/spinlock.rs`)

`sstatus.SIE` is one bit of the processor. It is no part of a thread's context, so a thread that is
resumed finds what the thread before it left.
-/

open HectoOs.Lib

namespace HectoOs.Trap

/-- Where a thread goes on when it is resumed. -/
inductive Resume where
  /-- In the timer path of `handle_trap`. -/
  | timer
  /-- Inside a system call, with the bits that its lock guards have saved. -/
  | call (guards : List Bool)
  /-- In `ret_to_restore`. -/
  | first
  deriving DecidableEq

inductive Cpu where
  | sched
  | user (t : Nat)
  /-- The thread is inside a system call; `switched` if it has been switched out since it
  entered. -/
  | kernel (t : Nat) (guards : List Bool) (switched : Bool)
  deriving DecidableEq

/-- How the last thread left the processor. -/
inductive Left where
  | nobody
  | preempted
  | call
  deriving DecidableEq

structure State where
  sie : Bool
  cpu : Cpu
  left : Left
  threads : Nat → Option Resume

def boot : State := ⟨false, .sched, .nobody, fun _ => none⟩

inductive Event where
  /-- `schedule` creates a thread. -/
  | spawn (t : Nat)
  /-- `schedule` switches to a thread. -/
  | dispatch (t : Nat)
  /-- A timer interrupt in user mode. -/
  | timer
  /-- A page fault in user mode. -/
  | fault
  | ecall
  /-- A timer interrupt in kernel mode. -/
  | nested_timer
  /-- A page fault in kernel mode. -/
  | nested_fault
  | lock
  | unlock
  /-- `yield_to_sched` inside a system call. -/
  | yield
  | clone (c : Nat)
  | execve
  | exit
  /-- The system call returns. -/
  | ret

inductive Seen where
  | nothing
  /-- `__restore` of a thread that returns to user mode, and the bit it finds. -/
  | restore (t : Nat) (sie : Bool)
  deriving DecidableEq

/-! ## The pieces -/

/-- The hardware clears the bit on entry. -/
def trap (s : State) : State := { s with sie := false }

def set_sie (s : State) : State := { s with sie := true }

def clear_sie (s : State) : State := { s with sie := false }

def set_thread (s : State) (t : Nat) (r : Option Resume) : State :=
  { s with threads := fun u => if u = t then r else s.threads u }

/-- `__restore` and `sret`, which sets the bit from `SPIE`. -/
def restore (s : State) (t : Nat) : State × Seen :=
  ({ s with sie := true, cpu := .user t }, .restore t s.sie)

/-- `__switch` to the scheduler. -/
def switch_to_sched (s : State) (left : Left) : State := { s with cpu := .sched, left }

/-- A trap in kernel mode: `sret` brings the bit back. The handler itself ends with it cleared. -/
def nested (s : State) (handler : State → State) : State := { handler (trap s) with sie := s.sie }

/-- A step, when it can happen. -/
def step (s : State) (e : Event) : Except Unit (State × Seen) :=
  match e, s.cpu with
  | .spawn t, .sched => permit () (s.threads t = none) (set_thread s t (some .first), .nothing)
  | .dispatch t, .sched =>
    match s.threads t with
    | some (.call guards) =>
      .ok ({ set_thread s t none with cpu := .kernel t guards true }, .nothing)
    | some .timer | some .first => .ok (restore (set_thread s t none) t)
    | none => .error ()
  | .timer, .user t =>
    .ok (switch_to_sched (set_thread (trap s) t (some .timer)) .preempted, .nothing)
  | .fault, .user t => .ok (restore (clear_sie (set_sie (trap s))) t)
  | .ecall, .user t => .ok ({ set_sie (trap s) with cpu := .kernel t [] false }, .nothing)
  | .nested_timer, .sched | .nested_timer, .kernel _ _ _ =>
    permit () (s.sie = true) (nested s id, .nothing)
  | .nested_fault, .kernel _ _ _ => .ok (nested s fun s => clear_sie (set_sie s), .nothing)
  | .lock, .kernel t guards switched =>
    .ok ({ clear_sie s with cpu := .kernel t (s.sie :: guards) switched }, .nothing)
  | .unlock, .kernel t (saved :: guards) switched =>
    .ok ({ s with sie := s.sie || saved, cpu := .kernel t guards switched }, .nothing)
  | .yield, .kernel t guards _ =>
    .ok (switch_to_sched (set_thread s t (some (.call guards))) .call, .nothing)
  | .clone c, .kernel t [] false =>
    -- the child resumes at __restore
    permit () (s.threads c = none ∧ c ≠ t)
      (restore { set_thread s t (some (.call [])) with left := .call } c)
  | .execve, .kernel t [] false => .ok (restore s t)
  | .exit, .kernel _ [] _ => .ok (switch_to_sched s .call, .nothing)
  | .ret, .kernel t [] _ => .ok (restore (clear_sie s) t)
  | _, _ => .error ()

/-! ## Which way back is safe -/

variable {s s' : State} {e : Event} {o : Seen}

/-- No thread is started directly from a system call, and a thread that was preempted or is new is
dispatched only after a thread that was preempted, or as the first one. -/
def Calm (s : State) : Event → Prop
  | .clone _ | .execve => False
  | .dispatch t => s.threads t = some .timer ∨ s.threads t = some .first → s.left ≠ .call
  | _ => True

def Seen.Off : Seen → Prop
  | .restore _ sie => sie = false
  | .nothing => True

/-- The scheduler runs with the bit cleared if the last thread was preempted. -/
def Cleared (s : State) : Prop := s.cpu = .sched → s.left ≠ .call → s.sie = false

theorem step_cleared (h : Cleared s) (hc : Calm s e) (hstep : step s e = .ok (s', o)) :
    Cleared s' ∧ o.Off := by
  unfold step at hstep
  split at hstep
  · -- spawn
    rename_i t hcpu
    obtain ⟨_, hr⟩ := permit_eq_ok hstep
    obtain ⟨rfl, rfl⟩ := Prod.mk.inj hr
    exact ⟨h, trivial⟩
  · -- dispatch
    rename_i t hcpu
    split at hstep
    · obtain ⟨rfl, rfl⟩ := Prod.mk.inj (Except.ok.inj hstep)
      exact ⟨by simp [Cleared], trivial⟩
    · rename_i hr
      obtain ⟨rfl, rfl⟩ := Prod.mk.inj (Except.ok.inj hstep)
      exact ⟨by simp [Cleared], h hcpu (hc (.inl hr))⟩
    · rename_i hr
      obtain ⟨rfl, rfl⟩ := Prod.mk.inj (Except.ok.inj hstep)
      exact ⟨by simp [Cleared], h hcpu (hc (.inr hr))⟩
    · simp at hstep
  · -- timer
    obtain ⟨rfl, rfl⟩ := Prod.mk.inj (Except.ok.inj hstep)
    exact ⟨fun _ _ => rfl, trivial⟩
  · -- fault
    obtain ⟨rfl, rfl⟩ := Prod.mk.inj (Except.ok.inj hstep)
    exact ⟨by simp [Cleared], rfl⟩
  · -- ecall
    obtain ⟨rfl, rfl⟩ := Prod.mk.inj (Except.ok.inj hstep)
    exact ⟨by simp [Cleared], trivial⟩
  · -- nested_timer, in the scheduler
    obtain ⟨_, hr⟩ := permit_eq_ok hstep
    obtain ⟨rfl, rfl⟩ := Prod.mk.inj hr
    exact ⟨h, trivial⟩
  · -- nested_timer, in a system call
    obtain ⟨_, hr⟩ := permit_eq_ok hstep
    obtain ⟨rfl, rfl⟩ := Prod.mk.inj hr
    exact ⟨h, trivial⟩
  · -- nested_fault
    obtain ⟨rfl, rfl⟩ := Prod.mk.inj (Except.ok.inj hstep)
    exact ⟨h, trivial⟩
  · -- lock
    obtain ⟨rfl, rfl⟩ := Prod.mk.inj (Except.ok.inj hstep)
    exact ⟨by simp [Cleared], trivial⟩
  · -- unlock
    obtain ⟨rfl, rfl⟩ := Prod.mk.inj (Except.ok.inj hstep)
    exact ⟨by simp [Cleared], trivial⟩
  · -- yield
    obtain ⟨rfl, rfl⟩ := Prod.mk.inj (Except.ok.inj hstep)
    exact ⟨by simp [Cleared, switch_to_sched], trivial⟩
  · -- clone
    exact hc.elim
  · -- execve
    exact hc.elim
  · -- exit
    obtain ⟨rfl, rfl⟩ := Prod.mk.inj (Except.ok.inj hstep)
    exact ⟨by simp [Cleared, switch_to_sched], trivial⟩
  · -- ret
    obtain ⟨rfl, rfl⟩ := Prod.mk.inj (Except.ok.inj hstep)
    exact ⟨by simp [Cleared], rfl⟩
  · simp at hstep

/-- In every run without direct switches in which preempted and new threads are dispatched only
after a preempted one, every entry to `__restore` on the way to user mode has interrupts off. -/
theorem restore_interrupts_off (es : List Event) (s : State) (os : List Seen)
    (hc : Meets step Calm boot es) (h : run step boot es = .ok (s, os)) : ∀ o ∈ os, o.Off :=
  run_observes_of_meets Cleared (fun _ _ _ _ hi hc hstep => step_cleared hi hc hstep)
    (fun _ _ => rfl) hc h

instance (s : State) (e : Event) : Decidable (Calm s e) :=
  match e with
  | .clone _ | .execve => isFalse id
  | .dispatch t =>
    inferInstanceAs
      (Decidable (s.threads t = some .timer ∨ s.threads t = some .first → s.left ≠ .call))
  | .spawn _ | .timer | .fault | .ecall | .nested_timer | .nested_fault | .lock | .unlock | .yield | .exit | .ret =>
    isTrue trivial

/-- A thread is started, preempted, dispatched again, makes a system call and returns. -/
theorem restore_interrupts_off_preempted : ∃ s os,
    run step boot [.spawn 1, .dispatch 1, .timer, .dispatch 1, .ecall,
      .lock, .unlock, .ret] = .ok (s, os) ∧
    Seen.restore 1 false ∈ os ∧ ∀ o ∈ os, o.Off := by
  obtain ⟨r, hr⟩ := ok_of_isSome (show (run step boot
    [.spawn 1, .dispatch 1, .timer, .dispatch 1, .ecall, .lock, .unlock,
      .ret]).toOption.isSome by decide)
  have hseen : ((run step boot [.spawn 1, .dispatch 1, .timer, .dispatch 1,
    .ecall, .lock, .unlock, .ret]).toOption.map
      (·.2)) = some [.nothing, .restore 1 false, .nothing, .restore 1 false,
        .nothing, .nothing, .nothing,
        .restore 1 false] := by decide
  rw [hr] at hseen
  refine ⟨r.1, r.2, hr, ?_, restore_interrupts_off _ r.1 r.2 (by decide) hr⟩
  rw [show r.2 = _ from Option.some.inj hseen]
  decide

/-- A preempted thread is dispatched after a thread that yielded inside a system call. -/
theorem restore_after_yield_interrupts_on :
    ¬ ∀ es s os, run step boot es = .ok (s, os) → ∀ o ∈ os, o.Off := by
  intro h
  obtain ⟨r, hr⟩ :=
    ok_of_isSome (show (run step boot [.spawn 1, .spawn 2, .dispatch 1, .timer, .dispatch 2, .ecall,
    .yield, .dispatch 1]).toOption.isSome by decide)
  have hseen :
    ((run step boot [.spawn 1, .spawn 2, .dispatch 1, .timer, .dispatch 2, .ecall, .yield,
      .dispatch 1]).toOption.map (·.2.getLast?)) = some (some (.restore 1 true)) := by decide
  rw [hr] at hseen
  have hmem : Seen.restore 1 true ∈ r.2 := List.mem_of_getLast? (Option.some.inj hseen)
  exact Bool.noConfusion (h _ r.1 r.2 hr _ hmem)

end HectoOs.Trap
