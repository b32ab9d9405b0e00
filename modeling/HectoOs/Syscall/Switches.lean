import HectoOs.Lib.Exec
import HectoOs.Syscall.Locks

/-! # Threads that are switched out

One processor. A thread that finds a lock taken spins with interrupts off, so it never goes on. What
a call meets on its way is part of the event; a page fault of a store is left out here.
-/

open HectoOs.Lib

namespace HectoOs.Syscall

structure System where
  /-- The thread on the processor; `none` for the scheduling thread. -/
  cpu : Option Nat
  /-- The locks that are taken and by whom, the last one first. -/
  locks : List (Lock × Nat)
  /-- What each thread still does before it is back in user mode. -/
  todo : Nat → List Act

def boot : System := ⟨none, [], fun _ => []⟩

inductive Event where
  /-- `schedule` dispatches a thread. -/
  | dispatch (t : Nat)
  /-- The thread on the processor makes a system call. -/
  | call (p : Caller) (c : Call)
  /-- A timer interrupt in user mode, which makes the threads in `expired` ready. -/
  | timer (expired : List Nat)
  /-- The next action of the thread on the processor. -/
  | act

inductive Seen where
  | nothing
  /-- The thread is switched out, with the locks that it holds. -/
  | switched (t : Nat) (held : List Lock)
  deriving DecidableEq

inductive Stop where
  | impossible
  | deadlock
  | panic
  deriving DecidableEq

def System.held (s : System) (t : Nat) : List Lock := (s.locks.filter (·.2 = t)).map (·.1)

def System.taken (s : System) (l : Lock) : Prop := l ∈ s.locks.map (·.1)

instance (s : System) (l : Lock) : Decidable (s.taken l) := inferInstanceAs (Decidable (_ ∈ _))

def set_todo (s : System) (t : Nat) (todo : List Act) : System :=
  { s with todo := fun u => if u = t then todo else s.todo u }

/-- The timer path of `handle_trap`. -/
def timer_trap (t : Nat) (expired : List Nat) : List Act :=
  critical .TIMER (expired.map fun w => critical (.thread w) []).flatten ++ yield_to_sched t

/-- What `schedule` takes to dispatch a thread: its status and its page table. -/
def dispatch_locks (t : Nat) : List Lock := [.SCHEDULER, .thread t, .inner t]

def act (s : System) (t : Nat) : Act → Except Stop (System × Seen)
  | .lock l =>
    if s.taken l then .error .deadlock else .ok ({ s with locks := (l, t) :: s.locks }, .nothing)
  | .unlock l => .ok ({ s with locks := s.locks.erase (l, t) }, .nothing)
  | .store _ _ => .ok (s, .nothing)
  | .switch => .ok ({ s with cpu := none }, .switched t (s.held t))
  | .panic => .error .panic

def step (z : Sizes) (s : System) (e : Event) : Except Stop (System × Seen) :=
  match e, s.cpu with
  | .dispatch t, none =>
    if t = 0 then .error .impossible
    else if ∃ l ∈ dispatch_locks t, s.taken l then .error .deadlock
    else .ok ({ s with cpu := some t }, .nothing)
  | .call p c, some t =>
    permit .impossible (p.t = t ∧ s.todo t = []) (set_todo s t (syscall_handler z p c), .nothing)
  | .timer expired, some t =>
    permit .impossible (s.todo t = []) (set_todo s t (timer_trap t expired), .nothing)
  | .act, some t =>
    match s.todo t with
    | [] => .error .impossible
    | a :: as => act (set_todo s t as) t a
  | _, _ => .error .impossible

/-! ## Nobody leaves with a lock -/

variable {z : Sizes} {s s' : System} {e : Event} {o : Seen} {t : Nat} {a : Act} {as : List Act}

/-- A thread is switched out only without locks. -/
def tidy : Rules where
  store _ _ := True
  switch held := held = []

/-- No call reads from a pipe that is empty and has a write end. -/
def Unblocked (_ : System) : Event → Prop
  | .call p c => ¬ Blocks p c
  | _ => True

structure Orderly (s : System) : Prop where
  idle : s.cpu = none → s.locks = []
  mine : ∀ t, s.cpu = some t → ∀ x ∈ s.locks, x.2 = t
  running : ∀ t, s.cpu = some t → Keeps tidy (s.locks.map (·.1)) (s.todo t)
  others : ∀ u, s.cpu ≠ some u → Keeps tidy [] (s.todo u)

theorem orderly_boot : Orderly boot :=
  ⟨fun _ => rfl, by simp [boot], by simp [boot], fun _ _ => rfl⟩

theorem timer_trap_keeps (t : Nat) (expired : List Nat) : Keeps tidy [] (timer_trap t expired) := by
  refine (Block.append (.critical (by simp) (.flatten fun b hb => ?_))
    (switch_to_block rfl (by simp) (by simp))).keeps
  obtain ⟨w, _, rfl⟩ := List.mem_map.mp hb
  exact .section_nil (by simp)

theorem Orderly.user (h : Orderly s) (hcpu : s.cpu = some t) (htodo : s.todo t = []) :
    s.locks = [] := by
  have := h.running t hcpu
  rw [htodo] at this
  exact List.map_eq_nil_iff.mp this

theorem Orderly.set_todo (h : Orderly s) (hcpu : s.cpu = some t) (hlocks : s.locks = [])
    (hk : Keeps tidy [] as) :
    Orderly (set_todo s t as) := by
  refine ⟨h.idle, h.mine, fun u hu => ?_, fun u hu => ?_⟩
  · obtain rfl : t = u := Option.some.inj (hcpu.symm.trans hu)
    simpa [Syscall.set_todo, hlocks] using hk
  · have hne : u ≠ t := fun heq => hu (heq ▸ hcpu)
    simpa [Syscall.set_todo, hne] using h.others u hu

theorem Orderly.stay (h : Orderly s) (hcpu : s.cpu = some t) {locks : List (Lock × Nat)}
    (hmine : ∀ x ∈ locks, x.2 = t) (hk : Keeps tidy (locks.map (·.1)) as) :
    Orderly { Syscall.set_todo s t as with locks } := by
  refine ⟨fun hnone => ?_, fun u hu => ?_, fun u hu => ?_, fun u hu => ?_⟩
  · exact absurd (hcpu.symm.trans hnone) (by simp)
  · obtain rfl : t = u := Option.some.inj (hcpu.symm.trans hu)
    exact hmine
  · obtain rfl : t = u := Option.some.inj (hcpu.symm.trans hu)
    simpa [Syscall.set_todo] using hk
  · have hne : u ≠ t := fun heq => hu (heq ▸ hcpu)
    simpa [Syscall.set_todo, hne] using h.others u hu

theorem Orderly.act (h : Orderly s) (hcpu : s.cpu = some t) (htodo : s.todo t = a :: as) :
    Syscall.act (Syscall.set_todo s t as) t a ≠ .error .deadlock ∧
    ∀ s' o, Syscall.act (Syscall.set_todo s t as) t a = .ok (s', o) →
      Orderly s' ∧ ∀ u held, o = .switched u held → held = [] := by
  have hk := h.running t hcpu
  have hmine := h.mine t hcpu
  rw [htodo] at hk
  cases a with
  | lock l =>
    have hfree : ¬ (Syscall.set_todo s t as).taken l := hk.1
    have hact : Syscall.act (Syscall.set_todo s t as) t (.lock l) =
        .ok ({ Syscall.set_todo s t as with locks := (l, t) :: s.locks }, .nothing) := if_neg hfree
    rw [hact]
    refine ⟨by simp, fun s' o heq => ?_⟩
    obtain ⟨rfl, rfl⟩ := Prod.mk.inj (Except.ok.inj heq)
    refine ⟨h.stay hcpu (fun x hx => ?_) hk.2, by simp⟩
    rcases List.mem_cons.mp hx with rfl | hx
    · rfl
    · exact hmine x hx
  | unlock l =>
    refine ⟨by simp [Syscall.act], fun s' o heq => ?_⟩
    obtain ⟨rfl, rfl⟩ := Prod.mk.inj (Except.ok.inj heq)
    obtain ⟨rest, hheld, hrest⟩ := hk
    -- the lock on top is the one that is given back
    obtain ⟨⟨l', u⟩, locks, hlocks, rfl, rfl⟩ := List.map_eq_cons_iff.mp hheld
    have hu : u = t := hmine (l', u) (by simp [hlocks])
    subst hu
    have herase : (Syscall.set_todo s u as).locks.erase (l', u) = locks := by
      show s.locks.erase (l', u) = locks
      rw [hlocks, List.erase_cons_head]
    rw [herase]
    exact ⟨h.stay hcpu (fun x hx => hmine x (by simp [hlocks, hx])) hrest, by simp⟩
  | store va n =>
    refine ⟨by simp [Syscall.act], fun s' o heq => ?_⟩
    obtain ⟨rfl, rfl⟩ := Prod.mk.inj (Except.ok.inj heq)
    exact ⟨h.stay hcpu hmine hk.2, by simp⟩
  | switch =>
    refine ⟨by simp [Syscall.act], fun s' o heq => ?_⟩
    obtain ⟨rfl, rfl⟩ := Prod.mk.inj (Except.ok.inj heq)
    have hlocks : s.locks = [] := List.map_eq_nil_iff.mp hk.1
    refine ⟨⟨fun _ => hlocks, by simp, by simp, fun u _ => ?_⟩, fun u held heq => ?_⟩
    · by_cases hu : u = t
      · have := hk.2
        rw [hlocks] at this
        simpa [Syscall.set_todo, hu] using this
      · have hne : s.cpu ≠ some u := by rw [hcpu]; simpa using Ne.symm hu
        simpa [Syscall.set_todo, hu] using h.others u hne
    · obtain ⟨rfl, rfl⟩ := Seen.switched.inj heq
      simp [System.held, Syscall.set_todo, hlocks]
  | panic => exact ⟨by simp [Syscall.act], by simp [Syscall.act]⟩

theorem Orderly.not_taken (h : Orderly s) (hcpu : s.cpu = none) (t : Nat) :
    ¬ ∃ l ∈ dispatch_locks t, s.taken l := by
  rintro ⟨l, _, hl⟩
  simp [System.taken, h.idle hcpu] at hl

theorem step_orderly (h : Orderly s) (hc : Unblocked s e) (hstep : step z s e = .ok (s', o)) :
    Orderly s' ∧ ∀ u held, o = .switched u held → held = [] := by
  unfold step at hstep
  split at hstep
  · -- dispatch
    rename_i t hcpu
    split at hstep
    · simp at hstep
    · rw [if_neg (h.not_taken hcpu t)] at hstep
      obtain ⟨rfl, rfl⟩ := Prod.mk.inj (Except.ok.inj hstep)
      have hlocks := h.idle hcpu
      refine ⟨⟨by simp, by simp [hlocks], fun u hu => ?_,
        fun u hu => h.others u (by simp [hcpu])⟩, by simp⟩
      obtain rfl := Option.some.inj hu
      rw [hlocks]
      exact h.others t (by simp [hcpu])
  · -- call
    rename_i p c t hcpu
    obtain ⟨⟨_, htodo⟩, hr⟩ := permit_eq_ok hstep
    obtain ⟨rfl, rfl⟩ := Prod.mk.inj hr
    have hk : Keeps tidy [] (syscall_handler z p c) :=
      syscall_handler_keeps (fun _ => trivial) rfl (fun _ => trivial) (fun _ _ _ => trivial)
        fun hb => absurd hb hc
    exact ⟨h.set_todo hcpu (h.user hcpu htodo) hk, by simp⟩
  · -- timer
    rename_i expired t hcpu
    obtain ⟨htodo, hr⟩ := permit_eq_ok hstep
    obtain ⟨rfl, rfl⟩ := Prod.mk.inj hr
    exact ⟨h.set_todo hcpu (h.user hcpu htodo) (timer_trap_keeps t expired), by simp⟩
  · -- act
    rename_i t hcpu
    split at hstep
    · simp at hstep
    · exact (h.act hcpu ‹_›).2 s' o hstep
  · simp at hstep

theorem step_ne_deadlock (h : Orderly s) : step z s e ≠ .error .deadlock := by
  unfold step
  split
  · rename_i t hcpu
    rw [if_neg (h.not_taken hcpu t)]
    split <;> simp
  · unfold permit
    split <;> simp
  · unfold permit
    split <;> simp
  · rename_i t hcpu
    split
    · simp
    · exact (h.act hcpu ‹_›).1
  · simp

/-- In every run without a read from an empty pipe that has a write end, no thread is switched out
with a lock of its process, and nobody ever finds a lock taken. -/
theorem switched_out_without_locks (z : Sizes) (es : List Event) (s : System) (os : List Seen)
    (hc : Meets (step z) Unblocked boot es) (h : run (step z) boot es = .ok (s, os)) :
    (∀ t held, Seen.switched t held ∈ os → .inner t ∉ held) ∧
    ∀ e, step z s e ≠ .error .deadlock := by
  constructor
  · have hall := run_observes_of_meets Orderly
      (fun _ _ _ _ hi hc hstep => step_orderly hi hc hstep) orderly_boot hc h
    intro t held hm
    rw [hall _ hm t held rfl]
    simp
  · have hs := run_invariant_of_meets Orderly
      (fun _ _ _ _ hi hc hstep => (step_orderly hi hc hstep).1) orderly_boot hc h
    exact fun e => step_ne_deadlock hs

/-- A thread yields and is dispatched again. -/
def yield_run : List Event :=
  .dispatch 1 :: .call (pipe_reader 0) .sched_yield :: (List.replicate 7 .act ++ [.dispatch 1])

theorem switched_out_without_locks_yield : ∃ s os, run (step sizes) boot yield_run = .ok (s, os) ∧
    .switched 1 [] ∈ os ∧ ∀ e, step sizes s e ≠ .error .deadlock := by
  obtain ⟨r, hr⟩ := ok_of_isSome (show (run (step sizes) boot yield_run).toOption.isSome by decide)
  have hseen :
    ((run (step sizes) boot yield_run).toOption.map fun r => decide (Seen.switched 1 [] ∈ r.2)) =
      some true := by decide
  rw [hr] at hseen
  have hc : Meets (step sizes) Unblocked boot yield_run :=
    meets_of_forall (by simp [yield_run, Unblocked, Blocks]) boot
  exact ⟨r.1, r.2, hr, by simpa [Except.toOption] using hseen,
    (switched_out_without_locks sizes _ r.1 r.2 hc hr).2⟩

/-- A thread that reads from an empty pipe takes the lock of its process along. -/
theorem blocked_reader_keeps_lock :
    ¬ ∀ (z : Sizes) (es : List Event) (s : System) (os : List Seen),
    run (step z) boot es = .ok (s, os) →
      ∀ t held, Seen.switched t held ∈ os → .inner t ∉ held := by
  intro h
  let es : List Event :=
    .dispatch 1 :: .call (pipe_reader 1) (.read 3 4096 1) :: List.replicate 14 .act
  obtain ⟨r, hr⟩ := ok_of_isSome (show (run (step sizes) boot es).toOption.isSome by decide)
  have hseen :
    ((run (step sizes) boot es).toOption.map fun r => decide (Seen.switched 1 [.inner 1] ∈ r.2)) =
      some true := by decide
  rw [hr] at hseen
  exact h sizes es r.1 r.2 hr 1 [.inner 1] (by simpa [Except.toOption] using hseen) (by simp)

end HectoOs.Syscall
