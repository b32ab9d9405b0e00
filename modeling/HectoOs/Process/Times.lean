import HectoOs.Lib.Exec

/-! # CPU times (`syscall/mod.rs`, `process/thread.rs`, `ret_to_restore` in `trap.rs`)

A thread keeps the moment at which it last entered or left the kernel. What has gone by since then
is charged to the user time of its process when a system call begins, and to its system time when
one ends and in `switch_to`. Every process has one thread here, so the two are one record.
-/

open HectoOs.Lib

namespace HectoOs.Times

/-- Where the code of a thread is: in user mode, or inside a system call. -/
inductive Mode where
  | user
  | kernel
  deriving DecidableEq, Repr

/-- Where a thread goes on when it is switched to, which is the return address in its `task_cx`. -/
inductive Resume where
  | ret_to_restore
  /-- `__restore`, for the child of a `fork`. -/
  | restore
  /-- Behind `__switch` in `switch_to`, called by the timer interrupt or by a system call. -/
  | switch_to (m : Mode)
  deriving DecidableEq, Repr

inductive Place where
  | runs (m : Mode)
  | away (r : Resume)
  | exited
  deriving DecidableEq, Repr

/-- A process and its thread. `created` is when the process was made; the kernel does not keep
it. -/
structure Process where
  created : Nat
  tms_utime : Nat
  tms_stime : Nat
  cycles : Nat
  place : Place
  deriving DecidableEq, Repr

structure System where
  /-- `get_cycles()`. -/
  clock : Nat
  processes : List Process
  /-- The process that runs, if it is not the scheduling thread. -/
  current : Option Nat
  deriving DecidableEq, Repr

/-- `overflow` is a subtraction `cur_cycles - inner.cycles` below zero; `absent` is an event that
cannot happen in the state. -/
inductive Panic where
  | overflow
  | absent
  deriving DecidableEq, Repr

/-- What can happen: time goes by, the scheduling thread makes a thread or switches to one, and the
thread that runs enters a system call or is interrupted by the timer. A system call can return,
switch to the scheduling thread, fork with `n` cycles between the new process and the switch to it,
execute another program, or exit. -/
inductive Event where
  | elapse (n : Nat)
  | new_thread
  | dispatch (i : Nat)
  | syscall
  | timer
  | ret
  | sched_yield
  | clone (n : Nat)
  | execve
  | exit

namespace Process

/-- A new process whose thread starts at `r`. -/
def new (now : Nat) (r : Resume) : Process := ⟨now, 0, 0, 0, .away r⟩

/-- The user time is charged, at the beginning of a system call. -/
def charge_utime (now : Nat) (p : Process) : Except Panic Process :=
  if p.cycles ≤ now then .ok { p with tms_utime := p.tms_utime + (now - p.cycles), cycles := now }
  else .error .overflow

/-- The system time is charged, at the end of a system call and in `switch_to`. -/
def charge_stime (now : Nat) (p : Process) : Except Panic Process :=
  if p.cycles ≤ now then .ok { p with tms_stime := p.tms_stime + (now - p.cycles), cycles := now }
  else .error .overflow

/-- The thread is switched to. `__restore` does not set the moment. -/
def resume (now : Nat) (p : Process) : Except Panic Process :=
  match p.place with
  | .away .ret_to_restore => .ok { p with cycles := now, place := .runs .user }
  | .away .restore => .ok { p with place := .runs .user }
  | .away (.switch_to m) => .ok { p with cycles := now, place := .runs m }
  | _ => .error .absent

end Process

namespace System

/-- The process that runs in the mode `m`. -/
def running (s : System) (m : Mode) : Except Panic (Nat × Process) :=
  match s.current with
  | some i =>
    match s.processes[i]? with
    | some p => if p.place = .runs m then .ok (i, p) else .error .absent
    | none => .error .absent
  | none => .error .absent

def step (s : System) : Event → Except Panic (System × Unit)
  | .elapse n => .ok ({ s with clock := s.clock + n }, ())
  | .new_thread => do
    let _ ← permit .absent (s.current = none) ()
    return ({ s with processes := s.processes ++ [.new s.clock .ret_to_restore] }, ())
  | .dispatch i => do
    let _ ← permit .absent (s.current = none) ()
    let p ← orPanic .absent s.processes[i]?
    let p ← p.resume s.clock
    return ({ s with processes := s.processes.set i p, current := some i }, ())
  | .syscall => do
    let (i, p) ← s.running .user
    let p ← p.charge_utime s.clock
    return ({ s with processes := s.processes.set i { p with place := .runs .kernel } }, ())
  | .timer => do
    let (i, p) ← s.running .user
    let p ← p.charge_stime s.clock
    return ({ s with processes := s.processes.set i { p with
      place := .away (.switch_to .user) }, current := none }, ())
  | .ret => do
    let (i, p) ← s.running .kernel
    let p ← p.charge_stime s.clock
    return ({ s with processes := s.processes.set i { p with place := .runs .user } }, ())
  | .sched_yield => do
    let (i, p) ← s.running .kernel
    let p ← p.charge_stime s.clock
    return ({ s with processes := s.processes.set i { p with
      place := .away (.switch_to .kernel) }, current := none }, ())
  | .clone n => do
    let (i, p) ← s.running .kernel
    let p ← p.charge_stime (s.clock + n)
    let child ← (Process.new s.clock .restore).resume (s.clock + n)
    let processes := s.processes.set i { p with place := .away (.switch_to .kernel) }
    return ({ clock := s.clock + n, processes := processes ++ [child], current := some processes.length }, ())
  | .execve => do
    let (i, p) ← s.running .kernel
    let p ← { p with place := .away .ret_to_restore }.resume s.clock
    return ({ s with processes := s.processes.set i p }, ())
  | .exit => do
    let (i, p) ← s.running .kernel
    let p ← p.charge_stime s.clock
    return ({ s with
      processes := s.processes.set i { p with place := .exited }, current := none }, ())

/-- No process; `n` cycles have gone by. -/
def start (n : Nat) : System := ⟨n, [], none⟩

end System

/-! ## What a step can do -/

/-- The thread that enters the kernel from user mode has a moment that is not before its process was
created. -/
def Event.stamped (s : System) : Event → Bool
  | .syscall | .timer =>
    match s.running .user with
    | .ok (_, p) => p.created ≤ p.cycles
    | .error _ => true
  | _ => true

section Steps

variable {s s' : System} {e : Event} {u : Unit} {p p' : Process} {m : Mode} {now i : Nat}

def Process.total (p : Process) : Nat := p.tms_utime + p.tms_stime

/-- The process `p` has been charged up to the moment `now`. -/
structure Charged (now : Nat) (p p' : Process) : Prop where
  le : p.cycles ≤ now
  total : p'.total = p.total + (now - p.cycles)
  created : p'.created = p.created
  cycles : p'.cycles = now

theorem charge_utime_charges {pl : Place} (h : p.charge_utime now = .ok p') :
    Charged now p { p' with place := pl } := by
  unfold Process.charge_utime at h
  split at h
  · obtain rfl := Except.ok.inj h
    exact ⟨‹_›, by simp only [Process.total]; omega, rfl, rfl⟩
  · simp at h

theorem charge_stime_charges {pl : Place} (h : p.charge_stime now = .ok p') :
    Charged now p { p' with place := pl } := by
  unfold Process.charge_stime at h
  split at h
  · obtain rfl := Except.ok.inj h
    exact ⟨‹_›, by simp only [Process.total]; omega, rfl, rfl⟩
  · simp at h

theorem running_eq (h : s.running m = .ok (i, p)) :
    s.processes[i]? = some p ∧ p ∈ s.processes ∧ p.place = .runs m := by
  unfold System.running at h
  split at h
  · split at h
    · rename_i q hq
      split at h
      · rename_i hpl
        obtain ⟨rfl, rfl⟩ := Prod.mk.inj (Except.ok.inj h)
        exact ⟨hq, List.mem_of_getElem? hq, hpl⟩
      · simp at h
    · simp at h
  · simp at h

/-- What a process can be after a step that ends at the moment `now`. -/
inductive Comes (s : System) (e : Event) (now : Nat) : Process → Prop where
  | kept {p : Process} (hp : p ∈ s.processes) : Comes s e now p
  | made {p' : Process} (h : p' = .new s.clock .ret_to_restore ∨
      p' = { Process.new s.clock .restore with place := .runs .user }) :
    Comes s e now p'
  | charged {i : Nat} {m : Mode} {p p' : Process} (hrun : s.running m = .ok (i, p))
      (hc : Charged now p p')
    (hst : e.stamped s = true → m = .user → p.created ≤ p.cycles) : Comes s e now p'
  | stamped {p p' : Process} (hp : p ∈ s.processes) (htotal : p'.total = p.total)
      (hcreated : p'.created = p.created)
    (hcycles : p'.cycles = now) : Comes s e now p'
  | restored {p : Process} (hp : p ∈ s.processes) (hpl : p.place = .away .restore) :
    Comes s e now { p with place := .runs .user }

theorem comes_set {l : List Process} (hl : ∀ q ∈ l, q ∈ s.processes) (hp : Comes s e now p) :
    ∀ q ∈ l.set i p, Comes s e now q := by
  intro q hq
  rcases List.mem_or_eq_of_mem_set hq with hq | rfl
  · exact .kept (hl q hq)
  · exact hp

theorem resume_comes (hp : p ∈ s.processes) (h : p.resume now = .ok p') : Comes s e now p' := by
  unfold Process.resume at h
  split at h
  · obtain rfl := Except.ok.inj h
    exact .stamped hp rfl rfl rfl
  · obtain rfl := Except.ok.inj h
    exact .restored hp ‹_›
  · obtain rfl := Except.ok.inj h
    exact .stamped hp rfl rfl rfl
  · simp at h

theorem charge_comes {f : Process → Except Panic Process} {pl : Place} {c : Option Nat}
    (h : (do
      let (i, p) ← s.running m
      let p ← f p
      return ({ s with processes := s.processes.set i { p with place := pl }, current := c }, ()) :
        Except Panic (System × Unit)) = .ok (s', u))
    (he : m = .user → e = .syscall ∨ e = .timer)
    (hf : ∀ p p', f p = .ok p' → Charged s.clock p { p' with place := pl }) :
    s.clock ≤ s'.clock ∧ ∀ p ∈ s'.processes, Comes s e s'.clock p := by
  obtain ⟨⟨i, p⟩, hrun, h⟩ := bind_eq_ok h
  obtain ⟨p', hp', h⟩ := bind_eq_ok h
  obtain ⟨rfl, _⟩ := Prod.mk.inj (Except.ok.inj h)
  refine ⟨Nat.le_refl _, comes_set (fun _ hq => hq) (.charged hrun (hf p p' hp') fun hst hm => ?_)⟩
  subst hm
  rcases he rfl with rfl | rfl
  all_goals
    simp only [Event.stamped, hrun, decide_eq_true_eq] at hst
    exact hst

theorem step_comes (h : s.step e = .ok (s', u)) :
    s.clock ≤ s'.clock ∧ ∀ p ∈ s'.processes, Comes s e s'.clock p := by
  have hall : ∀ q ∈ s.processes, q ∈ s.processes := fun _ hq => hq
  cases e with
  | elapse n =>
    obtain ⟨rfl, _⟩ := Prod.mk.inj (Except.ok.inj h)
    exact ⟨Nat.le_add_right _ _, fun p hp => .kept hp⟩
  | new_thread =>
    obtain ⟨_, _, h⟩ := bind_eq_ok h
    obtain ⟨rfl, _⟩ := Prod.mk.inj (Except.ok.inj h)
    refine ⟨Nat.le_refl _, fun p hp => ?_⟩
    rcases List.mem_append.mp hp with hp | hp
    · exact .kept hp
    · exact .made (.inl (List.mem_singleton.mp hp))
  | dispatch i =>
    obtain ⟨_, _, h⟩ := bind_eq_ok h
    obtain ⟨p, hp, h⟩ := bind_eq_ok h
    obtain ⟨p', hp', h⟩ := bind_eq_ok h
    obtain ⟨rfl, _⟩ := Prod.mk.inj (Except.ok.inj h)
    have hmem : p ∈ s.processes := List.mem_of_getElem? (orPanic_eq_ok.mp hp)
    exact ⟨Nat.le_refl _, comes_set hall (resume_comes hmem hp')⟩
  | syscall => exact charge_comes h (fun _ => .inl rfl) fun p p' hp => charge_utime_charges hp
  | timer => exact charge_comes h (fun _ => .inr rfl) fun p p' hp => charge_stime_charges hp
  | ret => exact charge_comes h (by simp) fun p p' hp => charge_stime_charges hp
  | sched_yield => exact charge_comes h (by simp) fun p p' hp => charge_stime_charges hp
  | clone n =>
    obtain ⟨⟨i, p⟩, hrun, h⟩ := bind_eq_ok h
    obtain ⟨p', hp', h⟩ := bind_eq_ok h
    obtain ⟨c, hc, h⟩ := bind_eq_ok h
    obtain ⟨rfl, _⟩ := Prod.mk.inj (Except.ok.inj h)
    refine ⟨Nat.le_add_right _ _, fun q hq => ?_⟩
    rcases List.mem_append.mp hq with hq | hq
    · exact comes_set hall (.charged hrun (charge_stime_charges hp') (by simp)) q hq
    · rw [List.mem_singleton.mp hq]
      exact .made (.inr (Except.ok.inj hc).symm)
  | execve =>
    obtain ⟨⟨i, p⟩, hrun, h⟩ := bind_eq_ok h
    obtain ⟨p', hp', h⟩ := bind_eq_ok h
    obtain ⟨rfl, _⟩ := Prod.mk.inj (Except.ok.inj h)
    obtain rfl := Except.ok.inj hp'
    exact ⟨Nat.le_refl _, comes_set hall (.stamped (running_eq hrun).2.1 rfl rfl rfl)⟩
  | exit => exact charge_comes h (by simp) fun p p' hp => charge_stime_charges hp

end Steps

/-! ## The bound -/

/-- The time that a process has been charged with has gone by since it was created. -/
def Bounded (s : System) : Prop :=
  ∀ p ∈ s.processes, p.tms_utime + p.tms_stime ≤ s.clock - p.created

/-- A process has been charged up to its moment, or it has not been charged yet. -/
def Timed (now : Nat) (p : Process) : Prop :=
  p.created ≤ now ∧ p.cycles ≤ now ∧ (p.total + p.created ≤ p.cycles ∨
    p.total = 0 ∧ p.place ∈ [.away .ret_to_restore, .away .restore, .runs .user])

section Bound

variable {s s' : System} {e : Event} {u : Unit} {p : Process} {now : Nat}

theorem Timed.bounded (h : Timed now p) : p.tms_utime + p.tms_stime ≤ now - p.created := by
  obtain ⟨hcreated, hcycles, h⟩ := h
  simp only [Process.total] at h
  omega

theorem Comes.timed (h : ∀ q ∈ s.processes, Timed s.clock q) (hst : e.stamped s = true)
    (hle : s.clock ≤ now) (hp : Comes s e now p) : Timed now p := by
  cases hp with
  | kept hp =>
    obtain ⟨h1, h2, h3⟩ := h p hp
    exact ⟨Nat.le_trans h1 hle, Nat.le_trans h2 hle, h3⟩
  | made h =>
    rcases h with rfl | rfl
    · exact ⟨hle, Nat.zero_le _, .inr ⟨rfl, by simp [Process.new]⟩⟩
    · exact ⟨hle, Nat.zero_le _, .inr ⟨rfl, by simp⟩⟩
  | charged hrun hc hm =>
    obtain ⟨_, hmem, hpl⟩ := running_eq hrun
    obtain ⟨h1, h2, h3⟩ := h _ hmem
    obtain ⟨hle', htotal, hcreated, hcycles⟩ := hc
    refine ⟨by omega, by omega, .inl ?_⟩
    rcases h3 with h3 | ⟨h3, h4⟩
    · omega
    · -- charged for the first time
      have hm := hm hst
      rw [hpl] at h4
      simp only [List.mem_cons, Place.runs.injEq, reduceCtorEq, false_or,
        List.not_mem_nil, or_false] at h4
      have := hm h4
      omega
  | stamped hp htotal hcreated hcycles =>
    obtain ⟨h1, h2, h3⟩ := h _ hp
    refine ⟨by omega, by omega, .inl ?_⟩
    omega
  | restored hp hpl =>
    obtain ⟨h1, h2, h3⟩ := h _ hp
    refine ⟨Nat.le_trans h1 hle, Nat.le_trans h2 hle, h3.imp id fun h3 => ⟨h3.1, by simp⟩⟩

theorem Comes.cycles_le (h : ∀ q ∈ s.processes, q.cycles ≤ s.clock) (hle : s.clock ≤ now)
    (hp : Comes s e now p) :
    p.cycles ≤ now := by
  cases hp with
  | kept hp => exact Nat.le_trans (h p hp) hle
  | made h => rcases h with rfl | rfl <;> exact Nat.zero_le _
  | charged _ hc _ => exact Nat.le_of_eq hc.cycles
  | stamped _ _ _ hcycles => exact Nat.le_of_eq hcycles
  | restored hp _ =>
    have := h _ hp
    exact Nat.le_trans this hle

theorem charge_utime_ok (h : p.cycles ≤ now) :
    p.charge_utime now =
      .ok { p with tms_utime := p.tms_utime + (now - p.cycles), cycles := now } := if_pos h

theorem charge_stime_ok (h : p.cycles ≤ now) :
    p.charge_stime now =
      .ok { p with tms_stime := p.tms_stime + (now - p.cycles), cycles := now } := if_pos h

theorem running_ne_overflow (s : System) (m : Mode) : s.running m ≠ .error .overflow := by
  unfold System.running
  split
  · split
    · split <;> simp
    · simp
  · simp

theorem permit_ne_overflow {α : Type} {c : Prop} [Decidable c] {a : α} :
    permit Panic.absent c a ≠ .error .overflow := by
  unfold permit
  split <;> simp

theorem resume_ne_overflow : p.resume now ≠ .error .overflow := by
  unfold Process.resume
  split <;> simp

theorem charge_ne_overflow {f : Process → Except Panic Process}
    {g : Nat × Process → Process → System} {m : Mode} (h : ∀ q ∈ s.processes, q.cycles ≤ s.clock)
    (hf : ∀ p, p.cycles ≤ s.clock → ∃ p', f p = .ok p') :
    (do
      let r ← s.running m
      let p ← f r.2
      return (g r p, ()) : Except Panic (System × Unit)) ≠ .error .overflow := by
  intro he
  rcases bind_eq_error he with he | ⟨⟨i, p⟩, hrun, he⟩
  · exact running_ne_overflow s m he
  · obtain ⟨p', hp'⟩ := hf p (h p (running_eq hrun).2.1)
    rw [hp'] at he
    simp [bind, Except.bind, pure, Except.pure] at he

theorem step_ne_overflow (e : Event) (h : ∀ q ∈ s.processes, q.cycles ≤ s.clock) :
    s.step e ≠ .error .overflow := by
  have hu : ∀ p : Process, p.cycles ≤ s.clock → ∃ p', p.charge_utime s.clock = .ok p' :=
    fun p hp => ⟨_, charge_utime_ok hp⟩
  have hs : ∀ p : Process, p.cycles ≤ s.clock → ∃ p', p.charge_stime s.clock = .ok p' :=
    fun p hp => ⟨_, charge_stime_ok hp⟩
  cases e with
  | elapse n => simp [System.step]
  | new_thread =>
    intro he
    rcases bind_eq_error he with he | ⟨_, _, he⟩
    · exact permit_ne_overflow he
    · simp [pure, Except.pure] at he
  | dispatch i =>
    intro he
    rcases bind_eq_error he with he | ⟨_, _, he⟩
    · exact permit_ne_overflow he
    rcases bind_eq_error he with he | ⟨p, _, he⟩
    · cases hp : s.processes[i]? <;> simp [hp, orPanic] at he
    rcases bind_eq_error he with he | ⟨_, _, he⟩
    · exact resume_ne_overflow he
    · simp [pure, Except.pure] at he
  | syscall => exact charge_ne_overflow h hu
  | timer => exact charge_ne_overflow h hs
  | ret => exact charge_ne_overflow h hs
  | sched_yield => exact charge_ne_overflow h hs
  | clone n =>
    intro he
    rcases bind_eq_error he with he | ⟨⟨i, p⟩, hrun, he⟩
    · exact running_ne_overflow s _ he
    have hp : p.cycles ≤ s.clock + n :=
      Nat.le_trans (h p (running_eq hrun).2.1) (Nat.le_add_right _ _)
    dsimp only at he
    rw [charge_stime_ok hp] at he
    simp [bind, Except.bind, pure, Except.pure, Process.resume, Process.new] at he
  | execve =>
    exact charge_ne_overflow h fun p _ => ⟨{ p with cycles := s.clock, place := .runs .user }, rfl⟩
  | exit => exact charge_ne_overflow h hs

theorem unstamped_breaks (h : ∀ q ∈ s.processes, Timed s.clock q) (hst : ¬ e.stamped s = true) :
    ∃ s' u, s.step e = .ok (s', u) ∧ ¬ Bounded s' := by
  have hcharge : ∀ i p p', s.processes[i]? = some p → p.cycles < p.created → Charged s.clock p p' →
      ¬ Bounded { s with processes := s.processes.set i p' } := by
    intro i p p' hi hlt hc hb
    obtain ⟨hlen, _⟩ := List.getElem?_eq_some_iff.mp hi
    have hb : p'.tms_utime + p'.tms_stime ≤ s.clock - p'.created := hb p' (List.mem_set hlen p')
    have hcreated := (h p (List.mem_of_getElem? hi)).1
    have htotal := hc.total
    rw [hc.created] at hb
    simp only [Process.total] at htotal
    omega
  cases e with
  | syscall =>
    simp only [Event.stamped] at hst
    split at hst
    · rename_i i p hrun
      have hok := charge_utime_ok (h p (running_eq hrun).2.1).2.1
      refine ⟨_, (), by simp only [System.step, hrun, bind, Except.bind, hok]; rfl, ?_⟩
      exact hcharge i p _ (running_eq hrun).1 (by simpa using hst) (charge_utime_charges hok)
    · simp at hst
  | timer =>
    simp only [Event.stamped] at hst
    split at hst
    · rename_i i p hrun
      have hok := charge_stime_ok (h p (running_eq hrun).2.1).2.1
      refine ⟨_, (), by simp only [System.step, hrun, bind, Except.bind, hok]; rfl, ?_⟩
      exact hcharge i p _ (running_eq hrun).1 (by simpa using hst) (charge_stime_charges hok)
    · simp at hst
  | _ => simp [Event.stamped] at hst

end Bound

/-- No subtraction of moments goes below zero. No process is charged with more time than has gone by
since it was created exactly if no thread enters the kernel from user mode with a moment before
that: the first system call, or the first time slice, of the child of a fork. -/
theorem cpu_time_bounded_iff (n : Nat) (es : List Event) :
    run System.step (System.start n) es ≠ .error .overflow ∧
    (Always System.step Bounded (System.start n) es ↔
      Meets System.step (fun s e => e.stamped s = true) (System.start n) es) := by
  constructor
  · refine run_ne_error (fun s => ∀ q ∈ s.processes, q.cycles ≤ s.clock) (fun s e s' u h hs => ?_)
      (fun s e h => step_ne_overflow e h) (by simp [System.start])
    obtain ⟨hle, hcomes⟩ := step_comes hs
    exact fun p hp => (hcomes p hp).cycles_le h hle
  · refine always_iff_meets (fun s : System => ∀ q ∈ s.processes, Timed s.clock q)
      (fun s h p hp => (h p hp).bounded)
      (fun s e s' u h hst hs => ?_) (fun s e h hst => unstamped_breaks h hst)
        (by simp [System.start])
    obtain ⟨hle, hcomes⟩ := step_comes hs
    exact fun p hp => (hcomes p hp).timed h hst hle

/-- A child that is forked at the moment 5 is charged with 6 cycles at the moment 6. -/
theorem child_charged_before_birth : ∃ s os,
    run System.step (System.start 0)
    [.new_thread, .dispatch 0, .syscall, .elapse 5, .clone 0, .elapse 1, .syscall] =
      .ok (s, os) ∧
    ∃ p ∈ s.processes, p.created = 5 ∧ s.clock = 6 ∧ p.tms_utime = 6 ∧
    ¬ p.tms_utime + p.tms_stime ≤ s.clock - p.created :=
  ⟨_, _, rfl, ⟨5, 6, 0, 6, .runs .kernel⟩, by decide⟩

end HectoOs.Times
