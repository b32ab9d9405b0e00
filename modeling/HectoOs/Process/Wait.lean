import HectoOs.Lib.Exec
import HectoOs.Sync.Condvar

/-! # Children that exit and parents that wait (`syscall/process.rs`, `process/thread.rs`)

The tree of processes. A process has one thread, and both are named by the order in which the
processes were created; the thread number, which serves as pid, is recycled. Kernel code runs
without preemption between two yields. A `Vec` is a list whose end is the top.
-/

open HectoOs.Lib HectoOs.Sync

namespace HectoOs.Wait

def pop {α : Type} (l : List α) : Option (α × List α) := l.getLast?.map fun x => (x, l.dropLast)

/-! ## Thread numbers -/

structure TidAllocator where
  current : Nat
  recycled : List Nat

def TidAllocator.alloc (a : TidAllocator) : Nat × TidAllocator :=
  match pop a.recycled with
  | some (tid, recycled) => (tid, { a with recycled })
  | none => (a.current, { a with current := a.current + 1 })

/-- `none` where an assertion fails. -/
def TidAllocator.dealloc (a : TidAllocator) (tid : Nat) : Option TidAllocator :=
  if tid < a.current ∧ tid ∉ a.recycled then some
    { a with recycled := a.recycled ++ [tid] } else none

/-! ## The system -/

/-- An entry of `child_exited`. -/
structure Exited where
  pid : Nat
  child : Nat
  status : BitVec 32
  deriving DecidableEq

structure Process where
  pid : Nat
  parent : Option Nat
  child : List Nat
  child_exited : List Exited
  /-- A callback is the thread that it makes ready. -/
  wake_callbacks : List Nat

structure State where
  tids : TidAllocator
  count : Nat
  procs : Nat → Process
  threads : Threads
  /-- The threads in `SCHEDULER`. -/
  scheduled : List Nat
  /-- The threads that yielded inside `sys_wait4`, with its arguments `pid` and `wstatus`. -/
  waiting : List (Nat × BitVec 64 × BitVec 64)

def State.modify (s : State) (i : Nat) (f : Process → Process) : State :=
  { s with procs := fun j => if j = i then f (s.procs j) else s.procs j }

/-- `KERNEL_PROCESS` with the scheduling thread. -/
def boot : State :=
  ⟨⟨1, []⟩, 1, fun _ => ⟨0, none, [], [], []⟩, fun t => if t = 0 then some .Ready else none, [], []⟩

inductive Event where
  /-- `schedule` starts a program. -/
  | spawn
  | fork (i : Nat)
  | exit (i : Nat) (status : BitVec 32)
  /-- The last reference to the thread of an exited process goes. -/
  | drop (i : Nat)
  | wait4 (i : Nat) (pid wstatus : BitVec 64)
  /-- The scheduler dispatches a thread that yielded inside `sys_wait4`. -/
  | resume (i : Nat)
  /-- The thread waits for something else, such as a pipe or a timer. -/
  | block (i : Nat)
  | wake (i : Nat)

inductive Seen where
  | nothing
  /-- `sys_exit(status)` of a child, told to its parent. -/
  | exited (parent child pid : Nat) (status : BitVec 32)
  /-- `sys_wait4` took `entry`, stored the status if it was given a place and returned `cpid`. -/
  | waited (i : Nat) (entry : Exited) (cpid : BitVec 64) (stored : Option (BitVec 32))

inductive Stop where
  | impossible
  | panic
  deriving DecidableEq

/-- A new process with its thread. -/
def add (s : State) (parent : Nat) : State :=
  let (tid, tids) := s.tids.alloc
  { s with
    tids
    count := s.count + 1
    procs := fun j => if j = s.count then ⟨tid, some parent, [], [], []⟩ else s.procs j
    threads := fun j => if j = s.count then some .Ready else s.threads j
    scheduled := s.scheduled ++ [s.count] }

/-- `sys_clone`. -/
def fork (s : State) (i : Nat) : State :=
  let s' := (add s i).modify i fun p => { p with child := p.child ++ [s.count] }
  { s' with threads := s'.threads.set_status i .Ready }

/-- The parent gets the entry, and one callback is called. -/
def notify_parent (s : State) (parent : Nat) (entry : Exited) : State :=
  let s := s.modify parent fun p => { p with child_exited := p.child_exited ++ [entry] }
  match pop (s.procs parent).wake_callbacks with
  | some (t, wake_callbacks) =>
    let s := s.modify parent fun p => { p with wake_callbacks }
    { s with threads := s.threads.set_status t .Ready }
  | none => s

/-- `sys_exit`. The parent is a weak reference, which a dropped process does not upgrade. -/
def exit (s : State) (i : Nat) (status : BitVec 32) : State × Seen :=
  let s := { s with
    threads := s.threads.set_status i .Zombie, scheduled := s.scheduled.filter (· ≠ i) }
  match (s.procs i).parent with
  | some parent =>
    if (s.threads parent).isSome then
      (notify_parent s parent ⟨(s.procs i).pid, i, status &&& 0xFF⟩,
        .exited parent i (s.procs i).pid status)
    else
      (s, .nothing)
  | none => (s, .nothing)

/-- The entry is one that `sys_wait4(pid)` asks for. -/
def Exited.Is (pid : BitVec 64) (entry : Exited) : Prop :=
  pid = -1 ∨ BitVec.ofNat 64 entry.pid = pid

/-- What `sys_wait4` takes from `child_exited`, with the number it returns, and what it leaves. -/
def take (child_exited : List Exited) (pid : BitVec 64) :
    Option (Exited × BitVec 64) × List Exited :=
  if pid = -1 then
    match pop child_exited with
    | some (entry, rest) => (some (entry, BitVec.ofNat 64 entry.pid), rest)
    | none => (none, child_exited)
  else
    -- drain_filter takes out every entry with that pid
    let drained := child_exited.filter fun c => BitVec.ofNat 64 c.pid = pid
    let rest := child_exited.filter fun c => BitVec.ofNat 64 c.pid ≠ pid
    match pop drained with
    | some (entry, _) => (some (entry, pid), rest)
    | none => (none, rest)

/-- One turn of the loop of `sys_wait4`. -/
def wait_loop (s : State) (i : Nat) (pid wstatus : BitVec 64) : State × Seen :=
  match take (s.procs i).child_exited pid with
  | (some (entry, cpid), rest) =>
    (s.modify i fun p => { p with child_exited := rest, child := p.child.filter (· ≠ entry.child) },
      .waited i entry cpid (if wstatus = 0 then none else some (entry.status <<< 8)))
  | (none, rest) =>
    let s := s.modify i fun p =>
      { p with child_exited := rest, wake_callbacks := p.wake_callbacks ++ [i] }
    ({ s with threads := s.threads.set_status i .Waiting, waiting := s.waiting ++ [(i, pid, wstatus)] }, .nothing)

/-- The thread runs user code or another system call. -/
def Running (s : State) (i : Nat) : Prop := i ∈ s.scheduled ∧ i ∉ s.waiting.map (·.1)

instance (s : State) (i : Nat) : Decidable (Running s i) := inferInstanceAs (Decidable (_ ∧ _))

/-- A step, when it can happen. -/
def step (s : State) : Event → Except Stop (State × Seen)
  | .spawn => .ok (add s 0, .nothing)
  | .fork i => permit .impossible (Running s i) (fork s i, .nothing)
  | .exit i status => permit .impossible (Running s i) (exit s i status)
  | .drop i =>
    if i ≠ 0 ∧ (s.threads i).isSome ∧ i ∉ s.scheduled then
      match s.tids.dealloc (s.procs i).pid with
      | some tids => .ok ({ s with tids, threads := s.threads.drop i }, .nothing)
      | none => .error .panic
    else
      .error .impossible
  | .wait4 i pid wstatus => permit .impossible (Running s i) (wait_loop s i pid wstatus)
  | .resume i =>
    match s.waiting.find? (·.1 = i) with
    | some (_, pid, wstatus) =>
      permit .impossible (s.threads i = some .Ready)
        (wait_loop { s with waiting := s.waiting.filter (·.1 ≠ i) } i pid wstatus)
    | none => .error .impossible
  | .block i =>
    permit .impossible (Running s i)
      ({ s with threads := s.threads.set_status i .Waiting }, .nothing)
  | .wake i => .ok ({ s with threads := s.threads.set_status i .Ready }, .nothing)

/-! ## What a step can do -/

variable {s s' : State} {e : Event} {o : Seen} {i j : Nat} {pid wstatus : BitVec 64}

theorem pop_eq_some {α : Type} {l rest : List α} {x : α} (h : pop l = some (x, rest)) :
    l = rest ++ [x] := by
  unfold pop at h
  rcases List.eq_nil_or_concat l with rfl | ⟨l', y, rfl⟩
  · simp at h
  · simp only [List.concat_eq_append, List.getLast?_append, List.getLast?_singleton,
      Option.some_or, Option.map_some,
      List.dropLast_concat, Option.some.injEq, Prod.mk.injEq] at h
    rw [h.1, h.2, List.concat_eq_append]

theorem pop_eq_none {α : Type} {l : List α} (h : pop l = none) : l = [] := by
  simpa [pop] using h

@[simp] theorem modify_self {f : Process → Process} :
    (s.modify i f).procs i = f (s.procs i) := if_pos rfl

theorem modify_ne {f : Process → Process} (h : j ≠ i) :
    (s.modify i f).procs j = s.procs j := if_neg h

/-- At most one entry has the pid that is asked for. -/
def Single (child_exited : List Exited) (pid : BitVec 64) : Prop :=
  pid ≠ -1 → (child_exited.filter fun c => BitVec.ofNat 64 c.pid = pid).length ≤ 1

theorem take_cases (l : List Exited) (pid : BitVec 64) :
    (∃ entry rest, take l pid = (some (entry, BitVec.ofNat 64 entry.pid), rest) ∧
      (Single l pid → l.Perm (entry :: rest))) ∨
    (take l pid = (none, l) ∧ ∀ entry ∈ l, ¬ entry.Is pid) := by
  unfold take
  by_cases hpid : pid = -1
  · simp only [if_pos hpid]
    cases hp : pop l with
    | none => exact .inr ⟨rfl, by simp [pop_eq_none hp]⟩
    | some r =>
      obtain ⟨entry, rest⟩ := r
      refine .inl ⟨entry, rest, rfl, fun _ => ?_⟩
      rw [pop_eq_some hp]
      exact List.perm_append_comm
  · simp only [if_neg hpid]
    cases hp : pop (l.filter fun c => BitVec.ofNat 64 c.pid = pid) with
    | none =>
      have hnone : ∀ c ∈ l, ¬ BitVec.ofNat 64 c.pid = pid := by simpa using pop_eq_none hp
      refine .inr ⟨?_, fun entry hm his => ?_⟩
      · simpa using hnone
      · rcases his with h | h
        · exact hpid h
        · exact hnone entry hm h
    | some r =>
      obtain ⟨entry, others⟩ := r
      have hsplit := pop_eq_some hp
      have hpid' : BitVec.ofNat 64 entry.pid = pid := by
        have : entry ∈ l.filter fun c => BitVec.ofNat 64 c.pid = pid := by simp [hsplit]
        simpa using (List.mem_filter.mp this).2
      refine .inl ⟨entry, l.filter fun c => BitVec.ofNat 64 c.pid ≠ pid, by rw [hpid'],
        fun hone => ?_⟩
      have hlen := hone hpid
      rw [hsplit, List.length_append, List.length_singleton] at hlen
      have hnil : others = [] := List.length_eq_zero_iff.mp (by omega)
      have hperm :=
        List.filter_append_perm (fun c : Exited => decide (BitVec.ofNat 64 c.pid = pid)) l
      rw [hsplit, hnil] at hperm
      refine hperm.symm.trans ?_
      simp

theorem modify_modify {f g : Process → Process} :
    (s.modify i f).modify i g = s.modify i fun p => g (f p) := by
  unfold State.modify
  congr 1
  funext j
  by_cases h : j = i
  · simp [h]
  · simp [h]

theorem wait_loop_cases (s : State) (i : Nat) (pid wstatus : BitVec 64) :
    (∃ entry rest, wait_loop s i pid wstatus =
        (s.modify i fun p => { p with
          child_exited := rest, child := p.child.filter (· ≠ entry.child) },
          .waited i entry (BitVec.ofNat 64 entry.pid)
            (if wstatus = 0 then none else some (entry.status <<< 8))) ∧
      (Single (s.procs i).child_exited pid → (s.procs i).child_exited.Perm (entry :: rest))) ∨
    (wait_loop s i pid wstatus =
        ({ s.modify i fun p => { p with wake_callbacks := p.wake_callbacks ++ [i] } with
            threads := s.threads.set_status i .Waiting, waiting := s.waiting ++ [(i, pid, wstatus)] }, .nothing) ∧
      ∀ entry ∈ (s.procs i).child_exited, ¬ entry.Is pid) := by
  unfold wait_loop
  rcases take_cases (s.procs i).child_exited pid with ⟨entry, rest, htake, hperm⟩ | ⟨htake, hnone⟩
  · rw [htake]
    exact .inl ⟨entry, rest, rfl, hperm⟩
  · rw [htake]
    refine .inr ⟨?_, hnone⟩
    have hsame : (s.modify i fun p =>
          { p with child_exited := (s.procs i).child_exited, wake_callbacks := p.wake_callbacks ++ [i] }) =
        s.modify i fun p => { p with wake_callbacks := p.wake_callbacks ++ [i] } := by
      unfold State.modify
      congr 1
      funext j
      by_cases h : j = i
      · simp [h]
      · simp [h]
    dsimp only
    rw [hsame]
    rfl

theorem notify_parent_cases (s : State) (parent : Nat) (entry : Exited) :
    (∃ t rest, (s.procs parent).wake_callbacks = rest ++ [t] ∧ notify_parent s parent entry =
      { s.modify parent fun p => { p with
        child_exited := p.child_exited ++ [entry], wake_callbacks := rest } with
        threads := s.threads.set_status t .Ready }) ∨
    ((s.procs parent).wake_callbacks = [] ∧
      notify_parent s parent entry =
        s.modify parent fun p => { p with child_exited := p.child_exited ++ [entry] }) := by
  unfold notify_parent
  dsimp only
  rw [modify_self]
  cases hp : pop (s.procs parent).wake_callbacks with
  | none => exact .inr ⟨pop_eq_none hp, rfl⟩
  | some r =>
    obtain ⟨t, rest⟩ := r
    refine .inl ⟨t, rest, pop_eq_some hp, ?_⟩
    dsimp only
    rw [modify_modify]
    rfl

/-- The state in which an exiting thread looks for its parent. -/
def gone (s : State) (i : Nat) : State :=
  { s with threads := s.threads.set_status i .Zombie, scheduled := s.scheduled.filter (· ≠ i) }

theorem exit_cases (s : State) (i : Nat) (status : BitVec 32) :
    (∃ parent, (s.procs i).parent = some parent ∧ (s.threads parent).isSome ∧ exit s i status =
      (notify_parent (gone s i) parent ⟨(s.procs i).pid, i, status &&& 0xFF⟩,
        .exited parent i (s.procs i).pid status)) ∨
    ((∀ parent, (s.procs i).parent = some parent → ¬ (s.threads parent).isSome) ∧
      exit s i status = (gone s i, .nothing)) := by
  unfold exit
  dsimp only
  cases hp : (s.procs i).parent with
  | none => exact .inr ⟨by simp, rfl⟩
  | some parent =>
    dsimp only
    rw [Threads.set_status_isSome]
    by_cases halive : (s.threads parent).isSome
    · rw [if_pos halive]
      exact .inl ⟨parent, rfl, halive, rfl⟩
    · rw [if_neg halive]
      refine .inr ⟨fun q hq => ?_, rfl⟩
      obtain rfl := Option.some.inj hq
      exact halive

theorem drop_eq_ok (h : step s (.drop i) = .ok (s', o)) :
    ∃ tids, s.tids.dealloc (s.procs i).pid = some tids ∧ i ≠ 0 ∧ (s.threads i).isSome ∧
    i ∉ s.scheduled ∧
      s' = { s with tids, threads := s.threads.drop i } ∧ o = .nothing := by
  simp only [step] at h
  split at h
  · rename_i hc
    split at h
    · obtain ⟨rfl, rfl⟩ := Prod.mk.inj (Except.ok.inj h)
      exact ⟨_, ‹_›, hc.1, hc.2.1, hc.2.2, rfl, rfl⟩
    · simp at h
  · simp at h

/-- The threads that stay inside `sys_wait4` while `i` runs a turn of its loop. -/
def Others (s : State) (i : Nat) (waiting : List (Nat × BitVec 64 × BitVec 64)) : Prop :=
  (∀ w ∈ waiting, w ∈ s.waiting ∧ w.1 ≠ i) ∧ ∀ w ∈ s.waiting, w.1 ≠ i → w ∈ waiting

theorem wait4_eq_ok (h : step s (.wait4 i pid wstatus) = .ok (s', o)) :
    i ∈ s.scheduled ∧ Others s i s.waiting ∧ wait_loop s i pid wstatus = (s', o) := by
  obtain ⟨⟨hin, hnot⟩, hr⟩ := permit_eq_ok h
  refine ⟨hin, ⟨fun w hw => ⟨hw, fun hi => hnot ?_⟩, fun w hw _ => hw⟩, hr⟩
  rw [← hi]
  exact List.mem_map_of_mem hw

theorem resume_eq_ok (h : step s (.resume i) = .ok (s', o)) :
    ∃ pid wstatus, (i, pid, wstatus) ∈ s.waiting ∧ s.threads i = some .Ready ∧
      Others s i (s.waiting.filter (·.1 ≠ i)) ∧
      wait_loop { s with waiting := s.waiting.filter (·.1 ≠ i) } i pid wstatus = (s', o) := by
  simp only [step] at h
  cases hf : s.waiting.find? (·.1 = i) with
  | none => simp [hf] at h
  | some r =>
    obtain ⟨u, pid, wstatus⟩ := r
    rw [hf] at h
    obtain ⟨hready, hr⟩ := permit_eq_ok h
    have hu : u = i := by simpa using List.find?_some hf
    subst hu
    refine ⟨pid, wstatus, List.mem_of_find?_eq_some hf, hready,
      ⟨fun w hw => ?_, fun w hw hne => ?_⟩, hr⟩
    · obtain ⟨hw, hne⟩ := List.mem_filter.mp hw
      exact ⟨hw, by simpa using hne⟩
    · exact List.mem_filter.mpr ⟨hw, by simpa using hne⟩

/-! ## Where things are -/

structure Placed (s : State) : Prop where
  scheduled : ∀ i ∈ s.scheduled, i < s.count
  threads : ∀ i, (s.threads i).isSome → i < s.count
  waiting : ∀ w ∈ s.waiting, w.1 ∈ s.scheduled
  fresh : ∀ i, s.count ≤ i → (s.procs i).child_exited = []
  own : ∀ i, ∀ t ∈ (s.procs i).wake_callbacks, t = i

theorem placed_boot : Placed boot := by
  refine ⟨by simp [boot], fun i hi => ?_, by simp [boot], by simp [boot], by simp [boot]⟩
  by_cases h0 : i = 0
  · simp [boot, h0]
  · simp [boot, h0] at hi

theorem Placed.add (h : Placed s) (parent : Nat) : Placed (add s parent) := by
  refine ⟨fun i hi => ?_, fun i hi => ?_, fun w hw => ?_, fun i hi => ?_, fun i t ht => ?_⟩
  · rcases List.mem_append.mp hi with hi | hi
    · exact Nat.lt_succ_of_lt (h.scheduled i hi)
    · rw [List.mem_singleton.mp hi]
      exact Nat.lt_succ_self _
  · by_cases hc : i = s.count
    · rw [hc]
      exact Nat.lt_succ_self _
    · have hi : (s.threads i).isSome := by simpa [Wait.add, hc] using hi
      exact Nat.lt_succ_of_lt (h.threads i hi)
  · exact List.mem_append_left _ (h.waiting w hw)
  · have hi : s.count + 1 ≤ i := hi
    have hc : i ≠ s.count := by omega
    simpa [Wait.add, hc] using h.fresh i (by omega)
  · by_cases hc : i = s.count
    · simp [Wait.add, hc] at ht
    · exact h.own i t (by simpa [Wait.add, hc] using ht)

theorem Placed.modify (h : Placed s) (hi : i < s.count) {f : Process → Process}
    (hf : ∀ t ∈ (f (s.procs i)).wake_callbacks, t = i) : Placed (s.modify i f) := by
  refine ⟨h.scheduled, h.threads, h.waiting, fun j hj => ?_, fun j t ht => ?_⟩
  · have hj : s.count ≤ j := hj
    rw [modify_ne (by omega)]
    exact h.fresh j hj
  · by_cases hc : j = i
    · rw [hc, modify_self] at ht
      rw [hc]
      exact hf t ht
    · rw [modify_ne hc] at ht
      exact h.own j t ht

theorem Placed.set_status (h : Placed s) (t : Nat) (status : ThreadStatus) :
    Placed { s with threads := s.threads.set_status t status } :=
  ⟨h.scheduled, fun i hi => h.threads i (Threads.set_status_isSome ▸ hi), h.waiting, h.fresh, h.own⟩

theorem Placed.gone (h : Placed s) (hi : Running s i) : Placed (gone s i) := by
  have hz := h.set_status i .Zombie
  refine ⟨fun j hj => h.scheduled j (List.mem_filter.mp hj).1, hz.threads,
    fun w hw => ?_, h.fresh, h.own⟩
  refine List.mem_filter.mpr ⟨h.waiting w hw, ?_⟩
  have hne : w.1 ≠ i := fun heq => hi.2 (heq ▸ List.mem_map_of_mem hw)
  simpa using hne

theorem Placed.notify_parent (h : Placed s) {parent : Nat} (hp : parent < s.count)
    (entry : Exited) :
    Placed (notify_parent s parent entry) := by
  rcases notify_parent_cases s parent entry with ⟨t, rest, hcb, heq⟩ | ⟨_, heq⟩
  · rw [heq]
    refine (h.modify hp fun u hu => ?_).set_status t .Ready
    exact h.own parent u (by rw [hcb]; exact List.mem_append_left _ hu)
  · rw [heq]
    exact h.modify hp (h.own parent)

theorem Placed.wait_loop (h : Placed s) (hi : i ∈ s.scheduled)
    {waiting : List (Nat × BitVec 64 × BitVec 64)} (ho : Others s i waiting)
    (hr : wait_loop { s with waiting } i pid wstatus = (s', o)) : Placed s' := by
  have hw : Placed { s with waiting } :=
    ⟨h.scheduled, h.threads, fun w hw => h.waiting w (ho.1 w hw).1, h.fresh, h.own⟩
  have hlt := h.scheduled i hi
  rcases wait_loop_cases { s with waiting } i pid wstatus with ⟨entry, rest, heq, _⟩ | ⟨heq, _⟩
  · rw [heq] at hr
    obtain ⟨rfl, _⟩ := Prod.mk.inj hr
    exact hw.modify hlt (hw.own i)
  · rw [heq] at hr
    obtain ⟨rfl, _⟩ := Prod.mk.inj hr
    have hm : Placed (State.modify { s with waiting } i fun p =>
        { p with wake_callbacks := p.wake_callbacks ++ [i] }) := by
      refine hw.modify hlt fun t ht => ?_
      rcases List.mem_append.mp ht with ht | ht
      · exact h.own i t ht
      · exact List.mem_singleton.mp ht
    have hs := hm.set_status i .Waiting
    refine ⟨hs.scheduled, hs.threads, fun w hw' => ?_, hs.fresh, hs.own⟩
    rcases List.mem_append.mp hw' with hw' | hw'
    · exact hs.waiting w hw'
    · rw [List.mem_singleton.mp hw']
      exact hi

theorem step_placed (h : Placed s) (hstep : step s e = .ok (s', o)) : Placed s' := by
  cases e with
  | spawn =>
    obtain ⟨rfl, _⟩ := Prod.mk.inj (Except.ok.inj hstep)
    exact h.add 0
  | fork i =>
    obtain ⟨hi, hr⟩ := permit_eq_ok hstep
    obtain ⟨rfl, _⟩ := Prod.mk.inj hr
    have ha := h.add i
    exact (ha.modify (Nat.lt_succ_of_lt (h.scheduled i hi.1)) (ha.own i)).set_status i .Ready
  | exit i status =>
    obtain ⟨hi, hr⟩ := permit_eq_ok hstep
    rcases exit_cases s i status with ⟨parent, _, halive, heq⟩ | ⟨_, heq⟩
    · rw [heq] at hr
      obtain ⟨rfl, _⟩ := Prod.mk.inj hr
      exact (h.gone hi).notify_parent (h.threads parent halive) _
    · rw [heq] at hr
      obtain ⟨rfl, _⟩ := Prod.mk.inj hr
      exact h.gone hi
  | drop i =>
    obtain ⟨tids, _, _, _, _, rfl, _⟩ := drop_eq_ok hstep
    refine ⟨h.scheduled, fun j hj => h.threads j ?_, h.waiting, h.fresh, h.own⟩
    obtain ⟨st, hst⟩ := Option.isSome_iff_exists.mp hj
    rw [(Threads.drop_eq_some hst).2]
    rfl
  | wait4 i pid wstatus =>
    obtain ⟨hi, ho, hr⟩ := wait4_eq_ok hstep
    exact h.wait_loop hi ho hr
  | resume i =>
    obtain ⟨pid, wstatus, hmem, _, ho, hr⟩ := resume_eq_ok hstep
    exact h.wait_loop (h.waiting _ hmem) ho hr
  | block i =>
    obtain ⟨_, hr⟩ := permit_eq_ok hstep
    obtain ⟨rfl, _⟩ := Prod.mk.inj hr
    exact h.set_status i .Waiting
  | wake i =>
    obtain ⟨rfl, _⟩ := Prod.mk.inj (Except.ok.inj hstep)
    exact h.set_status i .Ready

end HectoOs.Wait
