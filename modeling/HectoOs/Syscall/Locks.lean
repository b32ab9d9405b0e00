import HectoOs.Syscall.Handlers

/-! # The lock discipline of the system calls -/

open HectoOs.Lib

namespace HectoOs.Syscall

/-! ## Blocks -/

/-- Which stores and which switches are allowed, under the locks that are held. -/
structure Rules where
  store : List Lock → Nat → Prop
  switch : List Lock → Prop

/-- No lock is taken twice, every lock is given back, the last one first, and the rules are kept. -/
def Keeps (R : Rules) : List Lock → List Act → Prop
  | held, [] => held = []
  | held, .lock l :: as => l ∉ held ∧ Keeps R (l :: held) as
  | held, .unlock l :: as => ∃ rest, held = l :: rest ∧ Keeps R rest as
  | held, .store _ n :: as => R.store held n ∧ Keeps R held as
  | held, .switch :: as => R.switch held ∧ Keeps R held as
  | _, .panic :: _ => True

/-- A part of a handler that keeps the rules and gives back what it takes. -/
def Block (R : Rules) (held : List Lock) (b : List Act) : Prop :=
  ∀ rest, Keeps R held rest → Keeps R held (b ++ rest)

variable {R : Rules} {held : List Lock} {a b : List Act}

namespace Block

theorem nil : Block R held [] := fun _ h => h

theorem append (ha : Block R held a) (hb : Block R held b) : Block R held (a ++ b) := by
  intro rest h
  rw [List.append_assoc]
  exact ha _ (hb rest h)

theorem critical {l : Lock} (hl : l ∉ held) (h : Block R (l :: held) a) :
    Block R held (critical l a) := by
  intro rest hrest
  have hbody := h (.unlock l :: rest) ⟨held, rfl, hrest⟩
  simp only [Syscall.critical, List.cons_append, List.append_assoc, List.nil_append]
  exact ⟨hl, hbody⟩

theorem section_nil {l : Lock} (hl : l ∉ held) : Block R held (Syscall.critical l []) :=
  critical hl nil

theorem store {va n : Nat} (h : R.store held n) : Block R held [.store va n] :=
  fun _ hrest => ⟨h, hrest⟩

theorem switch (h : R.switch held) : Block R held [.switch] := fun _ hrest => ⟨h, hrest⟩

theorem panic : Block R held (.panic :: a) := fun _ _ => trivial

theorem flatten {l : List (List Act)} (h : ∀ b ∈ l, Block R held b) : Block R held l.flatten := by
  induction l with
  | nil => exact nil
  | cons b l ih =>
    rw [List.flatten_cons]
    exact (h b List.mem_cons_self).append (ih fun b hb => h b (List.mem_cons_of_mem _ hb))

theorem ite {c : Prop} [Decidable c] (ha : c → Block R held a) (hb : ¬ c → Block R held b) :
    Block R held (if c then a else b) := by
  split
  · exact ha ‹_›
  · exact hb ‹_›

theorem keeps (h : Block R [] a) : Keeps R [] a := by
  have := h [] rfl
  rwa [List.append_nil] at this

end Block

/-! ## The pieces of the handlers -/

section Pieces

variable {t other pipe count fd : Nat} {p : Caller} {i : Inode} {dst : Option Nat}

theorem switch_to_block (hs : R.switch held) (ht : .thread t ∉ held) (ho : .inner other ∉ held) :
    Block R held (switch_to t other) :=
  (((Block.section_nil ht).append (.section_nil ho)).append (.switch hs)).append (.section_nil ht)

theorem wait_block (ht : .thread t ∉ held) (hq : .wait_queue pipe ∉ held) :
    Block R held (wait t pipe) :=
  (Block.section_nil ht).append (.section_nil hq)

theorem notify_all_block {waiting : List Nat} (hq : .wait_queue pipe ∉ held)
    (ht : ∀ w, .thread w ∉ held) :
    Block R held (notify_all pipe waiting) := by
  induction waiting with
  | nil => exact .section_nil hq
  | cons w waiting ih => exact ((Block.section_nil hq).append (.section_nil (ht w))).append ih

/-- How many bytes a read delivers. -/
def Inode.gives (count : Nat) : Inode → Nat
  | .fat (some found) _ _ | .pipe_read _ _ found => min count found
  | .console | .fat none _ _ | .pipe_write _ _ _ => 0

theorem Inode.gives_eq_zero (h : i.read_ok = false) : i.gives count = 0 := by
  cases i with
  | fat read seek slice =>
    cases read with
    | none => rfl
    | some found => simp [Inode.read_ok] at h
  | console | pipe_read pipe blocked found => simp [Inode.read_ok] at h
  | pipe_write pipe alive waiting => rfl

/-- How often a read gives up the processor. -/
def Inode.blocks (count : Nat) : Inode → Nat
  | .pipe_read _ blocked _ => if count = 0 then 0 else blocked
  | .console | .fat _ _ _ | .pipe_write _ _ _ => 0

theorem fill_block {n : Nat} (h : ∀ va ∈ dst, R.store held n) : Block R held (fill dst n) := by
  cases dst with
  | none => exact .nil
  | some va => exact .store (h va rfl)

theorem read_block (hp : t ≠ 0) (hstore : ∀ va ∈ dst, ∀ l, R.store [l, .inner t] (i.gives count))
    (hswitch : 0 < i.blocks count → R.switch [.inner t]) :
    Block R [.inner t] (i.read t dst count) := by
  cases i with
  | console | pipe_write pipe alive waiting => exact .nil
  | fat read seek slice =>
    cases read with
    | none => exact .section_nil (by simp)
    | some found => exact .critical (by simp) (fill_block fun va hva => hstore va hva .device)
  | pipe_read pipe blocked found =>
    refine .ite (fun _ => .nil) fun hcount => ?_
    refine Block.append (Block.flatten fun b hb => ?_) (.ite (fun _ => ?_) fun _ => ?_)
    · obtain ⟨hne, rfl⟩ := List.mem_replicate.mp hb
      have hs : R.switch [.inner t] := by
        refine hswitch ?_
        simp only [Inode.blocks, if_neg hcount]
        omega
      refine Block.append (.critical (by simp) (wait_block (by simp) (by simp)))
        (switch_to_block hs (by simp) ?_)
      simp [Ne.symm hp]
    · exact .critical (by simp) (wait_block (by simp) (by simp))
    · exact .critical (by simp) (fill_block fun va hva => hstore va hva (.data pipe))

theorem write_block : Block R [.inner t] i.write := by
  cases i with
  | console | pipe_read pipe blocked found => exact .nil
  | fat read seek slice => exact .section_nil (by simp)
  | pipe_write pipe alive waiting =>
    refine .ite (fun _ => ?_) fun _ => .nil
    exact (Block.section_nil (by simp)).append (notify_all_block (by simp) (by simp))

theorem file_write_block {f : File} : Block R [.inner t] f.write :=
  .ite (fun _ => .ite (fun _ => write_block) fun _ => .panic) fun _ => .nil

theorem file_read_block {f : File} (hp : t ≠ 0) (hstore : f.readable →
    f.inode.seek_ok → ∀ va ∈ dst, ∀ l, R.store [l, .inner t] (f.inode.gives count))
    (hswitch : f.readable → f.inode.seek_ok → 0 < f.inode.blocks count → R.switch [.inner t]) :
    Block R [.inner t] (f.read t dst count) :=
  .ite (fun hr => .ite (fun hs => read_block hp (hstore hr hs) (hswitch hr hs))
    fun _ => .panic) fun _ => .nil

theorem drop_file_block {last : Bool} (hv : .VNODE_HASHSET ∉ held) (hd : .device ∉ held) :
    Block R held (drop_file last) :=
  .ite (fun _ => (Block.section_nil hv).append (.section_nil hd)) fun _ => .nil

theorem file_open_block {cached : Bool} (hv : .VNODE_HASHSET ∉ held) (hd : .device ∉ held) :
    Block R held (file_open cached) :=
  .critical hv (.ite (fun _ => .nil) fun _ => .section_nil (by simp [hd]))

theorem with_fd_block {body : File → List Act}
    (h : ∀ f, p.fd_table[fd]? = some (some f) → Block R held (body f)) :
    Block R held (with_fd p fd body) := by
  unfold with_fd
  split
  · exact .panic
  · exact .nil
  · exact h _ ‹_›

theorem normalize_path_block {dirfd : Nat} {path : List Byte} :
    Block R [] (normalize_path p dirfd path) := by
  refine .ite (fun _ => .nil) fun _ => .critical (by simp) (.ite (fun _ => .nil) fun _ => ?_)
  split
  · exact .nil
  · exact .panic
  · exact .panic

end Pieces

/-! ## Every handler -/

section Handlers

variable {z : Sizes} {p : Caller} {c : Call}

/-- The call stores to user memory while it holds its process: a read that delivers something,
`getcwd` into a buffer that is large enough, the description of a file of the file system, and a
mapping of a file that can be read. -/
def Fills (p : Caller) : Call → Prop
  | .read fd _ count =>
    ∃ f, p.fd_table[fd]? = some (some f) ∧ f.readable ∧ f.inode.seek_ok ∧ 0 < f.inode.gives count
  | .getcwd _ size => p.cwd.length ≤ size ∧ 0 < size
  | .fstat fd _ | .getdents64 fd _ =>
    ∃ f read seek, p.fd_table[fd]? = some (some f) ∧ f.inode = .fat read seek false
  | .mmap addr _ fd _ =>
    addr = 0 ∧ ∃ f, p.fd_table[fd]? = some (some f) ∧ f.readable ∧ f.inode.seek_ok ∧ f.inode.read_ok
  | _ => False

/-- The call gives up the processor while it holds its process: it reads from a pipe that is empty
and has a write end. -/
def Blocks (p : Caller) : Call → Prop
  | .read fd _ count =>
    ∃ f, p.fd_table[fd]? = some (some f) ∧ f.readable ∧ f.inode.seek_ok ∧ 0 < f.inode.blocks count
  | .mmap addr length fd _ =>
    addr = 0 ∧ ∃ f, p.fd_table[fd]? = some (some f) ∧ f.readable ∧ f.inode.seek_ok ∧
      0 < f.inode.blocks length
  | .sendfile out_fd in_fd offset count opens rounds =>
    offset = 0 ∧ opens ∧ count ≠ 0 ∧ (∃ g, p.fd_table[out_fd]? = some (some g)) ∧
      ∃ f, p.fd_table[in_fd]? = some (some f) ∧ f.readable ∧
        ∃ round ∈ rounds, round.1.seek_ok ∧ 0 < round.1.blocks (min count 512)
  | _ => False

theorem sys_read_block {fd buf count : Nat} (hzero : ∀ held, R.store held 0)
    (hfill : Fills p (.read fd buf count) → ∀ held n, R.store held n)
    (hblock : Blocks p (.read fd buf count) → R.switch [.inner p.t]) :
    Block R [] (sys_read p fd buf count) := by
  refine .critical (by simp)
    (with_fd_block fun f hf => file_read_block p.user (fun hr hs va _ l => ?_) fun hr hs hb => ?_)
  · by_cases h0 : f.inode.gives count = 0
    · rw [h0]
      exact hzero _
    · exact hfill ⟨f, hf, hr, hs, by omega⟩ _ _
  · exact hblock ⟨f, hf, hr, hs, hb⟩

theorem sys_getcwd_block {buf size : Nat} (hzero : ∀ held, R.store held 0)
    (hfill : Fills p (.getcwd buf size) → ∀ held n, R.store held n) :
    Block R [] (sys_getcwd p buf size) := by
  refine .critical (by simp) (.ite (fun _ => .panic) fun hlen => ?_)
  by_cases h0 : size = 0
  · have hnil : p.cwd.length = 0 := by omega
    rw [hnil, h0]
    exact Block.append (.store (hzero _)) .panic
  · have hall := hfill ⟨by omega, by omega⟩
    exact Block.append (a := [_]) (.store (hall _ _))
      (.ite (fun _ => .panic) fun _ => .store (hall _ _))

theorem describe_block {i : Inode} {va size : Nat}
    (h : ∀ read seek, i = .fat read seek false → R.store held size) :
    Block R held (i.describe va size) := by
  cases i with
  | fat read seek slice =>
    cases slice with
    | false => exact .store (h read seek rfl)
    | true => exact .panic
  | console | pipe_read pipe blocked found | pipe_write pipe alive waiting => exact .panic

theorem sys_mmap_block {addr length fd va_end : Nat} (hzero : ∀ held, R.store held 0)
    (hfill : Fills p (.mmap addr length fd va_end) → ∀ held n, R.store held n)
    (hblock : Blocks p (.mmap addr length fd va_end) → R.switch [.inner p.t]) :
    Block R [] (sys_mmap p addr length fd va_end) := by
  refine .ite (fun _ => .section_nil (by simp)) fun haddr => .critical (by simp) ?_
  have haddr : addr = 0 := by omega
  split
  · exact .nil
  · exact .panic
  · rename_i f hf
    refine .ite (fun hs => ?_) fun _ => .panic
    refine Block.append (file_read_block p.user (fun hr _ va _ l => ?_) fun hr _ hb => ?_)
      (.ite (fun hok => ?_) fun _ => .panic)
    · cases hok : f.inode.read_ok with
      | true => exact hfill ⟨haddr, f, hf, hr, hs, hok⟩ _ _
      | false =>
        rw [Inode.gives_eq_zero hok]
        exact hzero _
    · exact hblock ⟨haddr, f, hf, hr, hs, hb⟩
    · exact .store (hfill ⟨haddr, f, hf, hok.1, hs, hok.2⟩ _ _)

theorem sys_sendfile_block {out_fd in_fd offset count : Nat}
    {opens : Bool} {rounds : List (Inode × Inode)}
    (hblock : Blocks p (.sendfile out_fd in_fd offset count opens rounds) → R.switch [.inner p.t]) :
    Block R [] (sys_sendfile p out_fd in_fd offset count opens rounds) := by
  refine .ite (fun _ => .panic) fun hoff =>
    .critical (by simp) (with_fd_block fun g hg => with_fd_block fun f hf => ?_)
  refine Block.append (.section_nil (by simp))
    (.ite (fun _ => .panic) fun hopens => .ite (fun _ => .nil) fun hcount => ?_)
  refine Block.flatten fun b hb => ?_
  obtain ⟨round, hround, rfl⟩ := List.mem_map.mp hb
  refine Block.append (file_read_block p.user (by simp) fun hr hs hb => ?_)
    (.ite (fun _ => file_write_block) fun _ => .nil)
  exact hblock ⟨by omega, by simpa using hopens, hcount, ⟨g, hg⟩, f, hf, hr, round, hround, hs, hb⟩

theorem sys_exit_block (hswitch : R.switch []) : Block R [] (sys_exit p) := by
  refine Block.append
    (Block.append (Block.append (Block.append (.section_nil (by simp)) (.section_nil (by simp)))
    (.section_nil (by simp))) (.critical (by simp) ?_))
      (switch_to_block hswitch (by simp) (by simp))
  split
  · rename_i q callback hq
    have hne := p.parent_ne _ hq
    refine Block.append (.section_nil (by simpa using hne)) (.critical (by simpa using hne) ?_)
    exact .ite (fun _ => .section_nil (by simp)) fun _ => .nil
  · exact .nil

theorem sys_clone_block {c : Nat} {settid mapped thread : Bool} (hswitch : R.switch []) :
    Block R [] (sys_clone p c settid mapped thread) := by
  refine Block.append
    (Block.append (Block.append (Block.append (Block.append (.section_nil (by simp))
    (.section_nil (by simp))) (.section_nil (by simp))) (.section_nil (by simp))) ?_) ?_
  · exact .ite (fun _ => .critical (by simp) (.ite (fun _ => .nil) fun _ => .panic)) fun _ => .nil
  · refine .ite (fun _ => .panic) fun _ => ?_
    exact ((Block.section_nil (by simp)).append (.section_nil (by simp))).append
      (switch_to_block hswitch (by simp) (by simp))

theorem wait4_turn_block {t : Nat} (hswitch : R.switch []) : Block R [] (wait4_turn t) :=
  (((Block.section_nil (by simp)).append (.section_nil (by simp))).append
    (.section_nil (by simp))).append
    (switch_to_block hswitch (by simp) (by simp))

theorem sys_pipe2_block {pipefd : Nat} (hstore : ∀ n, R.store [] n) :
    Block R [] (sys_pipe2 p pipefd) := by
  unfold sys_pipe2
  split
  · exact .section_nil (by simp)
  · split
    · exact .section_nil (by simp)
    · exact (Block.section_nil (by simp)).append
        (Block.append (a := [_]) (.store (hstore _)) (.store (hstore _)))

theorem handler_block (hstore : ∀ n, R.store [] n) (hswitch : R.switch [])
    (hzero : ∀ held, R.store held 0) (hfill : Fills p c → ∀ held n, R.store held n)
    (hblock : Blocks p c → R.switch [.inner p.t]) :
    Block R [] (handler z p c) := by
  cases c with
  | getcwd buf size => exact sys_getcwd_block hzero hfill
  | pipe2 pipefd => exact sys_pipe2_block hstore
  | dup oldfd | fcntl fd => exact .critical (by simp) (with_fd_block fun _ _ => .nil)
  | dup3 oldfd last | close fd last =>
    exact .critical (by simp) (with_fd_block fun _ _ => drop_file_block (by simp) (by simp))
  | chdir path => exact normalize_path_block.append (.section_nil (by simp))
  | openat dirfd path cached found =>
    exact (normalize_path_block.append (file_open_block (by simp) (by simp))).append
      (.ite (fun _ => .section_nil (by simp)) fun _ => .nil)
  | getdents64 fd dirp =>
    exact .critical (by simp) (with_fd_block fun f hf => describe_block fun read seek hi =>
      hfill ⟨f, read, seek, hf, hi⟩ _ _)
  | fstat fd statbuf =>
    exact .critical (by simp) (with_fd_block fun f hf => describe_block fun read seek hi =>
      hfill ⟨f, read, seek, hf, hi⟩ _ _)
  | read fd buf count => exact sys_read_block hzero hfill hblock
  | write fd | writev fd => exact .critical (by simp) (with_fd_block fun _ _ => file_write_block)
  | unlinkat dirfd path | mkdirat dirfd path =>
    exact normalize_path_block.append (.section_nil (by simp))
  | umount2 target => exact normalize_path_block.append (.section_nil (by simp))
  | mount target =>
    exact (normalize_path_block.append (.section_nil (by simp))).append (.section_nil (by simp))
  | fstatat dirfd path statbuf cached found last =>
    refine (normalize_path_block.append (file_open_block (by simp) (by simp))).append
      (.ite (fun _ => ?_) fun _ => .nil)
    exact Block.append (a := [_]) (.store (hstore _)) (drop_file_block (by simp) (by simp))
  | sendfile out_fd in_fd offset count opens rounds => exact sys_sendfile_block hblock
  | clone c settid mapped thread => exact sys_clone_block hswitch
  | execve path =>
    exact ((normalize_path_block.append (.section_nil (by simp))).append
      (.critical (by simp) (.section_nil (by simp)))).append (.section_nil (by simp))
  | wait4 wstatus blocked =>
    refine Block.append (Block.append (Block.flatten fun b hb => ?_) (.section_nil (by simp))) ?_
    · obtain ⟨_, rfl⟩ := List.mem_replicate.mp hb
      exact wait4_turn_block hswitch
    · exact .ite (fun _ => .nil) fun _ => .store (hstore _)
  | exit => exact sys_exit_block hswitch
  | getppid | brk | munmap | set_tid_address => exact .section_nil (by simp)
  | sched_yield => exact switch_to_block hswitch (by simp) (by simp)
  | mmap addr length fd va_end => exact sys_mmap_block hzero hfill hblock
  | times buf | gettimeofday tv => exact .store (hstore _)
  | uname buf =>
    have hone : ∀ va n, Block R [] [.store va n] := fun va n => .store (hstore n)
    exact (hone _ _).append
      ((hone _ _).append ((hone _ _).append ((hone _ _).append ((hone _ _).append (hone _ _)))))
  | nanosleep =>
    exact ((Block.section_nil (by simp)).append (.section_nil (by simp))).append
      (switch_to_block hswitch (by simp) (by simp))
  | other => exact .nil

theorem syscall_handler_keeps (hstore : ∀ n, R.store [] n) (hswitch : R.switch [])
    (hzero : ∀ held, R.store held 0) (hfill : Fills p c → ∀ held n, R.store held n)
    (hblock : Blocks p c → R.switch [.inner p.t]) :
    Keeps R [] (syscall_handler z p c) := by
  have h := handler_block (z := z) hstore hswitch hzero hfill hblock
  exact (((Block.section_nil (by simp)).append h).append (.section_nil (by simp))).keeps

end Handlers

/-! ## Stores under the lock of the process -/

section Stores

variable {t : Nat} {cow : Nat → Bool}

/-- The store meets a page that is copied on write. -/
def faults (cow : Nat → Bool) (va len : Nat) : Bool :=
  (List.range len).any fun i => cow ((va + i) / 4096)

/-- The pages that are still copied on write after the store. -/
def settled (cow : Nat → Bool) (va len : Nat) : Nat → Bool :=
  fun page => cow page && !(List.range len).any fun i => (va + i) / 4096 = page

/-- The thread never tries to take a lock that it holds, where `handle_pagefault` takes the lock of
the process. -/
def NoDeadlock (t : Nat) : (Nat → Bool) → List Lock → List Act → Prop
  | _, _, [] => True
  | cow, held, .lock l :: as => l ∉ held ∧ NoDeadlock t cow (l :: held) as
  | cow, held, .unlock l :: as => NoDeadlock t cow (held.erase l) as
  | cow, held, .store va len :: as =>
    (faults cow va len → .inner t ∉ held) ∧ NoDeadlock t (settled cow va len) held as
  | cow, held, .switch :: as => NoDeadlock t cow held as
  | _, _, .panic :: _ => True

/-- No byte is stored under the lock of the process. -/
def unlocked (t : Nat) : Rules where
  store held n := n = 0 ∨ .inner t ∉ held
  switch _ := True

theorem Keeps.noDeadlock {held : List Lock} {as : List Act} (h : Keeps (unlocked t) held as) :
    NoDeadlock t cow held as := by
  induction as generalizing cow held with
  | nil => trivial
  | cons a as ih =>
    cases a with
    | lock l => exact ⟨h.1, ih h.2⟩
    | unlock l =>
      obtain ⟨rest, rfl, h⟩ := h
      simp only [NoDeadlock, List.erase_cons_head]
      exact ih h
    | store va len =>
      refine ⟨fun hf => ?_, ih h.2⟩
      rcases h.1 with rfl | hnot
      · simp [faults] at hf
      · exact hnot
    | switch => exact ih h.2
    | panic => trivial

/-- Whatever comes after `b` is reached, with the same locks and pages. -/
def Passes (t : Nat) (held : List Lock) (b : List Act) : Prop :=
  ∀ cow as, NoDeadlock t cow held (b ++ as) → NoDeadlock t cow held as

/-- When every page is copied on write, `b` ends in a deadlock. -/
def Stuck (t : Nat) (held : List Lock) (b : List Act) : Prop :=
  ∀ as, ¬ NoDeadlock t (fun _ => true) held (b ++ as)

variable {held : List Lock} {a b : List Act} {l : Lock}

theorem Passes.nil : Passes t held [] := fun _ _ h => h

theorem Passes.append (ha : Passes t held a) (hb : Passes t held b) : Passes t held (a ++ b) := by
  intro cow as h
  rw [List.append_assoc] at h
  exact hb cow as (ha cow _ h)

theorem Passes.critical (h : Passes t (l :: held) a) : Passes t held (critical l a) := by
  intro cow as hno
  simp only [Syscall.critical, List.cons_append, List.append_assoc, List.nil_append] at hno
  have := h cow _ hno.2
  simpa only [NoDeadlock, List.erase_cons_head] using this

theorem Passes.store_zero {va : Nat} : Passes t held [.store va 0] := by
  intro cow as h
  have hsame : settled cow va 0 = cow := by
    funext page
    simp [settled]
  have := h.2
  rwa [hsame] at this

theorem Passes.flatten {bs : List (List Act)} (h : ∀ b ∈ bs, Passes t held b) :
    Passes t held bs.flatten := by
  induction bs with
  | nil => exact nil
  | cons b bs ih =>
    rw [List.flatten_cons]
    exact (h b List.mem_cons_self).append (ih fun b hb => h b (List.mem_cons_of_mem _ hb))

theorem Stuck.store {va n : Nat} (hn : 0 < n) (hl : .inner t ∈ held) :
    Stuck t held [.store va n] := by
  intro as h
  have hf : faults (fun _ => true) va n = true := by simpa [faults] using ⟨0, hn⟩
  exact h.1 hf hl

theorem Stuck.append_right (h : Stuck t held a) : Stuck t held (a ++ b) := by
  intro as hno
  rw [List.append_assoc] at hno
  exact h _ hno

theorem Stuck.append_left (ha : Passes t held a) (hb : Stuck t held b) : Stuck t held (a ++ b) := by
  intro as hno
  rw [List.append_assoc] at hno
  exact hb as (ha _ _ hno)

theorem Stuck.critical (h : Stuck t (l :: held) a) : Stuck t held (critical l a) := by
  intro as hno
  simp only [Syscall.critical, List.cons_append, List.append_assoc] at hno
  exact h _ hno.2

theorem passes_wait {pipe : Nat} : Passes t held (wait t pipe) :=
  (Passes.critical .nil).append (.critical .nil)

theorem passes_blocked_turn {pipe : Nat} : Passes t held (blocked_turn t pipe) := by
  have hswitch : Passes t held [.switch] := fun _ _ h => h
  refine (Passes.critical passes_wait).append ?_
  exact (((Passes.critical .nil).append (.critical .nil)).append hswitch).append (.critical .nil)

theorem read_passes_or_stuck {i : Inode} {va count : Nat} (hl : .inner t ∈ held) :
    (i.gives count = 0 ∧ Passes t held (i.read t (some va) count)) ∨
    (0 < i.gives count ∧ Stuck t held (i.read t (some va) count)) := by
  have hfill : ∀ (l : Lock) (n : Nat), (n = 0 ∧ Passes t held (critical l (fill (some va) n))) ∨
      (0 < n ∧ Stuck t held (critical l (fill (some va) n))) := by
    intro l n
    obtain rfl | hn := Nat.eq_zero_or_pos n
    · exact .inl ⟨rfl, .critical .store_zero⟩
    · exact .inr ⟨hn, .critical (.store hn (List.mem_cons_of_mem _ hl))⟩
  cases i with
  | console | pipe_write pipe alive waiting => exact .inl ⟨rfl, .nil⟩
  | fat read seek slice =>
    cases read with
    | none => exact .inl ⟨rfl, .critical .nil⟩
    | some found => exact hfill .device (min count found)
  | pipe_read pipe blocked found =>
    simp only [Inode.gives, Inode.read]
    by_cases hc : count = 0
    · simp only [hc, if_true, Nat.zero_min, true_and]
      exact .inl .nil
    · have hturns : Passes t held (List.replicate blocked (blocked_turn t pipe)).flatten := by
        refine .flatten fun b hb => ?_
        obtain ⟨_, rfl⟩ := List.mem_replicate.mp hb
        exact passes_blocked_turn
      simp only [if_neg hc]
      by_cases h0 : found = 0
      · simp only [h0, if_true, Nat.min_zero, true_and]
        exact .inl (hturns.append (.critical passes_wait))
      · simp only [if_neg h0]
        rcases hfill (.data pipe) (min count found) with ⟨hz, hp⟩ | ⟨hn, hs⟩
        · exact .inl ⟨hz, hturns.append hp⟩
        · exact .inr ⟨hn, .append_left hturns hs⟩

theorem handler_stuck {z : Sizes} {p : Caller} {c : Call} (h : Fills p c) :
    Stuck p.t [] (handler z p c) := by
  have hin : Lock.inner p.t ∈ [Lock.inner p.t] := List.mem_singleton.mpr rfl
  cases c with
  | read fd buf count =>
    obtain ⟨f, hf, hr, hs, hgives⟩ := h
    refine .critical ?_
    simp only [with_fd, hf, File.read, hr, hs, if_true]
    rcases @read_passes_or_stuck p.t _ f.inode buf count hin with ⟨h0, _⟩ | ⟨_, hstuck⟩
    · omega
    · exact hstuck
  | getcwd buf size =>
    obtain ⟨hlen, hpos⟩ := h
    have hnot : ¬ size < p.cwd.length := by omega
    refine .critical ?_
    rw [if_neg hnot]
    obtain h0 | hn := Nat.eq_zero_or_pos p.cwd.length
    · have hne : ¬ size = 0 := by omega
      rw [h0, if_neg hne]
      exact Stuck.append_left (a := [_]) .store_zero (.store Nat.one_pos hin)
    · exact Stuck.append_right (a := [_]) (.store hn hin)
  | fstat fd statbuf =>
    obtain ⟨f, read, seek, hf, hi⟩ := h
    refine .critical ?_
    simp only [with_fd, hf, hi, Inode.describe]
    exact .store z.stat_pos hin
  | getdents64 fd dirp =>
    obtain ⟨f, read, seek, hf, hi⟩ := h
    refine .critical ?_
    simp only [with_fd, hf, hi, Inode.describe]
    exact .store z.dirent_pos hin
  | mmap addr length fd va_end =>
    obtain ⟨rfl, f, hf, hr, hs, hok⟩ := h
    refine .critical ?_
    simp only [hf, File.read, hr, hs, hok, and_self, if_true]
    rcases @read_passes_or_stuck p.t _ f.inode
      (va_end - length) length hin with ⟨_, hp⟩ | ⟨_, hstuck⟩
    · exact .append_left hp (.store Nat.one_pos hin)
    · exact .append_right hstuck
  | _ => exact h.elim

/-- Whatever pages are copied on write, a system call never tries to take a lock that it holds, if
and only if it does not store to user memory under the lock of its process. -/
theorem no_deadlock_iff (z : Sizes) (p : Caller) (c : Call) :
    (∀ cow, NoDeadlock p.t cow [] (syscall_handler z p c)) ↔ ¬ Fills p c := by
  constructor
  · intro h hfills
    have hstuck : Stuck p.t [] (syscall_handler z p c) :=
      .append_right (.append_left (.critical .nil) (handler_stuck hfills))
    have := hstuck []
    rw [List.append_nil] at this
    exact this (h _)
  · intro h cow
    refine (syscall_handler_keeps ?_ ?_ ?_ ?_ ?_ : Keeps (unlocked p.t) [] _).noDeadlock
    · exact fun n => .inr (by simp)
    · trivial
    · exact fun held => .inl rfl
    · exact fun hf => absurd hf h
    · exact fun _ => trivial

/-- A process that can read one byte from a pipe, its file descriptor 3. -/
def pipe_reader (blocked : Nat) : Caller where
  t := 1
  fd_table := [none, none, none, some ⟨true, false, .pipe_read 0 blocked 1⟩]
  cwd := [47]
  parent := none
  user := by decide
  parent_ne := by simp

/-- The sizes on a 64-bit Linux. -/
def sizes : Sizes := ⟨128, 280, by decide, by decide⟩

/-- A read of one byte from a pipe that holds it, into a page that is copied on write. -/
theorem read_into_cow_page_deadlocks :
    ¬ ∀ (z : Sizes) (p : Caller) (c : Call) (cow : Nat → Bool), NoDeadlock p.t cow []
    (syscall_handler z p c) := by
  intro h
  have hno := h sizes (pipe_reader 0) (.read 3 4096 1) fun _ => true
  simp [syscall_handler, handler, sys_read, with_fd, pipe_reader, File.read,
    Inode.read, Inode.seek_ok, critical, fill,
    NoDeadlock, faults] at hno

end Stores

end HectoOs.Syscall
