import HectoOs.Lib.Memory

/-! # What a system call does with locks (`syscall/`, `fs/`, `process/`)

For each handler, the locks it takes, the bytes of user memory it stores and the places where it
gives up the processor, in order. A process has one thread, with the same number; `KERNEL_PROCESS`
and the scheduling thread have number 0. The locks of the heap, of the frame allocator and of the
log are held only inside a single call of their own and are left out.
-/

open HectoOs.Lib

namespace HectoOs.Syscall

inductive Lock where
  /-- `Process.inner`. -/
  | inner (p : Nat)
  /-- `Thread.inner`. -/
  | thread (t : Nat)
  | SCHEDULER
  | TID_ALLOCATOR
  | VNODE_HASHSET
  | TIMER
  /-- The lock in `BufBlockDevice`. -/
  | device
  /-- The buffer of a pipe. -/
  | data (pipe : Nat)
  | wait_queue (pipe : Nat)
  deriving DecidableEq

inductive Act where
  | lock (l : Lock)
  | unlock (l : Lock)
  /-- Stores `len` bytes at the user address `va`. -/
  | store (va len : Nat)
  /-- `__switch` to another thread. -/
  | switch
  | panic
  deriving DecidableEq

/-- `lock` up to the end of the guard's life, and `critical_section`. -/
def critical (l : Lock) (body : List Act) : List Act := .lock l :: (body ++ [.unlock l])

/-! ## Files -/

/-- An inode, with what it answers to the call at hand. -/
inductive Inode where
  | console
  /-- An object of the file system: how many bytes a read finds, whether a seek succeeds, and
  whether it is a slice of the disk, as the root directory of FAT12 and FAT16 is. -/
  | fat (read : Option Nat) (seek slice : Bool)
  /-- The read end of a pipe: how many turns of the loop of `read` find nothing while there is a
  write end, and how many bytes the last turn finds. -/
  | pipe_read (pipe blocked found : Nat)
  /-- The write end of a pipe: whether there is a read end, and who waits. -/
  | pipe_write (pipe : Nat) (alive : Bool) (waiting : List Nat)

structure File where
  readable : Bool
  writable : Bool
  inode : Inode

/-- The process that makes the call. -/
structure Caller where
  t : Nat
  fd_table : List (Option File)
  cwd : List Byte
  /-- The parent, if it is alive, and whether one of its callbacks is called. -/
  parent : Option (Nat × Bool)
  user : t ≠ 0
  parent_ne : ∀ q ∈ parent, q.1 ≠ t

/-- The sizes of two structures of the `fatfs` crate. -/
structure Sizes where
  stat : Nat
  dirent : Nat
  stat_pos : 0 < stat
  dirent_pos : 0 < dirent

/-- `Thread::switch_to`. -/
def switch_to (t other : Nat) : List Act :=
  critical (.thread t) [] ++ critical (.inner other) [] ++ [.switch] ++ critical (.thread t) []

def yield_to_sched (t : Nat) : List Act := switch_to t 0

/-- `Condvar::wait`. -/
def wait (t pipe : Nat) : List Act := critical (.thread t) [] ++ critical (.wait_queue pipe) []

/-- `Condvar::notify_all`. -/
def notify_all (pipe : Nat) : List Nat → List Act
  | [] => critical (.wait_queue pipe) []
  | w :: waiting =>
    critical (.wait_queue pipe) [] ++ critical (.thread w) [] ++ notify_all pipe waiting

/-- The bytes go to user memory, or to a buffer of the kernel. -/
def fill (dst : Option Nat) (n : Nat) : List Act :=
  match dst with
  | some va => [.store va n]
  | none => []

/-- A turn of the loop of `PipeRead::read` that finds nothing. -/
def blocked_turn (t pipe : Nat) : List Act :=
  critical (.data pipe) (wait t pipe) ++ yield_to_sched t

def Inode.read (t : Nat) (dst : Option Nat) (count : Nat) : Inode → List Act
  | .console => []
  | .fat (some found) _ _ => critical .device (fill dst (min count found))
  | .fat none _ _ => critical .device []
  | .pipe_read pipe blocked found =>
    if count = 0 then []
    else
      (List.replicate blocked (blocked_turn t pipe)).flatten ++
        if found = 0 then critical (.data pipe) (wait t pipe)
        else critical (.data pipe) (fill dst (min count found))
  | .pipe_write _ _ _ => []

/-- Whether `read` returns `Ok`. -/
def Inode.read_ok : Inode → Bool
  | .console | .fat (some _) _ _ | .pipe_read _ _ _ => true
  | .fat none _ _ | .pipe_write _ _ _ => false

def Inode.seek_ok : Inode → Bool
  | .fat _ seek _ => seek
  | .console | .pipe_read _ _ _ | .pipe_write _ _ _ => true

def Inode.write : Inode → List Act
  | .console | .pipe_read _ _ _ => []
  | .fat _ _ _ => critical .device []
  | .pipe_write pipe alive waiting =>
    if alive then critical (.data pipe) [] ++ notify_all pipe waiting else []

/-- `get_fstat` and `get_dents64`. Only a file of the file system has more than a `todo!()` or a
`panic!`. -/
def Inode.describe (va size : Nat) : Inode → List Act
  | .fat _ _ false => [.store va size]
  | .fat _ _ true | .console | .pipe_read _ _ _ | .pipe_write _ _ _ => [.panic]

def File.read (t : Nat) (dst : Option Nat) (count : Nat) (f : File) : List Act :=
  if f.readable then if f.inode.seek_ok then f.inode.read t dst count else [.panic] else []

def File.write (f : File) : List Act :=
  if f.writable then if f.inode.seek_ok then f.inode.write else [.panic] else []

/-- The last reference to a file of the file system goes. -/
def drop_file (last : Bool) : List Act :=
  if last then critical .VNODE_HASHSET [] ++ critical .device [] else []

/-- `file_open`: the guard lives until the function returns. -/
def file_open (cached : Bool) : List Act :=
  critical .VNODE_HASHSET (if cached then [] else critical .device [])

/-- `fd_table.get(fd).unwrap()`. -/
def with_fd (p : Caller) (fd : Nat) (body : File → List Act) : List Act :=
  match p.fd_table[fd]? with
  | none => [.panic]
  | some none => []
  | some (some f) => body f

def MAX_FD : Nat := 128

/-- `ProcessInner::fd_alloc`. -/
def fd_alloc (fd_table : List (Option File)) : Option (Nat × List (Option File)) :=
  match (List.range fd_table.length).find? fun i => 3 ≤ i ∧
  (fd_table[i]?.map Option.isNone) = some true with
  | some i => some (i, fd_table)
  | none => if fd_table.length = MAX_FD then none else some (fd_table.length, fd_table ++ [none])

/-- `-100isize as usize`. -/
def AT_FDCWD : Nat := 2 ^ 64 - 100

def normalize_path (p : Caller) (dirfd : Nat) (path : List Byte) : List Act :=
  if path.head? = some 47 then []
  else critical (.inner p.t) (if dirfd = AT_FDCWD then [] else
    match p.fd_table[dirfd]? with
    | some (some _) => []
    | some none | none => [.panic])

/-! ## The handlers -/

def sys_write (p : Caller) (fd : Nat) : List Act := critical (.inner p.t) (with_fd p fd File.write)

def sys_writev (p : Caller) (fd : Nat) : List Act := critical (.inner p.t) (with_fd p fd File.write)

def sys_read (p : Caller) (fd buf count : Nat) : List Act :=
  critical (.inner p.t) (with_fd p fd (File.read p.t (some buf) count))

/-- One round of the loop of `sys_sendfile`, with both inodes as it finds them. -/
def sendfile_round (t count : Nat) (out_fd in_fd : File) (round : Inode × Inode) : List Act :=
  File.read t none (min count 512) { in_fd with inode := round.1 } ++
    if in_fd.readable ∧ round.1.read_ok then File.write { out_fd with inode := round.2 } else []

def sys_sendfile (p : Caller) (out_fd in_fd offset count : Nat) (opens : Bool)
    (rounds : List (Inode × Inode)) :
    List Act :=
  if offset ≠ 0 then [.panic]
  else critical (.inner p.t) (with_fd p out_fd fun out_fd => with_fd p in_fd fun in_fd =>
    critical .device [] ++
      if ¬ opens then [.panic]
      else if count = 0 then [] else rounds.flatMap (sendfile_round p.t count out_fd in_fd))

def sys_openat (p : Caller) (dirfd : Nat) (path : List Byte) (cached found : Bool) : List Act :=
  normalize_path p dirfd path ++ file_open cached ++ if found then critical (.inner p.t) [] else []

def sys_close (p : Caller) (fd : Nat) (last : Bool) : List Act :=
  critical (.inner p.t) (with_fd p fd fun _ => drop_file last)

def sys_unlinkat (p : Caller) (dirfd : Nat) (path : List Byte) : List Act :=
  normalize_path p dirfd path ++ critical .device []

def sys_getcwd (p : Caller) (buf size : Nat) : List Act :=
  critical (.inner p.t) (if size < p.cwd.length then [.panic]
    else .store buf p.cwd.length ::
      if size = p.cwd.length then [.panic] else [.store (buf + p.cwd.length) 1])

def sys_mkdirat (p : Caller) (dirfd : Nat) (path : List Byte) : List Act :=
  normalize_path p dirfd path ++ critical .device []

def sys_chdir (p : Caller) (path : List Byte) : List Act :=
  normalize_path p AT_FDCWD path ++ critical (.inner p.t) []

/-- `fd_table[oldfd]`. -/
def sys_dup (p : Caller) (oldfd : Nat) : List Act :=
  critical (.inner p.t) (with_fd p oldfd fun _ => [])

def sys_dup3 (p : Caller) (oldfd : Nat) (last : Bool) : List Act :=
  critical (.inner p.t) (with_fd p oldfd fun _ => drop_file last)

def sys_pipe2 (p : Caller) (pipefd : Nat) : List Act :=
  match fd_alloc p.fd_table with
  | none => critical (.inner p.t) []
  | some (read_fd, fd_table) =>
    match fd_alloc (fd_table.set read_fd (some ⟨true, false, .pipe_read 0 0 0⟩)) with
    | none => critical (.inner p.t) []
    | some _ => critical (.inner p.t) [] ++ [.store pipefd 4, .store (pipefd + 4) 4]

def sys_mount (p : Caller) (target : List Byte) : List Act :=
  normalize_path p AT_FDCWD target ++ critical .device [] ++ critical .VNODE_HASHSET []

def sys_umount2 (p : Caller) (target : List Byte) : List Act :=
  normalize_path p AT_FDCWD target ++ critical .device []

def sys_getdents64 (z : Sizes) (p : Caller) (fd dirp : Nat) : List Act :=
  critical (.inner p.t) (with_fd p fd fun f => f.inode.describe dirp z.dirent)

def sys_fstat (z : Sizes) (p : Caller) (fd statbuf : Nat) : List Act :=
  critical (.inner p.t) (with_fd p fd fun f => f.inode.describe statbuf z.stat)

def sys_fstatat (z : Sizes) (p : Caller) (dirfd : Nat) (path : List Byte)
    (statbuf : Nat) (cached found last : Bool) :
    List Act :=
  normalize_path p dirfd path ++ file_open cached ++
    if found then .store statbuf z.stat :: drop_file last else []

def sys_fcntl (p : Caller) (fd : Nat) : List Act := critical (.inner p.t) (with_fd p fd fun _ => [])

/-- `sys_clone`, with the number of the child, whether `CLONE_CHILD_SETTID` and `CLONE_THREAD` are
set and whether `child_tid` is mapped. -/
def sys_clone (p : Caller) (c : Nat) (settid mapped thread : Bool) : List Act :=
  critical .TID_ALLOCATOR [] ++ critical (.inner p.t) [] ++ critical (.inner p.t) [] ++
    critical (.inner 0) [] ++
    (if settid then critical (.inner c) (if mapped then [] else [.panic]) else []) ++
    if thread then [.panic]
    else critical .SCHEDULER [] ++ critical (.thread p.t) [] ++ switch_to p.t c

/-- `sys_execve`: the last switch goes to the thread itself. -/
def sys_execve (p : Caller) (path : List Byte) : List Act :=
  normalize_path p AT_FDCWD path ++ critical .device [] ++
    critical (.inner p.t) (critical .device []) ++
    critical (.inner p.t) []

/-- A turn of the loop of `sys_wait4` that finds no entry. -/
def wait4_turn (t : Nat) : List Act :=
  critical (.inner t) [] ++ critical (.inner t) [] ++ critical (.thread t) [] ++ yield_to_sched t

def sys_wait4 (p : Caller) (wstatus blocked : Nat) : List Act :=
  (List.replicate blocked (wait4_turn p.t)).flatten ++ critical (.inner p.t) [] ++
    if wstatus = 0 then [] else [.store wstatus 4]

def sys_exit (p : Caller) : List Act :=
  critical (.thread p.t) [] ++ critical .SCHEDULER [] ++ critical (.inner p.t) [] ++
    critical (.inner p.t) (match p.parent with
      | some (q, callback) =>
        critical (.inner q) [] ++ critical (.inner q)
          (if callback then critical (.thread q) [] else [])
      | none => []) ++
    yield_to_sched p.t

def sys_getppid (p : Caller) : List Act := critical (.inner p.t) []

def sys_sched_yield (p : Caller) : List Act := yield_to_sched p.t

def sys_brk (p : Caller) : List Act := critical (.inner p.t) []

def sys_munmap (p : Caller) : List Act := critical (.inner p.t) []

/-- `sys_mmap`, with the end of the area that `alloc_user_area` finds. -/
def sys_mmap (p : Caller) (addr length fd va_end : Nat) : List Act :=
  if addr ≠ 0 then critical (.inner p.t) []
  else critical (.inner p.t) (match p.fd_table[fd]? with
    | none => []
    | some none => [.panic]
    | some (some f) =>
      if f.inode.seek_ok then
        f.read p.t (some (va_end - length)) length ++
          if f.readable ∧ f.inode.read_ok then [.store va_end 1] else [.panic]
      else [.panic])

def sys_times (buf : Nat) : List Act := [.store buf 32]

/-- The six names, each in a field of 65 bytes. -/
def sys_uname (buf : Nat) : List Act :=
  [.store buf 9, .store (buf + 65) 5, .store (buf + 130) 6, .store (buf + 195) 2,
    .store (buf + 260) 5,
    .store (buf + 325) 5]

def sys_gettimeofday (tv : Nat) : List Act := [.store tv 16]

def sys_nanosleep (p : Caller) : List Act :=
  critical .TIMER [] ++ critical (.thread p.t) [] ++ yield_to_sched p.t

def sys_set_tid_address (p : Caller) : List Act := critical (.thread p.t) []

/-- A system call with its arguments and with what it meets on its way. -/
inductive Call where
  | getcwd (buf size : Nat)
  | pipe2 (pipefd : Nat)
  | dup (oldfd : Nat)
  | dup3 (oldfd : Nat) (last : Bool)
  | chdir (path : List Byte)
  | openat (dirfd : Nat) (path : List Byte) (cached found : Bool)
  | close (fd : Nat) (last : Bool)
  | getdents64 (fd dirp : Nat)
  | read (fd buf count : Nat)
  | write (fd : Nat)
  | writev (fd : Nat)
  | unlinkat (dirfd : Nat) (path : List Byte)
  | mkdirat (dirfd : Nat) (path : List Byte)
  | umount2 (target : List Byte)
  | mount (target : List Byte)
  | fstat (fd statbuf : Nat)
  | fstatat (dirfd : Nat) (path : List Byte) (statbuf : Nat) (cached found last : Bool)
  | fcntl (fd : Nat)
  | sendfile (out_fd in_fd offset count : Nat) (opens : Bool) (rounds : List (Inode × Inode))
  | clone (c : Nat) (settid mapped thread : Bool)
  | execve (path : List Byte)
  | wait4 (wstatus blocked : Nat)
  | exit
  | getppid
  | sched_yield
  | brk
  | munmap
  | mmap (addr length fd va_end : Nat)
  | times (buf : Nat)
  | uname (buf : Nat)
  | gettimeofday (tv : Nat)
  | nanosleep
  | set_tid_address
  /-- `getpid`, `mprotect`, `faccessat`, `geteuid` and the others that take no lock. -/
  | other

def handler (z : Sizes) (p : Caller) : Call → List Act
  | .getcwd buf size => sys_getcwd p buf size
  | .pipe2 pipefd => sys_pipe2 p pipefd
  | .dup oldfd => sys_dup p oldfd
  | .dup3 oldfd last => sys_dup3 p oldfd last
  | .chdir path => sys_chdir p path
  | .openat dirfd path cached found => sys_openat p dirfd path cached found
  | .close fd last => sys_close p fd last
  | .getdents64 fd dirp => sys_getdents64 z p fd dirp
  | .read fd buf count => sys_read p fd buf count
  | .write fd => sys_write p fd
  | .writev fd => sys_writev p fd
  | .unlinkat dirfd path => sys_unlinkat p dirfd path
  | .mkdirat dirfd path => sys_mkdirat p dirfd path
  | .umount2 target => sys_umount2 p target
  | .mount target => sys_mount p target
  | .fstat fd statbuf => sys_fstat z p fd statbuf
  | .fstatat dirfd path statbuf cached found last =>
    sys_fstatat z p dirfd path statbuf cached found last
  | .fcntl fd => sys_fcntl p fd
  | .sendfile out_fd in_fd offset count opens rounds =>
    sys_sendfile p out_fd in_fd offset count opens rounds
  | .clone c settid mapped thread => sys_clone p c settid mapped thread
  | .execve path => sys_execve p path
  | .wait4 wstatus blocked => sys_wait4 p wstatus blocked
  | .exit => sys_exit p
  | .getppid => sys_getppid p
  | .sched_yield => sys_sched_yield p
  | .brk => sys_brk p
  | .munmap => sys_munmap p
  | .mmap addr length fd va_end => sys_mmap p addr length fd va_end
  | .times buf => sys_times buf
  | .uname buf => sys_uname buf
  | .gettimeofday tv => sys_gettimeofday tv
  | .nanosleep => sys_nanosleep p
  | .set_tid_address => sys_set_tid_address p
  | .other => []

def syscall_handler (z : Sizes) (p : Caller) (c : Call) : List Act :=
  critical (.thread p.t) [] ++ handler z p c ++ critical (.thread p.t) []

end HectoOs.Syscall
