import HectoOs.Fs.File

/-! # System calls on descriptors (`syscall/fs.rs`, `process/process.rs`)

The descriptor table of a process holds pointers into `Vfs.files`. What an inode does with a request
is a parameter, since an inode is a file, a directory, the console or the end of a pipe. An `isize`
result is an integer, and `-1` an error.
-/

open HectoOs.Lib HectoOs.Fs

namespace HectoOs.Files

abbrev MAX_FD : Nat := 128

/-- The table and the working directory of a process. -/
structure ProcessInner where
  fd_table : List (Option Nat)
  cwd : Path
  deriving Repr

inductive Panic where
  | fs (p : Fs.Panic)
  /-- An index past the end of `fd_table`, by `get().unwrap()` or by indexing. -/
  | bad_index
  | unwrap
  | assert
  /-- A panic in the code of an inode. -/
  | inode
  /-- The loop of `sys_sendfile` does not end. -/
  | endless
  deriving DecidableEq, Repr

/-- What the inodes do. The position is that of the descriptor, which seeks first. -/
structure Inodes (τ ι : Type) where
  /-- `seek(SeekFrom::Start(pos))`. -/
  seek : τ → ι → Nat → Option Nat
  read : τ → ι → Nat → Nat → Except Panic (Option (List Byte) × τ)
  write : τ → ι → Nat → List Byte → Except Panic (Option Nat × τ)
  get_dents64 : τ → ι → Except Panic (List Byte)
  get_fstat : τ → ι → Except Panic (List Byte)

/-- One process and the files of the system. -/
structure Sys (τ ι : Type) where
  vfs : Vfs τ ι
  inner : ProcessInner

abbrev Sc (τ ι : Type) := Exec Panic (Sys τ ι)

/-! ## The table -/

section Table

variable (fd_table : List (Option Nat))

/-- The loop `for i in start..len` over the table: the first empty slot. -/
def first_empty (start : Nat) : Option Nat :=
  (List.range' start (fd_table.length - start)).find? fun i => fd_table[i]? = some none

/-- What both allocators do when the table has no empty slot. -/
def push_slot : Option Nat × List (Option Nat) :=
  if fd_table.length = MAX_FD then (none, fd_table) else (some fd_table.length, fd_table ++ [none])

/-- `fd_alloc`; `-1` is `none`. -/
def fd_alloc : Option Nat × List (Option Nat) :=
  match first_empty fd_table 3 with
  | some i => (some i, fd_table)
  | none => push_slot fd_table

/-- `Vec::resize(len, None)` to a larger length. -/
def grow (len : Nat) : List (Option Nat) := fd_table ++ List.replicate (len - fd_table.length) none

/-- `fd_alloc_from`. -/
def fd_alloc_from (min : Nat) : Option Nat × List (Option Nat) :=
  if MAX_FD ≤ min then (none, fd_table)
  else if fd_table.length ≤ min then (some min, grow fd_table (min + 1))
  else
    match first_empty fd_table min with
    | some i => (some i, fd_table)
    | none => push_slot fd_table

end Table

variable {τ ι : Type} (F : Fatfs τ ι) (I : Inodes τ ι)

/-- An operation of the file system, in a system call. -/
def on_vfs {α : Type} (x : Op τ ι α) : Sc τ ι α := fun s =>
  match x s.vfs with
  | .ok (a, vfs) => .ok (a, { s with vfs })
  | .error p => .error (.fs p)

def set_table (fd_table : List (Option Nat)) : Sc τ ι Unit :=
  modify fun s => { s with inner := { s.inner with fd_table } }

/-- `fd_table.get(fd).unwrap()` and `fd_table[fd]`. -/
def get_slot (fd : Nat) : Sc τ ι (Option Nat) := do
  let s ← get
  Exec.unwrap .bad_index s.inner.fd_table[fd]?

/-- `fd_table[fd] = value`; what was in the slot is dropped. -/
def put_slot (fd : Nat) (value : Option Nat) : Sc τ ι Unit := do
  let old ← get_slot fd
  let s ← get
  set_table (s.inner.fd_table.set fd value)
  match old with
  | some f => on_vfs (release f)
  | none => pure ()

/-- `Arc::clone`. -/
def clone_file (f : Nat) : Sc τ ι Unit :=
  modify fun s => { s with vfs := { s.vfs with files := s.vfs.files.clone f } }

/-- The descriptor behind a pointer. -/
def get_file (f : Nat) : Sc τ ι FileDescriptor := do
  let s ← get
  Exec.unwrap .unwrap (s.vfs.files.get f)

/-- The vnode of a descriptor. -/
def get_vnode (f : Nat) : Sc τ ι (Vnode ι) := do
  let fd ← get_file f
  let s ← get
  Exec.unwrap .unwrap (s.vfs.vnodes.get fd.vnode)

section Reads

variable {s : Sys τ ι} {f : Nat}

theorem get_slot_eq {fd : Nat} {slot : Option Nat} (h : s.inner.fd_table[fd]? = some slot) :
    (get_slot fd : Sc τ ι _) s = .ok (slot, s) := by
  rw [get_slot, exec_bind]
  show Exec.unwrap Panic.bad_index s.inner.fd_table[fd]? s = _
  rw [h, Exec.unwrap]

theorem get_file_eq {fd : FileDescriptor} (hfd : s.vfs.files.get f = some fd) :
    (get_file f : Sc τ ι _) s = .ok (fd, s) := by
  rw [get_file, exec_bind]
  show Exec.unwrap Panic.unwrap (s.vfs.files.get f) s = _
  rw [hfd, Exec.unwrap]

theorem get_vnode_eq {fd : FileDescriptor} {vnode : Vnode ι}
    (hfd : s.vfs.files.get f = some fd) (hv : s.vfs.vnodes.get fd.vnode = some vnode) :
    (get_vnode f : Sc τ ι _) s = .ok (vnode, s) := by
  rw [get_vnode, exec_bind, get_file_eq hfd]
  show Exec.unwrap Panic.unwrap (s.vfs.vnodes.get fd.vnode) s = _
  rw [hv, Exec.unwrap]

end Reads

/-! ## Descriptors -/

/-- A change of a descriptor that others may share. -/
def set_file (f : Nat) (fd : FileDescriptor) : Sc τ ι Unit := modify fun s =>
  { s with vfs := { s.vfs with files := { s.vfs.files with
      objects := Function.update s.vfs.files.objects f ((s.vfs.files.objects f).map fun o => (fd, o.2)) } } }

/-- A request to an inode; it may change the disk. -/
def ask {α : Type} (x : τ → Except Panic (α × τ)) : Sc τ ι α := fun s =>
  match x s.vfs.disk with
  | .ok (a, disk) => .ok (a, { s with vfs := { s.vfs with disk } })
  | .error p => .error p

/-- `OpenFlags::readable`: `self & (RDONLY | RDWR) != WRONLY`. -/
def readable (flags : OpenFlags) : Bool := flags.bits &&& (0 ||| 2) ≠ 1

/-- `OpenFlags::writable`. -/
def writable (flags : OpenFlags) : Bool := flags.bits &&& (1 ||| 2) ≠ 0

/-- `FileDescriptor::read`; `none` is an error. -/
def file_read (f count : Nat) : Sc τ ι (Option (List Byte)) := do
  let fd ← get_file f
  let vnode ← get_vnode f
  if readable fd.flags then
    let s ← get
    let _ ← Exec.unwrap .unwrap (I.seek s.vfs.disk vnode.inode fd.pos)
    let r ← ask (I.read · vnode.inode fd.pos count)
    match r with
    | some bytes =>
      set_file f { fd with pos := fd.pos + bytes.length }
      return some bytes
    | none => return none
  else
    return none

/-- `FileDescriptor::write`. -/
def file_write (f : Nat) (bytes : List Byte) : Sc τ ι (Option Nat) := do
  let fd ← get_file f
  let vnode ← get_vnode f
  if writable fd.flags then
    let s ← get
    let _ ← Exec.unwrap .unwrap (I.seek s.vfs.disk vnode.inode fd.pos)
    let r ← ask (I.write · vnode.inode fd.pos bytes)
    match r with
    | some n =>
      set_file f { fd with pos := fd.pos + n }
      return some n
    | none => return none
  else
    return none

/-- A count, or `-1` for an error. -/
def isize : Option Nat → Int
  | some n => n
  | none => -1

/-! ## Reading and writing -/

def sys_write (fd : Nat) (buffer : List Byte) : Sc τ ι Int := do
  match ← get_slot fd with
  | some f => isize <$> file_write I f buffer
  | none => return -1

def sys_writev (fd : Nat) (iovecs : List (List Byte)) : Sc τ ι Int := do
  match ← get_slot fd with
  | some f => isize <$> file_write I f iovecs.flatten
  | none => return -1

/-- `sys_read`, and the bytes that go to the buffer of the user. -/
def sys_read (fd count : Nat) : Sc τ ι (Int × List Byte) := do
  match ← get_slot fd with
  | some f => (fun r => (isize (r.map List.length), r.getD [])) <$> file_read I f count
  | none => return (-1, [])

abbrev BLK_SIZE : Nat := 512

/-- The loop of `sys_sendfile`: how much is left at the end. -/
def sendfile_loop (out_fd in_fd : Nat) : Nat → Nat → Sc τ ι Nat
  | 0, _ => Exec.panic .endless
  | fuel + 1, remain => do
    if remain = 0 then
      return 0
    else
      let read_count := if BLK_SIZE ≤ remain then BLK_SIZE else remain
      match ← file_read I in_fd read_count with
      | none => sendfile_loop out_fd in_fd fuel remain
      | some bytes =>
        match ← file_write I out_fd bytes with
        | none => sendfile_loop out_fd in_fd fuel remain
        | some n =>
          let m := bytes.length
          let remain := remain - n
          if m ≠ BLK_SIZE ∧ (m ≠ read_count ∨ m ≠ n) then
            return remain
          else
            sendfile_loop out_fd in_fd fuel remain

/-- `sys_sendfile`; the loop runs for `fuel` rounds. -/
def sys_sendfile (fuel out_fd in_fd offset count : Nat) : Sc τ ι Int := do
  Exec.require .assert (offset = 0)
  match ← get_slot out_fd with
  | some out_f =>
    match ← get_slot in_fd with
    | some in_f =>
      let vnode ← get_vnode in_f
      let s ← get
      Exec.require .unwrap (s.vfs.FILE_SYSTEM_TABLE 0).isSome
      let _ ← Exec.unwrap .unwrap (F.open_file s.vfs.disk vnode.full_path)
      let remain ← sendfile_loop I out_f in_f fuel count
      return (count - remain : Nat)
    | none => return -1
  | none => return -1

/-! ## Opening, closing and sharing -/

abbrev AT_FDCWD : Nat := 2 ^ 64 - 100

/-- `trim_start_matches("./")`. -/
def trim_start : Path → Path
  | 46 :: 47 :: path => trim_start path
  | path => path

/-- `trim_end_matches(c)`. -/
def trim_end (c : Byte) (path : Path) : Path := (path.reverse.dropWhile (· = c)).reverse

/-- `normalize_path`. -/
def normalize_path (dirfd : Nat) (pathname : Path) : Sc τ ι Path := do
  if pathname.head? = some SLASH then
    return pathname
  else
    let path := trim_end 46 (trim_start pathname)
    let s ← get
    if dirfd = AT_FDCWD then
      return trim_end SLASH s.inner.cwd ++ SLASH :: path
    else
      let f ← Exec.unwrap .unwrap (← get_slot dirfd)
      let vnode ← get_vnode f
      return trim_end SLASH vnode.full_path ++ SLASH :: path

/-- A new descriptor gets a slot, or its reference is dropped. -/
def install (f : Nat) (r : Option Nat × List (Option Nat)) : Sc τ ι Int := do
  set_table r.2
  match r.1 with
  | some newfd =>
    put_slot newfd (some f)
    return newfd
  | none =>
    on_vfs (release f)
    return -1

def sys_openat (dirfd : Nat) (pathname : Path) (flags : OpenFlags) : Sc τ ι Int := do
  let full_path ← normalize_path dirfd pathname
  match ← on_vfs (file_open F full_path flags) with
  | some f =>
    let s ← get
    install f (fd_alloc s.inner.fd_table)
  | none => return -1

def sys_close (fd : Nat) : Sc τ ι Int := do
  put_slot fd none
  return 0

def sys_dup (oldfd : Nat) : Sc τ ι Int := do
  match ← get_slot oldfd with
  | some f =>
    clone_file f
    let s ← get
    install f (fd_alloc s.inner.fd_table)
  | none => return -1

def sys_dup3 (oldfd newfd : Nat) : Sc τ ι Int := do
  match ← get_slot oldfd with
  | some f =>
    clone_file f
    if newfd < MAX_FD then
      let s ← get
      set_table (grow s.inner.fd_table (newfd + 1))
      put_slot newfd (some f)
      return newfd
    else
      on_vfs (release f)
      return -1
  | none => return -1

/-- A descriptor on one end of a pipe. -/
def pipe_end (flags : Nat) (full_path : Path) (inode : ι) : Sc τ ι Nat := do
  let s ← get
  let v := s.vfs.vnodes.new ⟨none, full_path, inode⟩
  let r := s.vfs.files.new ⟨⟨flags⟩, 0, v.1⟩
  set { s with vfs := { s.vfs with vnodes := v.2, files := r.2 } }
  return r.1

/-- `pipe read end` -/
def PIPE_READ : Path := [112, 105, 112, 101, 32, 114, 101, 97, 100, 32, 101, 110, 100]

/-- `pipe write end` -/
def PIPE_WRITE : Path := [112, 105, 112, 101, 32, 119, 114, 105, 116, 101, 32, 101, 110, 100]

/-- `sys_pipe2` on the ends of a new pipe: the result, and the descriptors that go to `pipefd`. -/
def sys_pipe2 (read_end write_end : ι) : Sc τ ι (Int × List Nat) := do
  let reader ← pipe_end 0 PIPE_READ read_end
  let writer ← pipe_end 1 PIPE_WRITE write_end
  let s ← get
  let r := fd_alloc s.inner.fd_table
  set_table r.2
  match r.1 with
  | some read_fd =>
    clone_file reader
    put_slot read_fd (some reader)
    let s ← get
    let w := fd_alloc s.inner.fd_table
    set_table w.2
    match w.1 with
    | some write_fd =>
      clone_file writer
      put_slot write_fd (some writer)
      on_vfs (release reader)
      on_vfs (release writer)
      return (0, [read_fd, write_fd])
    | none =>
      put_slot read_fd none
      on_vfs (release reader)
      on_vfs (release writer)
      return (-1, [])
  | none =>
    on_vfs (release reader)
    on_vfs (release writer)
    return (-1, [])

inductive FcntlCmd where
  | F_DUPFD
  | F_GETFD
  | F_SETFD
  | F_GETFL
  | F_SETFL
  | F_GETLK
  | F_SETLK
  | F_SETLKW
  | F_DUPFD_CLOEXEC
  deriving DecidableEq, Repr

/-- `flags.insert(OpenFlags::CLOEXEC)`. -/
def set_cloexec (f : Nat) : Sc τ ι Unit := do
  let fd ← get_file f
  set_file f { fd with flags := ⟨fd.flags.bits ||| 2 ^ 19⟩ }

/-- `sys_fcntl`. `F_SETFD` goes on to the end, where the result is `-1`. -/
def sys_fcntl (fd : Nat) (cmd : FcntlCmd) (arg : Nat) : Sc τ ι Int := do
  match ← get_slot fd with
  | some f =>
    match cmd with
    | .F_DUPFD =>
      clone_file f
      let s ← get
      install f (fd_alloc_from s.inner.fd_table arg)
    | .F_DUPFD_CLOEXEC =>
      clone_file f
      let s ← get
      let newfd ← install f (fd_alloc_from s.inner.fd_table arg)
      if 0 ≤ newfd then
        set_cloexec f
        return newfd
      else
        return newfd
    | .F_GETFD =>
      let d ← get_file f
      return d.flags.bits
    | .F_SETFD =>
      if arg.testBit 0 then
        set_cloexec f
        return -1
      else
        return -1
    | _ => return -1
  | none => return -1

/-! ## Asking about a file -/

/-- `sys_getdents64`, and what goes to `dirp`, one `LinuxDirent64` of 32 bytes. -/
def sys_getdents64 (fd : Nat) : Sc τ ι (Int × List Byte) := do
  match ← get_slot fd with
  | some f =>
    let vnode ← get_vnode f
    let bytes ← ask fun disk => (I.get_dents64 disk vnode.inode).map fun bytes => (bytes, disk)
    return (32, bytes)
  | none => return (-1, [])

/-- `sys_fstat`, and what goes to `statbuf`. -/
def sys_fstat (fd : Nat) : Sc τ ι (Int × List Byte) := do
  match ← get_slot fd with
  | some f =>
    let vnode ← get_vnode f
    let bytes ← ask fun disk => (I.get_fstat disk vnode.inode).map fun bytes => (bytes, disk)
    return (0, bytes)
  | none => return (-1, [])

end HectoOs.Files
