import Mathlib.Data.List.FinRange
import Mathlib.Data.List.Perm.Subperm
import HectoOs.Lib.Arc
import HectoOs.Lib.Exec
import HectoOs.Lib.KeyTable
import HectoOs.Lib.Memory

/-! # Open files and mounted file systems (`fs/mod.rs`, `fs/vnode.rs`, `fs/file.rs`)

A path is the bytes of a string. `fatfs` is a parameter: `τ` is the disk, and `ι` says which file or
directory an inode is open on. An inode has a position of its own, which does not matter, since a
descriptor seeks before it reads or writes.

`mount` clones the `fs` of an entry, so all entries of the table are on the disk that `init` opened.

The keys of the cache borrow the bytes of strings, and a key can outlive its string. What it
compares equal to then depends on who uses the memory next, and changes at any time.
-/

open HectoOs.Lib

namespace HectoOs.Fs

abbrev Path := List Byte

/-- The byte `/`. -/
abbrev SLASH : Byte := 47

abbrev MAX_FILE_SYSTEM : Nat := 4

instance MAX_FILE_SYSTEM.neZero : NeZero MAX_FILE_SYSTEM := ⟨by decide⟩

/-- What the kernel uses of `fatfs`, on the root directory of a disk. `create_file` and `remove`
change the disk, also when they fail. -/
structure Fatfs (τ ι : Type) where
  root_dir : ι
  create_file : τ → Path → Option ι × τ
  open_dir : τ → Path → Option ι
  open_file : τ → Path → Option ι
  remove : τ → Path → Option Unit × τ
  /-- `seek(SeekFrom::End(0))`; it fails, or panics, on a directory of unknown size. -/
  seek_end : τ → ι → Option Nat

/-- The bits of `OpenFlags` that `file_open` looks at. -/
structure OpenFlags where
  bits : Nat
  deriving DecidableEq, Repr

namespace OpenFlags

def CREAT (flags : OpenFlags) : Bool := flags.bits.testBit 6
def APPEND (flags : OpenFlags) : Bool := flags.bits.testBit 10
def DIRECTORY (flags : OpenFlags) : Bool := flags.bits.testBit 21

end OpenFlags

structure FileSystem where
  mount_point : Path
  deriving DecidableEq, Repr

/-- `fs` is the entry of `FILE_SYSTEM_TABLE` that the vnode refers to; the ends of a pipe have
none. -/
structure Vnode (ι : Type) where
  fs : Option (Fin MAX_FILE_SYSTEM)
  full_path : Path
  inode : ι
  deriving DecidableEq

/-- `vnode` is a pointer into `Vfs.vnodes`. -/
structure FileDescriptor where
  flags : OpenFlags
  pos : Nat
  vnode : Nat
  deriving DecidableEq, Repr

/-- The string that a key of the cache borrows: the `full_path` of a vnode, or the `mount_point`
that an entry of the table got when the vnode `root` was made for it. -/
inductive Key where
  | full_path (v : Nat)
  | mount_point (i : Fin MAX_FILE_SYSTEM) (root : Nat)
  deriving DecidableEq, Repr

/-- The file system table, the disk, the cache of vnodes, and the objects behind the `Arc`s. Both
halves of an entry of the table are set and cleared together. `roots` are the vnodes that were made
with the entries, and `freed` is what a key is found under when its string is gone. -/
structure Vfs (τ ι : Type) where
  FILE_SYSTEM_TABLE : Fin MAX_FILE_SYSTEM → Option FileSystem
  roots : Fin MAX_FILE_SYSTEM → Nat
  disk : τ
  VNODE_HASHSET : List (Key × Nat)
  freed : Key → Option Path
  vnodes : Arcs (Vnode ι)
  files : Arcs FileDescriptor

inductive Panic where
  /-- `assert!(fs_dir.0.is_some())`. -/
  | no_file_system
  | table_full
  | unwrap
  | slice_index
  /-- `debug_assert!` in `FileDescriptor::drop`, for a descriptor on this path. -/
  | still_shared (full_path : Path)
  deriving DecidableEq, Repr

/-! ## The file system table -/

section Table

variable (table : Fin MAX_FILE_SYSTEM → Option FileSystem) (full_path : Path)

/-- The mount point is `full_path` or a directory above it. -/
def FileSystem.contains (fs : FileSystem) (full_path : Path) : Bool :=
  fs.mount_point.length ≤ full_path.length && fs.mount_point.isPrefixOf full_path &&
    (fs.mount_point.length = full_path.length || full_path[fs.mount_point.length]? = some SLASH)

/-- The loop body of `filesystem_lookup`: the best entry so far and the length of its mount
point. -/
def lookup_entry (best : Fin MAX_FILE_SYSTEM × Nat) (i : Fin MAX_FILE_SYSTEM) :
    Fin MAX_FILE_SYSTEM × Nat :=
  match table i with
  | some fs =>
    if fs.contains full_path && best.2 < fs.mount_point.length then (i, fs.mount_point.length)
    else best
  | none => best

/-- `filesystem_lookup`: the longest mount point above the path, or the first entry. -/
def filesystem_lookup : Fin MAX_FILE_SYSTEM :=
  (((List.finRange MAX_FILE_SYSTEM).drop 1).foldl (lookup_entry table full_path) (0, 0)).1

end Table

/-! ## The cache -/

namespace Vfs

variable {τ ι : Type} (s : Vfs τ ι)

/-- The bytes of a string that is still there. -/
def string : Key → Option Path
  | .full_path v => (s.vnodes.get v).map Vnode.full_path
  | .mount_point i root =>
    if s.roots i = root then (s.FILE_SYSTEM_TABLE i).map FileSystem.mount_point else none

/-- The path that a key compares equal to. -/
def reads (k : Key) : Option Path := (s.string k).or (s.freed k)

def found (full_path : Path) (k : Key) : Bool := s.reads k = some full_path

/-- `VNODE_HASHSET.get(full_path)`. -/
def cached (full_path : Path) : Option Nat := KeyTable.lookup (s.found full_path) s.VNODE_HASHSET

end Vfs

/-! ## Operations -/

abbrev Op (τ ι : Type) := Exec Panic (Vfs τ ι)

variable {τ ι : Type} (F : Fatfs τ ι)

/-- Dropping an `Arc<Vnode>`. -/
def drop_vnode (v : Nat) : Op τ ι Unit := modify fun s => { s with vnodes := (s.vnodes.drop v).2 }

/-- `hs.insert(path, vnode)`, where the path is borrowed from `k`; a value that was there is
dropped. -/
def insert_vnode (full_path : Path) (k : Key) (v : Nat) : Op τ ι Unit := do
  let s ← get
  let r := KeyTable.insert (s.found full_path) k v s.VNODE_HASHSET
  set { s with VNODE_HASHSET := r.1 }
  match r.2 with
  | some old => drop_vnode old
  | none => pure ()

/-- `hs.remove(path)`; the value that was there is dropped. -/
def remove_vnode (full_path : Path) : Op τ ι Unit := do
  let s ← get
  let r := KeyTable.remove (s.found full_path) s.VNODE_HASHSET
  set { s with VNODE_HASHSET := r.1 }
  match r.2 with
  | some old => drop_vnode old
  | none => pure ()

/-- `regeister_file_system`. -/
def regeister_file_system (fs : FileSystem) : Op τ ι Unit := do
  let s ← get
  let i ← Exec.unwrap .table_full
    ((List.finRange MAX_FILE_SYSTEM).find? fun i => (s.FILE_SYSTEM_TABLE i).isNone)
  let r := s.vnodes.new ⟨some i, fs.mount_point, F.root_dir⟩
  set { s with
    FILE_SYSTEM_TABLE := Function.update s.FILE_SYSTEM_TABLE i (some fs)
    roots := Function.update s.roots i r.1
    vnodes := r.2 }
  insert_vnode fs.mount_point (.mount_point i r.1) r.1

/-- The entry that `filesystem_lookup` finds, when it is not empty. -/
def file_system (full_path : Path) : Op τ ι (Fin MAX_FILE_SYSTEM × FileSystem) := do
  let s ← get
  let i := filesystem_lookup s.FILE_SYSTEM_TABLE full_path
  let fs ← Exec.unwrap .no_file_system (s.FILE_SYSTEM_TABLE i)
  return (i, fs)

/-- How `file_open` asks `fatfs` for an inode. -/
def open_inode (disk : τ) (full_path : Path) (flags : OpenFlags) : Option ι × τ :=
  if flags.CREAT then F.create_file disk full_path
  else if flags.DIRECTORY then (F.open_dir disk full_path, disk)
  else (F.open_file disk full_path, disk)

/-- Where a new descriptor starts. -/
def open_pos (disk : τ) (inode : ι) (flags : OpenFlags) : Option Nat :=
  if flags.APPEND then F.seek_end disk inode else some 0

/-- The second half of `file_open`, with a reference to the vnode: the new descriptor. -/
def open_descriptor (v : Nat) (inode : ι) (flags : OpenFlags) : Op τ ι Nat := do
  let s ← get
  let pos ← Exec.unwrap .unwrap (open_pos F s.disk inode flags)
  let r := s.files.new ⟨flags, pos, v⟩
  set { s with files := r.2 }
  return r.1

/-- `file_open`: a pointer to the new descriptor, or `none` for an error. -/
def file_open (full_path : Path) (flags : OpenFlags) : Op τ ι (Option Nat) := do
  let s ← get
  match s.cached full_path with
  | some v =>
    let vnode ← Exec.unwrap .unwrap (s.vnodes.get v)
    set { s with vnodes := s.vnodes.clone v }
    some <$> open_descriptor F v vnode.inode flags
  | none =>
    let (i, _) ← file_system full_path
    let r := open_inode F s.disk full_path flags
    match r.1 with
    | none =>
      set { s with disk := r.2 }
      return none
    | some inode =>
      let n := s.vnodes.new ⟨some i, full_path, inode⟩
      set { s with
        disk := r.2
        vnodes := n.2.clone n.1
        VNODE_HASHSET := (KeyTable.insert (s.found full_path) (.full_path n.1) n.1 s.VNODE_HASHSET).1 }
      some <$> open_descriptor F n.1 inode flags

/-- `FileDescriptor::drop`, and the drop of its `vnode` field. -/
def FileDescriptor.drop (fd : FileDescriptor) : Op τ ι Unit := do
  let s ← get
  let vnode ← Exec.unwrap .unwrap (s.vnodes.get fd.vnode)
  if s.vnodes.strong_count fd.vnode = 2 then
    remove_vnode vnode.full_path
    let s ← get
    Exec.require (.still_shared vnode.full_path) (s.vnodes.strong_count fd.vnode = 1)
    drop_vnode fd.vnode
  else
    drop_vnode fd.vnode

/-- A holder of an `Arc<FileDescriptor>` goes. -/
def release (f : Nat) : Op τ ι Unit := do
  let s ← get
  let r := s.files.drop f
  set { s with files := r.2 }
  match r.1 with
  | some fd => fd.drop
  | none => pure ()

/-- `file_unlink`: whether the file was removed. -/
def file_unlink (full_path : Path) : Op τ ι (Option Unit) := do
  let _ ← file_system full_path
  let s ← get
  let r := F.remove s.disk full_path
  set { s with disk := r.2 }
  return r.1

/-- `mount`. -/
def mount (full_path : Path) : Op τ ι Unit := do
  let (_, fs) ← file_system full_path
  Exec.require .slice_index (fs.mount_point.length ≤ full_path.length)
  let s ← get
  let _ ← Exec.unwrap .unwrap (F.open_dir s.disk (full_path.drop fs.mount_point.length))
  regeister_file_system F ⟨full_path⟩

/-- `umount`. -/
def umount (full_path : Path) : Op τ ι Unit := do
  let (i, _) ← file_system full_path
  modify fun s => { s with FILE_SYSTEM_TABLE := Function.update s.FILE_SYSTEM_TABLE i none }

/-! ## The system -/

/-- The state before `init`. -/
def Vfs.empty (disk : τ) : Vfs τ ι :=
  ⟨fun _ => none, fun _ => 0, disk, [], fun _ => none, Arcs.empty, Arcs.empty⟩

/-- `init`. -/
def init : Op τ ι Unit := regeister_file_system F ⟨[SLASH]⟩

/-- `share` and `release` are what `dup`, `fork` and `close` do to an `Arc<FileDescriptor>`. With
`reuse`, memory that was freed gets other bytes, and a probe meets the entries of the cache in
another order. -/
inductive Event where
  | file_open (full_path : Path) (flags : OpenFlags)
  | share (f : Nat)
  | release (f : Nat)
  | file_unlink (full_path : Path)
  | mount (full_path : Path)
  | umount (full_path : Path)
  | reuse (freed : Key → Option Path) (entries : List (Key × Nat))

/-- What a caller learns: the descriptor, or whether the file was removed. -/
inductive Answer where
  | opened (f : Option Nat)
  | unlinked (done : Bool)
  | nothing
  deriving DecidableEq, Repr

/-- The outcome of an operation as a step of a run. -/
def Op.step {α : Type} (x : Op τ ι α) (s : Vfs τ ι) (answer : α → Answer) :
    Except Panic (Vfs τ ι × Answer) :=
  (x s).map fun r => (r.2, answer r.1)

/-- Only a descriptor that somebody holds can be shared or released. -/
def step (s : Vfs τ ι) : Event → Except Panic (Vfs τ ι × Answer)
  | .file_open full_path flags => (file_open F full_path flags).step s .opened
  | .share f =>
    permit .unwrap (s.files.get f).isSome ({ s with files := s.files.clone f }, .nothing)
  | .release f =>
    if (s.files.get f).isSome then (release f : Op τ ι Unit).step s fun _ => .nothing
    else .error .unwrap
  | .file_unlink full_path => (file_unlink F full_path).step s fun r => .unlinked r.isSome
  | .mount full_path => (mount F full_path).step s fun _ => .nothing
  | .umount full_path => (umount full_path : Op τ ι Unit).step s fun _ => .nothing
  | .reuse freed entries =>
    permit .unwrap (entries.Perm s.VNODE_HASHSET)
      ({ s with freed, VNODE_HASHSET := entries }, .nothing)

/-- The states that runs from boot end in. -/
def Reachable (s : Vfs τ ι) : Prop :=
  ∃ disk s₀ es os, init F (Vfs.empty disk) = .ok ((), s₀) ∧ run (step F) s₀ es = .ok (s, os)

/-! ## A small disk

A disk with numbered files and directories, which `fatfs` finds by their paths without leading
slashes. The root directory cannot be opened by a path.
-/

structure SmallDisk where
  entries : List (Path × Bool × Nat)
  next : Nat
  below : ∀ e ∈ entries, e.2.2 < next

namespace SmallDisk

/-- The name under which a path is looked up. -/
def resolve (p : Path) : Path := p.dropWhile (· = SLASH)

def find (d : SmallDisk) (name : Path) : Option (Bool × Nat) :=
  (d.entries.find? fun e => e.1 = name).map Prod.snd

def open_as (d : SmallDisk) (name : Path) (is_dir : Bool) : Option (Option Nat) :=
  (d.find name).bind fun e => if e.1 = is_dir then some (some e.2) else none

def add (d : SmallDisk) (name : Path) : SmallDisk where
  entries := (name, false, d.next) :: d.entries
  next := d.next + 1
  below e he := by
    rcases List.mem_cons.mp he with rfl | he
    · exact Nat.lt_succ_self _
    · exact Nat.lt_succ_of_lt (d.below e he)

def erase (d : SmallDisk) (name : Path) : SmallDisk where
  entries := d.entries.filter fun e => e.1 ≠ name
  next := d.next
  below e he := d.below e (List.mem_of_mem_filter he)

/-- The inode of the root is `none`. -/
def fat : Fatfs SmallDisk (Option Nat) where
  root_dir := none
  create_file d p :=
    if (d.find (resolve p)).isSome then (d.open_as (resolve p) false, d)
    else (some (some d.next), d.add (resolve p))
  open_dir d p := d.open_as (resolve p) true
  open_file d p := d.open_as (resolve p) false
  remove d p := if (d.find (resolve p)).isSome then (some (), d.erase (resolve p)) else (none, d)
  seek_end _ inode := inode.map fun _ => 0

end SmallDisk

/-- The disk has a directory `m`. -/
def smallDisk : SmallDisk := ⟨[([109], true, 0)], 1, by simp⟩

/-- The path `/a`. -/
def pathA : Path := [47, 97]

/-- The path `/m`. -/
def pathM : Path := [47, 109]

end HectoOs.Fs
