import HectoOs.Fatfs.FileSystem

/-! # Files (`fatfs/src/file.rs`)

A file knows its first cluster and the cluster it is in. At an offset between two clusters it is in
the first of them.
-/

open HectoOs.Lib

namespace HectoOs.Fatfs

def MAX_FILE_SIZE : Nat := 2 ^ 32 - 1

structure File where
  first_cluster : Option Nat
  current_cluster : Option Nat
  offset : Nat
  entry : Option DirEntryEditor
  deriving DecidableEq

/-- A file and the volume it is on. -/
abbrev FileM := FatM (FileSystem × File)

def in_fs {α : Type} (x : FsM α) : FileM α := fun s => (x s.1).map fun r => (r.1, (r.2, s.2))

/-- What a step of the iterator over the clusters of a chain yields, as the callers take it. -/
def next_item : Option (Except Error Nat) → FileM (Option Nat)
  | some (.ok n) => pure (some n)
  | some (.error err) => throw err
  | none => pure none

/-- A sum of signed 64-bit integers. -/
def add_i64 (a b : Int) : Int := (BitVec.ofInt 64 (a + b)).toInt

namespace File

def new (first_cluster : Option Nat) (entry : Option DirEntryEditor) :
    File := ⟨first_cluster, none, 0, entry⟩

variable (f : File)

def size : Option Nat := f.entry.bind fun e => e.data.file_size

def is_dir : Bool := f.entry.elim false fun e => e.data.is_dir

/-- `bytes_left_in_file`. -/
def bytes_left : Option Nat := f.size.map fun s => s - f.offset

def set_first_cluster (cluster : Nat) (fat_type : FatType) : File :=
  { f with
    first_cluster := some cluster
    entry := f.entry.map fun e => e.set_first_cluster (some cluster) fat_type }

def update_dir_entry_after_write (options : FsOptions) : File :=
  { f with entry := f.entry.map fun e =>
      let e := e.set_modified options.time_provider.get_current_date_time
      if e.data.file_size.elim false fun s => s < f.offset then e.set_size f.offset else e }

/-- The cluster that the next byte is in, if there is one. -/
def next_cluster : FileM (Option Nat) := do
  let (fs, f) ← get
  if f.offset % fs.cluster_size = 0 then
    match f.current_cluster with
    | none => return f.first_cluster
    | some n => do
      let (r, _) ← in_fs (FileSystem.on_fat (ClusterIterator.new fs.fat_type n).next)
      next_item r
  else return f.current_cluster

/-- The result is what has been read. -/
def read (count : Nat) : FileM (List Byte) := do
  let (fs, f) ← get
  let current_cluster_opt ← next_cluster
  match current_cluster_opt with
  | none => return []
  | some current_cluster =>
    let offset_in_cluster := f.offset % fs.cluster_size
    let bytes_left_in_cluster := fs.cluster_size - offset_in_cluster
    let bytes_left_in_file := f.bytes_left.getD bytes_left_in_cluster
    let read_size := min (min count bytes_left_in_cluster) bytes_left_in_file
    if read_size = 0 then return []
    let offset_in_fs := fs.offset_from_cluster current_cluster + offset_in_cluster
    let bytes ← in_fs (FileSystem.on_disk offset_in_fs (DiskCursor.read read_size))
    if bytes.length = 0 then return []
    modify fun s => (s.1, { s.2 with
      offset := s.2.offset + bytes.length
      current_cluster := some current_cluster
      entry := s.2.entry.map fun e =>
        if fs.options.update_accessed_date then e.set_accessed fs.options.time_provider.get_current_date else e })
    return bytes

/-- The cluster to write in, and a new one behind the last one if there is none. -/
def cluster_for_write : FileM Nat := do
  let (fs, f) ← get
  match ← next_cluster with
  | some n => return n
  | none =>
    if f.offset % fs.cluster_size = 0 then
      let new_cluster ← in_fs (FileSystem.alloc_cluster f.current_cluster f.is_dir)
      if f.first_cluster.isNone then
        modify fun s => (s.1, s.2.set_first_cluster new_cluster fs.fat_type)
      return new_cluster
    else throwThe Panic .no_cluster

/-- The rest of `write`, once there is a cluster. -/
def write_in (options : FsOptions) (current_cluster offset_in_fs : Nat) (buf : List Byte) :
    FileM Nat := do
  let written_bytes ← in_fs (FileSystem.on_disk offset_in_fs (DiskCursor.write buf))
  if written_bytes = 0 then return 0
  modify fun s => (s.1, ({ s.2 with
    offset := s.2.offset + written_bytes
    current_cluster := some current_cluster } : File).update_dir_entry_after_write options)
  return written_bytes

def write (buf : List Byte) : FileM Nat := do
  let (fs, f) ← get
  let offset_in_cluster := f.offset % fs.cluster_size
  let bytes_left_in_cluster := fs.cluster_size - offset_in_cluster
  let bytes_left_until_max_file_size := MAX_FILE_SIZE - f.offset
  let write_size := min (min buf.length bytes_left_in_cluster) bytes_left_until_max_file_size
  if write_size = 0 then return 0
  in_fs (FileSystem.set_dirty_flag true)
  let current_cluster ← cluster_for_write
  let offset_in_fs := fs.offset_from_cluster current_cluster + offset_in_cluster
  write_in fs.options current_cluster offset_in_fs (buf.take write_size)

/-- `truncate`. -/
def truncate : FileM Unit := do
  modify fun s => (s.1, { s.2 with entry := s.2.entry.map fun e =>
    let e := e.set_size s.2.offset
    if s.2.offset = 0 then e.set_first_cluster none s.1.fat_type else e })
  let (_, f) ← get
  if f.offset > 0 then
    match f.current_cluster with
    | some n => in_fs (FileSystem.truncate_cluster_chain n)
    | none => throwThe Panic .unwrap
  else
    match f.first_cluster with
    | some n =>
      in_fs (FileSystem.free_cluster_chain n)
      modify fun s => (s.1, { s.2 with first_cluster := none })
    | none => return ()

/-- `flush`. The disk has nothing to flush. -/
def flush : FileM Unit := do
  let (_, f) ← get
  match f.entry with
  | some e =>
    let e ← in_fs e.flush
    modify fun s => (s.1, { s.2 with entry := some e })
  | none => return ()

/-- The walk of `seek` along the chain: `left` steps from `cluster` on, of which `i` have been
taken. If the chain ends before, the file is put at the end of its last cluster. -/
def seek_loop (fs : FileSystem) : Nat → Nat → ClusterIterator → Nat → Nat → SliceM (Nat × Nat)
  | 0, _, _, cluster, new_pos => return (cluster, new_pos)
  | left + 1, i, iter, cluster, new_pos => do
    let (r, iter) ← iter.next
    match r with
    | some (.ok cluster) => seek_loop fs left (i + 1) iter cluster new_pos
    | some (.error err) => throw err
    | none => return (cluster, u32 (fs.bytes_from_clusters (i + 1)))

/-- The cluster that the byte before `pos` is in, counted along the chain. -/
def cluster_count (fs : FileSystem) (pos : Nat) : Int := (fs.clusters_from_bytes pos : Int) - 1

/-- Where `seek` leads. -/
def target (pos : SeekFrom) : FileM Int := do
  let (_, f) ← get
  match pos with
  | .Current x => return add_i64 f.offset x
  | .Start x => return as_i64 x
  | .End x =>
    match f.size with
    | some size => return add_i64 size x
    | none => throwThe Panic .unknown_size

def seek (pos : SeekFrom) : FileM Nat := do
  let new_pos ← target pos
  let (fs, f) ← get
  if new_pos < 0 then throw ⟨.InvalidInput, "Seek to a negative offset"⟩
  let new_pos := match f.size with
    | some s => if new_pos > s then (s : Int) else new_pos
    | none => new_pos
  let new_pos := u32 new_pos.toNat
  if new_pos = f.offset then return f.offset
  let (new_cluster, new_pos) ←
    if new_pos = 0 then pure (none, new_pos)
    else if cluster_count fs new_pos = cluster_count fs f.offset then
      pure (f.current_cluster, new_pos)
    else match f.first_cluster with
      | some n => do
        let (cluster, new_pos) ← in_fs (FileSystem.on_fat
          (seek_loop fs (cluster_count fs new_pos).toNat 0
            (ClusterIterator.new fs.fat_type n) n new_pos))
        pure (some cluster, new_pos)
      | none => pure (none, 0)
  modify fun s => (s.1, { s.2 with offset := new_pos, current_cluster := new_cluster })
  return new_pos

end File

end HectoOs.Fatfs
