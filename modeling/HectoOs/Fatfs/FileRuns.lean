import HectoOs.Fatfs.EntryDisk
import HectoOs.Fatfs.Truncate

/-! # Runs of file operations

Many files are open on one volume, beside the chains of other files and of directories. Each of them
is a sequence of bytes of its own; all they share is the number of free clusters. How much of each
request is served is up to the disk, but it serves something.
-/

open HectoOs.Lib
open HectoOs.Stream (splice)

namespace HectoOs.Fatfs

/-! ## Many files on one volume -/

inductive FileOp (ι : Type) where
  | read (i : ι) (count : Nat)
  | write (i : ι) (buf : List Byte)
  | seek (i : ι) (pos : SeekFrom)
  | truncate (i : ι)

/-- The file that is asked. -/
def FileOp.file {ι : Type} : FileOp ι → ι
  | .read i _ => i
  | .write i _ => i
  | .seek i _ => i
  | .truncate i => i

inductive Answer where
  | read (r : Except Error (List Byte))
  | write (r : Except Error Nat)
  | seek (r : Except Error Nat)
  | truncate (r : Except Error Unit)

/-- A volume, and its open files. -/
structure Mounted (ι : Type) where
  fs : FileSystem
  files : ι → File

/-- A file is left with what the request made of it, also after an error. -/
def settle {ι α : Type} [DecidableEq ι] (files : ι → File) (i : ι)
    (answer : Except Error α → Answer) :
    Except Panic (Except Error α × FileSystem × File) → Except Panic (Mounted ι × Answer)
  | .error p => .error p
  | .ok (r, fs, f) => .ok (⟨fs, Function.update files i f⟩, answer r)

/-- Inodes beside each other, the number of clusters of each, and the number of free clusters. -/
structure Streams (ι : Type) where
  inode : ι → Stream.Inode
  clusters : ι → Nat
  free : Nat

section Beside

variable {ι κ : Type} {fs fs' fs'' : FileSystem}
  {chains chains' chains'' : ι ⊕ κ → List Nat} {i : ι}

/-- The chains that belong to no open file are as they were. -/
def Beside (fs : FileSystem) (chains : ι ⊕ κ → List Nat) (fs' : FileSystem)
    (chains' : ι ⊕ κ → List Nat) : Prop :=
  ∀ k, chains' (.inr k) = chains (.inr k) ∧
  ∀ c ∈ chains (.inr k), fs'.cluster_bytes c = fs.cluster_bytes c

theorem Apart.beside (h : Apart fs chains (.inl i) fs' chains') : Beside fs chains fs' chains' :=
  fun k => ⟨h.kept (.inr k) Sum.inr_ne_inl, h.bytes (.inr k) Sum.inr_ne_inl⟩

theorem Beside.trans (h : Beside fs chains fs' chains')
    (h' : Beside fs' chains' fs'' chains'') : Beside fs chains fs'' chains'' := by
  intro k
  refine ⟨(h' k).1.trans (h k).1, fun c hc => ?_⟩
  rw [(h' k).2 c (by rwa [(h k).1]), (h k).2 c hc]

end Beside

section Many

variable {ι : Type} [DecidableEq ι]

def Mounted.step (s : Mounted ι) : FileOp ι → Except Panic (Mounted ι × Answer)
  | .read i count => settle s.files i .read (File.read count (s.fs, s.files i))
  | .write i buf => settle s.files i .write (File.write buf (s.fs, s.files i))
  | .seek i pos => settle s.files i .seek (File.seek pos (s.fs, s.files i))
  | .truncate i => settle s.files i .truncate (File.truncate (s.fs, s.files i))

/-- The inode without the bytes behind its offset. -/
def truncated (inode : Stream.Inode) : Stream.Inode :=
  ⟨inode.bytes.take inode.offset, inode.offset, by
  rw [List.length_take]
  exact le_min (le_refl _) inode.inside⟩

namespace Streams

/-- One request, of which the disk serves up to `served` bytes. -/
def step (cluster_size served : Nat) (t : Streams ι) : FileOp ι → Streams ι × Answer
  | .read i count =>
    let r := (t.inode i).read count (some (min served (most cluster_size (t.inode i).offset)))
    ({ t with inode := Function.update t.inode i r.2 }, .read (.ok (r.1.getD [])))
  | .write i buf =>
    let n := min (min buf.length (quota cluster_size (t.inode i).offset)) served
    let r := (t.inode i).write buf (some n)
    if n = 0 then (t, .write (.ok 0))
    else if (t.inode i).offset / cluster_size < t.clusters i then
      ({ t with inode := Function.update t.inode i r.2 }, .write (.ok n))
    else if t.free = 0 then (t, .write (.error no_space))
    else (⟨Function.update t.inode i r.2, Function.update t.clusters i (t.clusters i + 1),
      t.free - 1⟩, .write (.ok n))
  | .seek i pos =>
    let p := seek_target (t.inode i).offset (t.inode i).bytes.length pos
    if p < 0 then (t, .seek (.error ⟨.InvalidInput, "Seek to a negative offset"⟩))
    else ({ t with inode := Function.update t.inode i ((t.inode i).at_offset p.toNat) },
      .seek (.ok (min p.toNat (t.inode i).bytes.length)))
  | .truncate i =>
    let kept := kept_clusters cluster_size (t.inode i).offset
    (⟨Function.update t.inode i (truncated (t.inode i)),
      Function.update t.clusters i (min kept (t.clusters i)),
      t.free + (t.clusters i - kept)⟩, .truncate (.ok ()))

/-- The inodes at the end, and all answers. -/
def run (cluster_size : Nat) (t : Streams ι) (ops : List (FileOp ι × Nat)) :
    Streams ι × List Answer :=
  serve (fun served t op => t.step cluster_size served op) t ops

end Streams

variable {κ : Type}

/-- The open files are the inodes, on a sound volume that may hold other chains too. -/
structure Mounted.Sound (cluster_size : Nat) (s : Mounted ι) (t : Streams ι)
    (chains : ι ⊕ κ → List Nat) : Prop where
  volume : Volume s.fs chains t.free
  cluster_size : s.fs.cluster_size = cluster_size
  clusters : ∀ i, (chains (.inl i)).length = t.clusters i
  holds : ∀ i, Holds s.fs (chains (.inl i)) (s.files i) (t.inode i)

variable {cs : Nat} {s : Mounted ι} {t : Streams ι} {chains chains' : ι ⊕ κ → List Nat}
  {fs' : FileSystem} {f' : File}
  {inode' : Stream.Inode} {i : ι} {n : Nat} {l : List Nat}

variable [DecidableEq κ]

end Many

def FileOp.size {ι : Type} : FileOp ι → Nat
  | .read _ count => count
  | .write _ buf => buf.length
  | .seek _ _ => 0
  | .truncate _ => 0

section Bytes

variable {ι : Type} [DecidableEq ι] {cs k : Nat} {t : Streams ι} {op : FileOp ι}
  {ops : List (FileOp ι)}
  {served : List Nat}

end Bytes

end HectoOs.Fatfs
