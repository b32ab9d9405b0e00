import HectoOs.Fatfs.EditedEntries
import HectoOs.Fatfs.FileRuns
import HectoOs.Fatfs.Mount

/-! # Sessions

A volume is used, unmounted and mounted again, any number of times. Its files are closed before it
is unmounted, and found again by their entries, which lie in directories. What has been written is
still there.
-/

open HectoOs.Lib

namespace HectoOs.Fatfs

/-! ## Opening what an entry describes (`fatfs/src/dir.rs`) -/

/-- `DirEntry::to_file` for the entry at `pos`, if the iterator over the directory shows one
there. -/
def open_entry (pos : Nat) : FsM File := do
  let fs ← getThe FileSystem
  let raw_entry ← FileSystem.on_disk pos (DirEntryData.deserialize DiskCursor.port)
  if raw_entry.is_end ∨ raw_entry.is_deleted then throw ⟨.NotFound, "No such file or directory"⟩
  match raw_entry with
  | .File data =>
    if data.is_volume then throw ⟨.NotFound, "No such file or directory"⟩
    if data.is_dir then throw ⟨.Other, "Is a directory"⟩
    return File.new (data.first_cluster fs.fat_type) (some (.new data pos))
  | .Lfn _ => throw ⟨.NotFound, "No such file or directory"⟩

/-! ## What is done in a session -/

abbrev SessionM (ι : Type) := FatM (Mounted ι)

namespace Mounted

variable {ι α : Type} [DecidableEq ι]

def on_volume (x : FsM α) : SessionM ι α :=
  fun s => (x s.fs).map fun r => (r.1, { s with fs := r.2 })

def on_file (i : ι) (x : FileM α) : SessionM ι α := fun s =>
  (x (s.fs, s.files i)).map fun r => (r.1, ⟨r.2.1, Function.update s.files i r.2.2⟩)

/-- A file is flushed when it is dropped, and an error is only logged. -/
def drop_files : List ι → SessionM ι Unit
  | [] => pure ()
  | i :: files => do
    let _ ← attempt (on_file i File.flush)
    drop_files files

/-- `FileSystem::new` on the disk of a volume that has been unmounted. -/
def mount_again : FsM Unit := fun fs =>
  (FileSystem.new fs.options ⟨fs.device, fs.disk, 0⟩).map fun r =>
    match r.1 with
    | .ok fs' => (.ok (), fs')
    | .error e => (.error e, { fs with disk := r.2.disk })

/-- Each of the files is opened again, at the place of its entry. -/
def reopen_files : List ι → SessionM ι Unit
  | [] => pure ()
  | i :: files => do
    let s ← getThe (Mounted ι)
    match (s.files i).entry with
    | some e =>
      let f ← on_volume (open_entry e.pos)
      modify fun s => { s with files := Function.update s.files i f }
    | none => pure ()
    reopen_files files

def remount (files : List ι) : SessionM ι Unit := do
  drop_files files
  on_volume FileSystem.unmount
  on_volume mount_again
  reopen_files files

end Mounted

inductive SessionOp (ι : Type) where
  | file (op : FileOp ι)
  | stats
  | flush (i : ι)
  | remount

/-- The entry is one that the iterator over a directory shows. -/
structure DirFileEntryData.Shown (d : DirFileEntryData) : Prop where
  not_lfn : d.attrs.contains .LFN = false
  not_volume : d.is_volume = false
  not_end : d.is_end = false
  not_deleted : d.is_deleted = false

section Sound

variable {ι κ : Type}

/-- The entry is in a cluster of a directory, and on the disk as it is in memory, unless it is
marked. -/
structure Placed (fs : FileSystem) (chains : ι ⊕ κ → List Nat) (e : DirEntryEditor) : Prop where
  shown : e.data.Shown
  inside : ∃ k, ∃ c ∈ chains (.inr k), fs.offset_from_cluster c ≤ e.pos ∧
    e.pos + DIR_ENTRY_SIZE ≤ fs.offset_from_cluster c + fs.cluster_size
  saved : e.dirty = false → bytesAt fs.disk e.pos DIR_ENTRY_SIZE = e.data.bytes

/-- The files are the inodes, and what is on the disk is enough to find them again. -/
structure Mounted.Durable (cluster_size : Nat) (s : Mounted ι) (t : Streams ι)
    (chains : ι ⊕ κ → List Nat) : Prop extends
    s.Sound cluster_size t chains where
  mountable : Mountable s.fs
  placed : ∀ i, ∃ e ∈ (s.files i).entry, Placed s.fs chains e
  apart : ∀ i j, i ≠ j → ∀ e ∈ (s.files i).entry, ∀ e' ∈ (s.files j).entry,
    e.pos + DIR_ENTRY_SIZE ≤ e'.pos ∨ e'.pos + DIR_ENTRY_SIZE ≤ e.pos

variable {fs fs' : FileSystem} {chains chains' : ι ⊕ κ → List Nat} {e e' : DirEntryEditor} {i : ι}

theorem Placed.moved (h : Placed fs chains e)
    (hplace : ∀ c, fs'.offset_from_cluster c = fs.offset_from_cluster c)
    (hsize : fs'.cluster_size = fs.cluster_size)
    (hbytes : bytesAt fs'.disk e.pos DIR_ENTRY_SIZE = bytesAt fs.disk e.pos DIR_ENTRY_SIZE) :
    Placed fs' chains e := by
  obtain ⟨hshown, ⟨k, c, hc, hlo, hhi⟩, hsaved⟩ := h
  refine ⟨hshown, ⟨k, c, hc, ?_, ?_⟩, fun hd => hbytes.trans (hsaved hd)⟩
  · rwa [hplace]
  · rwa [hplace, hsize]

end Sound

/-! ## Requests to files -/

section Requests

variable {ι κ : Type} [DecidableEq ι] {cs : Nat} {s s' : Mounted ι} {t : Streams ι}
  {chains : ι ⊕ κ → List Nat}
  {op : FileOp ι} {a : Answer}

end Requests

/-! ## Requests to the volume -/

section Volumes

variable {ι κ : Type} {cs : Nat} {s s' : Mounted ι} {t : Streams ι} {chains : ι ⊕ κ → List Nat}
  {fs' : FileSystem}
  {i j : ι} {e : DirEntryEditor}

/-- The entry of the file is on the disk as it is in memory. -/
def Clean (s : Mounted ι) (i : ι) : Prop := ∀ e ∈ (s.files i).entry, e.dirty = false

theorem Mounted.Durable.data_le (h : s.Durable cs t chains) (hp : Placed s.fs chains e) :
    s.fs.data_start ≤ e.pos := by
  obtain ⟨k, c, hc, hlo, _⟩ := hp.inside
  exact le_trans (h.volume.geometry.data_le (h.volume.partition.inRange (.inr k) c hc)) hlo

/-- The volume after the entry has been written to its place. -/
def stored (fs : FileSystem) (e : DirEntryEditor) : FileSystem :=
  { fs with disk := writeBytes fs.disk e.pos e.data.bytes }

theorem stored_bytes (h : s.Durable cs t chains) (hp : Placed s.fs chains e) (j : ι) {d : Nat}
    (hd : d ∈ chains (.inl j)) : (stored s.fs e).cluster_bytes d = s.fs.cluster_bytes d := by
  obtain ⟨k, c, hc, hlo, hhi⟩ := hp.inside
  have hrange := h.volume.partition.inRange
  have hne : d ≠ c := by
    rintro rfl
    exact h.volume.partition.apart (.inr k) (.inl j) Sum.inr_ne_inl d hc hd
  obtain ⟨r, hr⟩ : ∃ r, e.pos = s.fs.offset_from_cluster c + r :=
    ⟨e.pos - s.fs.offset_from_cluster c, by omega⟩
  have hlen : e.data.bytes.length = DIR_ENTRY_SIZE := e.data.length_bytes
  rw [stored, hr]
  exact other_clusters h.volume.geometry (hrange (.inr k) c hc) (hrange (.inl j) d hd) hne
    (by omega)

theorem Placed.stored {fs : FileSystem} (hp : Placed fs chains e) :
    Placed (stored fs e) chains { e with dirty := false } := by
  refine ⟨hp.shown, hp.inside, fun _ => ?_⟩
  have hlen : e.data.bytes.length = DIR_ENTRY_SIZE := e.data.length_bytes
  show bytesAt (writeBytes fs.disk e.pos e.data.bytes) e.pos DIR_ENTRY_SIZE = e.data.bytes
  rw [← hlen, bytesAt_writeBytes]

theorem Placed.beside {fs : FileSystem} {e' : DirEntryEditor} (hp : Placed fs chains e')
    (hout : e.pos + DIR_ENTRY_SIZE ≤ e'.pos ∨ e'.pos + DIR_ENTRY_SIZE ≤ e.pos) :
    Placed (Fatfs.stored fs e) chains e' := by
  have hlen : e.data.bytes.length = DIR_ENTRY_SIZE := e.data.length_bytes
  refine hp.moved (fun _ => rfl) rfl (bytesAt_same (writeBytes_sameOn _ _ _ _ _ ?_))
  rw [hlen]
  exact hout.symm

theorem Holds.unmarked {fs : FileSystem} {l : List Nat} {f : File}
    {inode : Stream.Inode} (h : Holds fs l f inode) (he : f.entry = some e) (d : Bool) :
    Holds fs l { f with entry := some { e with dirty := d } } inode := by
  have hsize := h.size
  have hnamed := h.named e he
  unfold File.size at hsize
  rw [he] at hsize
  refine ⟨h.offset, h.first, h.current, hsize, ?_, h.fits, h.bytes⟩
  rintro _ ⟨rfl⟩
  exact hnamed

variable [DecidableEq ι]

/-- The files after the entry of file `i` has been stored. -/
def unmarked (files : ι → File) (i : ι) (e : DirEntryEditor) : ι → File :=
  Function.update files i { files i with entry := some { e with dirty := false } }

theorem unmarked_cases {files : ι → File} {e' : DirEntryEditor}
    (h : e' ∈ (unmarked files i e j).entry) :
    (j = i ∧ e' = { e with dirty := false }) ∨ (j ≠ i ∧ e' ∈ (files j).entry) := by
  unfold unmarked at h
  by_cases hj : j = i
  · subst hj
    rw [Function.update_self] at h
    exact .inl ⟨rfl, (Option.some.inj h).symm⟩
  · rw [Function.update_of_ne hj] at h
    exact .inr ⟨hj, h⟩

theorem unmarked_pos {files : ι → File} {e' : DirEntryEditor} (he : e ∈ (files i).entry)
    (h : e' ∈ (unmarked files i e j).entry) : ∃ e₀ ∈ (files j).entry, e'.pos = e₀.pos := by
  rcases unmarked_cases h with ⟨rfl, rfl⟩ | ⟨-, he'⟩
  · exact ⟨e, he, rfl⟩
  · exact ⟨e', he', rfl⟩

theorem Mounted.Durable.store (h : s.Durable cs t chains) (he : e ∈ (s.files i).entry)
    (hp : Placed s.fs chains e) :
    Mounted.Durable cs ⟨stored s.fs e, unmarked s.files i e⟩ t chains := by
  have hdata := h.data_le hp
  have hsame : SameVolume s.fs (stored s.fs e) := (SameVolume.refl s.fs).with_disk _
  have hbelow : Below s.fs (stored s.fs e) := h.volume.geometry.data_write_below hdata _
  have hkept : ∀ j, Holds (stored s.fs e) (chains (.inl j)) (s.files j) (t.inode j) := fun j =>
    (h.holds j).same hsame fun d hd => stored_bytes h hp j hd
  refine ⟨⟨h.volume.write hdata _, h.cluster_size, h.clusters, fun j => ?_⟩,
    h.mountable.below hsame hbelow, fun j => ?_, fun j k hjk e₁ he₁ e₂ he₂ => ?_⟩
  · dsimp only [unmarked]
    by_cases hj : j = i
    · subst hj
      rw [Function.update_self]
      exact (hkept j).unmarked he false
    · rw [Function.update_of_ne hj]
      exact hkept j
  · dsimp only [unmarked]
    by_cases hj : j = i
    · subst hj
      rw [Function.update_self]
      exact ⟨_, rfl, hp.stored⟩
    · rw [Function.update_of_ne hj]
      obtain ⟨e', he', hp'⟩ := h.placed j
      exact ⟨e', he', hp'.beside (h.apart i j (Ne.symm hj) e he e' he')⟩
  · obtain ⟨e₁', he₁', hpos₁⟩ := unmarked_pos he he₁
    obtain ⟨e₂', he₂', hpos₂⟩ := unmarked_pos he he₂
    rw [hpos₁, hpos₂]
    exact h.apart j k hjk e₁' he₁' e₂' he₂'

end Volumes

end HectoOs.Fatfs
