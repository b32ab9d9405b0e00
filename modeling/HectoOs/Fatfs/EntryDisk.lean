import HectoOs.Fatfs.ChainRuns
import HectoOs.Fatfs.EntryCodec

/-! # Entries on the disk

A disk that serves requests reads what it holds and takes what is written, so an entry is read back
from where it has been flushed.
-/

open HectoOs.Lib

namespace HectoOs.Fatfs

section Port

variable {d : Device} (hs : d.Serves) (m : Mem) (a n : Nat)

include hs

theorem port_serves : DiskCursor.port.Serves (bytesAt m a n) fun done c =>
    c = ⟨d, m, a + done.length⟩ := by
  rintro k j s hle rfl
  rw [length_bytesAt] at hle
  have hk : ((bytesAt m a n).take k).length = k := by
    rw [List.length_take, length_bytesAt]
    omega
  have hkj : ((bytesAt m a n).take (k + j)).length = k + j := by
    rw [List.length_take, length_bytesAt]
    omega
  rw [hk]
  refine ⟨_, _, DiskCursor.read_exact_spec hs j, ?_, ?_⟩
  · rw [slice, show n = k + (j + (n - k - j)) by omega, bytesAt_append,
      List.drop_left' (length_bytesAt _ _ _), bytesAt_append,
      List.take_left' (length_bytesAt _ _ _)]
  · show (⟨d, m, a + k + j⟩ : DiskCursor) = ⟨d, m, a + ((bytesAt m a n).take (k + j)).length⟩
    rw [hkj, Nat.add_assoc]

theorem port_accepts : DiskCursor.port.Accepts n fun done c =>
    c = ⟨d, writeBytes m a done, a + done.length⟩ := by
  rintro done b s _ rfl
  refine ⟨(), _, DiskCursor.write_all_spec hs b, ?_⟩
  simp only [writeBytes_append, List.length_append, Nat.add_assoc]

end Port

section Entries

variable {fs : FileSystem} {data : DirFileEntryData} {pos : Nat}

theorem write_entry (hs : fs.device.Serves) (e : DirEntryEditor) :
    e.write fs = .ok (.ok (), { fs with disk := writeBytes fs.disk e.pos e.data.bytes }) := by
  obtain ⟨_, c, hwrite, hc⟩ := file_serialize_spec (d := e.data) (port_accepts hs fs.disk e.pos 32)
    (s := ⟨fs.device, fs.disk, e.pos⟩) (by rw [writeBytes_nil]; rfl)
  rw [DirEntryEditor.write, FileSystem.on_disk, hwrite, hc]
  rfl

theorem flush_marked (hs : fs.device.Serves) {e : DirEntryEditor} (h : e.dirty = true) :
    e.flush fs = .ok (.ok { e with dirty := false },
      { fs with disk := writeBytes fs.disk e.pos e.data.bytes }) := by
  unfold DirEntryEditor.flush
  rw [if_pos h, bind_of_ok (write_entry hs e)]
  rfl

theorem read_entry (hs : fs.device.Serves) (hfile : data.attrs.contains .LFN = false)
    (hbytes : bytesAt fs.disk pos 32 = data.bytes) :
    FileSystem.on_disk pos (DirEntryData.deserialize DiskCursor.port) fs =
      .ok (.ok (.File data), fs) := by
  obtain ⟨r, c, hrun, hr, hc⟩ :=
    deserialize_spec (port_serves hs fs.disk pos 32) (length_bytesAt _ _ _)
      (s := ⟨fs.device, fs.disk, pos⟩) rfl
  have hsane : (DirEntryData.File data).Sane := hfile
  have hbytes : bytesAt fs.disk pos 32 = (DirEntryData.File data).bytes := hbytes
  rw [hbytes, DirEntryData.decode_bytes hsane] at hr
  rw [FileSystem.on_disk, hrun, hr, hc]
  rfl

end Entries

/-- A flushed entry is read back from its place, and nothing else on the disk has changed. -/
theorem flush_reads_back {fs : FileSystem} {e : DirEntryEditor} (hserves : fs.device.Serves)
    (hfile : e.data.attrs.contains .LFN = false) (hdirty : e.dirty = true) :
    ∃ fs', e.flush fs = .ok (.ok { e with dirty := false }, fs') ∧
      FileSystem.on_disk e.pos (DirEntryData.deserialize DiskCursor.port) fs' =
        .ok (.ok (.File e.data), fs') ∧
      ∀ x, x < e.pos ∨ e.pos + DIR_ENTRY_SIZE ≤ x → fs'.disk x = fs.disk x := by
  have hlen : e.data.bytes.length = 32 := e.data.length_bytes
  have hbytes : bytesAt (writeBytes fs.disk e.pos e.data.bytes) e.pos 32 = e.data.bytes := by
    rw [← hlen, bytesAt_writeBytes]
  refine ⟨_, flush_marked hserves hdirty, ?_, fun x hx => ?_⟩
  · exact @read_entry { fs with disk := writeBytes fs.disk e.pos e.data.bytes } _ _
      hserves hfile hbytes
  · unfold DIR_ENTRY_SIZE at hx
    exact writeBytes_sameOn _ _ _ x (x + 1) (by omega) x (le_refl x) (Nat.lt_succ_self x)

/-- The entry of an empty file. -/
def empty_entry : DirFileEntryData := .decode (List.replicate 32 0#8)

theorem flush_reads_back_empty : ∃ fs', DirEntryEditor.flush ⟨empty_entry, 2048,
    true⟩ two_clusters = .ok (.ok ⟨empty_entry, 2048, false⟩, fs') ∧
    FileSystem.on_disk 2048 (DirEntryData.deserialize DiskCursor.port) fs' =
      .ok (.ok (.File empty_entry), fs') := by
  obtain ⟨fs', hflush, hread, _⟩ := @flush_reads_back two_clusters ⟨empty_entry, 2048, true⟩
    (Device.pieces_serves (le_refl 4)) (by decide) rfl
  exact ⟨fs', hflush, hread⟩

end HectoOs.Fatfs
