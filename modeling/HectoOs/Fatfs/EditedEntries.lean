import HectoOs.Fatfs.File

/-! # What requests do to an entry

A request edits the entry of its file in memory. The entry stays where it is and keeps its name and
attributes, and it is marked whenever it changes.
-/

open HectoOs.Lib

namespace HectoOs.Fatfs

/-- What editing does to an entry. -/
structure Edited (e e' : DirEntryEditor) : Prop where
  pos : e'.pos = e.pos
  name : e'.data.name = e.data.name
  attrs : e'.data.attrs = e.data.attrs
  clean : e'.dirty = false → e' = e

namespace Edited

variable {e e' e'' : DirEntryEditor}

theorem refl (e : DirEntryEditor) : Edited e e := ⟨rfl, rfl, rfl, fun _ => rfl⟩

theorem trans (h : Edited e e') (h' : Edited e' e'') : Edited e e'' := by
  refine ⟨h'.pos.trans h.pos, h'.name.trans h.name, h'.attrs.trans h.attrs, fun hc => ?_⟩
  have heq := h'.clean hc
  subst heq
  exact h.clean hc

theorem marked {data : DirFileEntryData} (hname : data.name = e.data.name)
    (hattrs : data.attrs = e.data.attrs) :
    Edited e { e with data := data, dirty := true } :=
  ⟨rfl, hname, hattrs, fun hc => by cases hc⟩

theorem set_accessed (e : DirEntryEditor) (t : Date) : Edited e (e.set_accessed t) := by
  unfold DirEntryEditor.set_accessed
  split
  · exact marked rfl rfl
  · exact refl e

theorem set_modified (e : DirEntryEditor) (t : DateTime) : Edited e (e.set_modified t) := by
  unfold DirEntryEditor.set_modified
  split
  · exact marked rfl rfl
  · exact refl e

theorem set_size (e : DirEntryEditor) (n : Nat) : Edited e (e.set_size n) := by
  unfold DirEntryEditor.set_size
  split
  · split
    · exact marked rfl rfl
    · exact refl e
  · exact refl e

theorem set_first_cluster (e : DirEntryEditor) (c : Option Nat) (t : FatType) :
    Edited e (e.set_first_cluster c t) := by
  unfold DirEntryEditor.set_first_cluster
  split
  · unfold DirFileEntryData.set_first_cluster
    refine marked ?_ ?_ <;> (dsimp only; split <;> rfl)
  · exact refl e

end Edited

/-- What a request may do to the entry of its file. -/
def Touched (s s' : FileSystem × File) : Prop := ∀ e ∈ s.2.entry, ∃ e' ∈ s'.2.entry, Edited e e'

namespace Touched

variable {s s' s'' : FileSystem × File}

theorem refl (s : FileSystem × File) : Touched s s := fun e he => ⟨e, he, .refl e⟩

theorem trans (h : Touched s s') (h' : Touched s' s'') : Touched s s'' := by
  intro e he
  obtain ⟨e', he', hedit⟩ := h e he
  obtain ⟨e'', he'', hedit'⟩ := h' e' he'
  exact ⟨e'', he'', hedit.trans hedit'⟩

theorem map {f : DirEntryEditor → DirEntryEditor} (h : ∀ e, Edited e (f e))
    (hs : s'.2.entry = s.2.entry.map f) : Touched s s' := by
  intro e he
  refine ⟨f e, ?_, h e⟩
  rw [hs, show s.2.entry = some e from he]
  rfl

end Touched

section Requests

variable {α β : Type}

end Requests

end HectoOs.Fatfs
