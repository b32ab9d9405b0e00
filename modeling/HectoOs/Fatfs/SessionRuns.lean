import HectoOs.Fatfs.Sessions

/-! # Sessions one after the other

A session ends when the volume is unmounted, and the next one begins by mounting it and opening the
files at the places of their entries. The files hold the same bytes again.
-/

open HectoOs.Lib

namespace HectoOs.Fatfs

/-! ## Opening the files again -/

section Reopening

variable {ι κ : Type} {cs : Nat} {s s' : Mounted ι} {t : Streams ι} {chains : ι ⊕ κ → List Nat}
  {i : ι} {e : DirEntryEditor}

variable [DecidableEq ι]

end Reopening

/-! ## Whole sessions -/

section Runs

variable {κ : Type} {n cs : Nat} {s : Mounted (Fin n)} {t : Streams (Fin n)}
  {chains : Fin n ⊕ κ → List Nat}

end Runs

def SessionOp.size {ι : Type} : SessionOp ι → Nat
  | .file op => op.size
  | .stats | .flush _ | .remount => 0

end HectoOs.Fatfs
