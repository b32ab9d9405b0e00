import HectoOs.Syscall.Descriptors

/-! # Descriptors that name no file

A system call answers `-1` for an empty slot, but an index past the end of the table panics in the
`unwrap` of `get` or in the indexing. `sys_close` has no error at all.
-/

open HectoOs.Lib HectoOs.Fs

namespace HectoOs.Files

/-- The system calls that take a descriptor, with their other arguments. -/
inductive Call where
  | read (fd count : Nat)
  | write (fd : Nat) (buffer : List Byte)
  | writev (fd : Nat) (iovecs : List (List Byte))
  | close (fd : Nat)
  | dup (oldfd : Nat)
  | dup3 (oldfd newfd : Nat)
  | fcntl (fd : Nat) (cmd : FcntlCmd) (arg : Nat)
  | fstat (fd : Nat)
  | getdents64 (fd : Nat)
  | sendfile (out_fd in_fd offset count : Nat)

section BadDescriptor

variable {τ ι : Type}

/-- The result of a call; the loop of `sys_sendfile` runs for `fuel` rounds. -/
def Call.exec (F : Fatfs τ ι) (I : Inodes τ ι) (fuel : Nat) : Call → Sc τ ι Int
  | .read fd count => Prod.fst <$> sys_read I fd count
  | .write fd buffer => sys_write I fd buffer
  | .writev fd iovecs => sys_writev I fd iovecs
  | .close fd => sys_close fd
  | .dup oldfd => sys_dup oldfd
  | .dup3 oldfd newfd => sys_dup3 oldfd newfd
  | .fcntl fd cmd arg => sys_fcntl fd cmd arg
  | .fstat fd => Prod.fst <$> sys_fstat I fd
  | .getdents64 fd => Prod.fst <$> sys_getdents64 I fd
  | .sendfile out_fd in_fd offset count => sys_sendfile F I fuel out_fd in_fd offset count

/-- The descriptors that a call looks up. -/
def Call.descriptors : Call → List Nat
  | .read fd _ | .write fd _ | .writev fd _ | .close fd | .dup fd | .dup3 fd
      _ | .fcntl fd _ _ | .fstat fd
  | .getdents64 fd => [fd]
  | .sendfile out_fd in_fd _ _ => [out_fd, in_fd]

/-- One of the descriptors names no file. -/
def Call.Bad (c : Call) (t : List (Option Nat)) : Prop := ∃ fd ∈ c.descriptors, slot t fd = none

/-- The call returns `-1` and leaves the table as it is. -/
def Rejected (s : Sys τ ι) (x : Sc τ ι Int) : Prop := ∃ s', x s = .ok (-1, s') ∧ table s' = table s

/-- The table has the slots that the call looks at. -/
def Call.InRange (t : List (Option Nat)) : Call → Prop
  | .close _ => False
  | .sendfile out_fd in_fd offset _ =>
    offset = 0 ∧ out_fd < t.length ∧ (slot t out_fd = none ∨ in_fd < t.length)
  | .read fd _ | .write fd _ | .writev fd _ | .dup fd | .dup3 fd _ | .fcntl fd
      _ _ | .fstat fd | .getdents64 fd =>
    fd < t.length

variable {s : Sys τ ι} {fd : Nat}

theorem get_slot_of_lt (h : fd < (table s).length) :
    get_slot fd s = .ok (slot (table s) fd, s) := by
  obtain ⟨v, hv⟩ : ∃ v, (table s)[fd]? = some v := ⟨_, List.getElem?_eq_getElem h⟩
  have hslot : slot (table s) fd = v := by rw [slot, hv]; rfl
  rw [hslot]
  exact get_slot_eq hv

theorem get_slot_of_le (h : (table s).length ≤ fd) : get_slot fd s = .error .bad_index := by
  show Exec.unwrap Panic.bad_index (table s)[fd]? s = _
  rw [List.getElem?_eq_none h]
  rfl

theorem rejected_bind_of_lt {k : Option Nat → Sc τ ι Int} (h : fd < (table s).length) :
    Rejected s (get_slot fd >>= k) ↔ Rejected s (k (slot (table s) fd)) := by
  have heq : (get_slot fd >>= k) s = k (slot (table s) fd) s := by
    show (get_slot fd s).bind (fun r => k r.1 r.2) = _
    rw [get_slot_of_lt h]
    rfl
  rw [Rejected, Rejected, heq]

theorem not_rejected_of_error {x : Sc τ ι Int} {p : Panic} (h : x s = .error p) :
    ¬Rejected s x := by
  rintro ⟨s', hs, _⟩
  rw [h] at hs
  cases hs

theorem not_rejected_bind_of_le {k : Option Nat → Sc τ ι Int} (h : (table s).length ≤ fd) :
    ¬Rejected s (get_slot fd >>= k) := by
  refine not_rejected_of_error (p := .bad_index) ?_
  show (get_slot fd s).bind (fun r => k r.1 r.2) = _
  rw [get_slot_of_le h]
  rfl

theorem rejected_iff_lt {k : Option Nat → Sc τ ι Int} (hk : k none = pure (-1))
    (hbad : slot (table s) fd = none) :
    Rejected s (get_slot fd >>= k) ↔ fd < (table s).length := by
  constructor
  · intro hr
    by_contra hlt
    exact not_rejected_bind_of_le (Nat.not_lt.mp hlt) hr
  · intro hlt
    rw [rejected_bind_of_lt hlt, hbad, hk]
    exact ⟨s, rfl, rfl⟩

theorem map_rejected_iff_lt {α : Type} {x : Sc τ ι (Int × α)} {k : Option Nat → Sc τ ι (Int × α)}
    {a : α} (hx : x = get_slot fd >>= k) (hk : k none = pure (-1, a))
    (hbad : slot (table s) fd = none) :
    Rejected s (Prod.fst <$> x) ↔ fd < (table s).length := by
  rw [hx, map_bind]
  exact rejected_iff_lt (by rw [hk, map_pure]) hbad

theorem close_not_rejected : ¬Rejected s (sys_close fd) := by
  rintro ⟨s', hs, _⟩
  have h : wp anyPanic (sys_close fd : Sc τ ι Int) (fun r _ => r = 0) s := by
    rw [sys_close]
    refine wp_call put_slot_spec ?_
    intro _ _ _
    exact rfl
  cases wp_ok h hs

theorem sendfile_rejected_iff {F : Fatfs τ ι}
    {I : Inodes τ ι} {fuel out_fd in_fd offset count : Nat}
    (hbad : slot (table s) out_fd = none ∨ slot (table s) in_fd = none) :
    Rejected s (sys_sendfile F I fuel out_fd in_fd offset count) ↔
      offset = 0 ∧ out_fd < (table s).length ∧
      (slot (table s) out_fd = none ∨ in_fd < (table s).length) := by
  by_cases hoff : offset = 0
  · rw [sys_sendfile, decide_eq_true hoff, require_true]
    by_cases hout : out_fd < (table s).length
    · rw [rejected_bind_of_lt hout]
      cases hslot : slot (table s) out_fd with
      | none => exact iff_of_true ⟨s, rfl, rfl⟩ ⟨hoff, hout, .inl rfl⟩
      | some f =>
        have hin : slot (table s) in_fd = none := hbad.resolve_left (by simp [hslot])
        dsimp only
        rw [rejected_iff_lt rfl hin]
        simp [hoff, hout]
    · exact iff_of_false (not_rejected_bind_of_le (Nat.not_lt.mp hout)) fun h => hout h.2.1
  · rw [sys_sendfile, decide_eq_false hoff]
    exact iff_of_false (not_rejected_of_error rfl) fun h => hoff h.1

/-- A bad descriptor is an error exactly when the table reaches up to it, and never for `close`. -/
theorem bad_descriptor_rejected_iff (F : Fatfs τ ι) (I : Inodes τ ι) (fuel : Nat) (s : Sys τ ι)
    (c : Call) (hbad : c.Bad (table s)) : Rejected s (c.exec F I fuel) ↔ c.InRange (table s) := by
  obtain ⟨fd, hfd, hslot⟩ := hbad
  cases c with
  | sendfile out_fd in_fd offset count =>
    refine sendfile_rejected_iff ?_
    rcases List.mem_cons.mp hfd with rfl | hfd
    · exact .inl hslot
    · obtain rfl := List.mem_singleton.mp hfd
      exact .inr hslot
  | read fd' count =>
    obtain rfl := List.mem_singleton.mp hfd
    exact map_rejected_iff_lt rfl rfl hslot
  | fstat fd' =>
    obtain rfl := List.mem_singleton.mp hfd
    exact map_rejected_iff_lt rfl rfl hslot
  | getdents64 fd' =>
    obtain rfl := List.mem_singleton.mp hfd
    exact map_rejected_iff_lt rfl rfl hslot
  | close fd' => exact iff_of_false close_not_rejected id
  | write fd' buffer =>
    obtain rfl := List.mem_singleton.mp hfd
    exact rejected_iff_lt rfl hslot
  | writev fd' iovecs =>
    obtain rfl := List.mem_singleton.mp hfd
    exact rejected_iff_lt rfl hslot
  | dup oldfd =>
    obtain rfl := List.mem_singleton.mp hfd
    exact rejected_iff_lt rfl hslot
  | dup3 oldfd newfd =>
    obtain rfl := List.mem_singleton.mp hfd
    exact rejected_iff_lt rfl hslot
  | fcntl fd' cmd arg =>
    obtain rfl := List.mem_singleton.mp hfd
    exact rejected_iff_lt rfl hslot

end BadDescriptor

/-- The files of the small disk are empty and cannot grow. -/
def emptyFiles : Inodes SmallDisk (Option Nat) where
  seek _ _ pos := if pos = 0 then some 0 else none
  read disk _ _ _ := .ok (some [], disk)
  write disk _ _ _ := .ok (none, disk)
  get_dents64 _ _ := .ok (List.replicate 32 0)
  get_fstat _ _ := .ok (List.replicate 128 0)

/-- The fourth descriptor was closed. -/
def fourSlots : Sys SmallDisk (Option Nat) :=
  { threeDescriptors with inner := ⟨[some 0, some 1, some 2, none], [SLASH]⟩ }

theorem bad_descriptor_rejected_read : (Call.read 3 1).Bad (table fourSlots) ∧
    Rejected fourSlots ((Call.read 3 1).exec SmallDisk.fat emptyFiles 0) := by
  have hbad : (Call.read 3 1).Bad (table fourSlots) := ⟨3, List.mem_singleton_self 3, rfl⟩
  exact ⟨hbad, (bad_descriptor_rejected_iff SmallDisk.fat emptyFiles 0 fourSlots _ hbad).mpr
    (Nat.lt_succ_self 3)⟩

/-- Descriptor 3 is past the end of the first table, where `sys_read` panics, and empty in the
second, where `sys_close` returns `0`. -/
theorem bad_descriptor_not_rejected :
    (Call.read 3 1).Bad (table threeDescriptors) ∧
    (Call.read 3 1).exec SmallDisk.fat emptyFiles 0 threeDescriptors = .error .bad_index ∧
    ¬Rejected threeDescriptors ((Call.read 3 1).exec SmallDisk.fat emptyFiles 0) ∧
    (Call.close 3).Bad (table fourSlots) ∧
    ¬Rejected fourSlots ((Call.close 3).exec SmallDisk.fat emptyFiles 0) := by
  have hread : (Call.read 3 1).exec SmallDisk.fat emptyFiles 0 threeDescriptors =
    .error .bad_index := rfl
  exact ⟨⟨3, List.mem_singleton_self 3, rfl⟩, hread, not_rejected_of_error hread,
    ⟨3, List.mem_singleton_self 3, rfl⟩,
    close_not_rejected⟩

end HectoOs.Files
