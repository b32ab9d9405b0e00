import HectoOs.Syscall.Files

/-! # A descriptor as a stream (`fs/file.rs`)

An inode is a file with an offset of its own, and a descriptor has a position. Reading and writing
put the inode where the descriptor is, and move both. `Seek::seek` moves the inode only.

How much of a request an inode serves is a parameter of the call: `none` is an error, and `some
most` at most so many bytes.
-/

open HectoOs.Lib HectoOs.Fs

namespace HectoOs.Stream

open Files (readable writable)

/-! ## The inode -/

inductive SeekFrom where
  | Start (n : Nat)
  | End (n : Int)
  | Current (n : Int)

/-- The bytes of a file, and the offset at which the next request is served. -/
structure Inode where
  bytes : List Byte
  offset : Nat
  inside : offset ≤ bytes.length

/-- The bytes with `new` stored from `offset` on. -/
def splice (bytes : List Byte) (offset : Nat) (new : List Byte) : List Byte :=
  bytes.take offset ++ new ++ bytes.drop (offset + new.length)

theorem splice_length {bytes new : List Byte} {offset : Nat} (h : offset ≤ bytes.length) :
    (splice bytes offset new).length = max bytes.length (offset + new.length) := by
  simp only [splice, List.length_append, List.length_take, List.length_drop]
  omega

/-- Where a request to seek leads from `offset`, in a file of `size` bytes. -/
def target (offset size : Nat) : SeekFrom → Int
  | .Start n => n
  | .End n => size + n
  | .Current n => offset + n

namespace Inode

def size (i : Inode) : Nat := i.bytes.length

/-- The inode with another offset, or with its end when that is past it. -/
def at_offset (i : Inode) (n : Nat) : Inode := ⟨i.bytes, min n i.bytes.length, Nat.min_le_right _ _⟩

/-- `seek`: a negative target is an error, and one past the end is the end. -/
def seek (i : Inode) (pos : SeekFrom) : Option (Nat × Inode) :=
  if target i.offset i.size pos < 0 then none
  else some (min (target i.offset i.size pos).toNat i.size,
    i.at_offset (target i.offset i.size pos).toNat)

def read (i : Inode) (count : Nat) : Option Nat → Option (List Byte) × Inode
  | none => (none, i)
  | some most =>
    let bytes := (i.bytes.drop i.offset).take (min count most)
    (some bytes, i.at_offset (i.offset + bytes.length))

def write (i : Inode) (buf : List Byte) : Option Nat → Option Nat × Inode
  | none => (none, i)
  | some most =>
    let new := buf.take most
    (some new.length, ⟨splice i.bytes i.offset new, i.offset + new.length, by
      rw [splice_length i.inside]
      exact Nat.le_max_right _ _⟩)

end Inode

/-! ## The descriptor -/

inductive Panic where
  | unwrap
  | no_descriptor
  deriving DecidableEq

/-- One call on a descriptor. -/
inductive Call where
  | seek (pos : SeekFrom)
  | read (count : Nat) (most : Option Nat)
  | write (buf : List Byte) (most : Option Nat)

/-- What a call returns; `none` is an error. -/
inductive Answer where
  | seeked (r : Option Nat)
  | read (r : Option (List Byte))
  | written (r : Option Nat)
  | opened (d : Nat)

/-- `FileDescriptor::read`. -/
def file_read (fd : FileDescriptor) (inode : Inode) (count : Nat) (most : Option Nat) :
    Except Panic (Option (List Byte) × FileDescriptor × Inode) :=
  if readable fd.flags then
    (orPanic .unwrap (inode.seek (.Start fd.pos))).map fun p =>
      let r := p.2.read count most
      match r.1 with
      | some bytes => (some bytes, { fd with pos := fd.pos + bytes.length }, r.2)
      | none => (none, fd, r.2)
  else .ok (none, fd, inode)

/-- `FileDescriptor::write`. -/
def file_write (fd : FileDescriptor) (inode : Inode) (buf : List Byte) (most : Option Nat) :
    Except Panic (Option Nat × FileDescriptor × Inode) :=
  if writable fd.flags then
    (orPanic .unwrap (inode.seek (.Start fd.pos))).map fun p =>
      let r := p.2.write buf most
      match r.1 with
      | some n => (some n, { fd with pos := fd.pos + n }, r.2)
      | none => (none, fd, r.2)
  else .ok (none, fd, inode)

/-- `FileDescriptor::seek`. -/
def file_seek (fd : FileDescriptor) (inode : Inode) (pos : SeekFrom) :
    Option Nat × FileDescriptor × Inode :=
  match inode.seek pos with
  | some (n, inode) => (some n, fd, inode)
  | none => (none, fd, inode)

def call (fd : FileDescriptor) (inode : Inode) :
    Call → Except Panic (Answer × FileDescriptor × Inode)
  | .seek pos => .ok (.seeked (file_seek fd inode pos).1, (file_seek fd inode pos).2)
  | .read count most => (file_read fd inode count most).map fun r => (.read r.1, r.2)
  | .write buf most => (file_write fd inode buf most).map fun r => (.written r.1, r.2)

/-! ## What the calls do -/

section Calls

variable {fd : FileDescriptor} {inode : Inode} {count n : Nat} {most : Option Nat}
  {buf : List Byte} {pos : SeekFrom}

theorem seek_start : inode.seek (.Start n) = some (min n inode.size, inode.at_offset n) := by
  have h : ¬ ((n : Int) < 0) := by omega
  simp [Inode.seek, target, h]

theorem file_read_eq (hr : readable fd.flags = true) : file_read fd inode count most =
    .ok (((inode.at_offset fd.pos).read count most).1,
      { fd with pos := fd.pos + ((inode.at_offset fd.pos).read count most).1.elim 0 List.length },
      ((inode.at_offset fd.pos).read count most).2) := by
  rw [file_read, if_pos hr, seek_start]
  cases most <;> rfl

theorem file_write_eq (hw : writable fd.flags = true) : file_write fd inode buf most =
    .ok (((inode.at_offset fd.pos).write buf most).1,
      { fd with pos := fd.pos + ((inode.at_offset fd.pos).write buf most).1.getD 0 },
      ((inode.at_offset fd.pos).write buf most).2) := by
  rw [file_write, if_pos hw, seek_start]
  cases most <;> rfl

theorem read_offset {a b : Nat} (ha : a ≤ inode.size) (hb : b ≤ inode.size)
    (h : (inode.at_offset a).read count most = (inode.at_offset b).read count most) : a = b := by
  have ha' : min a inode.bytes.length = a := Nat.min_eq_left ha
  have hb' : min b inode.bytes.length = b := Nat.min_eq_left hb
  cases most with
  | none =>
    simp only [Inode.read, Inode.at_offset, Prod.mk.injEq, true_and, Inode.mk.injEq] at h
    omega
  | some most =>
    simp only [Inode.read, Inode.at_offset, Prod.mk.injEq, Option.some.injEq,
      Inode.mk.injEq, true_and] at h
    have hlen := congrArg List.length h.1
    have hoff := h.2
    rw [ha', hb'] at hlen hoff
    simp only [List.length_take, List.length_drop] at hlen hoff
    omega

theorem write_offset {a b : Nat} (ha : a ≤ inode.size) (hb : b ≤ inode.size)
    (h : (inode.at_offset a).write buf most = (inode.at_offset b).write buf most) : a = b := by
  have ha' : min a inode.bytes.length = a := Nat.min_eq_left ha
  have hb' : min b inode.bytes.length = b := Nat.min_eq_left hb
  cases most with
  | none =>
    simp only [Inode.write, Inode.at_offset, Prod.mk.injEq, true_and, Inode.mk.injEq] at h
    omega
  | some most =>
    simp only [Inode.write, Inode.at_offset, Prod.mk.injEq, true_and, Inode.mk.injEq] at h
    omega

theorem read_size : ((inode.read count most).2).size = inode.size := by
  cases most <;> rfl

theorem size_le_write : inode.size ≤ ((inode.write buf most).2).size := by
  cases most with
  | none => exact le_rfl
  | some most =>
    simp only [Inode.write, Inode.size, splice_length inode.inside]
    exact Nat.le_max_left _ _

theorem read_moves : ((inode.read count most).2).offset =
    inode.offset + (inode.read count most).1.elim 0 List.length := by
  cases most with
  | none => rfl
  | some most =>
    have := inode.inside
    simp only [Inode.read, Inode.at_offset, Option.elim_some, List.length_take, List.length_drop]
    omega

theorem write_moves :
    ((inode.write buf most).2).offset = inode.offset + (inode.write buf most).1.getD 0 := by
  cases most <;> rfl

end Calls

/-! ## A stream with one position -/

/-- A descriptor in use. `place` is where a stream would be: where the last seek led, moved by what
has been transferred since. `seeked` says that nothing has been transferred since the last seek. -/
structure Session where
  fd : FileDescriptor
  inode : Inode
  place : Nat
  seeked : Bool

namespace Session

def next_place (place size : Nat) : Call → Answer → Nat
  | .seek pos, _ => (target place size pos).toNat
  | .read _ _, .read r => place + r.elim 0 List.length
  | .write _ _, .written r => place + r.getD 0
  | _, _ => place

def next_seeked (g : Session) : Call → Bool
  | .seek _ => true
  | .read _ _ => if readable g.fd.flags then false else g.seeked
  | .write _ _ => if writable g.fd.flags then false else g.seeked

def step (g : Session) (c : Call) : Except Panic (Session × Answer) :=
  (call g.fd g.inode c).map fun r =>
    (⟨r.2.1, r.2.2, next_place g.place g.inode.size c r.1, g.next_seeked c⟩, r.1)

/-- A seek leads to a place in the file. -/
def Inside (g : Session) : Call → Prop
  | .seek pos =>
    0 ≤ target g.place g.inode.size pos ∧ target g.place g.inode.size pos ≤ g.inode.size
  | _ => True

/-- A seek returns the place it leads to. A permitted transfer does what the inode does at the place
of the stream. -/
def Right (g : Session) : Call → Prop
  | .seek pos =>
    ∃ n : Nat, (n : Int) = target g.place g.inode.size pos ∧ (file_seek g.fd g.inode pos).1 = some n
  | .read count most =>
    readable g.fd.flags = true → g.place ≤ g.inode.size ∧ ∃ fd, file_read g.fd g.inode count most =
      .ok (((g.inode.at_offset g.place).read count most).1, fd,
        ((g.inode.at_offset g.place).read count most).2)
  | .write buf most =>
    writable g.fd.flags = true → g.place ≤ g.inode.size ∧ ∃ fd, file_write g.fd g.inode buf most =
      .ok (((g.inode.at_offset g.place).write buf most).1, fd,
        ((g.inode.at_offset g.place).write buf most).2)

/-- A transfer right after a seek finds that the seek led to the position of the descriptor. A
relative seek that does not follow another one finds the inode there, or past it and aims at the end
of the file. -/
def Coherent (g : Session) : Call → Prop
  | .seek (.Current n) => g.seeked = false → g.inode.offset = g.fd.pos ∨
      g.fd.pos < g.inode.offset ∧ g.fd.pos + n = g.inode.size
  | .seek _ => True
  | .read _ _ => readable g.fd.flags = true → g.seeked = true → g.inode.offset = g.fd.pos
  | .write _ _ => writable g.fd.flags = true → g.seeked = true → g.inode.offset = g.fd.pos

instance (g : Session) : (c : Call) → Decidable (g.Inside c)
  | .seek pos => inferInstanceAs (Decidable (0 ≤ target g.place g.inode.size pos ∧
      target g.place g.inode.size pos ≤ g.inode.size))
  | .read _ _ => isTrue trivial
  | .write _ _ => isTrue trivial

instance (g : Session) : (c : Call) → Decidable (g.Coherent c)
  | .seek (.Current n) => inferInstanceAs (Decidable (g.seeked = false → g.inode.offset = g.fd.pos ∨
      g.fd.pos < g.inode.offset ∧ g.fd.pos + n = g.inode.size))
  | .seek (.Start _) => isTrue trivial
  | .seek (.End _) => isTrue trivial
  | .read _ _ =>
    inferInstanceAs
      (Decidable (readable g.fd.flags = true → g.seeked = true → g.inode.offset = g.fd.pos))
  | .write _ _ =>
    inferInstanceAs
      (Decidable (writable g.fd.flags = true → g.seeked = true → g.inode.offset = g.fd.pos))

/-- Where the stream is, as long as the calls are coherent. -/
structure Inv (g : Session) : Prop where
  pos : g.fd.pos ≤ g.inode.size
  place : g.place = if g.seeked then g.inode.offset else g.fd.pos

section Steps

variable {g g' : Session} {c : Call} {o : Answer}

theorem Inv.place_le (h : g.Inv) : g.place ≤ g.inode.size := by
  have := g.inode.inside
  have := h.pos
  rw [h.place]
  split
  · assumption
  · assumption

theorem file_seek_eq_some {pos : SeekFrom} {m : Nat} : (file_seek g.fd g.inode pos).1 = some m ↔
    0 ≤ target g.inode.offset g.inode.size pos ∧
    (m : Int) = min (target g.inode.offset g.inode.size pos) g.inode.size := by
  unfold file_seek Inode.seek
  generalize target g.inode.offset g.inode.size pos = x
  by_cases hx : x < 0
  · simp only [if_pos hx, reduceCtorEq, false_iff]
    omega
  · simp only [if_neg hx, Option.some.injEq]
    omega

theorem Inv.pos_eq_place (h : g.Inv) :
    g.fd.pos = g.place ↔ (g.seeked = true → g.inode.offset = g.fd.pos) := by
  rw [h.place]
  cases g.seeked <;> simp [eq_comm]

theorem right_iff_coherent (h : g.Inv) (hin : g.Inside c) : g.Right c ↔ g.Coherent c := by
  have hplace := h.place_le
  cases c with
  | seek pos =>
    obtain ⟨hlo, hhi⟩ := hin
    have hp := h.place
    have hpos := h.pos
    have hoff : g.inode.offset ≤ g.inode.size := g.inode.inside
    simp only [Right, file_seek_eq_some]
    cases pos with
    | Start n =>
      simp only [target] at hlo hhi ⊢
      exact iff_of_true ⟨n, rfl, by omega⟩ trivial
    | End n =>
      simp only [target] at hlo hhi ⊢
      exact iff_of_true ⟨(g.inode.size + n).toNat, by omega⟩ trivial
    | Current n =>
      simp only [target, Coherent] at hlo hhi ⊢
      cases hs : g.seeked with
      | true =>
        rw [hs, if_pos rfl] at hp
        exact iff_of_true ⟨(g.place + n).toNat, by omega⟩ nofun
      | false =>
        rw [hs, if_neg (by simp)] at hp
        constructor
        · rintro ⟨m, hm⟩ -
          omega
        · intro hc
          have := hc rfl
          exact ⟨(g.place + n).toNat, by omega⟩
  | read count most =>
    simp only [Right, Coherent]
    refine forall_congr' fun hr => ?_
    rw [file_read_eq hr, ← h.pos_eq_place]
    constructor
    · rintro ⟨-, fd, heq⟩
      simp only [Except.ok.injEq, Prod.mk.injEq] at heq
      exact read_offset h.pos hplace (Prod.ext heq.1 heq.2.2)
    · intro heq
      exact ⟨hplace, _, by rw [heq]⟩
  | write buf most =>
    simp only [Right, Coherent]
    refine forall_congr' fun hw => ?_
    rw [file_write_eq hw, ← h.pos_eq_place]
    constructor
    · rintro ⟨-, fd, heq⟩
      simp only [Except.ok.injEq, Prod.mk.injEq] at heq
      exact write_offset h.pos hplace (Prod.ext heq.1 heq.2.2)
    · intro heq
      exact ⟨hplace, _, by rw [heq]⟩

theorem file_seek_of_some {pos : SeekFrom} {m : Nat} (h : (file_seek g.fd g.inode pos).1 = some m) :
    file_seek g.fd g.inode pos = (some m, g.fd, g.inode.at_offset m) ∧ m ≤ g.inode.size := by
  have hm := file_seek_eq_some.mp h
  have hat : g.inode.at_offset (target g.inode.offset g.inode.size pos).toNat =
    g.inode.at_offset m := by
    unfold Inode.at_offset Inode.size at *
    congr 1
    omega
  have hsome : g.inode.seek pos = some (m, g.inode.at_offset m) := by
    rw [Inode.seek, if_neg (by omega), hat]
    congr 2
    omega
  exact ⟨by rw [file_seek, hsome], by omega⟩

theorem step_inv (h : g.Inv) (hin : g.Inside c) (hc : g.Coherent c)
    (hs : g.step c = .ok (g', o)) : g'.Inv := by
  have hmin : min g.fd.pos g.inode.bytes.length = g.fd.pos := Nat.min_eq_left h.pos
  cases c with
  | seek pos =>
    obtain ⟨n, hn, hret⟩ := (right_iff_coherent h hin).mpr hc
    obtain ⟨heq, hle⟩ := file_seek_of_some hret
    simp only [step, call, heq, Except.map, Except.ok.injEq, Prod.mk.injEq] at hs
    obtain ⟨rfl, -⟩ := hs
    refine ⟨h.pos, ?_⟩
    simp only [next_place, next_seeked, if_true, ← hn, Int.toNat_natCast]
    exact (Nat.min_eq_left hle).symm
  | read count most =>
    by_cases hr : readable g.fd.flags = true
    · have hat := h.pos_eq_place.mpr (hc hr)
      simp only [step, call, file_read_eq hr, Except.map, Except.ok.injEq, Prod.mk.injEq] at hs
      obtain ⟨rfl, -⟩ := hs
      refine ⟨?_, ?_⟩
      · have hmoves := @read_moves (g.inode.at_offset g.fd.pos) count most
        have hin := (((g.inode.at_offset g.fd.pos).read count most).2).inside
        simp only [Inode.at_offset, hmin] at hmoves hin ⊢
        rw [hmoves] at hin
        exact hin
      · simp [next_place, next_seeked, hr, hat]
    · rw [step, call, file_read, if_neg hr] at hs
      cases hs
      exact ⟨h.pos, by simpa [next_place, next_seeked, hr] using h.place⟩
  | write buf most =>
    by_cases hw : writable g.fd.flags = true
    · have hat := h.pos_eq_place.mpr (hc hw)
      simp only [step, call, file_write_eq hw, Except.map, Except.ok.injEq, Prod.mk.injEq] at hs
      obtain ⟨rfl, -⟩ := hs
      refine ⟨?_, ?_⟩
      · have hmoves := @write_moves (g.inode.at_offset g.fd.pos) most buf
        have hin := (((g.inode.at_offset g.fd.pos).write buf most).2).inside
        simp only [Inode.at_offset, hmin] at hmoves hin ⊢
        rw [hmoves] at hin
        exact hin
      · simp [next_place, next_seeked, hw, hat]
    · rw [step, call, file_write, if_neg hw] at hs
      cases hs
      exact ⟨h.pos, by simpa [next_place, next_seeked, hw] using h.place⟩

end Steps

/-- The descriptor before its first call: the stream is where the descriptor is. -/
def start (fd : FileDescriptor) (inode : Inode) : Session := ⟨fd, inode, fd.pos, false⟩

/-- A descriptor is a seekable stream in exactly the sequences of calls that are coherent. -/
theorem stream_iff_coherent (fd : FileDescriptor) (inode : Inode) (calls : List Call)
    (hpos : fd.pos ≤ inode.size) (hin : Meets step Inside (start fd inode) calls) :
    Meets step Right (start fd inode) calls ↔ Meets step Coherent (start fd inode) calls :=
  meets_iff_meets_along Inv (fun _ _ hin h => right_iff_coherent h hin)
    (fun _ _ _ _ hin h hc hs => step_inv h hin hc hs)
    ⟨hpos, rfl⟩ hin

/-- Two reads of two bytes, with a seek to where the descriptor is anyway. -/
theorem stream_reads_on : Meets step Inside (start ⟨⟨0⟩, 0, 0⟩ ⟨[1, 2, 3, 4], 0, by decide⟩)
      [.read 2 (some 2), .seek (.Start 2), .read 2 (some 2)] ∧
    Meets step Right (start ⟨⟨0⟩, 0, 0⟩ ⟨[1, 2, 3, 4], 0, by decide⟩)
    [.read 2 (some 2), .seek (.Start 2), .read 2 (some 2)] := by
  have hin : Meets step Inside (start ⟨⟨0⟩, 0, 0⟩ ⟨[1, 2, 3, 4], 0, by decide⟩)
      [.read 2 (some 2), .seek (.Start 2), .read 2 (some 2)] := by decide +kernel
  exact ⟨hin, (stream_iff_coherent ⟨⟨0⟩, 0, 0⟩ ⟨[1, 2, 3, 4], 0, by decide⟩ _ (by decide) hin).mpr
    (by decide +kernel)⟩

/-- A seek to byte 1 and a read of one byte, which brings byte 0. -/
theorem stream_loses_seek : Meets step Inside (start ⟨⟨0⟩, 0, 0⟩ ⟨[1, 2, 3], 0, by decide⟩)
      [.seek (.Start 1), .read 1 (some 1)] ∧
    ¬ Meets step Right (start ⟨⟨0⟩, 0, 0⟩ ⟨[1, 2, 3], 0, by decide⟩)
    [.seek (.Start 1), .read 1 (some 1)] := by
  refine ⟨by decide +kernel, fun h => ?_⟩
  obtain ⟨-, fd, heq⟩ := (h.2 _ _ rfl).1 (by decide)
  have hbytes := congrArg (fun r => r.toOption.map Prod.fst) heq
  change _ = some ((Inode.at_offset ⟨[1, 2, 3], 1, by decide⟩ 1).read 1 (some 1)).1 at hbytes
  revert hbytes
  decide +kernel

end Session

end HectoOs.Stream
