import HectoOs.Fs.Stream
import HectoOs.Fs.VnodeCache

/-! # The access mode of a descriptor

`readable` compares bit 1 of the flags with `WRONLY`, which is bit 0, so every descriptor is
readable. `writable` looks at both bits. The inode is a parameter.
-/

open HectoOs.Lib

namespace HectoOs.Fs.AccessMode

open Files (readable writable)

/-- `core_io::ErrorKind`. -/
inductive ErrorKind where
  | NotFound
  | PermissionDenied
  | ConnectionRefused
  | ConnectionReset
  | ConnectionAborted
  | NotConnected
  | AddrInUse
  | AddrNotAvailable
  | BrokenPipe
  | AlreadyExists
  | WouldBlock
  | InvalidInput
  | InvalidData
  | TimedOut
  | WriteZero
  | Interrupted
  | Other
  | UnexpectedEof
  deriving DecidableEq, Repr

abbrev Result := Except ErrorKind

/-- What `fatfs` does with an open file. `seek` is `seek(SeekFrom::Start(pos))`; `read` fills a
buffer, and an error can leave something in it. -/
structure RegularFile (ι : Type) where
  seek : ι → Nat → Result Nat × ι
  read : ι → List Byte → Result Nat × List Byte × ι
  write : ι → List Byte → Result Nat × ι

inductive Panic where
  /-- `seek(..).unwrap()`. -/
  | unwrap
  deriving DecidableEq, Repr

/-- A descriptor and the inode behind it. -/
structure Open (ι : Type) where
  fd : FileDescriptor
  inode : ι

variable {ι : Type} (I : RegularFile ι)

/-- `Read::read`: the result, and what is in the buffer afterwards. -/
def read (buf : List Byte) : Exec Panic (Open ι) (Result Nat × List Byte) := do
  let s ← get
  if readable s.fd.flags then
    let p := I.seek s.inode s.fd.pos
    let _ ← Exec.unwrap .unwrap p.1.toOption
    let r := I.read p.2 buf
    match r.1 with
    | .ok n =>
      set (Open.mk { s.fd with pos := s.fd.pos + n } r.2.2)
      return (.ok n, r.2.1)
    | .error e =>
      set (Open.mk s.fd r.2.2)
      return (.error e, r.2.1)
  else
    return (.error .PermissionDenied, buf)

/-- `Write::write`. -/
def write (buf : List Byte) : Exec Panic (Open ι) (Result Nat) := do
  let s ← get
  if writable s.fd.flags then
    let p := I.seek s.inode s.fd.pos
    let _ ← Exec.unwrap .unwrap p.1.toOption
    let r := I.write p.2 buf
    match r.1 with
    | .ok n =>
      set (Open.mk { s.fd with pos := s.fd.pos + n } r.2)
      return .ok n
    | .error e =>
      set (Open.mk s.fd r.2)
      return .error e
  else
    return .error .PermissionDenied

inductive Event where
  | read (buf : List Byte)
  | write (buf : List Byte)

inductive Answer where
  | read (r : Result Nat) (buf : List Byte)
  | written (r : Result Nat)

def step (s : Open ι) : Event → Except Panic (Open ι × Answer)
  | .read buf => (read I buf s).map fun r => (r.2, .read r.1.1 r.1.2)
  | .write buf => (write I buf s).map fun r => (r.2, .written r.1)

def mode (flags : OpenFlags) : Nat := flags.bits % 4

abbrev RDONLY : Nat := 0
abbrev WRONLY : Nat := 1

/-- A call against the access mode is denied and changes nothing. -/
def Right (s : Open ι) : Event → Prop
  | .read buf =>
    mode s.fd.flags = WRONLY → step I s (.read buf) = .ok (s, .read (.error .PermissionDenied) buf)
  | .write buf =>
    mode s.fd.flags = RDONLY → step I s (.write buf) = .ok (s, .written (.error .PermissionDenied))

/-- No read through a descriptor that is open for writing only. -/
def Event.Fits (s : Open ι) : Event → Prop
  | .read _ => mode s.fd.flags ≠ WRONLY
  | .write _ => True

instance (s : Open ι) (e : Event) : Decidable (e.Fits s) := by
  cases e <;> unfold Event.Fits <;> infer_instance

section Mode

variable {I} {s s' : Open ι} {flags : OpenFlags} {buf : List Byte} {e : Event} {a : Answer}

theorem readable_always (flags : OpenFlags) : readable flags = true := by
  have hand : flags.bits &&& 2 ≤ 2 := Nat.and_le_right
  have hbit : (flags.bits &&& 2).testBit 0 = false := by simp
  rw [readable, decide_eq_true_eq]
  intro h
  rw [show (0 ||| 2 : Nat) = 2 from rfl] at h
  simp [h] at hbit

theorem writable_iff : writable flags = true ↔ mode flags ≠ RDONLY := by
  rw [writable, decide_eq_true_eq, show (1 ||| 2 : Nat) = 2 ^ 2 - 1 from rfl,
    Nat.and_two_pow_sub_one_eq_mod]
  exact Iff.rfl

theorem read_spec (hread : ∀ inode buf, (I.read inode buf).1 ≠ .error .PermissionDenied) :
    wp (fun _ => True) (read I buf) (fun r _ => r.1 ≠ .error .PermissionDenied) s := by
  rw [read, wp_bind, wp_get, wp_ite]
  refine ⟨fun _ => ?_, fun h => absurd (readable_always _) h⟩
  rw [wp_bind, wp_unwrap]
  refine ⟨fun _ _ => ?_, fun _ => trivial⟩
  have hne := hread (I.seek s.inode s.fd.pos).2 buf
  dsimp only
  split
  · rw [wp_bind, wp_set, wp_pure]
    nofun
  · rename_i heq
    rw [wp_bind, wp_set, wp_pure]
    exact heq ▸ hne

theorem write_denied (h : mode s.fd.flags = RDONLY) :
    write I buf s = .ok (.error .PermissionDenied, s) := by
  have hw : ¬ writable s.fd.flags = true := fun hw => writable_iff.mp hw h
  rw [write, exec_bind]
  show (if writable s.fd.flags = true then _ else _ : Exec Panic (Open ι) _) s = _
  rw [if_neg hw]
  rfl

theorem step_right_iff (hread : ∀ inode buf, (I.read inode buf).1 ≠ .error .PermissionDenied) :
    Right I s e ↔ e.Fits s := by
  cases e with
  | read buf =>
    constructor
    · intro h hmode
      obtain ⟨r, t, hne, heq⟩ := wp_map_ok (read_spec hread) (h hmode)
      obtain ⟨_, heq⟩ := Prod.mk.inj heq
      exact hne (Answer.read.inj heq).1
    · intro h hmode
      exact absurd hmode h
  | write buf =>
    refine iff_of_true (fun hmode => ?_) trivial
    rw [step, write_denied hmode]
    rfl

theorem step_flags (h : step I s e = .ok (s', a)) : s'.fd.flags = s.fd.flags := by
  cases e with
  | read buf =>
    have hspec : wp (fun _ => True) (read I buf) (fun _ s' => s'.fd.flags = s.fd.flags) s := by
      rw [read, wp_bind, wp_get, wp_ite]
      refine ⟨fun _ => ?_, fun _ => rfl⟩
      rw [wp_bind, wp_unwrap]
      refine ⟨fun _ _ => ?_, fun _ => trivial⟩
      dsimp only
      split <;> rfl
    obtain ⟨r, t, ht, heq⟩ := wp_map_ok hspec h
    obtain ⟨rfl, _⟩ := Prod.mk.inj heq
    exact ht
  | write buf =>
    have hspec : wp (fun _ => True) (write I buf) (fun _ s' => s'.fd.flags = s.fd.flags) s := by
      rw [write, wp_bind, wp_get, wp_ite]
      refine ⟨fun _ => ?_, fun _ => rfl⟩
      rw [wp_bind, wp_unwrap]
      refine ⟨fun _ _ => ?_, fun _ => trivial⟩
      dsimp only
      split <;> rfl
    obtain ⟨r, t, ht, heq⟩ := wp_map_ok hspec h
    obtain ⟨rfl, _⟩ := Prod.mk.inj heq
    exact ht

theorem meets_of_mode (h : mode s.fd.flags ≠ WRONLY) (es : List Event) :
    Meets (step I) (fun s e => e.Fits s) s es := by
  induction es generalizing s with
  | nil => trivial
  | cons e es ih =>
    refine ⟨?_, fun s' a hs => ih (by rw [step_flags hs]; exact h)⟩
    cases e with
    | read buf => exact h
    | write buf => trivial

theorem file_open_flags {τ κ : Type} {F : Fatfs τ κ} {v v' : Vfs τ κ}
    {p : Path} {f : Nat} (h : file_open F p flags v = .ok (some f, v')) :
    ∃ fd, v'.files.get f = some fd ∧ fd.flags = flags := by
  have hspec := wp_ok file_open_spec h
  cases hspec with
  | cached w pos vnode hv hg => exact ⟨⟨flags, pos, w⟩, Arcs.get_new_self, rfl⟩
  | fresh pos inode hv hi => exact ⟨⟨flags, pos, v.vnodes.next⟩, Arcs.get_new_self, rfl⟩

end Mode

/-- Whatever flags a file is opened with, in every run of reads and writes through the descriptor
all calls against the access mode are denied without an effect exactly if none is a read in mode
`WRONLY`. -/
theorem access_mode_iff (hread : ∀ inode buf, (I.read inode buf).1 ≠ .error .PermissionDenied)
    {τ κ : Type} (F : Fatfs τ κ) (p : Path) (flags : OpenFlags) (v v' : Vfs τ κ) (f : Nat)
    (hopen : file_open F p flags v = .ok (some f, v')) :
    ∃ fd, v'.files.get f = some fd ∧ fd.flags = flags ∧ ∀ inode es,
      Meets (step I) (Right I) ⟨fd, inode⟩ es ↔ Meets (step I)
      (fun s e => e.Fits s) ⟨fd, inode⟩ es := by
  obtain ⟨fd, hfd, hflags⟩ := file_open_flags hopen
  refine ⟨fd, hfd, hflags, fun inode es => ?_⟩
  exact meets_iff_meets (fun _ => True) (fun _ => True) (fun _ _ _ _ => step_right_iff hread)
    (fun _ _ _ _ _ _ _ _ => trivial) trivial fun _ _ => trivial

/-! ## A file of bytes -/

/-- The inode of `Stream`, which serves at most `most` bytes of a request. -/
def stream (most : Option Nat) : RegularFile Stream.Inode where
  seek i n :=
    match i.seek (.Start n) with
    | some (k, i) => (.ok k, i)
    | none => (.error .InvalidInput, i)
  read i buf :=
    match i.read buf.length most with
    | (some bytes, i) => (.ok bytes.length, bytes ++ buf.drop bytes.length, i)
    | (none, i) => (.error .Other, buf, i)
  write i buf :=
    match i.write buf most with
    | (some n, i) => (.ok n, i)
    | (none, i) => (.error .Other, i)

section Bytes

variable {most : Option Nat}

theorem stream_read (i : Stream.Inode) (buf : List Byte) :
    ((stream most).read i buf).1 ≠ .error .PermissionDenied := by
  cases most <;> simp [stream, Stream.Inode.read]

/-- An empty file opened for reading, where a write is denied. -/
theorem access_mode_read_only :
    ∃ v v' f fd, file_open SmallDisk.fat pathA ⟨64⟩ v = .ok (some f, v') ∧
    v'.files.get f = some fd ∧
    Meets (step (stream (some 512))) (Right (stream (some 512))) ⟨fd, ⟨[], 0, le_refl _⟩⟩
      [.read [0, 0], .write [1], .read [0]] := by
  obtain ⟨r, hr⟩ := ok_of_isSome (x := (init SmallDisk.fat (Vfs.empty smallDisk)).bind fun r =>
    (file_open SmallDisk.fat pathA ⟨64⟩ r.2).bind fun q => permit .unwrap (q.1 = some 0) (r.2, q))
      (by decide +kernel)
  obtain ⟨⟨_, v⟩, _, hr⟩ := bind_eq_ok hr
  obtain ⟨⟨o, v'⟩, hopen, hr⟩ := bind_eq_ok hr
  obtain ⟨rfl, -⟩ := permit_eq_ok hr
  obtain ⟨fd, hfd, hflags, hiff⟩ :=
    access_mode_iff (stream (some 512)) stream_read SmallDisk.fat pathA ⟨64⟩ v v' 0 hopen
  refine ⟨v, v', 0, fd, hopen, hfd, (hiff _ _).mpr (meets_of_mode ?_ _)⟩
  rw [hflags]
  decide

/-- A descriptor that was opened for writing only reads the byte of its file. -/
theorem write_only_reads :
    ∃ v v', file_open SmallDisk.fat pathA ⟨64 + WRONLY⟩ v = .ok (some 0, v') ∧
    v'.files.get 0 = some ⟨⟨64 + WRONLY⟩, 0, 1⟩ ∧ mode ⟨64 + WRONLY⟩ = WRONLY ∧
    step (stream (some 512)) ⟨⟨⟨64 + WRONLY⟩, 0, 1⟩, ⟨[7], 0, Nat.zero_le _⟩⟩ (.read [0]) =
      .ok (⟨⟨⟨64 + WRONLY⟩, 1, 1⟩, ⟨[7], 1, le_refl _⟩⟩, .read (.ok 1) [7]) ∧
    ¬ Meets (step (stream (some 512)))
    (Right (stream (some 512))) ⟨⟨⟨64 + WRONLY⟩, 0, 1⟩, ⟨[7], 0, Nat.zero_le _⟩⟩
      [.read [0]] := by
  obtain ⟨r, hr⟩ := ok_of_isSome (x := (init SmallDisk.fat (Vfs.empty smallDisk)).bind fun r =>
    (file_open SmallDisk.fat pathA ⟨64 + WRONLY⟩ r.2).bind fun q =>
      permit .unwrap (q.1 = some 0 ∧ q.2.files.get 0 = some ⟨⟨64 + WRONLY⟩, 0, 1⟩) (r.2, q))
        (by decide +kernel)
  obtain ⟨⟨_, v⟩, _, hr⟩ := bind_eq_ok hr
  obtain ⟨⟨o, v'⟩, hopen, hr⟩ := bind_eq_ok hr
  obtain ⟨⟨rfl, hfd⟩, -⟩ := permit_eq_ok hr
  have hstep : step (stream (some 512)) ⟨⟨⟨64 + WRONLY⟩, 0, 1⟩,
    ⟨[7], 0, Nat.zero_le _⟩⟩ (.read [0]) =
      .ok (⟨⟨⟨64 + WRONLY⟩, 1, 1⟩, ⟨[7], 1, le_refl _⟩⟩, .read (.ok 1) [7]) := rfl
  refine ⟨v, v', hopen, hfd, rfl, hstep, fun h => ?_⟩
  have heq := (h.1 rfl).symm.trans hstep
  simp at heq

end Bytes

end HectoOs.Fs.AccessMode
