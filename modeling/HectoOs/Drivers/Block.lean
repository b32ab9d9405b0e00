import Mathlib.Logic.Function.Basic
import HectoOs.Lib.Memory
import HectoOs.Lib.Exec

/-! # The buffered block device (`drivers/block/mod.rs`)

`BufBlkDeviceInner` keeps one block of a device in a buffer and offers a byte stream over it. A
result of `none` is a panic. The `io::Result` of every method here is `Ok` whenever the method
returns.
-/

open HectoOs.Lib

namespace HectoOs.Block

abbrev BLOCK_SZ : Nat := 512

theorem mod_block_lt (a : Nat) : a % BLOCK_SZ < BLOCK_SZ := Nat.mod_lt _ (by decide)

/-- `[u8; BLOCK_SZ]`. -/
abbrev Blk := Vector Byte BLOCK_SZ

/-- The `device` field is the content of the device, block by block. -/
structure BufBlkDeviceInner where
  device : Nat → Blk
  buf : Blk
  pos : Nat
  block_id : Nat
  modified : Bool

inductive SeekFrom where
  | Start (i : Nat)
  | End (i : Int)
  | Current (i : Int)

/-! ## Slices as readers and writers -/

/-- `Read for &[u8]`: how much was copied, and the new content of `dst`. -/
def slice_read (src dst : List Byte) : Nat × List Byte :=
  let amt := min dst.length src.length
  (amt, src.take amt ++ dst.drop amt)

/-- `Write for &mut [u8]` on `dst[pos..]`. -/
def slice_write (dst : Blk) (pos : Nat) (src : List Byte) : Nat × Blk :=
  let amt := min src.length (BLOCK_SZ - pos)
  (amt, Vector.ofFn fun i => if pos ≤ i.val ∧ i.val < pos + amt then src.getD
    (i.val - pos) 0 else dst[i])

namespace BufBlkDeviceInner

variable (s : BufBlkDeviceInner)

def fill_buf : BufBlkDeviceInner := { s with buf := s.device s.block_id }

def flush_buf : BufBlkDeviceInner :=
  { s with device := Function.update s.device s.block_id s.buf }

def new (device : Nat → Blk) : BufBlkDeviceInner :=
  fill_buf { device, buf := Vector.replicate BLOCK_SZ 0, pos := 0, block_id := 0, modified := false }

def flush : BufBlkDeviceInner :=
  if s.modified then { s.flush_buf with modified := false } else s

/-- One block of the direct transfer in `read`: `read_block` into the 512 bytes from `buf[at]`.
The index is checked; past the end of the buffer the transmuted array would overrun it. -/
def read_direct (s : BufBlkDeviceInner) (out : List Byte) (at_ : Nat) :
    Option (BufBlkDeviceInner × List Byte) :=
  let s := { s with block_id := s.block_id + 1 }
  if at_ < out.length ∧ at_ + BLOCK_SZ ≤ out.length then
    some (s, out.take at_ ++ (s.device s.block_id).toList ++ out.drop (at_ + BLOCK_SZ))
  else none

/-- `Read::read`: the reported count, the new content of `buf` and the new state. -/
def read (buf : List Byte) : Option (Nat × List Byte × BufBlkDeviceInner) :=
  if BLOCK_SZ < s.pos then none else
  let (n, out) := slice_read (s.buf.toList.drop s.pos) buf
  let s := { s with pos := s.pos + n }
  if s.pos = BLOCK_SZ - 1 then do
    let s := s.flush
    let size := (buf.length - n) / BLOCK_SZ
    let (s, out) ← (List.range size).foldlM
      (fun (s, out) i => s.read_direct out (n + i * BLOCK_SZ)) (s, out)
    let s := fill_buf { s with block_id := s.block_id + 1 }
    let (p, tail) := slice_read s.buf.toList (out.drop (n + size * BLOCK_SZ))
    some (buf.length, out.take (n + size * BLOCK_SZ) ++ tail, { s with pos := p })
  else some (buf.length, out, s)

/-- One block of the direct transfer in `write`, with the same index check. -/
def write_direct (s : BufBlkDeviceInner) (buf : List Byte) (at_ : Nat) : Option BufBlkDeviceInner :=
  let s := { s with block_id := s.block_id + 1 }
  if at_ < buf.length ∧ at_ + BLOCK_SZ ≤ buf.length then
    some { s with
      device := Function.update s.device s.block_id (Vector.ofFn fun i => buf.getD (at_ + i.val) 0) }
  else none

/-- `Write::write`. The source computes `size` as `buf.len() - n / BLOCK_SZ`. -/
def write (buf : List Byte) : Option (Nat × BufBlkDeviceInner) :=
  if BLOCK_SZ < s.pos then none else
  let (n, b) := slice_write s.buf s.pos buf
  let s := { s with buf := b, pos := s.pos + n, modified := if n > 0 then true else s.modified }
  if s.pos = BLOCK_SZ - 1 then do
    let s := s.flush
    let size := buf.length - n / BLOCK_SZ
    let s ← (List.range size).foldlM (fun s i => s.write_direct buf (n + i * BLOCK_SZ)) s
    let s := fill_buf { s with block_id := s.block_id + 1 }
    if n + size * BLOCK_SZ ≤ buf.length then
      let (p, b) := slice_write s.buf 0 (buf.drop (n + size * BLOCK_SZ))
      some (buf.length, { s with
        buf := b, pos := p, modified := if p > 0 then true else s.modified })
    else none
  else some (buf.length, s)

/-- Moves the cursor to byte `i` of the device. -/
def seek_to (i : Nat) : BufBlkDeviceInner :=
  let s := { s with pos := i % BLOCK_SZ }
  if s.block_id ≠ i / BLOCK_SZ then fill_buf { s.flush with block_id := i / BLOCK_SZ } else s

/-- `Seek::seek`. The sum of `Current` is taken in `i64` and read back as `u64`. -/
def seek : SeekFrom → Option (Nat × BufBlkDeviceInner)
  | .Start i => some (i, s.seek_to i)
  | .End _ => none
  | .Current i =>
    let i := (((s.block_id * BLOCK_SZ + s.pos : Nat) : Int) + i).emod (2 ^ 64) |>.toNat
    some (i, s.seek_to i)

/-! ## The byte stream -/

/-- The logical disk: the device, with the buffer in place of the block it holds. -/
def disk (a : Nat) : Byte :=
  let i : Fin BLOCK_SZ := ⟨a % BLOCK_SZ, mod_block_lt a⟩
  if a / BLOCK_SZ = s.block_id then s.buf.get i else (s.device (a / BLOCK_SZ)).get i

def cursor : Nat := s.block_id * BLOCK_SZ + s.pos

end BufBlkDeviceInner

open BufBlkDeviceInner

/-- The contract of a stream write: it does not panic, reports `k` bytes, and exactly the `k`
bytes from the cursor on become the first `k` bytes of `buf`. -/
def WriteContract (s : BufBlkDeviceInner) (buf : List Byte) : Prop :=
  ∃ k s', s.write buf = some (k, s') ∧ k ≤ buf.length ∧ (0 < buf.length → 0 < k) ∧
    (∀ a, s'.disk a = if s.cursor ≤ a ∧ a < s.cursor + k then buf.getD
      (a - s.cursor) 0 else s.disk a) ∧
    s'.cursor = s.cursor + k

/-- The contract of a stream read. -/
def ReadContract (s : BufBlkDeviceInner) (buf : List Byte) : Prop :=
  ∃ k out s', s.read buf = some (k, out, s') ∧ k ≤ buf.length ∧ (0 < buf.length → 0 < k) ∧
    (∀ j < k, out[j]? = some (s.disk (s.cursor + j))) ∧ s'.cursor = s.cursor + k

/-! ## Reachable states -/

inductive Op where
  | seek (p : SeekFrom)
  | read (buf : List Byte)
  | write (buf : List Byte)
  | flush

def step (s : BufBlkDeviceInner) : Op → Except Unit (BufBlkDeviceInner × Unit)
  | .seek p => orPanic () ((s.seek p).map fun r => (r.2, ()))
  | .read buf => orPanic () ((s.read buf).map fun r => (r.2.2, ()))
  | .write buf => orPanic () ((s.write buf).map fun r => (r.2, ()))
  | .flush => .ok (s.flush, ())

def Reachable (s : BufBlkDeviceInner) : Prop :=
  ∃ device ops os, run step (BufBlkDeviceInner.new device) ops = .ok (s, os)

/-- `pos` may stand at the end of the block, never past it. -/
def PosInv (s : BufBlkDeviceInner) : Prop := s.pos ≤ BLOCK_SZ

@[simp] theorem flush_pos (s : BufBlkDeviceInner) : s.flush.pos = s.pos := by
  unfold flush
  split <;> rfl

@[simp] theorem flush_block_id (s : BufBlkDeviceInner) : s.flush.block_id = s.block_id := by
  unfold flush
  split <;> rfl

theorem seek_to_pos (s : BufBlkDeviceInner) (i : Nat) : (s.seek_to i).pos = i % BLOCK_SZ := by
  simp only [seek_to]
  split
  · simp only [fill_buf, flush_pos]
  · rfl

/-! ## What one call does

The branch that goes on to the next block is taken exactly when the call ends on byte 511 of the
block. Then nothing of `buf` is left: `read` finds no whole block to transfer, and `write` asks
for `buf.len()` of them.
-/

theorem read_inside (s : BufBlkDeviceInner) (buf : List Byte) (hp : PosInv s)
    (h : s.pos + buf.length ≠ 511) :
    s.read buf = some (buf.length, (slice_read (s.buf.toList.drop s.pos) buf).2,
      { s with pos := s.pos + min buf.length (BLOCK_SZ - s.pos) }) := by
  have hlen : (slice_read (s.buf.toList.drop s.pos) buf).1 = min buf.length (BLOCK_SZ - s.pos) := by
    simp [slice_read]
  unfold PosInv at hp
  simp only [BufBlkDeviceInner.read, hlen]
  rw [if_neg (by omega), if_neg (by simp only [BLOCK_SZ] at *; omega)]

theorem read_at_last (s : BufBlkDeviceInner) (buf : List Byte) (h : s.pos + buf.length = 511) :
    ∃ out s', s.read buf = some (buf.length, out, s') ∧ s'.pos = 0 ∧
    s'.block_id = s.block_id + 1 := by
  have hlen : (slice_read (s.buf.toList.drop s.pos) buf).1 = buf.length := by
    simp only [slice_read, List.length_drop, Vector.length_toList, BLOCK_SZ]
    omega
  simp only [BufBlkDeviceInner.read, hlen, h]
  rw [if_neg (by simp only [BLOCK_SZ]; omega), if_pos (show 511 = BLOCK_SZ - 1 from rfl)]
  simp only [Nat.sub_self, Nat.zero_div, Nat.zero_mul, Nat.add_zero, List.range_zero,
    List.foldlM_nil]
  refine ⟨_, _, rfl, ?_, ?_⟩
  · simp [slice_read]
  · simp [fill_buf]

theorem write_inside (s : BufBlkDeviceInner) (buf : List Byte) (hp : PosInv s)
    (h : s.pos + buf.length ≠ 511) :
    ∃ m, s.write buf = some (buf.length,
      { s with buf := (slice_write s.buf s.pos buf).2,
               pos := s.pos + min buf.length (BLOCK_SZ - s.pos), modified := m }) := by
  unfold PosInv at hp
  refine ⟨if (slice_write s.buf s.pos buf).1 > 0 then true else s.modified, ?_⟩
  simp only [BufBlkDeviceInner.write]
  rw [if_neg (by omega), if_neg (by simp only [slice_write, BLOCK_SZ] at *; omega)]
  rfl

theorem write_at_last (s : BufBlkDeviceInner) (buf : List Byte) (h : s.pos + buf.length = 511)
    (hne : buf ≠ []) : s.write buf = none := by
  have hlen : (slice_write s.buf s.pos buf).1 = buf.length := by
    simp only [slice_write, BLOCK_SZ]
    omega
  have hpos := List.length_pos_iff.mpr hne
  have hsize : buf.length - buf.length / BLOCK_SZ = buf.length - 1 + 1 := by
    simp only [BLOCK_SZ]
    omega
  simp only [BufBlkDeviceInner.write, hlen, h]
  rw [if_neg (by simp only [BLOCK_SZ]; omega), if_pos (show 511 = BLOCK_SZ - 1 from rfl), hsize,
    List.range_succ_eq_map, List.foldlM_cons]
  have hfirst : ∀ t : BufBlkDeviceInner, t.write_direct buf (buf.length + 0 * BLOCK_SZ) = none := by
    intro t
    simp [write_direct]
  simp only [hfirst]
  rfl

theorem write_nil_at_last (s : BufBlkDeviceInner) (h : s.pos = 511) :
    ∃ s', s.write [] = some (0, s') ∧ s'.pos = 0 ∧ s'.block_id = s.block_id + 1 := by
  simp only [BufBlkDeviceInner.write, slice_write, h, List.length_nil, Nat.zero_min, Nat.add_zero]
  rw [if_neg (by simp only [BLOCK_SZ]; omega), if_pos (show 511 = BLOCK_SZ - 1 from rfl)]
  simp [fill_buf]

/-! ## The invariant on `pos` -/

theorem read_posInv (s s' : BufBlkDeviceInner) (buf out : List Byte) (k : Nat) (hs : PosInv s)
    (h : s.read buf = some (k, out, s')) : PosInv s' := by
  by_cases hp : s.pos + buf.length = 511
  · obtain ⟨out', t, ht, hpos, _⟩ := read_at_last s buf hp
    rw [ht] at h
    simp only [Option.some.injEq, Prod.mk.injEq] at h
    rw [← h.2.2, PosInv, hpos]
    exact Nat.zero_le _
  · rw [read_inside s buf hs hp] at h
    simp only [Option.some.injEq, Prod.mk.injEq] at h
    rw [← h.2.2]
    simp only [PosInv, BLOCK_SZ] at *
    omega

theorem write_posInv (s s' : BufBlkDeviceInner) (buf : List Byte) (k : Nat) (hs : PosInv s)
    (h : s.write buf = some (k, s')) : PosInv s' := by
  by_cases hp : s.pos + buf.length = 511
  · by_cases hne : buf = []
    · subst hne
      obtain ⟨t, ht, hpos, _⟩ := write_nil_at_last s hp
      rw [ht] at h
      simp only [Option.some.injEq, Prod.mk.injEq] at h
      rw [← h.2, PosInv, hpos]
      exact Nat.zero_le _
    · rw [write_at_last s buf hp hne] at h
      exact absurd h (by simp)
  · obtain ⟨m, hw⟩ := write_inside s buf hs hp
    rw [hw] at h
    simp only [Option.some.injEq, Prod.mk.injEq] at h
    rw [← h.2]
    simp only [PosInv, BLOCK_SZ] at *
    omega

theorem step_posInv (s s' : BufBlkDeviceInner) (op : Op) (o : Unit) (hs : PosInv s)
    (h : step s op = .ok (s', o)) : PosInv s' := by
  have hmod : ∀ i : Nat, i % BLOCK_SZ ≤ BLOCK_SZ := fun i => (Nat.mod_lt i (by decide)).le
  cases op with
  | seek p =>
    simp only [step, orPanic_eq_ok, Option.map_eq_some_iff, Prod.mk.injEq] at h
    obtain ⟨⟨i, t⟩, h, rfl, _⟩ := h
    cases p with
    | End i => simp [seek] at h
    | Start i | Current i =>
      simp only [seek, Option.some.injEq, Prod.mk.injEq] at h
      rw [← h.2, PosInv, seek_to_pos]
      exact hmod _
  | read buf =>
    simp only [step, orPanic_eq_ok, Option.map_eq_some_iff, Prod.mk.injEq] at h
    obtain ⟨⟨k, out, t⟩, h, rfl, _⟩ := h
    exact read_posInv s t buf out k hs h
  | write buf =>
    simp only [step, orPanic_eq_ok, Option.map_eq_some_iff, Prod.mk.injEq] at h
    obtain ⟨⟨k, t⟩, h, rfl, _⟩ := h
    exact write_posInv s t buf k hs h
  | flush =>
    simp only [step, Except.ok.injEq, Prod.mk.injEq] at h
    rw [← h.1, PosInv, flush_pos]
    exact hs

theorem reachable_new (device : Nat → Blk) : Reachable (BufBlkDeviceInner.new device) :=
  ⟨device, [], [], rfl⟩

theorem reachable_posInv (s : BufBlkDeviceInner) (h : Reachable s) : PosInv s := by
  obtain ⟨device, ops, os, h⟩ := h
  refine run_invariant PosInv (fun s e s' o hs he => step_posInv s s' e o hs he) ?_ h
  exact Nat.zero_le _

/-! ## The contracts -/

/-- The call ends inside the buffered block, and not on its byte 511. -/
def EndsInBlock (s : BufBlkDeviceInner) (len : Nat) : Prop :=
  s.pos + len ≤ BLOCK_SZ ∧ s.pos + len ≠ BLOCK_SZ - 1

theorem cursor_inside (s s' : BufBlkDeviceInner) (len : Nat) (hp : PosInv s)
    (hb : s'.block_id = s.block_id) (hpos : s'.pos = s.pos + min len (BLOCK_SZ - s.pos)) :
    s'.cursor = s.cursor + len ↔ s.pos + len ≤ BLOCK_SZ := by
  simp only [PosInv, cursor, hb, hpos, BLOCK_SZ] at *
  omega

theorem cursor_next_block (s s' : BufBlkDeviceInner) (len : Nat) (h : s.pos + len = 511)
    (hb : s'.block_id = s.block_id + 1) (hpos : s'.pos = 0) : s'.cursor ≠ s.cursor + len := by
  simp only [cursor, hb, hpos, BLOCK_SZ]
  omega

theorem slice_write_get (dst : Blk) (pos : Nat) (src : List Byte) (h : pos + src.length ≤ BLOCK_SZ)
    (i : Nat) (hi : i < BLOCK_SZ) :
    (slice_write dst pos src).2[i] =
      if pos ≤ i ∧ i < pos + src.length then src.getD (i - pos) 0 else dst[i] := by
  have hmin : min src.length (BLOCK_SZ - pos) = src.length := by
    simp only [BLOCK_SZ] at *
    omega
  unfold slice_write
  rw [Vector.getElem_ofFn, hmin]
  rfl

theorem disk_of_block (s : BufBlkDeviceInner) (a : Nat) (h : a / BLOCK_SZ = s.block_id) :
    s.disk a = s.buf.get ⟨a % BLOCK_SZ, mod_block_lt a⟩ := by
  simp only [disk, h, if_true]

theorem disk_of_other (s : BufBlkDeviceInner) (a : Nat) (h : a / BLOCK_SZ ≠ s.block_id) :
    s.disk a = (s.device (a / BLOCK_SZ)).get ⟨a % BLOCK_SZ, mod_block_lt a⟩ := by
  simp only [disk, h, if_false]

theorem disk_slice_write (s t : BufBlkDeviceInner) (buf : List Byte)
    (h : s.pos + buf.length ≤ BLOCK_SZ) (hd : t.device = s.device) (hid : t.block_id = s.block_id)
    (hbuf : t.buf = (slice_write s.buf s.pos buf).2) (a : Nat) :
    t.disk a = if s.cursor ≤ a ∧ a < s.cursor + buf.length then buf.getD
      (a - s.cursor) 0 else s.disk a := by
  have hc : s.cursor = s.block_id * BLOCK_SZ + s.pos := rfl
  have hlt := Nat.mod_lt a (show 0 < BLOCK_SZ by decide)
  have hdiv := Nat.div_add_mod a BLOCK_SZ
  by_cases hb : a / BLOCK_SZ = s.block_id
  · -- The block in the buffer: offsets inside it are distances from its start.
    have hget := slice_write_get s.buf s.pos buf h (a % BLOCK_SZ) hlt
    rw [disk_of_block t a (hb.trans hid.symm), disk_of_block s a hb, hbuf]
    refine hget.trans ?_
    rw [hb] at hdiv
    by_cases hin : s.pos ≤ a % BLOCK_SZ ∧ a % BLOCK_SZ < s.pos + buf.length
    · have hsub : a - s.cursor = a % BLOCK_SZ - s.pos := by
        simp only [BLOCK_SZ] at *
        omega
      rw [if_pos hin, if_pos (by simp only [BLOCK_SZ] at *; omega), hsub]
    · rw [if_neg hin, if_neg (by simp only [BLOCK_SZ] at *; omega)]
      rfl
  · rw [if_neg (by simp only [BLOCK_SZ] at *; omega), disk_of_other s a hb,
      disk_of_other t a (fun he => hb (he.trans hid)), hd]

theorem write_contract_iff (s : BufBlkDeviceInner) (hs : Reachable s) (buf : List Byte) :
    WriteContract s buf ↔ EndsInBlock s buf.length := by
  have hp := reachable_posInv s hs
  by_cases h : s.pos + buf.length = 511
  · refine iff_of_false ?_ (fun hc => hc.2 h)
    rintro ⟨k, s', hw, hk, _, _, hcur⟩
    by_cases hne : buf = []
    · subst hne
      obtain ⟨t, ht, hpos, hid⟩ := write_nil_at_last s h
      rw [ht] at hw
      simp only [Option.some.injEq, Prod.mk.injEq] at hw
      obtain ⟨rfl, rfl⟩ := hw
      exact cursor_next_block s t 0 h hid hpos hcur
    · rw [write_at_last s buf h hne] at hw
      exact absurd hw (by simp)
  · obtain ⟨m, hw⟩ := write_inside s buf hp h
    have hiff := cursor_inside s { s with
      buf := (slice_write s.buf s.pos buf).2, pos := s.pos + min buf.length (BLOCK_SZ - s.pos), modified := m }
      buf.length hp rfl rfl
    constructor
    · rintro ⟨k, s', hw', _, _, _, hcur⟩
      rw [hw, Option.some.injEq, Prod.mk.injEq] at hw'
      obtain ⟨rfl, rfl⟩ := hw'
      exact ⟨hiff.mp hcur, h⟩
    · rintro ⟨hle, _⟩
      exact ⟨buf.length, _, hw, le_refl _, id,
        disk_slice_write s _ buf hle rfl rfl rfl, hiff.mpr hle⟩

theorem write_contract_three_bytes :
    WriteContract (BufBlkDeviceInner.new fun _ => Vector.replicate BLOCK_SZ 0) [1, 2, 3] :=
  (write_contract_iff _ (reachable_new _) _).mpr ⟨by decide, by decide⟩

/-- 511 bytes at the start of a device: the write panics on `buf[511]`. -/
theorem write_511_panics :
    Reachable (BufBlkDeviceInner.new fun _ => Vector.replicate BLOCK_SZ 0) ∧
    ¬ WriteContract (BufBlkDeviceInner.new fun _ => Vector.replicate BLOCK_SZ 0)
    (List.replicate 511 7) := by
  refine ⟨reachable_new _, ?_⟩
  rintro ⟨k, s', hw, _⟩
  have hne : List.replicate 511 (7 : Byte) ≠ [] :=
    List.ne_nil_of_length_pos (by rw [List.length_replicate]; decide)
  rw [write_at_last _ _ (by rw [List.length_replicate]; rfl) hne] at hw
  exact absurd hw (by simp)

theorem read_contract_iff (s : BufBlkDeviceInner) (hs : Reachable s) (buf : List Byte) :
    ReadContract s buf ↔ EndsInBlock s buf.length := by
  have hp := reachable_posInv s hs
  by_cases h : s.pos + buf.length = 511
  · refine iff_of_false ?_ (fun hc => hc.2 h)
    rintro ⟨k, out, s', hr, _, _, _, hcur⟩
    obtain ⟨out', t, ht, hpos, hid⟩ := read_at_last s buf h
    rw [ht] at hr
    simp only [Option.some.injEq, Prod.mk.injEq] at hr
    obtain ⟨rfl, rfl, rfl⟩ := hr
    exact cursor_next_block s t buf.length h hid hpos hcur
  · have hr := read_inside s buf hp h
    have hiff := cursor_inside s { s with pos := s.pos + min buf.length (BLOCK_SZ - s.pos) }
      buf.length hp rfl rfl
    constructor
    · rintro ⟨k, out, s', hr', _, _, _, hcur⟩
      rw [hr] at hr'
      simp only [Option.some.injEq, Prod.mk.injEq] at hr'
      obtain ⟨rfl, rfl, rfl⟩ := hr'
      exact ⟨hiff.mp hcur, h⟩
    · rintro ⟨hle, _⟩
      refine ⟨buf.length, _, _, hr, le_refl _, id, ?_, hiff.mpr hle⟩
      intro j hj
      have hj' : s.pos + j < BLOCK_SZ := by omega
      have hc : s.cursor = s.block_id * BLOCK_SZ + s.pos := rfl
      have hb : (s.cursor + j) / BLOCK_SZ = s.block_id := by
        simp only [BLOCK_SZ] at *
        omega
      have hm : (s.cursor + j) % BLOCK_SZ = s.pos + j := by
        simp only [BLOCK_SZ] at *
        omega
      rw [disk_of_block s (s.cursor + j) hb]
      simp only [slice_read, List.length_drop, Vector.length_toList]
      rw [List.getElem?_append_left (by simp; omega), List.getElem?_take_of_lt (by omega),
        List.getElem?_drop, Vector.getElem?_toList, Vector.getElem?_eq_getElem hj']
      simp only [hm]
      rfl

theorem read_contract_three_bytes :
    ReadContract (BufBlkDeviceInner.new fun _ => Vector.replicate BLOCK_SZ 0) [1, 2, 3] :=
  (read_contract_iff _ (reachable_new _) _).mpr ⟨by decide, by decide⟩

/-- 511 bytes from the start of a device: the read reports 511 and leaves the cursor at 512. -/
theorem read_511_skips_a_byte :
    Reachable (BufBlkDeviceInner.new fun _ => Vector.replicate BLOCK_SZ 0) ∧
    ¬ ReadContract (BufBlkDeviceInner.new fun _ => Vector.replicate BLOCK_SZ 0)
    (List.replicate 511 7) := by
  refine ⟨reachable_new _, ?_⟩
  have h : (BufBlkDeviceInner.new fun _ => Vector.replicate BLOCK_SZ 0).pos +
      (List.replicate 511 (7 : Byte)).length = 511 := by
    rw [List.length_replicate]
    rfl
  rintro ⟨k, out, s', hr, _, _, _, hcur⟩
  obtain ⟨out', t, ht, hpos, hid⟩ := read_at_last _ _ h
  rw [ht] at hr
  simp only [Option.some.injEq, Prod.mk.injEq] at hr
  obtain ⟨rfl, rfl, rfl⟩ := hr
  exact cursor_next_block _ t _ h hid hpos hcur

end HectoOs.Block
