import HectoOs.Drivers.Block

/-! # The buffered block is coherent with the device

`modified` says whether the buffer is ahead of the device. Whoever moves to another block flushes
first, so what a reader of the stream sees, the logical disk, does not depend on which block is
buffered.
-/

open HectoOs.Lib

namespace HectoOs.Block

open BufBlkDeviceInner

/-- A buffer that is not marked as modified holds what the device holds. -/
def Clean (s : BufBlkDeviceInner) : Prop := s.modified = false → s.buf = s.device s.block_id

/-- The device itself has the bytes of the logical disk. -/
def OnDevice (s : BufBlkDeviceInner) : Prop :=
  ∀ a, (s.device (a / BLOCK_SZ)).get ⟨a % BLOCK_SZ, mod_block_lt a⟩ = s.disk a

variable {s t : BufBlkDeviceInner}

theorem disk_congr (hb : t.buf = s.buf) (hd : t.device = s.device) (hid : t.block_id = s.block_id) :
    t.disk = s.disk := by
  funext a
  simp only [disk, hb, hd, hid]

theorem OnDevice.of_clean (h : s.buf = s.device s.block_id) : OnDevice s := by
  intro a
  by_cases hb : a / BLOCK_SZ = s.block_id
  · rw [disk_of_block s a hb, h, hb]
  · rw [disk_of_other s a hb]

theorem OnDevice.disk_eq (hs : OnDevice s) (ht : OnDevice t) (hd : t.device = s.device) :
    t.disk = s.disk := by
  funext a
  rw [← hs a, ← ht a, hd]

/-! ## Flushing and filling -/

theorem flush_clean (hs : Clean s) : s.flush.buf = s.flush.device s.flush.block_id := by
  unfold flush
  split
  · simp [flush_buf]
  · exact hs (Bool.eq_false_iff.mpr ‹_›)

theorem flush_disk : s.flush.disk = s.disk := by
  funext a
  unfold flush
  split
  · by_cases hb : a / BLOCK_SZ = s.block_id
    · rw [disk_of_block s a hb, disk_of_block _ a (by exact hb)]
      rfl
    · rw [disk_of_other s a hb, disk_of_other _ a (by exact hb)]
      simp [flush_buf, Function.update_of_ne hb]
  · rfl

theorem flush_onDevice (hs : Clean s) : OnDevice s.flush := OnDevice.of_clean (flush_clean hs)

theorem fill_buf_clean (s : BufBlkDeviceInner) : Clean s.fill_buf := fun _ => rfl

theorem move_disk (hs : Clean s) (b : Nat) :
    (fill_buf { s.flush with block_id := b }).disk = s.disk := by
  rw [← @flush_disk s]
  exact OnDevice.disk_eq (flush_onDevice hs) (OnDevice.of_clean rfl) rfl

/-! ## The operations -/

theorem seek_to_clean (hs : Clean s) (i : Nat) : Clean (s.seek_to i) := by
  simp only [seek_to]
  split
  · exact fill_buf_clean _
  · exact hs

theorem seek_to_disk (hs : Clean s) (i : Nat) : (s.seek_to i).disk = s.disk := by
  have hpos : Clean { s with pos := i % BLOCK_SZ } := hs
  simp only [seek_to]
  split
  · exact (move_disk hpos _).trans (disk_congr rfl rfl rfl)
  · exact disk_congr rfl rfl rfl

theorem seek_cases {p : SeekFrom} {i : Nat} (h : s.seek p = some (i, t)) :
    ∃ j, t = s.seek_to j := by
  cases p with
  | End i => simp [seek] at h
  | Start i | Current i =>
    simp only [seek, Option.some.injEq, Prod.mk.injEq] at h
    exact ⟨_, h.2.symm⟩

theorem read_cases {buf out : List Byte} {k : Nat} (hp : PosInv s)
    (h : s.read buf = some (k, out, t)) :
    (∃ p, t = { s with pos := p }) ∨
      t = { fill_buf { { s with pos := 511 }.flush with block_id := s.block_id + 1 } with
        pos := 0 } := by
  by_cases hlast : s.pos + buf.length = 511
  · right
    have hlen : (slice_read (s.buf.toList.drop s.pos) buf).1 = buf.length := by
      simp only [slice_read, List.length_drop, Vector.length_toList, BLOCK_SZ]
      omega
    simp only [BufBlkDeviceInner.read, hlen, hlast] at h
    rw [if_neg (by simp only [BLOCK_SZ]; omega), if_pos (show 511 = BLOCK_SZ - 1 from rfl)] at h
    simp only [Nat.sub_self, Nat.zero_div, Nat.zero_mul, Nat.add_zero,
      List.range_zero, List.foldlM_nil,
      Option.pure_def, Option.bind_eq_bind, Option.bind_some, Option.some.injEq, Prod.mk.injEq] at h
    rw [← h.2.2]
    simp [slice_read, fill_buf]
  · left
    rw [read_inside s buf hp hlast] at h
    simp only [Option.some.injEq, Prod.mk.injEq] at h
    exact ⟨_, h.2.2.symm⟩

theorem slice_write_nil (dst : Blk) (pos : Nat) : slice_write dst pos [] = (0, dst) := by
  refine Prod.ext (by simp [slice_write]) (Vector.ext fun i hi => ?_)
  simp only [slice_write, List.length_nil, Nat.zero_min, Nat.add_zero, Vector.getElem_ofFn]
  rw [if_neg (by omega)]
  rfl

theorem slice_write_outside (dst : Blk) {pos i : Nat} (src : List Byte) (hi : i < BLOCK_SZ)
    (h : i < pos ∨ pos + src.length ≤ i) : (slice_write dst pos src).2[i] = dst[i] := by
  simp only [slice_write, Vector.getElem_ofFn]
  rw [if_neg (by omega)]
  rfl

theorem write_cases {buf : List Byte} {k : Nat} (hp : PosInv s) (h : s.write buf = some (k, t)) :
    t = { s with
      buf := (slice_write s.buf s.pos buf).2, pos := s.pos + min buf.length (BLOCK_SZ - s.pos),
                 modified := if (slice_write s.buf s.pos buf).1 > 0 then true else s.modified } ∨
      t = { fill_buf { { s with pos := 511 }.flush with block_id := s.block_id + 1 } with
        pos := 0 } := by
  by_cases hlast : s.pos + buf.length = 511
  · right
    by_cases hne : buf = []
    · subst hne
      have hpos : s.pos = 511 := hlast
      simp only [BufBlkDeviceInner.write, hpos, slice_write_nil] at h
      rw [if_neg (by simp only [BLOCK_SZ]; omega),
        if_pos (show 511 + 0 = BLOCK_SZ - 1 from rfl)] at h
      simp only [List.length_nil, Nat.zero_div, Nat.sub_self, Nat.zero_mul,
        Nat.add_zero, List.range_zero,
        List.foldlM_nil, Option.pure_def, Option.bind_eq_bind, Option.bind_some,
        List.drop_nil, slice_write_nil,
        Nat.le_refl, if_true, gt_iff_lt, Nat.lt_irrefl, if_false, flush_block_id,
        Option.some.injEq, Prod.mk.injEq] at h
      exact h.2.symm
    · rw [write_at_last s buf hlast hne] at h
      simp at h
  · left
    simp only [BufBlkDeviceInner.write] at h
    unfold PosInv at hp
    rw [if_neg (by omega), if_neg (by simp only [slice_write, BLOCK_SZ] at *; omega)] at h
    simp only [Option.some.injEq, Prod.mk.injEq] at h
    exact h.2.symm

theorem next_block_disk (hs : Clean s) (p q : Nat) :
    ({ fill_buf { { s with pos := p }.flush with block_id := s.block_id + 1 } with
      pos := q } : BufBlkDeviceInner).disk
      = s.disk := by
  have hpos : Clean { s with pos := p } := hs
  refine (disk_congr ?_ ?_ ?_).trans
    ((move_disk hpos (s.block_id + 1)).trans (disk_congr ?_ ?_ ?_)) <;> rfl

theorem read_disk {buf out : List Byte} {k : Nat} (hp : PosInv s) (hs : Clean s)
    (h : s.read buf = some (k, out, t)) : t.disk = s.disk := by
  obtain ⟨p, rfl⟩ | rfl := read_cases hp h
  · exact disk_congr rfl rfl rfl
  · exact next_block_disk hs 511 0

theorem write_disk {buf : List Byte} {k a : Nat} (hp : PosInv s) (hs : Clean s)
    (h : s.write buf = some (k, t)) (ha : a < s.cursor ∨ s.cursor + buf.length ≤ a) :
    t.disk a = s.disk a := by
  obtain rfl | rfl := write_cases hp h
  · by_cases hb : a / BLOCK_SZ = s.block_id
    · rw [disk_of_block s a hb, disk_of_block _ a (by exact hb)]
      have hdiv := Nat.div_add_mod a BLOCK_SZ
      refine slice_write_outside s.buf buf (Nat.mod_lt _ (by decide)) ?_
      simp only [cursor, BLOCK_SZ] at *
      omega
    · rw [disk_of_other s a hb, disk_of_other _ a (by exact hb)]
  · rw [next_block_disk hs 511 0]

theorem read_clean {buf out : List Byte} {k : Nat} (hp : PosInv s) (hs : Clean s)
    (h : s.read buf = some (k, out, t)) : Clean t := by
  obtain ⟨p, rfl⟩ | rfl := read_cases hp h
  · exact hs
  · exact fun _ => rfl

theorem write_clean {buf : List Byte} {k : Nat} (hp : PosInv s) (hs : Clean s)
    (h : s.write buf = some (k, t)) :
    Clean t := by
  obtain rfl | rfl := write_cases hp h
  · intro hm
    by_cases hn : (slice_write s.buf s.pos buf).1 > 0
    · simp [hn] at hm
    · have hmin : min buf.length (BLOCK_SZ - s.pos) = 0 := Nat.eq_zero_of_not_pos hn
      have hsame : (slice_write s.buf s.pos buf).2 = s.buf := by
        refine Vector.ext fun i hi => ?_
        simp only [slice_write, hmin, Nat.add_zero, Vector.getElem_ofFn]
        rw [if_neg (by omega)]
        rfl
      simp only [hn, if_false] at hm
      rw [hsame]
      exact hs hm
  · exact fun _ => rfl

/-! ## Runs -/

theorem step_clean {op : Op} {u : Unit} (hi : PosInv s ∧ Clean s) (h : step s op = .ok (t, u)) :
    PosInv t ∧ Clean t := by
  refine ⟨step_posInv s t op u hi.1 h, ?_⟩
  cases op with
  | seek p =>
    simp only [step, orPanic_eq_ok, Option.map_eq_some_iff, Prod.mk.injEq] at h
    obtain ⟨⟨i, r⟩, h, rfl, _⟩ := h
    obtain ⟨j, rfl⟩ := seek_cases h
    exact seek_to_clean hi.2 j
  | read buf =>
    simp only [step, orPanic_eq_ok, Option.map_eq_some_iff, Prod.mk.injEq] at h
    obtain ⟨⟨k, out, r⟩, h, rfl, _⟩ := h
    exact read_clean hi.1 hi.2 h
  | write buf =>
    simp only [step, orPanic_eq_ok, Option.map_eq_some_iff, Prod.mk.injEq] at h
    obtain ⟨⟨k, r⟩, h, rfl, _⟩ := h
    exact write_clean hi.1 hi.2 h
  | flush =>
    simp only [step, Except.ok.injEq, Prod.mk.injEq] at h
    rw [← h.1]
    exact fun _ => flush_clean hi.2

theorem reachable_clean (h : Reachable s) : PosInv s ∧ Clean s := by
  obtain ⟨device, ops, os, h⟩ := h
  refine run_invariant (fun s => PosInv s ∧ Clean s)
    (fun s e s' o hs he => step_clean hs he) ⟨?_, ?_⟩ h
  · exact Nat.zero_le _
  · exact fun _ => rfl

/-- What a user of the cache can rely on in the state `s`. -/
structure Coherent (s : BufBlkDeviceInner) : Prop where
  clean : s.modified = false → s.buf = s.device s.block_id
  seek : ∀ p i t, s.seek p = some (i, t) → t.disk = s.disk
  read : ∀ buf k out t, s.read buf = some (k, out, t) → t.disk = s.disk
  write : ∀ buf k t, s.write buf = some (k, t) → ∀ a, a < s.cursor ∨
    s.cursor + buf.length ≤ a → t.disk a = s.disk a
  flush : s.flush.disk = s.disk
  flushed : OnDevice s.flush

theorem cache_coherent (s : BufBlkDeviceInner) (hs : Reachable s) : Coherent s := by
  obtain ⟨hp, hc⟩ := reachable_clean hs
  refine ⟨hc, fun p i t h => ?_, fun buf k out t h => read_disk hp hc h,
    fun buf k t h a ha => write_disk hp hc h ha, flush_disk, flush_onDevice hc⟩
  obtain ⟨j, rfl⟩ := seek_cases h
  exact seek_to_disk hc j

/-- The device of zeros after three bytes were written: the buffer is ahead of it, and a flush makes
up for that. -/
theorem cache_coherent_three_bytes : ∃ s os,
    run step (BufBlkDeviceInner.new fun _ => Vector.replicate BLOCK_SZ 0)
    [.seek (.Start 600), .write [1, 2, 3]] =
      .ok (s, os) ∧ s.modified = true ∧ Coherent s := by
  have h : ((run step (BufBlkDeviceInner.new fun _ => Vector.replicate BLOCK_SZ 0)
      [.seek (.Start 600), .write [1, 2, 3]]).bind fun r => permit () (r.1.modified = true)
        ()).toOption.isSome := by
    decide +kernel
  obtain ⟨⟨s, os⟩, hrun, h⟩ := ok_of_bind h
  obtain ⟨_, h⟩ := ok_of_isSome h
  exact ⟨s, os, hrun, (permit_eq_ok h).1, cache_coherent s ⟨_, _, os, hrun⟩⟩

end HectoOs.Block
