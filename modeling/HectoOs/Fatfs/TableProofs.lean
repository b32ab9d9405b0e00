import Mathlib.Tactic.IntervalCases
import HectoOs.Fatfs.Table

/-! # What the table functions do

`raw` and `value` read an entry off the bytes of a table. The functions of the three types read and
write exactly that.
-/

open HectoOs.Lib

namespace HectoOs.Fatfs

open DiskSlice

/-! ## Entries as bytes -/

def entry_offset : FatType → Nat → Nat
  | .Fat12, c => c + c / 2
  | .Fat16, c => c * 2
  | .Fat32, c => c * 4

def entry_width : FatType → Nat
  | .Fat12 => 2
  | .Fat16 => 2
  | .Fat32 => 4

/-- The entry of `c` lies inside a table of `size` bytes. -/
def Fits (t : FatType) (size c : Nat) : Prop := c < 2 ^ 30 ∧ entry_offset t c + entry_width t ≤ size

/-- One more than the largest value of an entry. -/
def entry_bound : FatType → Nat
  | .Fat12 => 0x1000
  | .Fat16 => 0x10000
  | .Fat32 => 0x10000000

def bad_value : FatType → Nat
  | .Fat12 => 0xFF7
  | .Fat16 => 0xFFF7
  | .Fat32 => 0x0FFFFFF7

def last_value : FatType → Nat
  | .Fat12 => 0xFFF
  | .Fat16 => 0xFFFF
  | .Fat32 => 0x0FFFFFFF

/-- The entry of `c` in the bytes of a table. -/
def raw (t : FatType) (m : Mem) (c : Nat) : Nat :=
  match t with
  | .Fat12 => if c % 2 = 0 then loadLE m (c + c / 2) 2 % 4096 else loadLE m (c + c / 2) 2 / 16
  | .Fat16 => loadLE m (c * 2) 2
  | .Fat32 => loadLE m (c * 4) 4 % 2 ^ 28

/-- Only FAT32 has numbers of clusters that cannot be used. -/
def ordinary (t : FatType) (c : Nat) : Bool := t ≠ .Fat32 || !Fat32.special c

def value (t : FatType) (m : Mem) (c : Nat) : FatValue :=
  match FatValue.decode (bad_value t) (last_value t) (raw t m c) with
  | .Free => if ordinary t c then .Free else .Bad
  | .Data n => if ordinary t c then .Data n else .Bad
  | v => v

/-- A value that an entry can hold: the number of a cluster stays below the special ones. -/
def Storable (t : FatType) : FatValue → Prop
  | .Data n => 0 < n ∧ n < bad_value t
  | _ => True

def code (t : FatType) (v : FatValue) : Nat := v.encode (bad_value t) (last_value t)

theorem code_lt {t : FatType} {v : FatValue} (hv : Storable t v) : code t v < entry_bound t := by
  cases t <;> cases v <;>
    simp only [Storable, bad_value] at hv <;> simp only [code, FatValue.encode,
      bad_value, last_value, entry_bound] <;> omega

theorem decode_code {t : FatType} {v : FatValue} (hv : Storable t v) :
    FatValue.decode (bad_value t) (last_value t) (code t v) = v := by
  cases v with
  | Free => rfl
  | Bad => cases t <;> rfl
  | EndOfChain => cases t <;> rfl
  | Data n =>
    obtain ⟨h0, hb⟩ := hv
    have h1 : ¬ bad_value t < n := by omega
    have h2 : n ≠ bad_value t := by omega
    have h3 : n ≠ 0 := by omega
    simp [FatValue.decode, code, FatValue.encode, h1, h2, h3]

theorem raw_same {t : FatType} {m m' : Mem} {size c : Nat} (h : SameOn m m' 0 size)
    (hc : Fits t size c) :
    raw t m' c = raw t m c := by
  have hs : SameOn m m' (entry_offset t c) (entry_offset t c + entry_width t) :=
    h.mono (Nat.zero_le _) hc.2
  have hload := loadLE_same hs
  cases t <;> simp only [entry_offset, entry_width] at hload <;> simp only [raw, hload]

theorem value_same {t : FatType} {m m' : Mem} {size c : Nat} (h : SameOn m m' 0 size)
    (hc : Fits t size c) :
    value t m' c = value t m c := by
  simp only [value, raw_same h hc]

/-! ## The packed words of FAT12 -/

theorem loadLE_two (m : Mem) (a : Nat) : loadLE m a 2 = (m a).toNat + 256 * (m (a + 1)).toNat := by
  simp [loadLE]

theorem unpack_toNat (c : Nat) (p : BitVec 16) :
    (Fat12.unpack c p).toNat = if c % 2 = 0 then p.toNat % 4096 else p.toNat / 16 := by
  unfold Fat12.unpack
  split
  · rw [BitVec.toNat_and]
    exact Nat.and_two_pow_sub_one_eq_mod p.toNat 12
  · rw [BitVec.toNat_ushiftRight, Nat.shiftRight_eq_div_pow]

theorem pack_toNat (c : Nat) (old : BitVec 16) {raw_val : BitVec 16} (h : raw_val.toNat < 4096) :
    (Fat12.pack c old raw_val).toNat =
      if c % 2 = 0 then old.toNat / 4096 * 4096 + raw_val.toNat
        else raw_val.toNat * 16 + old.toNat % 16 := by
  have ho := old.isLt
  unfold Fat12.pack
  split
  · have hhi : old &&& 0xF000#16 = (old >>> 12) <<< 12 := by
      ext i hi
      interval_cases i <;> simp
    have hlow : ((old >>> 12) <<< 12).toNat = 2 ^ 12 * (old.toNat / 4096) := by
      simp only [BitVec.toNat_shiftLeft, BitVec.toNat_ushiftRight, Nat.shiftRight_eq_div_pow,
        Nat.shiftLeft_eq]
      omega
    rw [hhi, BitVec.toNat_or, hlow, ← Nat.two_pow_add_eq_or_of_lt h]
    omega
  · have hlow : (old &&& 0x000F#16).toNat = old.toNat % 16 := by
      rw [BitVec.toNat_and]
      exact Nat.and_two_pow_sub_one_eq_mod old.toNat 4
    have hhi : (raw_val <<< 4).toNat = 2 ^ 4 * raw_val.toNat := by
      simp only [BitVec.toNat_shiftLeft, Nat.shiftLeft_eq]
      omega
    have hlt : (old &&& 0x000F#16).toNat < 2 ^ 4 := by omega
    rw [BitVec.toNat_or, Nat.or_comm, hhi, ← Nat.two_pow_add_eq_or_of_lt hlt, hlow]
    omega

/-! ## Reading -/

section Read

variable {s : DiskSlice} {t : FatType} {c : Nat}

theorem read_u8_spec (hs : s.inner.device.Serves) (h : s.offset + 1 ≤ s.size) :
    read_u8 s = .ok (.ok (s.table s.offset), { s with offset := s.offset + 1 }) := by
  rw [read_u8, bind_of_ok (read_exact_spec hs h), leValue_bytesAt]
  simp only [loadLE, Nat.mul_zero, Nat.add_zero, BitVec.ofNat_toNat, BitVec.setWidth_eq]
  rfl

theorem read_u16_spec (hs : s.inner.device.Serves) (h : s.offset + 2 ≤ s.size) :
    read_u16 s = .ok (.ok (BitVec.ofNat 16 (loadLE s.table s.offset 2)),
      { s with offset := s.offset + 2 }) := by
  rw [read_u16, bind_of_ok (read_exact_spec hs h), leValue_bytesAt]
  rfl

theorem read_u32_spec (hs : s.inner.device.Serves) (h : s.offset + 4 ≤ s.size) :
    read_u32 s = .ok (.ok (BitVec.ofNat 32 (loadLE s.table s.offset 4)),
      { s with offset := s.offset + 4 }) := by
  rw [read_u32, bind_of_ok (read_exact_spec hs h), leValue_bytesAt]
  rfl

theorem toNat_loadLE_two (m : Mem) (a : Nat) :
    (BitVec.ofNat 16 (loadLE m a 2)).toNat = loadLE m a 2 := by
  have := loadLE_lt m a 2
  rw [BitVec.toNat_ofNat]
  omega

theorem toNat_loadLE_four (m : Mem) (a : Nat) :
    (BitVec.ofNat 32 (loadLE m a 4)).toNat = loadLE m a 4 := by
  have := loadLE_lt m a 4
  rw [BitVec.toNat_ofNat]
  omega

theorem toNat_masked (w : BitVec 32) : (w &&& 0x0FFFFFFF#32).toNat = w.toNat % 2 ^ 28 := by
  rw [BitVec.toNat_and]
  exact Nat.and_two_pow_sub_one_eq_mod w.toNat 28

theorem masked_or (x y : BitVec 32) :
    (x ||| y &&& 0xF0000000#32) &&& 0x0FFFFFFF#32 = x &&& 0x0FFFFFFF#32 := by
  ext i hi
  interval_cases i <;> simp

theorem seek_entry (hc : Fits t s.size c) :
    seek (.Start (u32 (entry_offset t c))) s =
      .ok (.ok (entry_offset t c), { s with offset := entry_offset t c }) := by
  obtain ⟨h30, hfit⟩ := hc
  have h32 : entry_offset t c < 2 ^ 32 := by cases t <;> simp only [entry_offset] <;> omega
  rw [u32, Nat.mod_eq_of_lt h32]
  exact seek_start (by omega) (by omega)

theorem read_fat_spec (hs : s.inner.device.Serves) (hc : Fits t s.size c) : read_fat t c s =
    .ok (.ok (value t s.table c), { s with offset := entry_offset t c + entry_width t }) := by
  have hseek := seek_entry hc
  have hfit := hc.2
  cases t <;> simp only [entry_offset, entry_width] at hseek hfit ⊢
  · have hword := read_u16_spec (s := { s with offset := c + c / 2 }) hs hfit
    have hraw : (Fat12.unpack c (BitVec.ofNat 16 (loadLE s.table (c + c / 2) 2))).toNat =
      raw .Fat12 s.table c := by
      rw [unpack_toNat, toNat_loadLE_two, raw]
    have hget : Fat12.get_raw c s =
      .ok (.ok (raw .Fat12 s.table c), { s with offset := c + c / 2 + 2 }) := by
      rw [Fat12.get_raw, bind_of_ok hseek, bind_of_ok hword, ← hraw]
      rfl
    rw [read_fat, Fat12.get, bind_of_ok hget, value]
    simp only [ordinary, bad_value, last_value]
    cases FatValue.decode 0xFF7 0xFFF (raw .Fat12 s.table c) <;> rfl
  · have hword := read_u16_spec (s := { s with offset := c * 2 }) hs hfit
    have hraw : (BitVec.ofNat 16 (loadLE s.table (c * 2) 2)).toNat = raw .Fat16 s.table c :=
      toNat_loadLE_two _ _
    have hget : Fat16.get_raw c s =
      .ok (.ok (raw .Fat16 s.table c), { s with offset := c * 2 + 2 }) := by
      rw [Fat16.get_raw, bind_of_ok hseek, bind_of_ok hword, ← hraw]
      rfl
    rw [read_fat, Fat16.get, bind_of_ok hget, value]
    simp only [ordinary, bad_value, last_value]
    cases FatValue.decode 0xFFF7 0xFFFF (raw .Fat16 s.table c) <;> rfl
  · have hword := read_u32_spec (s := { s with offset := c * 4 }) hs hfit
    have hraw : (BitVec.ofNat 32 (loadLE s.table (c * 4) 4) &&& 0x0FFFFFFF#32).toNat =
      raw .Fat32 s.table c := by
      rw [toNat_masked, toNat_loadLE_four, raw]
    have hget : Fat32.get_raw c s =
      .ok (.ok (BitVec.ofNat 32 (loadLE s.table (c * 4) 4)), { s with offset := c * 4 + 4 }) := by
      rw [Fat32.get_raw, bind_of_ok hseek]
      exact hword
    rw [read_fat, Fat32.get, bind_of_ok hget, hraw, value]
    simp only [ordinary, bad_value, last_value]
    cases FatValue.decode 0x0FFFFFF7 0x0FFFFFFF (raw .Fat32 s.table c) <;>
      by_cases hsp : Fat32.special c = true <;> simp only [hsp] <;> rfl

end Read

/-! ## Writing -/

section Store

variable {m m' : Mem} {size c d w : Nat}

theorem loadLE_store_entry {n : Nat} (w : Nat) :
    loadLE (storeLE m (c * n) n w)
    (d * n) n = if d = c then w % 256 ^ n else loadLE m (d * n) n := by
  split
  · rename_i h
    rw [h, loadLE_storeLE_same]
  · apply loadLE_storeLE_ne
    rcases Nat.lt_or_gt_of_ne ‹_› with h | h
    · have := Nat.mul_le_mul_right n (Nat.succ_le_of_lt h)
      rw [Nat.succ_mul] at this
      exact .inl this
    · have := Nat.mul_le_mul_right n (Nat.succ_le_of_lt h)
      rw [Nat.succ_mul] at this
      exact .inr this

theorem raw_store_packed {p : Nat} (hw : w < 4096) (hp : p = if c % 2 = 0 then loadLE m
    (c + c / 2) 2 / 4096 * 4096 + w else w * 16 + loadLE m (c + c / 2) 2 % 16) :
    raw .Fat12 (storeLE m (c + c / 2) 2 p) d = if d = c then w else raw .Fat12 m d := by
  have hold := loadLE_lt m (c + c / 2) 2
  have hload := loadLE_two m (c + c / 2)
  have hb0 := (m (c + c / 2)).isLt
  have hb1 := (m (c + c / 2 + 1)).isLt
  have hbyte : ∀ k, k < 2 → (storeLE m (c + c / 2) 2 p (c + c / 2 + k)).toNat =
    p / 256 ^ k % 256 := by
    intro k hk
    rw [storeLE, if_pos (by omega), Nat.add_sub_cancel_left, BitVec.toNat_ofNat]
  have hother : ∀ x, (x < c + c / 2 ∨ c + c / 2 + 2 ≤ x) → storeLE m (c + c / 2) 2 p x = m x := by
    intro x hx
    rw [storeLE, if_neg (by omega)]
  have h0 := hbyte 0 (by omega)
  have h1 := hbyte 1 (by omega)
  simp only [Nat.add_zero, Nat.pow_zero, Nat.div_one, Nat.pow_one] at h0 h1
  have hp16 : p < 65536 := by
    rw [hp]
    split <;> omega
  by_cases hdc : d = c
  · subst hdc
    rw [if_pos rfl, raw, loadLE_storeLE_same]
    split <;> rename_i hpar <;> simp only [hpar, if_true, if_false] at hp <;> omega
  rw [if_neg hdc]
  by_cases hnext : d = c + 1 ∧ c % 2 = 0
  · -- the odd entry behind keeps the high half of the shared byte
    obtain ⟨rfl, hpar⟩ := hnext
    have ho : c + 1 + (c + 1) / 2 = c + c / 2 + 1 := by omega
    have hodd : ¬ (c + 1) % 2 = 0 := by omega
    simp only [hpar, if_true] at hp
    simp only [raw, hodd, if_false, ho, loadLE_two, h1, hother (c + c / 2 + 1 + 1) (by omega)]
    omega
  by_cases hprev : c = d + 1 ∧ d % 2 = 0
  · -- the even entry in front keeps the low half
    obtain ⟨rfl, hpar⟩ := hprev
    have ho : d + 1 + (d + 1) / 2 = d + d / 2 + 1 := by omega
    have hodd : ¬ (d + 1) % 2 = 0 := by omega
    simp only [hodd, if_false] at hp
    rw [ho] at hp h0 hother hb0 hb1 hload hold ⊢
    simp only [raw, hpar, if_true, loadLE_two, h0, hother (d + d / 2) (by omega)]
    omega
  · have hne : loadLE (storeLE m (c + c / 2) 2 p) (d + d / 2) 2 = loadLE m (d + d / 2) 2 :=
      loadLE_storeLE_ne m _ 2 p _ 2 (by omega)
    simp only [raw, hne]

end Store

/-- The entry of `c` has become `v`, and no other one has changed. -/
structure Wrote (t : FatType) (c : Nat) (v : FatValue) (s s' : DiskSlice) :
    Prop extends Kept s s' where
  entries : ∀ d, Fits t s.size d → raw t s'.table d = if d = c then code t v else raw t s.table d

section Write

variable {s : DiskSlice} {t : FatType} {c n w : Nat} {v : FatValue}

theorem write_word_spec (hs : s.Valid) (hn : n ≤ 4) (h : s.offset + n ≤ s.size) :
    ∃ s', write_all write (leBytes n w) s = .ok (.ok (), s') ∧ Kept s s' ∧
      SameOn (storeLE s.table s.offset n w) s'.table 0 s.size := by
  obtain ⟨s', hw, _, hst⟩ := write_spec hs (show (leBytes n w).length ≤ 4 by simpa using hn)
    (show s.offset + (leBytes n w).length ≤ s.size by simpa using h)
  refine ⟨s', hw, hst.toKept, ?_⟩
  rw [← writeBytes_leBytes]
  exact hst.table

theorem fat12_set_spec (hs : s.Valid) (hc : Fits .Fat12 s.size c) (hv : Storable .Fat12 v) :
    Returns (Fat12.set c v) (fun _ s' => Wrote .Fat12 c v s s') s := by
  have hfit : c + c / 2 + 2 ≤ s.size := hc.2
  have hseek : seek (.Start (u32 (c + c / 2))) s =
    .ok (.ok (c + c / 2), { s with offset := c + c / 2 }) := seek_entry (t := .Fat12) hc
  have hword := read_u16_spec (s := { s with offset := c + c / 2 }) hs.serves hfit
  have hback : seek (.Start (u32 (c + c / 2))) { s with offset := c + c / 2 + 2 } =
      .ok (.ok (c + c / 2), { s with offset := c + c / 2 }) :=
        seek_entry (t := .Fat12) (s := { s with offset := c + c / 2 + 2 }) hc
  have hcode : code .Fat12 v < 4096 := code_lt hv
  have htoNat : (BitVec.ofNat 16 (code .Fat12 v)).toNat = code .Fat12 v := by
    rw [BitVec.toNat_ofNat]
    omega
  obtain ⟨p, hp⟩ : ∃ p, Fat12.pack c (BitVec.ofNat 16 (loadLE s.table (c + c / 2) 2))
    (BitVec.ofNat 16 (code .Fat12 v)) = p := ⟨_, rfl⟩
  have hs' : DiskSlice.Valid { s with offset := c + c / 2 } := ⟨hs.serves, hs.behind, hs.copies⟩
  obtain ⟨s', hw, hkept, htab⟩ := write_word_spec (n := 2) (w := p.toNat) hs' (by decide) hfit
  refine ⟨(), s', ?_, (kept_of_moved s _).trans hkept, fun d hd => ?_⟩
  · have hset : Fat12.set c v = Fat12.set_raw c (BitVec.ofNat 16 (code .Fat12 v)).toNat := rfl
    rw [hset, htoNat, Fat12.set_raw, bind_of_ok hseek, bind_of_ok hword, bind_of_ok hback]
    exact hp ▸ hw
  · have hpack := pack_toNat c (BitVec.ofNat 16 (loadLE s.table (c + c / 2) 2)) (htoNat ▸ hcode)
    rw [hp, htoNat, toNat_loadLE_two] at hpack
    rw [raw_same htab hd]
    exact raw_store_packed hcode hpack

theorem fat16_set_spec (hs : s.Valid) (hc : Fits .Fat16 s.size c) (hv : Storable .Fat16 v) :
    Returns (Fat16.set c v) (fun _ s' => Wrote .Fat16 c v s s') s := by
  have hfit : c * 2 + 2 ≤ s.size := hc.2
  have hseek : seek (.Start (u32 (c * 2))) s = .ok (.ok (c * 2), { s with offset := c * 2 }) :=
    seek_entry (t := .Fat16) hc
  have hcode : code .Fat16 v < 65536 := code_lt hv
  have htoNat : (BitVec.ofNat 16 (code .Fat16 v)).toNat = code .Fat16 v := by
    rw [BitVec.toNat_ofNat]
    omega
  have hs' : DiskSlice.Valid { s with offset := c * 2 } := ⟨hs.serves, hs.behind, hs.copies⟩
  obtain ⟨s', hw, hkept, htab⟩ := write_word_spec (n := 2) (w := code .Fat16 v) hs' (by decide) hfit
  refine ⟨(), s', ?_, (kept_of_moved s _).trans hkept, fun d hd => ?_⟩
  · have hset : Fat16.set c v = Fat16.set_raw c (BitVec.ofNat 16 (code .Fat16 v)).toNat := rfl
    rw [hset, htoNat, Fat16.set_raw, bind_of_ok hseek, write_u16, htoNat]
    exact hw
  · rw [raw_same htab hd]
    have hraw := loadLE_store_entry (m := s.table) (c := c) (d := d) (n := 2) (code .Fat16 v)
    rw [Nat.mod_eq_of_lt (show code .Fat16 v < 256 ^ 2 by omega)] at hraw
    exact hraw

theorem fat32_set_spec (hs : s.Valid) (hc : Fits .Fat32 s.size c)
    (hv : Storable .Fat32 v) (hp : v = .Free → ordinary .Fat32 c = true) :
    Returns (Fat32.set c v) (fun _ s' => Wrote .Fat32 c v s s') s := by
  have hfit : c * 4 + 4 ≤ s.size := hc.2
  have hseek : seek (.Start (u32 (c * 4))) s = .ok (.ok (c * 4), { s with offset := c * 4 }) :=
    seek_entry (t := .Fat32) hc
  have hword := read_u32_spec (s := { s with offset := c * 4 }) hs.serves hfit
  have hget : Fat32.get_raw c s =
    .ok (.ok (BitVec.ofNat 32 (loadLE s.table (c * 4) 4)), { s with offset := c * 4 + 4 }) := by
    rw [Fat32.get_raw, bind_of_ok hseek]
    exact hword
  have hback : seek (.Start (u32 (c * 4))) { s with offset := c * 4 + 4 } =
    .ok (.ok (c * 4), { s with offset := c * 4 }) :=
    seek_entry (t := .Fat32) (s := { s with offset := c * 4 + 4 }) hc
  have hcode : code .Fat32 v < 0x10000000 := code_lt hv
  have hno : ¬ (v = .Free ∧ Fat32.special c = true) := by
    rintro ⟨hf, hsp⟩
    have := hp hf
    simp [ordinary, hsp] at this
  obtain ⟨w, hw⟩ : ∃ w, BitVec.ofNat 32 (code .Fat32 v) |||
    (BitVec.ofNat 32 (loadLE s.table (c * 4) 4) &&& 0xF0000000#32) = w :=
    ⟨_, rfl⟩
  have hlow : w.toNat % 2 ^ 28 = code .Fat32 v := by
    rw [← toNat_masked, ← hw, masked_or, toNat_masked, BitVec.toNat_ofNat]
    omega
  have hs' : DiskSlice.Valid { s with offset := c * 4 } := ⟨hs.serves, hs.behind, hs.copies⟩
  obtain ⟨s', hwr, hkept, htab⟩ := write_word_spec (n := 4) (w := w.toNat) hs' (by decide) hfit
  refine ⟨(), s', ?_, (kept_of_moved s _).trans hkept, fun d hd => ?_⟩
  · rw [Fat32.set, bind_of_ok hget, if_neg hno]
    exact (bind_of_ok hback).trans (hw ▸ hwr)
  · rw [raw_same htab hd]
    have hraw := loadLE_store_entry (m := s.table) (c := c) (d := d) (n := 4) w.toNat
    rw [Nat.mod_eq_of_lt (show w.toNat < 256 ^ 4 from w.isLt)] at hraw
    simp only [raw]
    refine (congrArg (· % 2 ^ 28) hraw).trans ?_
    split <;> rename_i hdc
    · exact hlow
    · rfl

theorem write_fat_spec (hs : s.Valid) (hc : Fits t s.size c) (hv : Storable t v)
    (hp : v = .Free → ordinary t c = true) :
    Returns (write_fat t c v) (fun _ s' => Wrote t c v s s') s := by
  cases t with
  | Fat12 => exact fat12_set_spec hs hc hv
  | Fat16 => exact fat16_set_spec hs hc hv
  | Fat32 => exact fat32_set_spec hs hc hv hp

end Write

end HectoOs.Fatfs
