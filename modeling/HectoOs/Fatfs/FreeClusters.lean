import Mathlib.Data.List.Find
import Mathlib.Logic.Function.Basic
import HectoOs.Fatfs.TableProofs

/-! # Looking for free clusters

The scans read a table from one entry to the next. They find what reading each entry on its own
would find.
-/

open HectoOs.Lib

namespace HectoOs.Fatfs

open DiskSlice

/-- What `read_fat` reports of a cluster. -/
def entry (t : FatType) (s : DiskSlice) (c : Nat) : Option FatValue :=
  match read_fat t c s with
  | .ok (.ok v, _) => some v
  | _ => none

section Entry

variable {t : FatType} {s s' : DiskSlice} {c d : Nat} {v : FatValue}

theorem entry_eq (hs : s.inner.device.Serves) (hc : Fits t s.size c) :
    entry t s c = some (value t s.table c) := by
  rw [entry, read_fat_spec hs hc]

theorem Wrote.entry_eq (h : Wrote t c v s s') (hs : s.inner.device.Serves)
    (hv : Storable t v) (ho : ordinary t c = true) (hd : Fits t s.size d) :
    entry t s' d = if d = c then some v else entry t s d := by
  have hraw := h.entries d hd
  rw [Fatfs.entry_eq hs hd, Fatfs.entry_eq (h.device ▸ hs) (h.size ▸ hd)]
  by_cases hdc : d = c
  · subst hdc
    rw [if_pos rfl] at hraw ⊢
    rw [value, hraw, decode_code hv, ho]
    cases v <;> rfl
  · rw [if_neg hdc] at hraw ⊢
    rw [value, hraw, value]

theorem entry_copy {i : Nat} (hs : s.inner.device.Serves) (hm : s.Mirrored)
    (hi : i < s.mirrors) (hc : Fits t s.size c) :
    entry t { s with begin_ := s.begin_ + i * s.size } c = entry t s c := by
  have hcopy :
    SameOn s.table ({ s with begin_ := s.begin_ + i * s.size } : DiskSlice).table 0 s.size :=
    fun k _ hk => hm i hi k hk
  rw [entry_eq hs hc, entry_eq (s := { s with begin_ := s.begin_ + i * s.size }) hs hc,
    value_same hcopy hc]

theorem raw_eq_zero_iff (ho : ordinary t c = true) :
    raw t s.table c = 0 ↔ value t s.table c = .Free := by
  unfold value FatValue.decode
  by_cases h : raw t s.table c = 0
  · simp [h, ho]
  · simp only [h, if_false, ho, if_true]
    split_ifs <;> simp

end Entry

/-- Entries read back what has been written, and the other entries keep their values, in every copy
of the table. -/
theorem read_fat_write_fat {t : FatType} {s : DiskSlice} {c : Nat} {v : FatValue} (hs : s.Valid)
    (hm : s.Mirrored) (hc : Fits t s.size c) (ho : ordinary t c = true) (hv : Storable t v) :
    ∃ s', write_fat t c v s = .ok (.ok (), s') ∧ ∀ i d, i < s.mirrors → Fits t s.size d →
      entry t { s' with begin_ := s'.begin_ + i * s'.size } d =
        if d = c then some v else entry t s d := by
  obtain ⟨_, s', hw, h⟩ := write_fat_spec hs hc hv (fun _ => ho)
  refine ⟨s', hw, fun i d hi hd => ?_⟩
  rw [entry_copy (h.device ▸ hs.serves) (h.mirrored hm) (h.mirrors ▸ hi) (h.size ▸ hd)]
  exact h.entry_eq hs.serves hv ho hd

/-- Two copies of an empty table of 16 bytes, on a disk that serves four bytes at a time. -/
def small_fat : DiskSlice := ⟨512, 16, 0, 2, ⟨.pieces 4, fun _ => 0#8, .Fat12, 0#8, ⟨false, false⟩⟩⟩

theorem small_fat_valid : small_fat.Valid :=
  ⟨Device.pieces_serves (le_refl 4), by decide, by decide⟩

theorem read_fat_write_fat_small : ∃ s', write_fat .Fat12 3 (.Data 4) small_fat = .ok (.ok (), s') ∧
    entry .Fat12 { s' with begin_ := s'.begin_ + 1 * s'.size } 3 = some (.Data 4) := by
  have hfits : Fits .Fat12 small_fat.size 3 := by
    unfold Fits
    decide
  obtain ⟨s', hw, hentries⟩ := read_fat_write_fat (t := .Fat12) (v := .Data 4) small_fat_valid
    (fun _ _ _ _ => rfl) hfits rfl ⟨by decide, by decide⟩
  exact ⟨s', hw, (hentries 1 3 (by decide) hfits).trans (if_pos rfl)⟩

/-! ## The scans -/

section Scan

variable {t : FatType} {s : DiskSlice} {start stop c n w : Nat}

/-- The first entry with value 0 among `n` entries from `c` on. -/
def first_zero (t : FatType) (m : Mem) (c n : Nat) : Option Nat :=
  (List.range' c n).find? fun c => raw t m c = 0

def found : Option Nat → Except Error Nat
  | some c => .ok c
  | none => .error no_space

theorem first_zero_succ (t : FatType) (m : Mem) (c n : Nat) :
    first_zero t m c (n + 1) = if raw t m c = 0 then some c else first_zero t m (c + 1) n := by
  rw [first_zero, List.range'_succ, List.find?_cons]
  by_cases h : raw t m c = 0
  · simp [h]
  · simp [h, first_zero]

theorem find_free_loop_spec {read : SliceM Nat} (hread : ∀ c, c < stop →
    read { s with offset := c * w } = .ok (.ok (raw t s.table c), { s with offset := (c + 1) * w }))
    (hn : c + n = stop) : ∃ o, find_free_loop read n c { s with offset := c * w } =
      .ok (found (first_zero t s.table c n), { s with offset := o }) := by
  induction n generalizing c with
  | zero => exact ⟨_, rfl⟩
  | succ n ih =>
    rw [find_free_loop, bind_of_ok (hread c (by omega)), first_zero_succ]
    split
    · exact ⟨_, rfl⟩
    · exact ih (by omega)

theorem unpack_eq_zero_iff (m : Mem) (c : Nat) :
    Fat12.unpack c (BitVec.ofNat 16 (loadLE m (c + c / 2) 2)) = 0 ↔ raw .Fat12 m c = 0 := by
  rw [← BitVec.toNat_inj, unpack_toNat, toNat_loadLE_two]
  rfl

theorem shift_in_byte (m : Mem) (a : Nat) :
    (BitVec.ofNat 16 (loadLE m a 2) >>> 8) ||| ((m (a + 2)).setWidth 16 <<< 8) =
    BitVec.ofNat 16 (loadLE m (a + 1) 2) := by
  have h0 := (m a).isLt
  have h1 := (m (a + 1)).isLt
  have h2 := (m (a + 2)).isLt
  have hlow : (BitVec.ofNat 16 (loadLE m a 2) >>> 8).toNat = (m (a + 1)).toNat := by
    rw [BitVec.toNat_ushiftRight, toNat_loadLE_two, loadLE_two, Nat.shiftRight_eq_div_pow]
    omega
  have hhigh : ((m (a + 2)).setWidth 16 <<< 8).toNat = 2 ^ 8 * (m (a + 2)).toNat := by
    rw [BitVec.toNat_shiftLeft, BitVec.toNat_setWidth, Nat.shiftLeft_eq]
    omega
  apply BitVec.eq_of_toNat_eq
  rw [BitVec.toNat_or, Nat.or_comm, hhigh, hlow, ← Nat.two_pow_add_eq_or_of_lt h1,
    toNat_loadLE_two, loadLE_two]
  exact Nat.add_comm _ _

theorem fat12_next_word (hs : s.inner.device.Serves) (hfit : Fits .Fat12 s.size (c + 1)) :
    Fat12.next_packed (c + 1) (BitVec.ofNat 16 (loadLE s.table (c + c / 2) 2))
    { s with offset := c + c / 2 + 2 } =
      .ok (.ok (BitVec.ofNat 16 (loadLE s.table (c + 1 + (c + 1) / 2) 2)),
        { s with offset := c + 1 + (c + 1) / 2 + 2 }) := by
  have hsize : c + 1 + (c + 1) / 2 + 2 ≤ s.size := hfit.2
  by_cases hpar : (c + 1) % 2 = 0
  · have hplace : c + 1 + (c + 1) / 2 = c + c / 2 + 2 := by omega
    rw [Fat12.next_packed, if_pos hpar, hplace]
    exact read_u16_spec (s := { s with offset := c + c / 2 + 2 }) hs (by simp only; omega)
  · have hplace : c + 1 + (c + 1) / 2 = c + c / 2 + 1 := by omega
    have hbyte := read_u8_spec (s := { s with offset := c + c / 2 + 2 }) hs (by simp only; omega)
    rw [Fat12.next_packed, if_neg hpar, bind_of_ok hbyte, hplace, ← shift_in_byte]
    rfl

theorem fat12_find_free_loop_spec {turns : Nat} (hs : s.inner.device.Serves)
    (hfits : ∀ c, c < stop → Fits .Fat12 s.size c) (hn : c + (n + 1) = stop) (hturns : n < turns) :
    ∃ o, Fat12.find_free_loop stop turns c (BitVec.ofNat 16 (loadLE s.table (c + c / 2) 2))
    { s with offset := c + c / 2 + 2 } =
      .ok (found (first_zero .Fat12 s.table c (n + 1)), { s with offset := o }) := by
  induction n generalizing c turns with
  | zero =>
    obtain ⟨turns, rfl⟩ : ∃ k, turns = k + 1 := ⟨turns - 1, by omega⟩
    simp only [Fat12.find_free_loop, unpack_eq_zero_iff, first_zero_succ]
    split
    · exact ⟨_, rfl⟩
    · exact ⟨_, rfl⟩
  | succ n ih =>
    obtain ⟨turns, rfl⟩ : ∃ k, turns = k + 1 := ⟨turns - 1, by omega⟩
    simp only [Fat12.find_free_loop, unpack_eq_zero_iff, first_zero_succ (n := n + 1)]
    split
    · exact ⟨_, rfl⟩
    · rw [if_neg (show c + 1 ≠ stop by omega),
        bind_of_ok (fat12_next_word hs (hfits (c + 1) (by omega)))]
      exact ih (by omega) (by omega)

theorem fits_of_lt {size : Nat} (h : Fits t size stop) (hc : c ≤ stop) : Fits t size c := by
  obtain ⟨h30, hfit⟩ := h
  refine ⟨by omega, ?_⟩
  cases t <;> simp only [entry_offset, entry_width] at hfit ⊢ <;> omega

theorem next_fat16 (hs : s.inner.device.Serves) (hc : Fits .Fat16 s.size c) :
    (do return (← read_u16).toNat : SliceM Nat) { s with offset := c * 2 } =
    .ok (.ok (raw .Fat16 s.table c), { s with offset := (c + 1) * 2 }) := by
  have hword := read_u16_spec (s := { s with offset := c * 2 }) hs hc.2
  have hraw : (BitVec.ofNat 16 (loadLE s.table (c * 2) 2)).toNat = raw .Fat16 s.table c :=
    toNat_loadLE_two _ _
  rw [bind_of_ok hword, Nat.succ_mul, ← hraw]
  rfl

theorem next_fat32 (hs : s.inner.device.Serves) (hc : Fits .Fat32 s.size c) :
    (do return ((← read_u32) &&& 0x0FFFFFFF#32).toNat : SliceM Nat) { s with offset := c * 4 } =
    .ok (.ok (raw .Fat32 s.table c), { s with offset := (c + 1) * 4 }) := by
  have hword := read_u32_spec (s := { s with offset := c * 4 }) hs hc.2
  have hraw : (BitVec.ofNat 32 (loadLE s.table (c * 4) 4) &&& 0x0FFFFFFF#32).toNat =
    raw .Fat32 s.table c := by
    rw [toNat_masked, toNat_loadLE_four, raw]
  rw [bind_of_ok hword, Nat.succ_mul, ← hraw]
  rfl

theorem find_free_cluster_raw (hs : s.inner.device.Serves) (hlt : start < stop)
    (hfit : Fits t s.size (stop - 1)) :
    ∃ o, find_free_cluster t start stop s =
      .ok (found (first_zero t s.table start (stop - start)), { s with offset := o }) := by
  have hfits : ∀ c, c < stop → Fits t s.size c := fun c hc => fits_of_lt hfit (by omega)
  cases t with
  | Fat12 =>
    have hseek : seek (.Start (u32 (start + start / 2))) s =
      .ok (.ok (start + start / 2), { s with offset := start + start / 2 }) :=
      seek_entry (t := .Fat12) (hfits start hlt)
    have hword := read_u16_spec (s := { s with offset := start + start / 2 }) hs (hfits start hlt).2
    obtain ⟨n, hn⟩ : ∃ n, stop - start = n + 1 := ⟨stop - start - 1, by omega⟩
    have hsize : n < s.size + 1 := by
      have := (hfits (stop - 1) (by omega)).2
      simp only [entry_offset, entry_width] at this
      omega
    obtain ⟨o, ho⟩ := fat12_find_free_loop_spec (c := start) hs hfits (by omega) hsize
    refine ⟨o, ?_⟩
    rw [find_free_cluster, Fat12.find_free, bind_of_ok hseek, bind_of_ok hword, hn]
    exact ho
  | Fat16 =>
    have hseek : seek (.Start (u32 (start * 2))) s =
      .ok (.ok (start * 2), { s with offset := start * 2 }) :=
      seek_entry (t := .Fat16) (hfits start hlt)
    rw [find_free_cluster, Fat16.find_free, bind_of_ok hseek]
    exact find_free_loop_spec (fun c hc => next_fat16 hs (hfits c hc)) (by omega)
  | Fat32 =>
    have hseek : seek (.Start (u32 (start * 4))) s =
      .ok (.ok (start * 4), { s with offset := start * 4 }) :=
      seek_entry (t := .Fat32) (hfits start hlt)
    rw [find_free_cluster, Fat32.find_free, bind_of_ok hseek]
    exact find_free_loop_spec (fun c hc => next_fat32 hs (hfits c hc)) (by omega)

end Scan

/-! ## The clusters of a volume -/

/-- The table as the volume uses it: its entries from the first cluster up to `stop`. -/
def clusters (t : FatType) (stop : Nat) (s : DiskSlice) : Nat → FatValue := fun c =>
  if RESERVED_FAT_ENTRIES ≤ c ∧ c < stop then value t s.table c else .Bad

/-- A table with an entry for each cluster below `stop`, none of which is a special one. -/
structure Covers (t : FatType) (stop : Nat) (s : DiskSlice) : Prop where
  valid : s.Valid
  fits : Fits t s.size (stop - 1)
  below : stop ≤ bad_value t

def InRange (stop c : Nat) : Prop := RESERVED_FAT_ENTRIES ≤ c ∧ c < stop

section Clusters

variable {t : FatType} {stop : Nat} {s s' : DiskSlice} {c n start : Nat} {v : FatValue}

theorem Covers.kept (h : Covers t stop s) (hk : Kept s s') : Covers t stop s' :=
  ⟨hk.valid h.valid, hk.size ▸ h.fits, h.below⟩

theorem Covers.fits_of_lt (h : Covers t stop s) (hc : c < stop) : Fits t s.size c :=
  Fatfs.fits_of_lt h.fits (by omega)

theorem Covers.ordinary (h : Covers t stop s) (hc : c < stop) : ordinary t c = true := by
  have := h.below
  cases t with
  | Fat12 => rfl
  | Fat16 => rfl
  | Fat32 =>
    simp only [bad_value] at this
    have hno : ¬ (0x0FFFFFF7 ≤ c ∧ c ≤ 0x0FFFFFFF) := by omega
    simp [Fatfs.ordinary, Fat32.special, hno]

theorem clusters_of_inRange (hc : InRange stop c) :
    clusters t stop s c = value t s.table c := if_pos hc

theorem clusters_moved (o : Nat) :
    clusters t stop { s with offset := o } = clusters t stop s := (rfl)

theorem read_clusters (h : Covers t stop s) (hc : InRange stop c) : ∃ o, read_fat t c s =
    .ok (.ok (clusters t stop s c), { s with offset := o }) := by
  rw [clusters_of_inRange hc]
  exact ⟨_, read_fat_spec h.valid.serves (h.fits_of_lt hc.2)⟩

theorem write_clusters (h : Covers t stop s) (hc : InRange stop c) (hv : Storable t v) :
    ∃ s', write_fat t c v s = .ok (.ok (), s') ∧
    Kept s s' ∧ clusters t stop s' = Function.update (clusters t stop s) c v := by
  obtain ⟨_, s', hw, hwrote⟩ :=
    write_fat_spec h.valid (h.fits_of_lt hc.2) hv (fun _ => h.ordinary hc.2)
  refine ⟨s', hw, hwrote.toKept, ?_⟩
  funext d
  by_cases hd : InRange stop d
  · have := hwrote.entry_eq h.valid.serves hv (h.ordinary hc.2) (h.fits_of_lt hd.2)
    rw [entry_eq (hwrote.device ▸ h.valid.serves) (hwrote.size ▸ h.fits_of_lt hd.2),
      entry_eq h.valid.serves (h.fits_of_lt hd.2)] at this
    rw [clusters_of_inRange hd, Function.update_apply, clusters_of_inRange hd]
    by_cases hdc : d = c
    · rw [if_pos hdc] at this ⊢
      exact Option.some.inj this
    · rw [if_neg hdc] at this ⊢
      exact Option.some.inj this
  · have hdc : d ≠ c := fun he => hd (he ▸ hc)
    rw [Function.update_of_ne hdc]
    simp only [clusters, InRange] at hd ⊢
    rw [if_neg hd, if_neg hd]

/-- The first free cluster among `n` from `c` on. -/
def first_free (f : Nat → FatValue) (c n : Nat) : Option Nat :=
  (List.range' c n).find? fun c => f c = .Free

theorem first_free_eq_some {f : Nat → FatValue} : first_free f start n = some c ↔
    f c = .Free ∧ (start ≤ c ∧ c < start + n) ∧ ∀ d, start ≤ d → d < c → f d ≠ .Free := by
  simp [first_free]

theorem first_free_eq_none {f : Nat → FatValue} : first_free f start n = none ↔
    ∀ d, start ≤ d → d < start + n → f d ≠ .Free := by
  simp [first_free]

theorem find_free_clusters (h : Covers t stop s) (hstart : RESERVED_FAT_ENTRIES ≤ start)
    (hlt : start < n) (hn : n ≤ stop) :
    ∃ o, find_free_cluster t start n s =
      .ok (found (first_free (clusters t stop s) start (n - start)), { s with offset := o }) := by
  obtain ⟨o, ho⟩ :=
    find_free_cluster_raw h.valid.serves hlt (h.fits_of_lt (show n - 1 < stop by omega))
  refine ⟨o, ho.trans ?_⟩
  have hsame : first_zero t s.table start (n - start) =
    first_free (clusters t stop s) start (n - start) := by
    apply List.find?_congr
    intro c hc
    have hmem := List.mem_range'_1.mp hc
    have hr : InRange stop c := ⟨by omega, by omega⟩
    rw [clusters_of_inRange hr]
    exact decide_eq_decide.mpr (raw_eq_zero_iff (h.ordinary hr.2))
  rw [hsame]

/-- The number of free clusters. -/
def free_count (f : Nat → FatValue) (stop : Nat) : Nat :=
  (List.range' RESERVED_FAT_ENTRIES (stop - RESERVED_FAT_ENTRIES)).countP fun c => f c = .Free

end Clusters

/-- The scan of each type finds the first cluster that `read_fat` reports as free, and fails if
there is none. -/
theorem find_free_cluster_first {t : FatType} {s : DiskSlice} {start stop : Nat}
    (h : Covers t stop s) (hstart : RESERVED_FAT_ENTRIES ≤ start) (hlt : start < stop) :
    ∃ o r, find_free_cluster t start stop s = .ok (r, { s with offset := o }) ∧
      (∀ c, r = .ok c ↔ start ≤ c ∧ c < stop ∧ entry t s c = some .Free ∧
        ∀ d, start ≤ d → d < c → entry t s d ≠ some .Free) ∧
      (∀ e, r = .error e ↔ e = no_space ∧ ∀ d, start ≤ d → d < stop →
        entry t s d ≠ some .Free) := by
  obtain ⟨o, ho⟩ := find_free_clusters h hstart hlt (le_refl stop)
  have hentry : ∀ c, start ≤ c → c < stop →
    (entry t s c = some .Free ↔ clusters t stop s c = .Free) := by
    intro c h1 h2
    have hr : InRange stop c := ⟨le_trans hstart h1, h2⟩
    rw [entry_eq h.valid.serves (h.fits_of_lt h2), clusters_of_inRange hr, Option.some.injEq]
  have hsub : start + (stop - start) = stop := by omega
  refine ⟨o, _, ho, fun c => ?_, fun e => ?_⟩
  · constructor
    · intro hc
      have hsome : first_free (clusters t stop s) start (stop - start) = some c := by
        cases hf : first_free (clusters t stop s) start (stop - start) <;> simp_all [found]
      obtain ⟨h1, ⟨h2, h3⟩, h4⟩ := first_free_eq_some.mp hsome
      refine ⟨h2, by omega, (hentry c h2 (by omega)).mpr h1, fun d hd1 hd2 => ?_⟩
      exact fun hd => h4 d hd1 hd2 ((hentry d hd1 (by omega)).mp hd)
    · rintro ⟨h1, h2, h3, h4⟩
      have hsome : first_free (clusters t stop s) start (stop - start) = some c := by
        refine first_free_eq_some.mpr ⟨(hentry c h1 h2).mp h3, ⟨h1, by omega⟩,
          fun d hd1 hd2 hd => ?_⟩
        exact h4 d hd1 hd2 ((hentry d hd1 (by omega)).mpr hd)
      rw [hsome, found]
  · constructor
    · intro he
      have hnone : first_free (clusters t stop s) start (stop - start) = none := by
        cases hf : first_free (clusters t stop s) start (stop - start) <;> simp_all [found]
      rw [hnone, found, Except.error.injEq] at he
      refine ⟨he.symm, fun d hd1 hd2 hd => ?_⟩
      exact first_free_eq_none.mp hnone d hd1 (by omega) ((hentry d hd1 hd2).mp hd)
    · rintro ⟨rfl, hall⟩
      have hnone : first_free (clusters t stop s) start (stop - start) = none := by
        refine first_free_eq_none.mpr fun d hd1 hd2 hd => ?_
        exact hall d hd1 (by omega) ((hentry d hd1 (by omega)).mpr hd)
      rw [hnone, found]

theorem find_free_cluster_first_small :
    ∃ o, find_free_cluster .Fat12 2 6 small_fat = .ok (.ok 2, { small_fat with offset := o }) := by
  have hcovers : Covers .Fat12 6 small_fat := by
    refine ⟨small_fat_valid, ?_, by decide⟩
    unfold Fits
    decide
  obtain ⟨o, r, hrun, hok, _⟩ := find_free_cluster_first hcovers (le_refl 2) (by decide)
  have hfree : entry .Fat12 small_fat 2 = some .Free :=
    entry_eq hcovers.valid.serves (hcovers.fits_of_lt (by decide))
  obtain rfl := (hok 2).mpr ⟨le_refl 2, by decide, hfree, fun d hd hd2 => by omega⟩
  exact ⟨o, hrun⟩

end HectoOs.Fatfs
