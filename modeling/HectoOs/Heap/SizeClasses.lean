import HectoOs.Heap.SlabAlign

/-! # Size classes in use

`zone_index` grows with the request and tells the sizes apart, so all requests of an index want
chunks of one size. The zones of `ZONE_ARRAY[zi]` are carved for that size in every state.
-/

open HectoOs.Lib HectoOs.Heap

namespace HectoOs.Slab

/-! ## `zone_index` and the rounded size -/

section Index

variable {m n : Nat}

theorem bit_length_mono (h : m ≤ n) : bit_length m ≤ bit_length n :=
  bit_length_le (Nat.lt_of_le_of_lt h (lt_pow_bit_length n))

theorem step_le (n : Nat) : 2 ^ (max 7 (bit_length n) - 1 - 3) ≤ max 8 (n / 8) := by
  obtain ⟨i, hi⟩ : ∃ i, i = max 7 (bit_length n) - 1 - 3 := ⟨_, rfl⟩
  rw [← hi]
  by_cases h3 : i = 3
  · rw [h3]
    exact Nat.le_max_left _ _
  · have hge := pow_le_of_bit_length (show bit_length n = i + 3 + 1 by omega)
    rw [Nat.pow_add] at hge
    omega

theorem zone_index_lt_add (hn : 1 ≤ n) : (zone_index n).1 < n + max 8 (n / 8 + 1) := by
  obtain ⟨q, h⟩ := zone_index_pieces hn
  have htight := h.tight
  have hstep := step_le n
  rw [h.size]
  omega

theorem zone_index_mono (hm : 1 ≤ m) (h : m ≤ n) : (zone_index m).2 ≤ (zone_index n).2 := by
  obtain ⟨q, hq⟩ := zone_index_pieces hm
  obtain ⟨r, hr⟩ := zone_index_pieces (Nat.le_trans hm h)
  have hlen := bit_length_mono h
  generalize hi : max 7 (bit_length m) - 1 - 3 = i at hq
  generalize hj : max 7 (bit_length n) - 1 - 3 = j at hr
  have hij : i ≤ j := by omega
  rw [hq.index, hr.index]
  rcases Nat.lt_or_eq_of_le hij with hlt | rfl
  · -- a class with a larger step comes after all classes with a smaller one
    have hq16 := hq.le
    have hr8 := hr.eight_le (Nat.lt_of_le_of_lt hq.three_le hlt)
    omega
  · have htight := hq.tight
    have hfits := hr.fits
    have hlt : q * 2 ^ i < (r + 1) * 2 ^ i := by
      rw [Nat.add_mul]
      omega
    have hqr := Nat.lt_of_mul_lt_mul_right hlt
    omega

theorem pieces_index {i j q r : Nat} (hi : 3 ≤ i) (hij : i ≤ j) (hq : q ≤ 16) (hr : 3 < j → 8 ≤ r)
    (h : q * 2 ^ i = r * 2 ^ j) : q + 8 * (i - 3) = r + 8 * (j - 3) := by
  obtain ⟨k, rfl⟩ : ∃ k, j = i + k := ⟨j - i, by omega⟩
  have hpos := Nat.two_pow_pos i
  rw [Nat.pow_add, Nat.mul_comm (2 ^ i), ← Nat.mul_assoc] at h
  have hqr := Nat.eq_of_mul_eq_mul_right hpos h
  match k with
  | 0 => omega
  | 1 =>
    have := hr (by omega)
    omega
  | k + 2 =>
    have h8 := hr (by omega)
    have hk := Nat.two_pow_pos k
    have h4 : 2 ^ (k + 2) = 4 * 2 ^ k := by rw [Nat.pow_add, Nat.mul_comm]
    have h32 : 8 * (4 * 1) ≤ r * (4 * 2 ^ k) := Nat.mul_le_mul h8 (Nat.mul_le_mul_left 4 hk)
    rw [← h4] at h32
    omega

theorem zone_index_eq_iff (hm : 1 ≤ m) (hn : 1 ≤ n) :
    (zone_index m).2 = (zone_index n).2 ↔ (zone_index m).1 = (zone_index n).1 := by
  constructor
  · intro h
    rw [zone_index_class hm, zone_index_class hn, h]
  · intro h
    obtain ⟨q, hq⟩ := zone_index_pieces hm
    obtain ⟨r, hr⟩ := zone_index_pieces hn
    rw [hq.size, hr.size] at h
    rw [hq.index, hr.index]
    congr 1
    rcases Nat.le_total (max 7 (bit_length m) - 1 - 3) (max 7 (bit_length n) - 1 - 3) with hij | hji
    · exact pieces_index hq.three_le hij hq.le hr.eight_le h
    · exact (pieces_index hr.three_le hji hr.le hq.eight_le h.symm).symm

end Index

/-! ## The zones of a list -/

/-- The header of the zone at `z` says that it belongs to `ZONE_ARRAY[zi]`, and where its chunks of
`size` bytes lie. -/
structure CarvedFor (c : Statics) (m : Mem) (z zi size : Nat) : Prop where
  zoneindex : z_zoneindex m z = zi
  baseptr : z_baseptr m z = z + first_chunk size
  nmax : z_nmax m z = (c.ZONE_SIZE - first_chunk size) / size

/-- The pointer is a whole chunk of `size` bytes of the zone at `z`. -/
def IsChunk (m : Mem) (z size p : Nat) : Prop := ∃ k < z_nmax m z, p = z_baseptr m z + k * size

section Zones

variable {c : Statics} {s : SlabState} {live : List Block} {v : View} {pages : PageLayer}
  {z zi n : Nat}

theorem Inv.carved (h : Inv c s live v) {l : List Nat}
    (hl : ForwardList.IsList s.mem (s.ZONE_ARRAY zi) l) (hz : z ∈ l) :
    CarvedFor c s.mem z zi (class_size zi) := by
  have hlist : l = v.lists zi := hl.unique (h.rep.lists zi)
  obtain ⟨Z, hZ, rfl, -⟩ := (h.view.listed zi z).mp (hlist ▸ hz)
  have hst := h.rep.stored z Z hZ
  exact ⟨hst.zoneindex, hst.baseptr, hst.nmax⟩

theorem Inv.take_chunk (hc : c.Ok) (h : Inv c s live v) (hn : 1 ≤ n) (hle : n ≤ c.CHUNK_LIMIT)
    (hzn : s.ZONE_ARRAY (zone_index n).2 ≠ 0) :
    wp (fun _ => True) (malloc c n pages)
      (fun p _ => IsChunk s.mem (s.ZONE_ARRAY (zone_index n).2) (zone_index n).1 p) s := by
  have hclass := zone_index_class hn
  rw [malloc, if_neg (by omega), if_neg (by omega), hclass]
  simp only [wp_bind, wp_require, wp_get, if_pos hzn]
  refine ⟨fun _ => wp_bind.mp ?_, fun _ => trivial⟩
  obtain ⟨l, hl, -⟩ := (h.rep.lists (zone_index n).2).exists_cons hzn
  generalize s.ZONE_ARRAY (zone_index n).2 = zn at hl ⊢
  obtain ⟨Z, hZ, hzi, hpos, -⟩ := (h.view.listed (zone_index n).2 zn).mp (by simp [hl])
  have hst := h.rep.stored zn Z hZ
  have hb := h.view.zone_bounds hc h.runs hZ
  have htop := hc.top
  have hsz : class_size (zone_index n).2 = Z.size := by rw [← hzi, Zone.size]
  have hfit : n ≤ Z.size := by
    rw [← hsz, ← hclass]
    exact le_zone_index hn
  refine wp_call (count_out_spec hc h hl hZ) fun _ s₁ h₁ => ?_
  rw [hsz]
  refine wp_mono (pick_chunk_spec hc (h.view.zone_ok zn Z hZ) h₁.stored hpos hfit (by omega)) ?_
  rintro p s' ⟨m', Z', rfl, hp⟩
  obtain ⟨⟨k, hk, hpk⟩, -⟩ := hp.ok.held_chunk ⟨p, n⟩ (by simp [hp.held])
  have hmax : Z'.nmax c = Z.nmax c := by rw [Zone.nmax, Zone.size, hp.zi, Zone.nmax, Zone.size]
  refine ⟨k, ?_, ?_⟩
  · rw [hst.nmax, ← hmax]
    exact Nat.lt_of_lt_of_le hk hp.ok.uindex_le
  · rw [hst.baseptr, Zone.base, Zone.size]
    rw [Zone.base, Zone.size, hp.zi] at hpk
    exact hpk

end Zones

/-- Requests are rounded up by less than `max 8 (n / 8 + 1)` bytes to the size of their class, the
index grows with the request and names the size, and it is an index of `ZONE_ARRAY`. Hence in every
state of a run the zones of `ZONE_ARRAY[zi]` are carved for what every request of the index wants,
and that is what it gets. -/
theorem size_classes_well_defined :
    (∀ n, 1 ≤ n → n ≤ (zone_index n).1 ∧ (zone_index n).1 < n + max 8 (n / 8 + 1)) ∧
    (∀ m n, 1 ≤ m → m ≤ n → (zone_index m).2 ≤ (zone_index n).2) ∧
    (∀ m n, 1 ≤ m → 1 ≤ n →
      ((zone_index m).2 = (zone_index n).2 ↔ (zone_index m).1 = (zone_index n).1)) ∧
    (∀ n, 1 ≤ n → n ≤ 16 * 1024 → (zone_index n).2 < NZONES) ∧
    ∀ lo hi answer c, Started lo hi answer c → ∀ m es w ps,
      Meets (step c) (fun w e => e.Fits c w) (start m) es → run (step c)
      (start m) es = .ok (w, ps) →
      ∀ n, 1 ≤ n → n ≤ c.CHUNK_LIMIT →
        (∀ l, ForwardList.IsList w.slab.mem (w.slab.ZONE_ARRAY (zone_index n).2) l →
          ∀ z ∈ l, CarvedFor c w.slab.mem z (zone_index n).2 (zone_index n).1) ∧
        ∀ ans p w', w.slab.ZONE_ARRAY (zone_index n).2 ≠ 0 →
        step c w (.malloc n ans) = .ok (w', p) →
          IsChunk w.slab.mem (w.slab.ZONE_ARRAY (zone_index n).2) (zone_index n).1 p := by
  refine ⟨fun n hn => ⟨le_zone_index hn, zone_index_lt_add hn⟩,
    fun m n hm h => zone_index_mono hm h,
    fun m n hm hn => zone_index_eq_iff hm hn, fun n hn h => zone_index_lt hn h, ?_⟩
  intro lo hi answer c hstart m es w ps hfit hrun n hn hle
  have hc := hstart.ok
  obtain ⟨v, hv⟩ := run_inv hc hfit hrun
  refine ⟨fun l hl z hz => ?_, fun ans p w' hzn hs => ?_⟩
  · rw [zone_index_class hn]
    exact hv.carved hl hz
  · obtain ⟨q, s', hq, heq⟩ := wp_map_ok (hv.take_chunk hc hn hle hzn) hs
    obtain ⟨_, rfl⟩ := Prod.mk.inj heq
    exact hq

/-- After one request of 100 bytes there is a zone for the next one, and 97 bytes come from it
too. -/
theorem size_classes_second_chunk : ∃ w ps,
    run (step smallHeap) (start fun _ => 0) [.malloc 100 ⟨0x11000, []⟩] = .ok (w, ps) ∧
    (zone_index 97).2 = (zone_index 100).2 ∧
    CarvedFor smallHeap w.slab.mem 0x11000 (zone_index 97).2 104 := by
  have hstart : Started 0x10000 0x110000 0x10000 smallHeap :=
    ⟨smallHeap_init, by decide, by decide, by decide +kernel⟩
  have hfit : Meets (step smallHeap) (fun w e => e.Fits smallHeap w) (start fun _ => 0)
    [.malloc 100 ⟨0x11000, []⟩] := by
    decide +kernel
  obtain ⟨⟨w, ps⟩, hrun⟩ := ok_of_isSome
    (show (run (step smallHeap) (start fun _ => 0)
      [.malloc 100 ⟨0x11000, []⟩]).toOption.isSome by decide +kernel)
  have hseen :
    ((run (step smallHeap) (start fun _ => 0) [.malloc 100 ⟨0x11000, []⟩]).toOption.map fun r =>
      (r.1.slab.ZONE_ARRAY 12, load64 r.1.slab.mem 0x11000)) =
        some (0x11000, 0) := by decide +kernel
  rw [hrun] at hseen
  obtain ⟨hhead, hnext⟩ := Prod.mk.inj (Option.some.inj hseen)
  obtain ⟨_, _, hsame, _, hruns⟩ := size_classes_well_defined
  have h97 : zone_index 97 = (104, 12) := by decide +kernel
  have h100 : zone_index 100 = (104, 12) := by decide +kernel
  have hlist : ForwardList.IsList w.slab.mem (w.slab.ZONE_ARRAY (zone_index 97).2) [0x11000] := by
    rw [h97]
    exact ⟨hhead, by decide, hnext⟩
  refine ⟨w, ps, hrun, (hsame 97 100 (by decide) (by decide)).mpr (by rw [h97, h100]), ?_⟩
  have hcarved := (hruns _ _ _ smallHeap hstart _ _ w ps hfit hrun 97 (by decide) (by decide)).1
    _ hlist 0x11000 (by simp)
  rw [h97] at hcarved ⊢
  exact hcarved

end HectoOs.Slab
