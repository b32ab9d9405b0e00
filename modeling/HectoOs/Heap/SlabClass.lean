import HectoOs.Heap.Slab
import Mathlib.Tactic.IntervalCases
import Mathlib.Data.Nat.Log

/-! # The size classes

`zone_index` rounds a request to `q` times a power of two `2 ^ i`, with `q` from 8 to 16 above 64
bytes. The last size with one `i` is the first one with the next.
-/

open HectoOs.Lib HectoOs.Heap

namespace HectoOs.Slab

/-! ## Rounding to powers of two -/

theorem round_down_pow (v i : Nat) : round_down v (2 ^ i) = v / 2 ^ i * 2 ^ i := by
  have h := Nat.div_add_mod' v (2 ^ i)
  unfold round_down
  rw [Nat.and_two_pow_sub_one_eq_mod]
  omega

theorem round_up_pow (v i : Nat) : round_up v (2 ^ i) = (v + 2 ^ i - 1) / 2 ^ i * 2 ^ i :=
  round_down_pow _ i

theorem round_down_page (v : Nat) : round_down v PAGE = v / PAGE * PAGE := round_down_pow v 12

theorem round_up_page (v : Nat) : round_up v PAGE = (v + PAGE - 1) / PAGE * PAGE :=
  round_up_pow v 12

theorem round_down_from {z p k : Nat} (hz : z % PAGE = 0) (h : z ≤ p) (hk : k = (p - z) / PAGE) :
    round_down p PAGE = z + k * PAGE := by
  rw [round_down_page]
  simp only [PAGE] at hz hk ⊢
  omega

/-! ## `zone_index` -/

/-- The size of the chunks in the zones of `ZONE_ARRAY[zi]`. -/
def class_size (zi : Nat) : Nat :=
  if zi < 7 then (zi + 1) * 8 else ((zi + 1) % 8 + 8) * 2 ^ ((zi + 1) / 8 + 2)

/-- The number of pieces of `2 ^ i` bytes in the rounded size. -/
structure Pieces (n i q : Nat) : Prop where
  size : (zone_index n).1 = q * 2 ^ i
  index : (zone_index n).2 = q + 8 * (i - 3) - 1
  three_le : 3 ≤ i
  pos : 1 ≤ q
  le : q ≤ 16
  eight_le : 3 < i → 8 ≤ q
  fits : n ≤ q * 2 ^ i
  tight : q * 2 ^ i < n + 2 ^ i

theorem lt_pow_bit_length (n : Nat) : n < 2 ^ bit_length n := by
  unfold bit_length
  split
  · omega
  · exact Nat.lt_log2_self

theorem pow_le_of_bit_length {n k : Nat} (h : bit_length n = k + 1) : 2 ^ k ≤ n := by
  unfold bit_length at h
  split at h
  · omega
  · rename_i h0
    have hk : n.log2 = k := by omega
    rw [← hk]
    exact Nat.log2_self_le h0

theorem bit_length_le {n k : Nat} (h : n < 2 ^ k) : bit_length n ≤ k := by
  unfold bit_length
  split
  · omega
  · rename_i h0
    have := (Nat.log2_lt h0).mpr h
    omega

theorem zone_index_pieces {n : Nat} (hn : 1 ≤ n) :
    ∃ q, Pieces n (max 7 (bit_length n) - 1 - 3) q := by
  obtain ⟨i, hi⟩ : ∃ i, i = max 7 (bit_length n) - 1 - 3 := ⟨_, rfl⟩
  obtain ⟨q, hq⟩ : ∃ q, q = (n + 2 ^ i - 1) / 2 ^ i := ⟨_, rfl⟩
  have hpos : 0 < 2 ^ i := Nat.two_pow_pos i
  have hsize : (zone_index n).1 = q * 2 ^ i := by
    simp only [zone_index, ← hi, Nat.one_shiftLeft, round_up_pow, ← hq]
  have hindex : (zone_index n).2 = q + 8 * (i - 3) - 1 := by
    simp only [zone_index, ← hi, Nat.one_shiftLeft, round_up_pow, ← hq, Nat.shiftRight_eq_div_pow,
      Nat.mul_div_cancel _ hpos]
  have hdiv := Nat.div_add_mod' (n + 2 ^ i - 1) (2 ^ i)
  have hmod := Nat.mod_lt (n + 2 ^ i - 1) hpos
  rw [← hq] at hdiv
  have hlen : bit_length n ≤ i + 4 := by omega
  have hn16 : n ≤ 16 * 2 ^ i := by
    have h1 := lt_pow_bit_length n
    have h2 := Nat.pow_le_pow_right (by omega : 0 < 2) hlen
    rw [Nat.pow_add] at h2
    omega
  rw [← hi]
  refine ⟨q, hsize, hindex, by omega, ?_, ?_, ?_, by omega, by omega⟩
  · rw [hq, Nat.le_div_iff_mul_le hpos]
    omega
  · have : q < 17 := by
      rw [hq, Nat.div_lt_iff_lt_mul hpos]
      omega
    omega
  · intro h3
    have hge := pow_le_of_bit_length (show bit_length n = i + 3 + 1 by omega)
    rw [hq, Nat.le_div_iff_mul_le hpos]
    rw [Nat.pow_add] at hge
    omega

theorem pieces_class_size {i q : Nat} (hi : 3 ≤ i) (hq : 1 ≤ q) (hq16 : q ≤ 16)
    (h8 : 3 < i → 8 ≤ q) :
    q * 2 ^ i = class_size (q + 8 * (i - 3) - 1) := by
  obtain ⟨j, rfl⟩ : ∃ j, i = j + 3 := ⟨i - 3, by omega⟩
  unfold class_size
  split
  · have hj : j = 0 := by omega
    subst hj
    have hq1 : q + 8 * (0 + 3 - 3) - 1 + 1 = q := by omega
    rw [hq1]
    rfl
  · have hz : q + 8 * (j + 3 - 3) - 1 + 1 = q + 8 * j := by omega
    rw [hz]
    by_cases h : q = 16
    · subst h
      have h1 : (16 + 8 * j) % 8 + 8 = 8 := by omega
      have h2 : (16 + 8 * j) / 8 + 2 = (j + 3) + 1 := by omega
      rw [h1, h2, Nat.pow_succ 2 (j + 3)]
      omega
    · have h1 : (q + 8 * j) % 8 + 8 = q := by omega
      have h2 : (q + 8 * j) / 8 + 2 = j + 3 := by omega
      rw [h1, h2]

theorem zone_index_class {n : Nat} (hn : 1 ≤ n) :
    (zone_index n).1 = class_size (zone_index n).2 := by
  obtain ⟨q, h⟩ := zone_index_pieces hn
  rw [h.size, h.index]
  exact pieces_class_size h.three_le h.pos h.le h.eight_le

theorem le_zone_index {n : Nat} (hn : 1 ≤ n) : n ≤ (zone_index n).1 := by
  obtain ⟨q, h⟩ := zone_index_pieces hn
  rw [h.size]
  exact h.fits

theorem zone_index_le_pow {n k : Nat} (hn : 1 ≤ n) (hk : 7 ≤ k) (h : n ≤ 2 ^ k) :
    (zone_index n).1 ≤ 2 ^ k := by
  obtain ⟨q, hp⟩ := zone_index_pieces hn
  have hlen : bit_length n ≤ k + 1 := bit_length_le (by rw [Nat.pow_succ]; omega)
  generalize hi : max 7 (bit_length n) - 1 - 3 = i at hp
  have hik : i ≤ k := by omega
  have hpow : 2 ^ k = 2 ^ (k - i) * 2 ^ i := by
    rw [← Nat.pow_add, Nat.sub_add_cancel hik]
  have htight := hp.tight
  rw [hp.size, hpow]
  refine Nat.mul_le_mul_right _ ?_
  -- A multiple of the step that is below the bound plus one step is not above the bound.
  have hlt : q * 2 ^ i < (2 ^ (k - i) + 1) * 2 ^ i := by
    rw [Nat.add_mul, Nat.one_mul, ← hpow]
    omega
  exact Nat.lt_succ_iff.mp (Nat.lt_of_mul_lt_mul_right hlt)

theorem zone_index_lt {n : Nat} (hn : 1 ≤ n) (h : n ≤ 16 * 1024) : (zone_index n).2 < NZONES := by
  obtain ⟨q, hp⟩ := zone_index_pieces hn
  have hlen : bit_length n ≤ 15 := bit_length_le (by omega)
  generalize hi : max 7 (bit_length n) - 1 - 3 = i at hp
  have htight := hp.tight
  have hle := hp.le
  rw [hp.index, NZONES]
  have hi11 : i ≤ 11 := by omega
  rcases Nat.lt_or_ge i 11 with hi | hi
  · omega
  · obtain rfl : i = 11 := by omega
    omega

/-! ## The chunks of a zone -/

theorem class_size_facts : ∀ zi < NZONES, 8 ≤ class_size zi ∧ class_size zi % 8 = 0 ∧
    HEADER_SIZE ≤ first_chunk (class_size zi) ∧
    first_chunk (class_size zi) ≤ max 64 (class_size zi) := by
  decide +kernel

end HectoOs.Slab
