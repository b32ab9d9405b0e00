import HectoOs.Mm.Address
import Mathlib.Data.Nat.Bitwise

/-! # Page table entries (`arch/riscv/page_table.rs`)

An entry is a 64-bit word: nine flags, an unused bit, and the physical page number. The `bitflags`
operations are those of the crate.
-/

namespace HectoOs.Mm

abbrev PTEImpl := BitVec 64

namespace PTEImpl

def EMPTY : PTEImpl := 0
def VALID : PTEImpl := 1#64 <<< 0
def READABLE : PTEImpl := 1#64 <<< 1
def WRITABLE : PTEImpl := 1#64 <<< 2
def EXECUTABLE : PTEImpl := 1#64 <<< 3
def USER : PTEImpl := 1#64 <<< 4
def GLOBAL : PTEImpl := 1#64 <<< 5
def ACCESSED : PTEImpl := 1#64 <<< 6
def DIRTY : PTEImpl := 1#64 <<< 7
def COW : PTEImpl := 1#64 <<< 8

/-- `Self::all()`. -/
def all : PTEImpl :=
  VALID ||| READABLE ||| WRITABLE ||| EXECUTABLE ||| USER ||| GLOBAL ||| ACCESSED ||| DIRTY ||| COW

def from_bits_truncate (bits : PTEImpl) : PTEImpl := bits &&& all
def contains (e f : PTEImpl) : Bool := e &&& f == f
def insert (e f : PTEImpl) : PTEImpl := e ||| f
def remove (e f : PTEImpl) : PTEImpl := e &&& ~~~f
def set (e f : PTEImpl) (b : Bool) : PTEImpl := if b then e.insert f else e.remove f

def new (ppn : Nat) (flags : PTEImpl) : PTEImpl :=
  BitVec.ofNat 64 ppn <<< 10 ||| from_bits_truncate flags

def set_ppn (e : PTEImpl) (ppn : Nat) : PTEImpl :=
  BitVec.ofNat 64 ppn <<< 10 ||| from_bits_truncate e

/-- The mask is as wide as the board's physical page numbers. -/
def ppn (cfg : Config) (e : PTEImpl) : Nat :=
  (e >>> 10 &&& BitVec.ofNat 64 (2 ^ cfg.ppn_bits - 1)).toNat

def is_valid (e : PTEImpl) : Bool := e &&& VALID != EMPTY

/-! ## Flags as bits -/

theorem getLsbD_flag {i j : Nat} (hi : i < 64) : (1#64 <<< i).getLsbD j = decide (j = i) := by
  rw [← BitVec.twoPow_eq, BitVec.getLsbD_twoPow]
  by_cases h : i = j
  · subst h
    simp [hi]
  · simp [h, Ne.symm h]

theorem contains_flag (e : PTEImpl) {i : Nat} (hi : i < 64) :
    e.contains (1#64 <<< i) = e.getLsbD i := by
  unfold contains
  rw [← BitVec.twoPow_eq, BitVec.and_twoPow]
  cases h : e.getLsbD i with
  | true => simp
  | false =>
    have : BitVec.twoPow 64 i ≠ 0#64 := by
      intro h0
      have := congrArg (·.getLsbD i) h0
      simp [hi] at this
    simp [this.symm]

theorem getLsbD_truncate (e : PTEImpl) (i : Nat) :
    (from_bits_truncate e).getLsbD i = (e.getLsbD i && decide (i < 9)) := by
  have hall : all = BitVec.ofNat 64 (2 ^ 9 - 1) := by decide
  rw [from_bits_truncate, BitVec.getLsbD_and, hall, BitVec.getLsbD_ofNat]
  congr 1
  rw [Nat.testBit_two_pow_sub_one]
  by_cases h : i < 9
  · simp [h]
    omega
  · simp [h]

theorem getLsbD_new (p : Nat) (f : PTEImpl) {i : Nat} (hi : i < 9) :
    (new p f).getLsbD i = f.getLsbD i := by
  rw [new, BitVec.getLsbD_or, BitVec.getLsbD_shiftLeft, getLsbD_truncate]
  simp [hi, show i < 10 by omega]

theorem set_ppn_eq_new (e : PTEImpl) (p : Nat) : e.set_ppn p = new p e := rfl

theorem getLsbD_insert (e : PTEImpl) {i j : Nat} (hi : i < 64) :
    (e.insert (1#64 <<< i)).getLsbD j = (e.getLsbD j || decide (j = i)) := by
  rw [insert, BitVec.getLsbD_or, getLsbD_flag hi]

theorem getLsbD_remove (e : PTEImpl) {i j : Nat} (hi : i < 64) (hj : j < 64) :
    (e.remove (1#64 <<< i)).getLsbD j = (e.getLsbD j && !decide (j = i)) := by
  rw [remove, BitVec.getLsbD_and, BitVec.getLsbD_not, getLsbD_flag hi]
  simp [hj]

theorem is_valid_eq (e : PTEImpl) : e.is_valid = e.getLsbD 0 := by
  unfold is_valid VALID EMPTY
  rw [← BitVec.twoPow_eq, BitVec.and_twoPow]
  cases e.getLsbD 0 with
  | true => decide
  | false => decide

/-! ## The page number -/

theorem ppn_eq (cfg : Config) (e : PTEImpl) : e.ppn cfg = e.toNat / 2 ^ 10 % 2 ^ cfg.ppn_bits := by
  have hlt : 2 ^ cfg.ppn_bits - 1 < 2 ^ 64 := by
    have := Nat.pow_le_pow_right (n := 2) (by omega) cfg.ppn_bits_le
    omega
  rw [ppn, BitVec.toNat_and, BitVec.toNat_ofNat, Nat.mod_eq_of_lt hlt, BitVec.toNat_ushiftRight,
    Nat.and_two_pow_sub_one_eq_mod, Nat.shiftRight_eq_div_pow]

theorem truncate_lt (e : PTEImpl) : (from_bits_truncate e).toNat < 2 ^ 10 := by
  have hall : all.toNat = 2 ^ 9 - 1 := by decide
  rw [from_bits_truncate, BitVec.toNat_and, hall, Nat.and_two_pow_sub_one_eq_mod]
  omega

theorem ppn_lt (cfg : Config) (e : PTEImpl) : e.ppn cfg < 2 ^ cfg.ppn_bits := by
  rw [ppn_eq]
  exact Nat.mod_lt _ (Nat.two_pow_pos _)

theorem ppn_new_of_lt (cfg : Config) {p : Nat} (hp : p < 2 ^ cfg.ppn_bits) (f : PTEImpl) :
    (new p f).ppn cfg = p := by
  have h54 := Nat.pow_le_pow_right (n := 2) (by omega) cfg.ppn_bits_le
  have hshift : (BitVec.ofNat 64 p <<< 10).toNat = p * 2 ^ 10 := by
    rw [BitVec.toNat_shiftLeft, BitVec.toNat_ofNat, Nat.mod_eq_of_lt (by omega), Nat.shiftLeft_eq,
      Nat.mod_eq_of_lt (by omega)]
  have hval : (new p f).toNat = p * 2 ^ 10 + (from_bits_truncate f).toNat := by
    rw [new, BitVec.toNat_or, hshift, ← Nat.shiftLeft_eq,
      Nat.shiftLeft_add_eq_or_of_lt (truncate_lt f)]
  have hlow := truncate_lt f
  have hdiv : (p * 2 ^ 10 + (from_bits_truncate f).toNat) / 2 ^ 10 = p := by omega
  rw [ppn_eq, hval, hdiv, Nat.mod_eq_of_lt hp]

theorem ppn_new (cfg : Config) {p : Nat} (hp : p < 2 ^ 38) (f : PTEImpl) : (new p f).ppn cfg = p :=
  ppn_new_of_lt cfg (lt_of_lt_of_le hp (Nat.pow_le_pow_right (by omega) cfg.ppn_bits_ge)) f

theorem ppn_congr (cfg : Config) {e e' : PTEImpl} (h : ∀ i, 10 ≤ i → e'.getLsbD i = e.getLsbD i) :
    e'.ppn cfg = e.ppn cfg := by
  have hshift : e' >>> 10 = e >>> 10 := by
    apply BitVec.eq_of_getLsbD_eq
    intro i _
    rw [BitVec.getLsbD_ushiftRight, BitVec.getLsbD_ushiftRight, h (10 + i) (by omega)]
  rw [ppn, ppn, hshift]

attribute [irreducible] new ppn

end PTEImpl

end HectoOs.Mm
