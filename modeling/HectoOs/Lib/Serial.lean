import HectoOs.Lib.Bytes
import HectoOs.Lib.Fallible

/-! # Records that are read and written field by field

A port serves bytes in order. `Serves p bytes R` says that `bytes` can be read from `p` in pieces of
any length, and `Accepts p n R` that `n` bytes can be written to it so; `R` tells the states of the
port after a part of the bytes.
-/

namespace HectoOs.Lib

/-- The part of `l` that begins at `k` and has `n` bytes. -/
def slice {α : Type} (l : List α) (k n : Nat) : List α := (l.drop k).take n

structure Port (π ε σ : Type) where
  read_exact : Nat → Fallible π ε σ (List Byte)
  write_all : List Byte → Fallible π ε σ Unit

namespace Port

variable {π ε σ : Type} (p : Port π ε σ)

def read_u8 : Fallible π ε σ Byte := do return BitVec.ofNat 8 (leValue (← p.read_exact 1))

def read_u16 : Fallible π ε σ (BitVec 16) := do return BitVec.ofNat 16 (leValue (← p.read_exact 2))

def read_u32 : Fallible π ε σ (BitVec 32) := do return BitVec.ofNat 32 (leValue (← p.read_exact 4))

def write_u8 (b : Byte) : Fallible π ε σ Unit := p.write_all (leBytes 1 b.toNat)

def write_u16 (w : BitVec 16) : Fallible π ε σ Unit := p.write_all (leBytes 2 w.toNat)

def write_u32 (w : BitVec 32) : Fallible π ε σ Unit := p.write_all (leBytes 4 w.toNat)

def Serves (bytes : List Byte) (R : List Byte → σ → Prop) : Prop :=
  ∀ k n s, k + n ≤ bytes.length → R (bytes.take k) s →
  Returns (p.read_exact n) (fun r s' => r = slice bytes k n ∧ R (bytes.take (k + n)) s') s

def Accepts (n : Nat) (R : List Byte → σ → Prop) : Prop :=
  ∀ done b s, (done ++ b).length ≤ n → R done s →
  Returns (p.write_all b) (fun _ s' => R (done ++ b) s') s

end Port

section Slices

variable {α : Type} {l l' : List α} {k n : Nat}

@[simp] theorem length_slice (h : k + n ≤ l.length) : (slice l k n).length = n := by
  rw [slice, List.length_take, List.length_drop]
  omega

theorem slice_append_right (h : l.length = k) : slice (l ++ l') k n = l'.take n := by
  subst h
  rw [slice, List.drop_left]

theorem slice_zero (l : List α) (n : Nat) : slice l 0 n = l.take n := (rfl)

end Slices

namespace Port

variable {π ε σ : Type} {p : Port π ε σ} {bytes : List Byte} {R : List Byte → σ → Prop}
  {k n : Nat} {s : σ} {done : List Byte}

theorem Serves.read_u8 (h : p.Serves bytes R) (hk : k + 1 ≤ bytes.length)
    (hs : R (bytes.take k) s) :
    Returns p.read_u8 (fun r s' => r = BitVec.ofNat 8 (leValue (slice bytes k 1)) ∧
      R (bytes.take (k + 1)) s') s := by
  refine returns_bind (h k 1 s hk hs) ?_
  rintro b s' ⟨rfl, hs'⟩
  exact returns_pure ⟨rfl, hs'⟩

theorem Serves.read_u16 (h : p.Serves bytes R) (hk : k + 2 ≤ bytes.length)
    (hs : R (bytes.take k) s) :
    Returns p.read_u16 (fun r s' => r = BitVec.ofNat 16 (leValue (slice bytes k 2)) ∧
      R (bytes.take (k + 2)) s') s := by
  refine returns_bind (h k 2 s hk hs) ?_
  rintro b s' ⟨rfl, hs'⟩
  exact returns_pure ⟨rfl, hs'⟩

theorem Serves.read_u32 (h : p.Serves bytes R) (hk : k + 4 ≤ bytes.length)
    (hs : R (bytes.take k) s) :
    Returns p.read_u32 (fun r s' => r = BitVec.ofNat 32 (leValue (slice bytes k 4)) ∧
      R (bytes.take (k + 4)) s') s := by
  refine returns_bind (h k 4 s hk hs) ?_
  rintro b s' ⟨rfl, hs'⟩
  exact returns_pure ⟨rfl, hs'⟩

end Port

/-! ## Words -/

section Words

theorem leValue_leBytes_toNat {n w : Nat} (hw : w = 8 * n) (x : BitVec w) :
    BitVec.ofNat w (leValue (leBytes n x.toNat)) = x := by
  subst hw
  apply BitVec.eq_of_toNat_eq
  have hx := x.isLt
  have hpow : (256 : Nat) ^ n = 2 ^ (8 * n) := by
    rw [show (256 : Nat) = 2 ^ 8 from rfl, ← Nat.pow_mul]
  rw [leValue_leBytes, hpow, BitVec.toNat_ofNat, Nat.mod_mod, Nat.mod_eq_of_lt hx]

theorem leBytes_word {n w : Nat} (hw : w = 8 * n) {l : List Byte} (hl : l.length = n) :
    leBytes n (BitVec.ofNat w (leValue l)).toNat = l := by
  subst hw hl
  have hpow : (256 : Nat) ^ l.length = 2 ^ (8 * l.length) := by
    rw [show (256 : Nat) = 2 ^ 8 from rfl, ← Nat.pow_mul]
  rw [BitVec.toNat_ofNat, ← hpow, Nat.mod_eq_of_lt (leValue_lt l), leBytes_leValue]

end Words

end HectoOs.Lib
