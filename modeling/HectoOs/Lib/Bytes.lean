import Mathlib.Data.List.Basic
import Mathlib.Data.List.GetD
import HectoOs.Lib.Memory

/-! # Lists of bytes in a memory, and numbers in lists of bytes -/

namespace HectoOs.Lib

/-- The `n` bytes from `a`. -/
def bytesAt (m : Mem) (a n : Nat) : List Byte := (List.range n).map fun i => m (a + i)

/-- The number a list of bytes spells, the lowest byte first. -/
def leValue : List Byte → Nat
  | [] => 0
  | b :: l => b.toNat + 256 * leValue l

/-- The low `n` bytes of `w`, the lowest first. -/
def leBytes : Nat → Nat → List Byte
  | 0, _ => []
  | n + 1, w => BitVec.ofNat 8 w :: leBytes n (w / 256)

variable {m m' : Mem} {a b n w : Nat} {l : List Byte}

@[simp] theorem length_bytesAt (m : Mem) (a n : Nat) : (bytesAt m a n).length = n := by
  simp [bytesAt]

theorem getElem_bytesAt {i : Nat} (h : i < (bytesAt m a n).length) :
    (bytesAt m a n)[i] = m (a + i) := by
  simp [bytesAt]

theorem bytesAt_succ (m : Mem) (a n : Nat) : bytesAt m a (n + 1) = m a :: bytesAt m (a + 1) n := by
  apply List.ext_getElem
  · simp
  · intro i h1 h2
    cases i with
    | zero => simp [getElem_bytesAt]
    | succ i =>
      simp only [getElem_bytesAt, List.getElem_cons_succ]
      congr 1
      omega

theorem bytesAt_append (m : Mem) (a n k : Nat) :
    bytesAt m a (n + k) = bytesAt m a n ++ bytesAt m (a + n) k := by
  apply List.ext_getElem
  · simp
  · intro i h1 h2
    by_cases hi : i < n
    · rw [List.getElem_append_left (by simpa using hi), getElem_bytesAt, getElem_bytesAt]
    · rw [List.getElem_append_right (by simpa using hi), getElem_bytesAt, getElem_bytesAt]
      congr 1
      simp
      omega

theorem bytesAt_same (h : SameOn m m' a (a + n)) : bytesAt m' a n = bytesAt m a n := by
  apply List.ext_getElem
  · simp
  · intro i h1 h2
    rw [getElem_bytesAt, getElem_bytesAt]
    have hi : i < n := by simpa using h1
    exact h _ (by omega) (by omega)

theorem bytesAt_writeBytes (m : Mem) (a : Nat) (l : List Byte) :
    bytesAt (writeBytes m a l) a l.length = l := by
  apply List.ext_getElem
  · simp
  · intro i h1 h2
    rw [getElem_bytesAt]
    exact holds_writeBytes m a l i h2

theorem writeBytes_nil (m : Mem) (a : Nat) : writeBytes m a [] = m := by
  funext x
  unfold writeBytes
  rw [if_neg (by simp)]

theorem writeBytes_append (m : Mem) (a : Nat) (l l' : List Byte) :
    writeBytes (writeBytes m a l) (a + l.length) l' = writeBytes m a (l ++ l') := by
  funext x
  unfold writeBytes
  rw [List.length_append]
  by_cases h2 : a + l.length ≤ x ∧ x < a + l.length + l'.length
  · rw [if_pos h2, if_pos (by omega), List.getD_append_right _ _ _ _ (by omega), Nat.sub_add_eq]
  · rw [if_neg h2]
    by_cases h1 : a ≤ x ∧ x < a + l.length
    · rw [if_pos h1, if_pos (by omega), List.getD_append _ _ _ _ (by omega)]
    · rw [if_neg h1, if_neg (by omega)]

theorem leValue_bytesAt (m : Mem) (a n : Nat) : leValue (bytesAt m a n) = loadLE m a n := by
  induction n generalizing a with
  | zero => rfl
  | succ n ih => rw [bytesAt_succ, leValue, loadLE, ih]

@[simp] theorem length_leBytes (n w : Nat) : (leBytes n w).length = n := by
  induction n generalizing w with
  | zero => rfl
  | succ n ih => simp [leBytes, ih]

theorem getElem_leBytes {i : Nat} (h : i < (leBytes n w).length) :
    (leBytes n w)[i] = BitVec.ofNat 8 (w / 256 ^ i) := by
  induction n generalizing w i with
  | zero => simp [leBytes] at h
  | succ n ih =>
    cases i with
    | zero => simp [leBytes]
    | succ i =>
      simp only [leBytes, List.getElem_cons_succ, ih]
      rw [Nat.div_div_eq_div_mul, Nat.pow_succ, Nat.mul_comm]

theorem writeBytes_leBytes (m : Mem) (a n w : Nat) :
    writeBytes m a (leBytes n w) = storeLE m a n w := by
  funext x
  unfold writeBytes storeLE
  rw [length_leBytes]
  by_cases hx : a ≤ x ∧ x < a + n
  · have hi : x - a < (leBytes n w).length := by
      rw [length_leBytes]
      omega
    rw [if_pos hx, if_pos hx, List.getD_eq_getElem?_getD, List.getElem?_eq_getElem hi,
      getElem_leBytes]
    rfl
  · rw [if_neg hx, if_neg hx]

theorem leValue_leBytes (n w : Nat) : leValue (leBytes n w) = w % 256 ^ n := by
  induction n generalizing w with
  | zero => simp [leBytes, leValue, Nat.mod_one]
  | succ n ih =>
    rw [leBytes, leValue, ih, Nat.pow_succ, Nat.mul_comm (256 ^ n), Nat.mod_mul]
    simp

theorem leValue_lt (l : List Byte) : leValue l < 256 ^ l.length := by
  induction l with
  | nil => simp [leValue]
  | cons b l ih =>
    have := b.isLt
    rw [leValue, List.length_cons, Nat.pow_succ]
    omega

theorem leBytes_leValue (l : List Byte) : leBytes l.length (leValue l) = l := by
  induction l with
  | nil => rfl
  | cons b l ih =>
    have hb := b.isLt
    have hdiv : (b.toNat + 256 * leValue l) / 256 = leValue l := by omega
    rw [List.length_cons, leBytes, leValue, hdiv, ih]
    congr 1
    apply BitVec.eq_of_toNat_eq
    simp only [BitVec.toNat_ofNat]
    omega

theorem loadLE_storeLE_same (m : Mem) (a n w : Nat) :
    loadLE (storeLE m a n w) a n = w % 256 ^ n := by
  have h := loadLE_storeLE_from m a n w n 0 (Nat.zero_add n)
  simpa using h

end HectoOs.Lib
