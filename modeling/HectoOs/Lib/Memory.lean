import Mathlib.Data.Nat.Basic
import Mathlib.Tactic.Ring

/-! # Byte-addressed memory

Loads and stores of little-endian words, fills and copies, and what each of them leaves alone.
-/

namespace HectoOs.Lib

abbrev Byte := BitVec 8

abbrev Mem := Nat → Byte

/-- Memory `m'` is memory `m` on the bytes from `a` to `b`. -/
def SameOn (m m' : Mem) (a b : Nat) : Prop := ∀ x, a ≤ x → x < b → m' x = m x

theorem SameOn.refl (m : Mem) (a b : Nat) : SameOn m m a b := fun _ _ _ => rfl

theorem SameOn.trans {m m' m'' : Mem} {a b : Nat} (h : SameOn m m' a b) (h' : SameOn m' m'' a b) :
    SameOn m m'' a b := fun x ha hb => (h' x ha hb).trans (h x ha hb)

theorem SameOn.mono {m m' : Mem} {a b c d : Nat} (h : SameOn m m' a b) (ha : a ≤ c) (hb : d ≤ b) :
    SameOn m m' c d := fun x hc hd => h x (by omega) (by omega)

/-- Memory `m'` is memory `m` but for the bytes from `a` to `b`. -/
def SameOff (m m' : Mem) (a b : Nat) : Prop := ∀ x, x < a ∨ b ≤ x → m' x = m x

theorem SameOff.refl (m : Mem) (a b : Nat) : SameOff m m a b := fun _ _ => rfl

theorem SameOff.trans {m m' m'' : Mem} {a b : Nat} (h : SameOff m m' a b)
    (h' : SameOff m' m'' a b) :
    SameOff m m'' a b := fun x hx => (h' x hx).trans (h x hx)

theorem SameOff.mono {m m' : Mem} {a b c d : Nat} (h : SameOff m m' a b) (hc : c ≤ a) (hd : b ≤ d) :
    SameOff m m' c d := fun x hx => h x (by omega)

theorem SameOff.sameOn {m m' : Mem} {a b c d : Nat} (h : SameOff m m' a b) (hcd : d ≤ a ∨ b ≤ c) :
    SameOn m m' c d := fun x hc hd => h x (by omega)

/-! ## Words -/

/-- The `n` bytes from `a`, the lowest address as the lowest byte. -/
def loadLE (m : Mem) (a : Nat) : Nat → Nat
  | 0 => 0
  | n + 1 => (m a).toNat + 256 * loadLE m (a + 1) n

/-- Writes the low `n` bytes of `w` from `a` on. -/
def storeLE (m : Mem) (a n w : Nat) : Mem :=
  fun x => if a ≤ x ∧ x < a + n then BitVec.ofNat 8 (w / 256 ^ (x - a)) else m x

def load64 (m : Mem) (a : Nat) : Nat := loadLE m a 8
def store64 (m : Mem) (a w : Nat) : Mem := storeLE m a 8 w
def load32 (m : Mem) (a : Nat) : Nat := loadLE m a 4
def store32 (m : Mem) (a w : Nat) : Mem := storeLE m a 4 w

theorem loadLE_lt (m : Mem) (a n : Nat) : loadLE m a n < 256 ^ n := by
  induction n generalizing a with
  | zero => simp [loadLE]
  | succ n ih =>
    have h1 := (m a).isLt
    have h2 := ih (a + 1)
    rw [loadLE, Nat.pow_succ]
    omega

theorem loadLE_same {m m' : Mem} {a n : Nat} (h : SameOn m m' a (a + n)) :
    loadLE m' a n = loadLE m a n := by
  induction n generalizing a with
  | zero => rfl
  | succ n ih =>
    rw [loadLE, loadLE, h a (by omega) (by omega), ih (h.mono (by omega) (by omega))]

theorem storeLE_sameOn (m : Mem) (a n w c d : Nat) (h : d ≤ a ∨ a + n ≤ c) :
    SameOn m (storeLE m a n w) c d := by
  intro x hc hd
  unfold storeLE
  rw [if_neg (by omega)]

theorem loadLE_storeLE_ne (m : Mem) (a n w b k : Nat) (h : b + k ≤ a ∨ a + n ≤ b) :
    loadLE (storeLE m a n w) b k = loadLE m b k :=
  loadLE_same (storeLE_sameOn m a n w b (b + k) h)

theorem loadLE_storeLE_from (m : Mem) (a n w k j : Nat) (h : j + k = n) :
    loadLE (storeLE m a n w) (a + j) k = w / 256 ^ j % 256 ^ k := by
  induction k generalizing j with
  | zero => simp [loadLE, Nat.mod_one]
  | succ k ih =>
    have hb : storeLE m a n w (a + j) = BitVec.ofNat 8 (w / 256 ^ j) := by
      unfold storeLE
      rw [if_pos (by omega), Nat.add_sub_cancel_left]
    have hdiv : w / 256 ^ (j + 1) = w / 256 ^ j / 256 := by
      rw [Nat.pow_succ, Nat.div_div_eq_div_mul]
    have hstep : loadLE (storeLE m a n w) (a + j + 1) k = w / 256 ^ j / 256 % 256 ^ k := by
      rw [Nat.add_assoc, ih (j + 1) (by omega), hdiv]
    rw [loadLE, hb, hstep, Nat.pow_succ, Nat.mul_comm (256 ^ k), Nat.mod_mul]
    simp

theorem load64_store64_same (m : Mem) (a w : Nat) (h : w < 2 ^ 64) :
    load64 (store64 m a w) a = w := by
  have hw := loadLE_storeLE_from m a 8 w 8 0 rfl
  simp only [Nat.add_zero, Nat.pow_zero, Nat.div_one] at hw
  rw [load64, store64, hw, Nat.mod_eq_of_lt (by omega)]

theorem load32_store32_same (m : Mem) (a w : Nat) (h : w < 2 ^ 32) :
    load32 (store32 m a w) a = w := by
  have hw := loadLE_storeLE_from m a 4 w 4 0 rfl
  simp only [Nat.add_zero, Nat.pow_zero, Nat.div_one] at hw
  rw [load32, store32, hw, Nat.mod_eq_of_lt (by omega)]

theorem load64_store64_ne (m : Mem) (a w b : Nat) (h : b + 8 ≤ a ∨ a + 8 ≤ b) :
    load64 (store64 m a w) b = load64 m b := loadLE_storeLE_ne m a 8 w b 8 h

theorem load32_store32_ne (m : Mem) (a w b : Nat) (h : b + 4 ≤ a ∨ a + 4 ≤ b) :
    load32 (store32 m a w) b = load32 m b := loadLE_storeLE_ne m a 4 w b 4 h

theorem load32_store64_ne (m : Mem) (a w b : Nat) (h : b + 4 ≤ a ∨ a + 8 ≤ b) :
    load32 (store64 m a w) b = load32 m b := loadLE_storeLE_ne m a 8 w b 4 h

theorem load64_store32_ne (m : Mem) (a w b : Nat) (h : b + 8 ≤ a ∨ a + 4 ≤ b) :
    load64 (store32 m a w) b = load64 m b := loadLE_storeLE_ne m a 4 w b 8 h

theorem load64_same {m m' : Mem} {a : Nat} (h : SameOn m m' a (a + 8)) : load64 m' a = load64 m a :=
  loadLE_same h

theorem load32_same {m m' : Mem} {a : Nat} (h : SameOn m m' a (a + 4)) : load32 m' a = load32 m a :=
  loadLE_same h

theorem store64_sameOn (m : Mem) (a w c d : Nat) (h : d ≤ a ∨ a + 8 ≤ c) :
    SameOn m (store64 m a w) c d := storeLE_sameOn m a 8 w c d h

theorem store32_sameOn (m : Mem) (a w c d : Nat) (h : d ≤ a ∨ a + 4 ≤ c) :
    SameOn m (store32 m a w) c d := storeLE_sameOn m a 4 w c d h

theorem store64_sameOff (m : Mem) (a w : Nat) : SameOff m (store64 m a w) a (a + 8) :=
  fun x hx => storeLE_sameOn m a 8 w x (x + 1) (by omega) x (by omega) (by omega)

theorem store32_sameOff (m : Mem) (a w : Nat) : SameOff m (store32 m a w) a (a + 4) :=
  fun x hx => storeLE_sameOn m a 4 w x (x + 1) (by omega) x (by omega) (by omega)

theorem store64_at (m : Mem) (a w : Nat) {k : Nat} (hk : k < 8) :
    store64 m a w (a + k) = BitVec.ofNat 8 (w / 256 ^ k) := by
  rw [store64, storeLE, if_pos (by omega), Nat.add_sub_cancel_left]

theorem store64_sameOn_iff {m : Mem} {a w b c : Nat} : SameOn m (store64 m a w) b c ↔
    ∀ k, k < 8 → b ≤ a + k → a + k < c → m (a + k) = BitVec.ofNat 8 (w / 256 ^ k) := by
  constructor
  · intro h k hk hb hc
    rw [← h (a + k) hb hc, store64_at m a w hk]
  · intro h x hb hc
    by_cases hx : x < a ∨ a + 8 ≤ x
    · exact store64_sameOff m a w x hx
    · obtain ⟨k, rfl⟩ : ∃ k, x = a + k := ⟨x - a, by omega⟩
      rw [store64_at m a w (by omega), h k (by omega) hb hc]

theorem load64_lt (m : Mem) (a : Nat) : load64 m a < 2 ^ 64 := by
  have := loadLE_lt m a 8
  simpa [load64] using this

/-! ## Blocks of bytes -/

/-- Sets the `n` bytes from `a` to zero. -/
def zeroBytes (m : Mem) (a n : Nat) : Mem := fun x => if a ≤ x ∧ x < a + n then 0 else m x

/-- Copies `n` bytes from `src` to `dst`. -/
def copyBytes (m : Mem) (dst src n : Nat) : Mem :=
  fun x => if dst ≤ x ∧ x < dst + n then m (src + (x - dst)) else m x

/-- Writes the bytes of a list from `a` on. -/
def writeBytes (m : Mem) (a : Nat) (l : List Byte) : Mem :=
  fun x => if a ≤ x ∧ x < a + l.length then l.getD (x - a) 0 else m x

def storeByte (m : Mem) (a : Nat) (b : Byte) : Mem := fun x => if x = a then b else m x

theorem zeroBytes_sameOn (m : Mem) (a n c d : Nat) (h : d ≤ a ∨ a + n ≤ c) :
    SameOn m (zeroBytes m a n) c d := by
  intro x hc hd
  unfold zeroBytes
  rw [if_neg (by omega)]

theorem copyBytes_sameOn (m : Mem) (dst src n c d : Nat) (h : d ≤ dst ∨ dst + n ≤ c) :
    SameOn m (copyBytes m dst src n) c d := by
  intro x hc hd
  unfold copyBytes
  rw [if_neg (by omega)]

theorem writeBytes_sameOn (m : Mem) (a : Nat) (l : List Byte) (c d : Nat)
    (h : d ≤ a ∨ a + l.length ≤ c) : SameOn m (writeBytes m a l) c d := by
  intro x hc hd
  unfold writeBytes
  rw [if_neg (by omega)]

theorem storeByte_sameOn (m : Mem) (a : Nat) (b : Byte) (c d : Nat) (h : d ≤ a ∨ a < c) :
    SameOn m (storeByte m a b) c d := by
  intro x hc hd
  unfold storeByte
  rw [if_neg (by omega)]

theorem loadLE_zeroBytes (m : Mem) (a n b k : Nat) (ha : a ≤ b) (hb : b + k ≤ a + n) :
    loadLE (zeroBytes m a n) b k = 0 := by
  induction k generalizing b with
  | zero => rfl
  | succ k ih =>
    have hz : zeroBytes m a n b = 0 := by
      unfold zeroBytes
      rw [if_pos (by omega)]
    rw [loadLE, hz, ih (b + 1) (by omega) (by omega)]
    rfl

theorem loadLE_copyBytes (m : Mem) (dst src n b k : Nat) (ha : dst ≤ b) (hb : b + k ≤ dst + n) :
    loadLE (copyBytes m dst src n) b k = loadLE m (src + (b - dst)) k := by
  induction k generalizing b with
  | zero => rfl
  | succ k ih =>
    have hc : copyBytes m dst src n b = m (src + (b - dst)) := by
      unfold copyBytes
      rw [if_pos (by omega)]
    have hs : src + (b + 1 - dst) = src + (b - dst) + 1 := by omega
    rw [loadLE, loadLE, hc, ih (b + 1) (by omega) (by omega), hs]

theorem load64_zeroBytes (m : Mem) (a n b : Nat) (ha : a ≤ b) (hb : b + 8 ≤ a + n) :
    load64 (zeroBytes m a n) b = 0 := loadLE_zeroBytes m a n b 8 ha hb

theorem zeroBytes_sameOff (m : Mem) (a n : Nat) : SameOff m (zeroBytes m a n) a (a + n) :=
  fun x hx => zeroBytes_sameOn m a n x (x + 1) (by omega) x (by omega) (by omega)

theorem load64_copyBytes (m : Mem) (dst src n b : Nat) (ha : dst ≤ b) (hb : b + 8 ≤ dst + n) :
    load64 (copyBytes m dst src n) b = load64 m (src + (b - dst)) :=
  loadLE_copyBytes m dst src n b 8 ha hb

/-! ## The same store in two memories -/

theorem store64_sameOn_self (m m' : Mem) (a w : Nat) :
    SameOn (store64 m a w) (store64 m' a w) a (a + 8) := by
  intro x ha hb
  unfold store64 storeLE
  rw [if_pos ⟨ha, hb⟩, if_pos ⟨ha, hb⟩]

theorem zeroBytes_sameOn_self (m m' : Mem) (a n : Nat) :
    SameOn (zeroBytes m a n) (zeroBytes m' a n) a (a + n) := by
  intro x ha hb
  unfold zeroBytes
  rw [if_pos ⟨ha, hb⟩, if_pos ⟨ha, hb⟩]

theorem writeBytes_sameOff (m : Mem) (a : Nat) (l : List Byte) :
    SameOff m (writeBytes m a l) a (a + l.length) :=
  fun x hx => writeBytes_sameOn m a l x (x + 1) (by omega) x (by omega) (by omega)

theorem writeBytes_sameOn_self (m m' : Mem) (a : Nat) (l : List Byte) :
    SameOn (writeBytes m a l) (writeBytes m' a l) a (a + l.length) := by
  intro x ha hb
  unfold writeBytes
  rw [if_pos ⟨ha, hb⟩, if_pos ⟨ha, hb⟩]

theorem copyBytes_sameOff (m : Mem) (dst src n : Nat) :
    SameOff m (copyBytes m dst src n) dst (dst + n) :=
  fun x hx => copyBytes_sameOn m dst src n x (x + 1) (by omega) x (by omega) (by omega)

theorem copyBytes_sameOn_self {m m' : Mem} {dst src n : Nat} (h : SameOn m m' src (src + n)) :
    SameOn (copyBytes m dst src n) (copyBytes m' dst src n) dst (dst + n) := by
  intro x ha hb
  unfold copyBytes
  rw [if_pos ⟨ha, hb⟩, if_pos ⟨ha, hb⟩]
  exact h _ (by omega) (by omega)

/-! ## Lists of words -/

/-- Writes the words of a list from `a` on. -/
def storeWords (m : Mem) (a : Nat) : List Nat → Mem
  | [] => m
  | w :: ws => storeWords (store64 m a w) (a + 8) ws

theorem storeWords_sameOff (m : Mem) (a : Nat) (ws : List Nat) :
    SameOff m (storeWords m a ws) a (a + 8 * ws.length) := by
  induction ws generalizing m a with
  | nil => exact SameOff.refl m _ _
  | cons w ws ih =>
    rw [List.length_cons]
    exact ((store64_sameOff m a w).mono (le_refl _) (by omega)).trans
      ((ih (store64 m a w) (a + 8)).mono (by omega) (by omega))

theorem storeWords_sameOn_self (m m' : Mem) (a : Nat) (ws : List Nat) :
    SameOn (storeWords m a ws) (storeWords m' a ws) a (a + 8 * ws.length) := by
  induction ws generalizing m m' a with
  | nil => exact fun x ha hb => absurd hb (by simp; omega)
  | cons w ws ih =>
    rw [List.length_cons]
    intro x ha hb
    by_cases hx : x < a + 8
    · -- the rest of the list does not reach the first word
      rw [storeWords, storeWords, storeWords_sameOff _ _ ws x (.inl hx),
        storeWords_sameOff _ _ ws x (.inl hx)]
      exact store64_sameOn_self m m' a w x ha hx
    · exact ih (store64 m a w) (store64 m' a w) (a + 8) x (by omega) (by omega)

/-! ## Bytes at an address -/

/-- The bytes `l` lie from `a` on. -/
def Holds (m : Mem) (a : Nat) (l : List Byte) : Prop := ∀ i (h : i < l.length), m (a + i) = l[i]

/-- The bytes of a word, the lowest first. -/
def word_bytes (w : Nat) : List Byte := (List.range 8).map fun i => BitVec.ofNat 8 (w / 256 ^ i)

section Holds

variable {m m' : Mem} {a : Nat} {l l' : List Byte}

theorem Holds.same (h : Holds m a l) (hs : SameOn m m' a (a + l.length)) :
    Holds m' a l := fun i hi =>
  (hs _ (Nat.le_add_right _ _) (Nat.add_lt_add_left hi _)).trans (h i hi)

theorem holds_append : Holds m a (l ++ l') ↔ Holds m a l ∧ Holds m (a + l.length) l' := by
  constructor
  · intro h
    refine ⟨fun i hi => ?_, fun i hi => ?_⟩
    · rw [h i (by rw [List.length_append]; omega), List.getElem_append_left hi]
    · have := h (l.length + i) (by rw [List.length_append]; omega)
      rw [← Nat.add_assoc] at this
      rw [this, List.getElem_append_right (Nat.le_add_right _ _)]
      simp only [Nat.add_sub_cancel_left]
  · rintro ⟨h, h'⟩ i hi
    rw [List.length_append] at hi
    by_cases hil : i < l.length
    · rw [List.getElem_append_left hil, h i hil]
    · have := h' (i - l.length) (by omega)
      rw [List.getElem_append_right (by omega), ← this]
      congr 1
      omega

theorem holds_writeBytes (m : Mem) (a : Nat) (l : List Byte) : Holds (writeBytes m a l) a l := by
  intro i hi
  rw [writeBytes, if_pos (by omega), Nat.add_sub_cancel_left]
  simp [hi]

theorem holds_store64 (m : Mem) (a w : Nat) : Holds (store64 m a w) a (word_bytes w) := by
  intro i hi
  rw [store64_at m a w (by simpa [word_bytes] using hi)]
  simp [word_bytes]

theorem length_words (ws : List Nat) : (ws.flatMap word_bytes).length = 8 * ws.length := by
  induction ws with
  | nil => rfl
  | cons w ws ih =>
    rw [List.flatMap_cons, List.length_append, ih, List.length_cons]
    simp only [word_bytes, List.length_map, List.length_range]
    omega

theorem holds_words_append {ws ws' : List Nat} : Holds m a ((ws ++ ws').flatMap word_bytes) ↔
    Holds m a (ws.flatMap word_bytes) ∧ Holds m (a + 8 * ws.length) (ws'.flatMap word_bytes) := by
  rw [List.flatMap_append, holds_append, length_words]

theorem holds_storeWords (m : Mem) (a : Nat) (ws : List Nat) :
    Holds (storeWords m a ws) a (ws.flatMap word_bytes) := by
  induction ws generalizing m a with
  | nil => exact fun i hi => absurd hi (Nat.not_lt_zero i)
  | cons w ws ih =>
    rw [List.flatMap_cons, holds_append]
    refine ⟨(holds_store64 m a w).same ?_, ih (store64 m a w) (a + 8)⟩
    -- the rest of the list starts behind the first word
    exact (storeWords_sameOff _ _ _).sameOn (.inl (by simp [word_bytes]))

end Holds

-- Words are used through the lemmas above; unfolded they are large.
attribute [irreducible] load64 store64 load32 store32

end HectoOs.Lib
