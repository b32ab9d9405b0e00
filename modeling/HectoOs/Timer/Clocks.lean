import Mathlib.Algebra.Group.Nat.Defs
import Mathlib.Order.Basic

/-! # The clocks (`arch/riscv/timer.rs`)

`get_time` divides the counter by the cycles of a microsecond: 6.5 on the K210, of which 6 are left.
`get_duration` multiplies first, in 64 bits.
-/

namespace HectoOs.Timer.Clocks

inductive Board where
  | k210
  | qemu
  deriving DecidableEq, Repr

def Board.CLOCK_FREQ : Board → Nat
  | .k210 => 403000000 / 62
  | .qemu => 10000000

abbrev USEC_PER_SEC : Nat := 1000000
abbrev NSEC_PER_SEC : Nat := 1000000000

/-- With overflow checks a product of `u64` panics, without them it wraps. -/
inductive Profile where
  | dev
  | release
  deriving DecidableEq, Repr

def mul (p : Profile) (a b : Nat) : Option Nat :=
  match p with
  | .dev => if a * b < 2 ^ 64 then some (a * b) else none
  | .release => some (a * b % 2 ^ 64)

structure Duration where
  secs : Nat
  nanos : Nat
  deriving DecidableEq, Repr

def Duration.as_nanos (d : Duration) : Nat := d.secs * NSEC_PER_SEC + d.nanos

/-- `get_time` at the counter value `t`: seconds and microseconds. -/
def get_time (b : Board) (t : Nat) : Nat × Nat :=
  let usec := t / (b.CLOCK_FREQ / USEC_PER_SEC)
  (usec / USEC_PER_SEC, usec % USEC_PER_SEC)

/-- `get_duration`; `none` is a panic. -/
def get_duration (p : Profile) (b : Board) (t : Nat) : Option Duration :=
  (mul p t (NSEC_PER_SEC / 1000)).map fun cycles =>
    let nsec := cycles / (b.CLOCK_FREQ / 1000)
    ⟨nsec / NSEC_PER_SEC, nsec % NSEC_PER_SEC⟩

/-- The instant of `get_time`, in microseconds. -/
def micros (time : Nat × Nat) : Nat := time.1 * USEC_PER_SEC + time.2

/-- Two instants are at most a microsecond apart. -/
def Agree (time : Nat × Nat) (d : Duration) : Prop :=
  1000 * micros time ≤ d.as_nanos + 1000 ∧ d.as_nanos ≤ 1000 * micros time + 1000

/-- What should hold at the counter value `t`. -/
structure Right (p : Profile) (b : Board) (t : Nat) : Prop where
  no_overflow : t * (NSEC_PER_SEC / 1000) < 2 ^ 64
  agree : ∃ d, get_duration p b t = some d ∧ Agree (get_time b t) d
  monotone : ∀ t' ≤ t, ∃ d' d, get_duration p b t' = some d' ∧ get_duration p b t = some d ∧
    d'.as_nanos ≤ d.as_nanos

/-- The K210 is right for its first 84 cycles, and now and then up to 143; QEMU until the product
overflows. -/
def InRange : Board → Nat → Prop
  | .k210, t => t / 6 ≤ 13 + 2 * (t % 6)
  | .qemu, t => t * 1000000 < 2 ^ 64

instance (b : Board) (t : Nat) : Decidable (InRange b t) := by
  cases b <;> unfold InRange <;> infer_instance

section Clocks

variable {p : Profile} {b : Board} {t t' n : Nat}

theorem micros_get_time : micros (get_time b t) = t / (b.CLOCK_FREQ / USEC_PER_SEC) :=
  Nat.div_add_mod' _ _

theorem scale_eq : NSEC_PER_SEC / 1000 = 1000000 := by decide

theorem get_duration_eq_some {d : Duration} (h : get_duration p b t = some d) :
    d.as_nanos = t * 1000000 % 2 ^ 64 / (b.CLOCK_FREQ / 1000) := by
  rw [get_duration, scale_eq] at h
  obtain ⟨cycles, hmul, rfl⟩ := Option.map_eq_some_iff.mp h
  have hcycles : cycles = t * 1000000 % 2 ^ 64 := by
    cases p with
    | dev =>
      simp only [mul] at hmul
      split at hmul
      · rename_i hlt
        rw [Nat.mod_eq_of_lt hlt]
        exact (Option.some.inj hmul).symm
      · simp at hmul
    | release =>
      unfold mul at hmul
      exact (Option.some.inj hmul).symm
  rw [← hcycles]
  exact Nat.div_add_mod' _ _

theorem get_duration_isSome (h : t * 1000000 < 2 ^ 64) : ∃ d, get_duration p b t = some d := by
  rw [get_duration, scale_eq]
  cases p with
  | dev =>
    unfold mul
    rw [if_pos h]
    exact ⟨_, rfl⟩
  | release => exact ⟨_, rfl⟩

theorem wrap_le {a : Nat} (h : 2 ^ 64 ≤ a) : a % 2 ^ 64 + 2 ^ 64 ≤ a := by
  have hdiv : 1 ≤ a / 2 ^ 64 := Nat.div_pos h (Nat.two_pow_pos 64)
  have heq := Nat.div_add_mod a (2 ^ 64)
  have hmul := Nat.mul_le_mul_left (2 ^ 64) hdiv
  omega

theorem k210_behind {x : Nat} (hx : x ≤ t * 1000000) (h : 1000 * (t / 6) ≤ x / 6500 + 1000) :
    t / 6 ≤ 13 + 2 * (t % 6) := by
  omega

theorem k210_close (h : t / 6 ≤ 13 + 2 * (t % 6)) :
    1000 * (t / 6) ≤ t * 1000000 / 6500 + 1000 ∧ t * 1000000 / 6500 ≤ 1000 * (t / 6) + 1000 := by
  omega

theorem qemu_close (t : Nat) :
    1000 * (t / 10) ≤ t * 1000000 / 10000 + 1000 ∧
    t * 1000000 / 10000 ≤ 1000 * (t / 10) + 1000 := by
  omega

theorem qemu_behind {x : Nat} (hx : x + 2 ^ 64 ≤ t * 1000000) :
    ¬ 1000 * (t / 10) ≤ x / 10000 + 1000 := by
  omega

theorem inRange_lt (h : InRange b t) : t * 1000000 < 2 ^ 64 := by
  cases b with
  | k210 =>
    have h : t / 6 ≤ 13 + 2 * (t % 6) := h
    omega
  | qemu => exact h

theorem agree_iff : (∃ d, get_duration p b t = some d ∧ Agree (get_time b t) d) ↔ InRange b t := by
  constructor
  · rintro ⟨d, hd, hagree, -⟩
    rw [micros_get_time, get_duration_eq_some hd] at hagree
    cases b with
    | k210 => exact k210_behind (Nat.mod_le _ _) hagree
    | qemu =>
      by_contra hover
      exact qemu_behind (wrap_le (Nat.not_lt.mp hover)) hagree
  · intro h
    have hlt := inRange_lt h
    obtain ⟨d, hd⟩ := @get_duration_isSome p b t hlt
    refine ⟨d, hd, ?_⟩
    rw [Agree, micros_get_time, get_duration_eq_some hd, Nat.mod_eq_of_lt hlt]
    cases b with
    | k210 => exact k210_close h
    | qemu => exact qemu_close t

theorem get_duration_mono {d d' : Duration} (hlt : t * 1000000 < 2 ^ 64)
    (hle : t' ≤ t) (hd' : get_duration p b t' = some d') (hd : get_duration p b t = some d) :
    d'.as_nanos ≤ d.as_nanos := by
  have hlt' : t' * 1000000 < 2 ^ 64 := Nat.lt_of_le_of_lt (Nat.mul_le_mul_right _ hle) hlt
  rw [get_duration_eq_some hd', get_duration_eq_some hd, Nat.mod_eq_of_lt hlt,
    Nat.mod_eq_of_lt hlt']
  exact Nat.div_le_div_right (Nat.mul_le_mul_right _ hle)

end Clocks

/-- At every counter value the clocks of a board agree, and `get_duration` has not gone back,
exactly in the range of the board. -/
theorem clocks_agree_iff (p : Profile) (b : Board) (t : Nat) : Right p b t ↔ InRange b t := by
  constructor
  · intro h
    exact agree_iff.mp h.agree
  · intro h
    have hlt := inRange_lt h
    obtain ⟨d, hd⟩ := @get_duration_isSome p b t hlt
    refine ⟨by rw [scale_eq]; exact hlt, agree_iff.mpr h, fun t' hle => ?_⟩
    obtain ⟨d', hd'⟩ :=
      @get_duration_isSome p b t' (Nat.lt_of_le_of_lt (Nat.mul_le_mul_right _ hle) hlt)
    exact ⟨d', d, hd', hd, get_duration_mono hlt hle hd' hd⟩

/-- After one second of cycles on the K210 the clocks are 83 milliseconds apart; on QEMU the product
wraps after 21 days, and the duration is back at the start. -/
theorem clocks_drift : ¬ Right .release .k210 6500000 ∧ ¬ Right .dev .qemu 18446744073710 ∧
    (get_duration .release .k210 6500000 = some ⟨1, 0⟩ ∧ get_time .k210 6500000 = (1, 83333)) ∧
    get_duration .dev .qemu 18446744073710 = none ∧
    get_duration .release .qemu 18446744073710 = some ⟨0, 44⟩ := by
  refine ⟨fun h => ?_, fun h => absurd h.no_overflow (by decide),
    ⟨by decide, by decide⟩, by decide, by decide⟩
  exact absurd (agree_iff.mp h.agree) (by decide)

/-- The first 13 microseconds of the K210, and a day of QEMU. -/
example : InRange .k210 83 ∧ ¬ InRange .k210 84 ∧ InRange .qemu (86400 * 10000000) := by decide

end HectoOs.Timer.Clocks
