import Mathlib.Algebra.Group.Nat.Defs
import Mathlib.Data.List.Range
import HectoOs.Lib.SearchTree

/-! # Addresses and page numbers (`mm/address.rs`, `boards/*/config.rs`)

`PA`, `VA`, `PPN` and `VPN` all wrap a `usize`; they are numbers here. Arithmetic is checked, as in
the dev profile: where an operation can overflow, its model has no result or its caller checks.
-/

open HectoOs.Lib.SearchTree (Balance)

namespace HectoOs.Mm

/-! ## Constants -/

abbrev PAGE_SIZE : Nat := 4096
abbrev USIZE : Nat := 2 ^ 64
abbrev KERNEL_MAP_OFFSET : Nat := 0xFFFF_FFC0_0000_0000
/-- `KERNEL_MAP_OFFSET >> PAGE_SIZE_BITS`. -/
abbrev KERNEL_VPN_OFFSET : Nat := 0xF_FFFF_FC00_0000
/-- `MEMORY_START`, where the kernel sees the first frame of the memory. -/
abbrev MEMORY_START : Nat := 0xFFFF_FFC0_8000_0000
/-- The page number of the first frame of the memory. -/
abbrev FIRST_PPN : Nat := 0x80000
abbrev USER_STACK_SIZE : Nat := 2 ^ 13

/-! ## Conversions -/

/-- `VA::floor`: `>> PAGE_SIZE_BITS`. -/
def floor (va : Nat) : Nat := va / PAGE_SIZE

/-- `VA::ceil`: `(self.0 - 1 + PAGE_SIZE) >> PAGE_SIZE_BITS`. -/
def ceil (va : Nat) : Nat := (va + (PAGE_SIZE - 1)) / PAGE_SIZE

/-- Neither operation of `VA::ceil` overflows. -/
def ceil_checks (va : Nat) : Bool := 0 < va && va + (PAGE_SIZE - 1) < USIZE

/-- The low 12 bits. -/
def page_offset (va : Nat) : Nat := va % PAGE_SIZE

/-- `VA::from(vpn)`. -/
def vpn_va (vpn : Nat) : Nat := vpn * PAGE_SIZE

/-- `VPN::from(ppn)`: the page of the linear mapping. -/
def ppn_vpn (ppn : Nat) : Nat := ppn + KERNEL_VPN_OFFSET

/-- `PPN::from(vpn)`. The caller checks the subtraction. -/
def vpn_ppn (vpn : Nat) : Nat := vpn - KERNEL_VPN_OFFSET

/-- Where the kernel sees the frame `ppn`. -/
def frame_va (ppn : Nat) : Nat := vpn_va (ppn_vpn ppn)

/-- `round_up!(value, PAGE_SIZE)`. The caller checks the sum. -/
def round_up (value : Nat) : Nat := (value + (PAGE_SIZE - 1)) / PAGE_SIZE * PAGE_SIZE

theorem frame_va_eq (p : Nat) : frame_va p = p * 4096 + 0xFFFF_FFC0_0000_0000 := by
  simp only [frame_va, vpn_va, ppn_vpn, PAGE_SIZE, KERNEL_VPN_OFFSET, Nat.add_mul]

theorem frame_va_pos (p : Nat) : frame_va p ≠ 0 := by
  rw [frame_va_eq]
  omega

theorem frame_va_lt {p : Nat} (h : p < 2 ^ 26) : frame_va p + 4096 ≤ 2 ^ 64 := by
  rw [frame_va_eq]
  omega

theorem frame_va_apart {p q : Nat} (h : p ≠ q) :
    frame_va p + 4096 ≤ frame_va q ∨ frame_va q + 4096 ≤ frame_va p := by
  rw [frame_va_eq, frame_va_eq]
  omega

theorem vpn_ppn_frame (p : Nat) : vpn_ppn (floor (frame_va p)) = p := by
  have h : ∀ k : Nat, (p + k) * 4096 / 4096 - k = p := fun k => by omega
  exact h KERNEL_VPN_OFFSET

theorem offset_le_floor_frame (p : Nat) : KERNEL_VPN_OFFSET ≤ floor (frame_va p) := by
  have h : ∀ k : Nat, k ≤ (p + k) * 4096 / 4096 := fun k => by omega
  exact h KERNEL_VPN_OFFSET

theorem frame_va_vpn_ppn {v : Nat} (h : KERNEL_VPN_OFFSET ≤ v) :
    frame_va (vpn_ppn v) = vpn_va v := by
  have hk : ∀ k : Nat, k ≤ v → (v - k + k) * 4096 = v * 4096 := fun k hk => by omega
  exact hk KERNEL_VPN_OFFSET h

theorem vpn_ppn_le {v : Nat} (h : v ≤ 2 ^ 52) : vpn_ppn v ≤ 2 ^ 26 := by
  unfold vpn_ppn KERNEL_VPN_OFFSET
  omega

theorem vpn_ppn_add {v w : Nat} (h : KERNEL_VPN_OFFSET ≤ v) (hw : v ≤ w) :
    vpn_ppn w = vpn_ppn v + (w - v) := by
  have hk : ∀ k : Nat, k ≤ v → w - k = v - k + (w - v) := fun k hk => by omega
  exact hk KERNEL_VPN_OFFSET h

theorem ppn_vpn_vpn_ppn {v : Nat} (h : KERNEL_VPN_OFFSET ≤ v) : ppn_vpn (vpn_ppn v) = v :=
  Nat.sub_add_cancel h

theorem vpn_ppn_ppn_vpn (p : Nat) : vpn_ppn (ppn_vpn p) = p := Nat.add_sub_cancel _ _

theorem ppn_vpn_le_iff {v p : Nat} : v ≤ ppn_vpn p ↔ vpn_ppn v ≤ p :=
  Nat.sub_le_iff_le_add.symm

-- From here on an address of a frame is an atom: nothing unfolds the offset, a 52-bit literal.
attribute [irreducible] frame_va vpn_ppn ppn_vpn

/-! ## Ranges -/

/-- `VARangeOrd`: a half-open range of addresses. -/
structure VARange where
  start : Nat
  stop : Nat
  deriving DecidableEq, Repr

/-- The pages from `lo` up to, not including, `hi`. -/
def vpns (lo hi : Nat) : List Nat := List.range' lo (hi - lo)

/-- `VARangeOrd::vpn_range`; `VA::ceil` can overflow. -/
def VARange.vpn_range (r : VARange) : Option (List Nat) :=
  if ceil_checks r.stop then some (vpns (floor r.start) (ceil r.stop)) else none

/-- The pages of a range. -/
def VARange.pages (r : VARange) : List Nat := vpns (floor r.start) (ceil r.stop)

/-- `VARangeOrd::eq`: one of the two contains the other. -/
def VARange.eq (a b : VARange) : Bool :=
  (a.start ≤ b.start && b.stop ≤ a.stop) || (b.start ≤ a.start && a.stop ≤ b.stop)

/-- `VARangeOrd::cmp`. -/
def VARange.cmp (a b : VARange) : Ordering :=
  if a.eq b then .eq else if a.start < b.start then .lt else .gt

theorem VARange.eq_iff {a b : VARange} :
    a.eq b = true ↔ (a.start ≤ b.start ∧ b.stop ≤ a.stop) ∨
    (b.start ≤ a.start ∧ a.stop ≤ b.stop) := by
  simp only [VARange.eq, Bool.or_eq_true, Bool.and_eq_true, decide_eq_true_eq]

theorem cmp_eq_iff {a b : VARange} : a.cmp b = .eq ↔ a.eq b = true := by
  unfold VARange.cmp
  split
  · simp [*]
  · split <;> simp [*]

theorem mem_vpns {lo hi v : Nat} : v ∈ vpns lo hi ↔ lo ≤ v ∧ v < hi := by
  rw [vpns, List.mem_range'_1]
  omega

theorem nodup_vpns (lo hi : Nat) : (vpns lo hi).Nodup := List.nodup_range'

theorem vpns_at {lo hi v : Nat} {done later : List Nat} (h : vpns lo hi = done ++ v :: later) :
    v = lo + done.length := by
  have hget : (vpns lo hi)[done.length]? = some v := by simp [h]
  have hlen : done.length < (vpns lo hi).length := by simp [h]
  rw [vpns, List.length_range'] at hlen
  rw [vpns, List.getElem?_range' hlen] at hget
  have := Option.some.inj hget
  omega

theorem vpn_range_ne_none {r : VARange} (h : ceil_checks r.stop = true) : r.vpn_range ≠ none := by
  simp [VARange.vpn_range, h]

theorem vpn_range_eq {r : VARange} {l : List Nat} (h : r.vpn_range = some l) :
    l = vpns (floor r.start) (ceil r.stop) := by
  unfold VARange.vpn_range at h
  split at h
  · exact (Option.some.inj h).symm
  · simp at h

/-! ## Boards -/

/-- What differs between the boards: the MMIO table as pairs of address and size, and the width
of the physical page number that `PTEImpl::ppn` keeps; and how `BTreeMap` balances the areas. -/
structure Config where
  MMIO : List (Nat × Nat)
  ppn_bits : Nat
  ppn_bits_ge : 38 ≤ ppn_bits
  ppn_bits_le : ppn_bits ≤ 54
  /-- The devices lie below the memory. -/
  mmio_low : ∀ d ∈ MMIO, 0 < d.1 ∧ d.1 + d.2 ≤ 0x8000_0000
  /-- No page belongs to two devices. -/
  mmio_nodup : ( MMIO.flatMap fun d => vpns (floor d.1) (ceil (d.1 + d.2))).Nodup
  balance : Balance VARange

-- A map of up to eleven areas is one node.

def k210 : Config where
  MMIO := [(0x0C00_0000, 0x3000), (0x0C20_0000, 0x1000), (0x3800_0000, 0x1000),
    (0x3800_1000, 0x1000),
    (0x5020_0000, 0x1000), (0x5024_0000, 0x1000), (0x502B_0000, 0x1000), (0x502D_0000, 0x1000),
    (0x502E_0000, 0x1000), (0x502F_0000, 0x1000), (0x5044_0000, 0x1000), (0x5200_0000, 0x1000),
    (0x5300_0000, 0x1000), (0x5400_0000, 0x1000)]
  ppn_bits := 38
  ppn_bits_ge := by decide
  ppn_bits_le := by decide
  mmio_low := by decide
  mmio_nodup := by decide
  balance := .flat

def qemu : Config where
  MMIO := [(0x10001000, 0x1000)]
  ppn_bits := 44
  ppn_bits_ge := by decide
  ppn_bits_le := by decide
  mmio_low := by decide
  mmio_nodup := by decide
  balance := .flat

end HectoOs.Mm
