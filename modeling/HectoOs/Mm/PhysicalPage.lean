import HectoOs.Lib.Exec
import HectoOs.Heap.ForwardList
import HectoOs.Mm.Address

/-! # The frame allocator (`mm/physical_page.rs`)

A `FrameTracker` is its `ppn`. The trackers that are alive are kept in a list `live`, one entry for
each tracker, so the reference count of a frame is how often it occurs there.
-/

open HectoOs.Lib HectoOs.ForwardList

namespace HectoOs.Mm

/-- `page_usage` has `npages` counters, one for each page from `start_ppn` on. -/
structure PhyPageAllocator where
  free_list : Nat
  page_usage : Nat → Nat
  npages : Nat
  start_ppn : Nat

/-- Memory as the kernel sees it through its linear mapping, and `PHYPAGE_ALLOCATOR`. -/
structure Phys where
  mem : Mem
  allocator : PhyPageAllocator

namespace Phys

/-- The page belongs to the allocator. -/
def InRange (φ : Phys) (p : Nat) : Prop :=
  φ.allocator.start_ppn ≤ p ∧ p < φ.allocator.start_ppn + φ.allocator.npages

instance (φ : Phys) (p : Nat) : Decidable (φ.InRange p) := inferInstanceAs (Decidable (_ ∧ _))

/-- The counter of a page of the range. -/
def ref_count (φ : Phys) (p : Nat) : Nat := φ.allocator.page_usage (p - φ.allocator.start_ppn)

def set_ref_count (φ : Phys) (p n : Nat) : Phys :=
  { φ with allocator := { φ.allocator with
      page_usage := fun i => if i = p - φ.allocator.start_ppn then n else φ.allocator.page_usage i } }

def set_list (φ : Phys) (r : Mem × Nat) : Phys :=
  { mem := r.1, allocator := { φ.allocator with free_list := r.2 } }

/-- `page_usage` from `alloc_zeroed`. -/
def set_pages (φ : Phys) (start_ppn npages : Nat) : Phys :=
  { φ with allocator := { φ.allocator with page_usage := fun _ => 0, npages, start_ppn } }

def set_mem (φ : Phys) (m : Mem) : Phys := { φ with mem := m }

-- `(rfl)`, so that `simp` rewrites with these and does not leave the unfolding to the kernel.
section Fields

variable (φ : Phys) (p q n : Nat) (r : Mem × Nat) (m : Mem)

@[simp] theorem set_list_mem : (φ.set_list r).mem = r.1 := (rfl)
@[simp] theorem set_list_free_list : (φ.set_list r).allocator.free_list = r.2 := (rfl)
@[simp] theorem set_list_start_ppn :
    (φ.set_list r).allocator.start_ppn = φ.allocator.start_ppn := (rfl)
@[simp] theorem set_list_npages : (φ.set_list r).allocator.npages = φ.allocator.npages := (rfl)
@[simp] theorem set_list_ref_count : (φ.set_list r).ref_count p = φ.ref_count p := (rfl)
@[simp] theorem set_list_inRange : (φ.set_list r).InRange p ↔ φ.InRange p := (Iff.rfl)

@[simp] theorem set_ref_count_mem : (φ.set_ref_count p n).mem = φ.mem := (rfl)
@[simp] theorem set_ref_count_free_list :
    (φ.set_ref_count p n).allocator.free_list = φ.allocator.free_list := (rfl)
@[simp] theorem set_ref_count_start_ppn :
    (φ.set_ref_count p n).allocator.start_ppn = φ.allocator.start_ppn := (rfl)
@[simp] theorem set_ref_count_npages :
    (φ.set_ref_count p n).allocator.npages = φ.allocator.npages := (rfl)
@[simp] theorem set_ref_count_inRange : (φ.set_ref_count p n).InRange q ↔ φ.InRange q := (Iff.rfl)

@[simp] theorem set_pages_mem : (φ.set_pages p n).mem = φ.mem := (rfl)
@[simp] theorem set_pages_free_list :
    (φ.set_pages p n).allocator.free_list = φ.allocator.free_list := (rfl)
@[simp] theorem set_pages_start_ppn : (φ.set_pages p n).allocator.start_ppn = p := (rfl)
@[simp] theorem set_pages_npages : (φ.set_pages p n).allocator.npages = n := (rfl)
@[simp] theorem set_pages_ref_count : (φ.set_pages p n).ref_count q = 0 := (rfl)
@[simp] theorem set_pages_inRange : (φ.set_pages p n).InRange q ↔ p ≤ q ∧ q < p + n := (Iff.rfl)

@[simp] theorem set_mem_mem : (φ.set_mem m).mem = m := (rfl)
@[simp] theorem set_mem_set_mem (m' : Mem) : (φ.set_mem m).set_mem m' = φ.set_mem m' := (rfl)
@[simp] theorem set_mem_allocator : (φ.set_mem m).allocator = φ.allocator := (rfl)
@[simp] theorem set_mem_ref_count : (φ.set_mem m).ref_count p = φ.ref_count p := (rfl)
@[simp] theorem set_mem_inRange : (φ.set_mem m).InRange p ↔ φ.InRange p := (Iff.rfl)

end Fields

theorem ref_count_set_ref_count {φ : Phys} {p q n : Nat} (hp : φ.InRange p) (hq : φ.InRange q) :
    (φ.set_ref_count p n).ref_count q = if q = p then n else φ.ref_count q := by
  unfold InRange at hp hq
  have hiff : q - φ.allocator.start_ppn = p - φ.allocator.start_ppn ↔ q = p := by omega
  unfold ref_count set_ref_count
  simp only [hiff]

end Phys

/-- Why the kernel stops: a failed check (`assert!`, `unwrap`, an index, an overflow), or
`frame_alloc().unwrap()` with no frame left. -/
inductive Panic where
  | assert
  | out_of_frames
  deriving DecidableEq, Repr

abbrev Kernel := Exec Panic Phys

def assert (c : Bool) : Kernel Unit := Exec.require .assert c

namespace PhyPageAllocator

/-- `&mut *self.page_usage.add(ppn - self.start_ppn)`: outside the array there is no counter. -/
def usage (ppn : Nat) : Kernel Nat := do
  let φ ← get
  assert (φ.InRange ppn)
  return φ.ref_count ppn

/-- `init`, with the end of the kernel image and the end of memory. Pages are pushed from the last
to the first. -/
def init (ekernel memory_end : Nat) : Kernel Unit := do
  assert (ceil_checks ekernel)
  let start := ceil ekernel
  let stop := floor memory_end
  modify fun φ => φ.set_list
    ((vpns start stop).reverse.foldl (fun r vpn => push_front r.1 r.2 (vpn_va vpn))
      (φ.mem, φ.allocator.free_list))
  -- `end - start`, and the conversion of `start` to a physical page
  assert (start ≤ stop)
  assert (KERNEL_VPN_OFFSET ≤ start)
  modify (·.set_pages (vpn_ppn start) (stop - start))

def alloc : Kernel (Option Nat) := do
  let φ ← get
  let page := φ.allocator.free_list
  if page = 0 then
    return none
  else
    set (φ.set_list (pop_front φ.mem page))
    assert (KERNEL_VPN_OFFSET ≤ floor page)
    let ppn := vpn_ppn (floor page)
    let count ← usage ppn
    assert (count == 0)
    modify (·.set_ref_count ppn 1)
    return some ppn

/-- `dealloc`, run by `FrameTracker::drop`. -/
def dealloc (ppn : Nat) : Kernel Unit := do
  let count ← usage ppn
  assert (0 < count)
  modify (·.set_ref_count ppn (count - 1))
  if count - 1 = 0 then
    let page := frame_va ppn
    assert (page != 0)
    modify fun φ => φ.set_list (push_front φ.mem φ.allocator.free_list page)

/-- `clone`, run by `FrameTracker::clone`. -/
def clone (ppn : Nat) : Kernel Unit := do
  let count ← usage ppn
  assert (0 < count)
  modify (·.set_ref_count ppn (count + 1))

def get_ref_count (ppn : Nat) : Kernel Nat := do
  let count ← usage ppn
  assert (0 < count)
  return count

end PhyPageAllocator

/-- `frame_alloc().unwrap()`. -/
def frame_alloc : Kernel Nat := do Exec.unwrap .out_of_frames (← PhyPageAllocator.alloc)

/-! ## The invariant -/

/-- The counters count the live trackers, and the free list threads the pages nobody holds. -/
structure AllocInv (φ : Phys) (live : List Nat) : Prop where
  bound : φ.allocator.start_ppn + φ.allocator.npages ≤ 2 ^ 26
  free : ∃ l : List Nat, IsList φ.mem φ.allocator.free_list (l.map frame_va) ∧
    ∀ p, p ∈ l ↔ φ.InRange p ∧ live.count p = 0
  usage : ∀ p, φ.InRange p → φ.ref_count p = live.count p
  range : ∀ p ∈ live, φ.InRange p

/-- The frame `p` reads the same in both memories. -/
def SameFrame (m m' : Mem) (p : Nat) : Prop := SameOn m m' (frame_va p) (frame_va p + 4096)

namespace SameFrame

variable {m m' m'' : Mem} {p q : Nat}

theorem refl (m : Mem) (p : Nat) : SameFrame m m p := SameOn.refl _ _ _

theorem trans (h : SameFrame m m' p) (h' : SameFrame m' m'' p) : SameFrame m m'' p :=
  SameOn.trans h h'

theorem of_ne {a b : Nat} (hne : p ≠ q) (ha : frame_va p ≤ a) (hb : b ≤ frame_va p + 4096)
    (h : ∀ c d, d ≤ a ∨ b ≤ c → SameOn m m' c d) : SameFrame m m' q := by
  apply h
  rcases frame_va_apart hne with h' | h'
  · exact .inr (by omega)
  · exact .inl (by omega)

end SameFrame

namespace AllocInv

variable {φ : Phys} {live : List Nat} {p : Nat}

theorem lt (h : AllocInv φ live) (hp : φ.InRange p) : p < 2 ^ 26 := by
  have := h.bound
  unfold Phys.InRange at hp
  omega

theorem congr {live' : List Nat} (h : AllocInv φ live) (hc : ∀ p, live'.count p = live.count p) :
    AllocInv φ live' where
  bound := h.bound
  free := by
    obtain ⟨l, hl, hm⟩ := h.free
    exact ⟨l, hl, fun p => by rw [hm, hc]⟩
  usage p hp := by rw [h.usage p hp, hc]
  range p hp := h.range p (List.count_pos_iff.mp (by rw [← hc]; exact List.count_pos_iff.mpr hp))

theorem perm {live' : List Nat} (h : AllocInv φ live) (hp : live'.Perm live) : AllocInv φ live' :=
  h.congr fun p => hp.count_eq p

theorem write {m : Mem} (h : AllocInv φ live)
    (hm : ∀ p, φ.InRange p → p ∉ live → SameFrame φ.mem m p) : AllocInv (φ.set_mem m) live where
  bound := h.bound
  free := by
    obtain ⟨l, hl, hmem⟩ := h.free
    refine ⟨l, isList_same hl ?_, hmem⟩
    intro a ha
    obtain ⟨p, hp, rfl⟩ := List.mem_map.mp ha
    have hnot : p ∉ live := List.count_eq_zero.mp ((hmem p).mp hp).2
    exact (hm p ((hmem p).mp hp).1 hnot).mono (le_refl _) (by omega)
  usage := h.usage
  range := h.range

theorem nodup_free {l : List Nat}
    (hl : IsList φ.mem φ.allocator.free_list (l.map frame_va)) : l.Nodup :=
  List.Nodup.of_map _ hl.nodup

theorem links_apart {l : List Nat} (hp : p ∉ l) :
    ∀ a ∈ l.map frame_va, a + 8 ≤ frame_va p ∨ frame_va p + 8 ≤ a := by
  intro a ha
  obtain ⟨q, hq, rfl⟩ := List.mem_map.mp ha
  have hne : q ≠ p := fun he => hp (he ▸ hq)
  rcases frame_va_apart hne with h' | h' <;> omega

end AllocInv

end HectoOs.Mm
