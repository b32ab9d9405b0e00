import HectoOs.Mm.Changes

/-! # Where user areas are placed

`alloc_user_area` passes over the areas in order and takes the first gap that is large enough, with
a page left free on both sides.
-/

open HectoOs.Lib

namespace HectoOs.Mm

variable {as : AddressSpace} {size stop : Nat} {area : MapArea}

/-- At least one page lies between the pages of two ranges. -/
def VARange.Guarded (r r' : VARange) : Prop := ∀ v ∈ r.pages, ∀ w ∈ r'.pages, v + 1 < w ∨ w + 1 < v

/-- No page belongs to two areas. -/
def DisjointPages (areas : List (VARange × MapArea)) : Prop :=
  areas.Pairwise fun a b => ∀ v ∈ a.1.pages, v ∉ b.1.pages

theorem round_up_mod (a : Nat) : round_up a % 4096 = 0 := by
  simp only [round_up, PAGE_SIZE]
  omega

theorem alloc_loop_aligned {l : List (VARange × MapArea)} {va_end : Nat}
    (hle : size ≤ va_end) (ha : (va_end - size) % 4096 = 0)
    (h : AddressSpace.alloc_user_area_loop size l va_end = some stop) :
    (stop - size) % 4096 = 0 := by
  induction l generalizing va_end with
  | nil =>
    simp only [AddressSpace.alloc_user_area_loop, Option.some.injEq] at h
    exact h ▸ ha
  | cons a l ih =>
    simp only [AddressSpace.alloc_user_area_loop, Option.bind_eq_bind, Option.bind_eq_some_iff] at h
    obtain ⟨gap, hgap, h⟩ := h
    split at h
    · exact Option.some.inj h ▸ ha
    · simp only [Option.bind_eq_some_iff] at h
      obtain ⟨r, hr, n₁, h₁, n₂, h₂, h⟩ := h
      have hr := checked_round_up_eq hr
      have h₁ := checked_add_eq h₁
      have h₂ := checked_add_eq h₂
      have hup := round_up_mod a.1.stop
      simp only [PAGE_SIZE] at h₁
      refine ih (by omega) ?_ h
      rcases max_choice va_end n₂ with hmax | hmax
      · rw [hmax]
        exact ha
      · rw [hmax]
        omega

theorem disjoint_insert {k : VARange} (h : DisjointPages as.areas)
    (hk : ∀ a ∈ as.areas, k.Guarded a.1) :
    DisjointPages (SearchTree.insert VARange.cmp k area as.tree).1 := by
  have hnew : ∀ a ∈ as.areas, ∀ v ∈ k.pages, v ∉ a.1.pages := fun a ha v hv hv' => by
    have := hk a ha v hv v hv'
    omega
  rw [← as.inorder_tree] at h hnew
  rcases SearchTree.insert_spec VARange.cmp k area
    as.tree with ⟨l₁, l₂, hl, hi⟩ | ⟨l₁, k', area', l₂, hl, hi, _⟩
  · rw [hi]
    rw [hl] at h hnew
    obtain ⟨h1, h2, h3⟩ := List.pairwise_append.mp h
    refine List.pairwise_append.mpr ⟨h1, List.pairwise_cons.mpr ⟨fun b hb => hnew b (by simp [hb]),
      h2⟩, fun a ha b hb => ?_⟩
    rcases List.mem_cons.mp hb with rfl | hb
    · exact fun v hv hv' => hnew a (by simp [ha]) v hv' hv
    · exact h3 a ha b hb
  · -- the keys stay as they were
    have hkeys : (SearchTree.insert VARange.cmp k area as.tree).1.map (·.1) =
        (SearchTree.inorder as.tree).map (·.1) := by simp [hi, hl]
    have hmap : ∀ l : List (VARange × MapArea), DisjointPages l ↔
        (l.map (·.1)).Pairwise fun a b => ∀ v ∈ a.pages, v ∉ b.pages := fun l => by
      rw [List.pairwise_map]
      rfl
    rw [hmap, hkeys, ← hmap]
    exact h

/-- The areas of an address space: those of the ELF file end with the data segment, and the others
start at pages behind it. -/
structure Placed (as : AddressSpace) : Prop where
  sorted : as.areas.Pairwise fun a b => a.1.start ≤ b.1.start
  disjoint : DisjointPages as.areas
  limit : page_offset as.data_segment_max = 0
  elf : ∀ a ∈ as.areas, a.1.stop ≤ as.data_segment_max ∨ as.data_segment_max ≤ a.1.start ∧
    page_offset a.1.start = 0

theorem alloc_user_area_aligned (hlimit : page_offset as.data_segment_max = 0)
    (h : as.alloc_user_area size = some stop) : (stop - size) % 4096 = 0 := by
  unfold AddressSpace.alloc_user_area at h
  simp only [Option.bind_eq_bind, Option.bind_eq_some_iff] at h
  obtain ⟨n₁, hn₁, n₂, hn₂, h⟩ := h
  have hn₁ := checked_add_eq hn₁
  have hn₂ := checked_add_eq hn₂
  simp only [page_offset, PAGE_SIZE] at hn₁ hlimit
  exact alloc_loop_aligned (by omega) (by omega) h

/-- `alloc_user_area` finds a range of whole pages behind the data segment, with a free page before
and after it, and the areas stay disjoint when the range is inserted. -/
theorem user_area_guarded (as : AddressSpace) (size va_end : Nat) (area : MapArea) (hp : Placed as)
    (h : as.alloc_user_area size = some va_end) :
    size ≤ va_end ∧ page_offset (va_end - size) = 0 ∧
    as.data_segment_max + PAGE_SIZE ≤ va_end - size ∧
    (∀ a ∈ as.areas, (VARange.mk (va_end - size) va_end).Guarded a.1) ∧
    DisjointPages (SearchTree.insert VARange.cmp ⟨va_end - size, va_end⟩ area as.tree).1 ∧
    ((∀ a ∈ as.areas, a.1.start ≤ a.1.stop) →
      ∀ a ∈ as.areas, (VARange.mk (va_end - size) va_end).cmp a.1 ≠ .eq) := by
  have hlimit := hp.limit
  obtain ⟨h₁, hall⟩ := alloc_user_area_spec hp.sorted h
  have haligned := alloc_user_area_aligned hlimit h
  simp only [page_offset, PAGE_SIZE] at h₁ hlimit hall
  have hguard : ∀ a ∈ as.areas, (VARange.mk (va_end - size) va_end).Guarded a.1 := by
    intro a ha v hv w hw
    simp only [VARange.pages, mem_vpns, floor, ceil, PAGE_SIZE] at hv hw
    rcases hp.elf a ha with helf | ⟨hge, hstart⟩
    · omega
    · simp only [page_offset, PAGE_SIZE] at hstart
      have hapart := hall a ha
      omega
  refine ⟨by omega, haligned, by simp only [PAGE_SIZE]; omega, hguard,
    disjoint_insert hp.disjoint hguard,
    fun hord a ha he => ?_⟩
  have heq := cmp_eq_iff.mp he
  simp only [VARange.eq_iff] at heq
  have := hord a ha
  have hapart := hall a ha
  rcases hp.elf a ha with helf | ⟨hge, hstart⟩ <;> omega

/-- An address space with a data segment and an area of `0x1801` bytes behind it. -/
def twoAreas : AddressSpace :=
  ⟨⟨0, []⟩, [(⟨0x1000, 0x1800⟩, ⟨[], .Framed, 0⟩), (⟨0x6000, 0x7801⟩, ⟨[], .Framed, 0⟩)],
    .nil, 0x1800, 0x5000⟩

theorem user_area_guarded_two : Placed twoAreas ∧ twoAreas.alloc_user_area 0x234 = some 0x9234 ∧
    page_offset (0x9234 - 0x234) = 0 ∧ (VARange.mk 0x9000 0x9234).Guarded ⟨0x6000, 0x7801⟩ := by
  have hp : Placed twoAreas := by
    refine ⟨?_, ?_, by decide, ?_⟩
    · simp [twoAreas]
    · simp only [DisjointPages, twoAreas, List.pairwise_cons, List.mem_singleton, forall_eq]
      exact ⟨by decide, by simp⟩
    · simp [twoAreas, page_offset, PAGE_SIZE]
  have h : twoAreas.alloc_user_area 0x234 = some 0x9234 := by decide +kernel
  have hg := user_area_guarded twoAreas 0x234 0x9234 ⟨[], .Framed, 0⟩ hp h
  exact ⟨hp, h, hg.2.1, hg.2.2.2.1 (⟨0x6000, 0x7801⟩, ⟨[], .Framed, 0⟩) (by simp [twoAreas])⟩

end HectoOs.Mm
