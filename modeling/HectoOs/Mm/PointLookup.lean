import Mathlib.Data.Finset.Insert
import HectoOs.Lib.SearchTree
import HectoOs.Mm.AddressSpace

/-! # Looking up the area of an address

`handle_pagefault` and `remove_area` search the areas with the empty range `va..va`.
`VARangeOrd::eq` takes both ends of a range for its own, so where two areas touch, the start of the
upper one belongs to both.
-/

open HectoOs.Lib

namespace HectoOs.Mm

/-- The key `VARangeOrd(va..va)`. -/
def point (va : Nat) : VARange := ⟨va, va⟩

/-- Pairwise disjoint ranges, none of them empty. -/
structure DisjointRanges (keys : Finset VARange) : Prop where
  nonempty : ∀ k ∈ keys, k.start < k.stop
  disjoint : ∀ j ∈ keys, ∀ k ∈ keys, j ≠ k → j.stop ≤ k.start ∨ k.stop ≤ j.start

/-- A map with these keys, in the order of `VARangeOrd`. -/
structure MapOf {ν : Type} (keys : Finset VARange) (t : BinaryTree (VARange × ν)) : Prop where
  keys : ∀ k, k ∈ (SearchTree.inorder t).map Prod.fst ↔ k ∈ keys
  sorted : ((SearchTree.inorder t).map Prod.fst).Pairwise fun j k => j.cmp k = .lt

/-- The key of `va` is equal to `r` and to no other key, compares with the others as `r` does, and
finds `r` in every map. -/
structure Unambiguous (keys : Finset VARange) (va : Nat) (r : VARange) : Prop where
  equal : (point va).cmp r = .eq
  only : ∀ k ∈ keys, (point va).cmp k = .eq → k = r
  order : ∀ k ∈ keys, k ≠ r → (point va).cmp k = r.cmp k ∧ k.cmp (point va) = k.cmp r
  found : ∀ (ν : Type) (t : BinaryTree (VARange × ν)), MapOf keys t → ∃ v rest,
    SearchTree.find VARange.cmp (point va) t = some (r, v) ∧
    SearchTree.remove VARange.cmp (point va) t = some ((r, v), rest) ∧
    (SearchTree.inorder t).Perm ((r, v) :: rest)

section Compare

variable {keys : Finset VARange} {j k r : VARange} {va : Nat}

theorem eq_point (h : k.start ≤ k.stop) : (point va).eq k = true ↔ k.start ≤ va ∧ va ≤ k.stop := by
  simp only [VARange.eq_iff]
  simp only [point]
  omega

theorem range_eq_comm (j k : VARange) : j.eq k = k.eq j := Bool.or_comm _ _

theorem cmp_of_below (h : j.stop < k.start ∨ j.stop = k.start ∧ j.start < j.stop ∧ k.start < k.stop)
    (hj : j.start ≤ j.stop) (hk : k.start ≤ k.stop) : j.cmp k = .lt ∧ k.cmp j = .gt := by
  have heq : j.eq k = false := by
    rw [Bool.eq_false_iff]
    simp only [VARange.eq_iff, ne_eq]
    omega
  have hlt : j.start < k.start := by omega
  have hgt : ¬ k.start < j.start := by omega
  constructor
  · simp [VARange.cmp, heq, hlt]
  · simp [VARange.cmp, range_eq_comm k j, heq, hgt]

theorem MapOf.split {ν : Type} {t : BinaryTree (VARange × ν)} (ht : MapOf keys t) (hr : r ∈ keys) :
    ∃ v l₁ l₂, SearchTree.inorder t = l₁ ++ (r, v) :: l₂ ∧
    (∀ x ∈ l₁, x.1 ∈ keys ∧ x.1 ≠ r ∧ x.1.cmp r = .lt) ∧
      ∀ x ∈ l₂, x.1 ∈ keys ∧ x.1 ≠ r ∧ r.cmp x.1 = .lt := by
  obtain ⟨⟨r', v⟩, hm, heq⟩ := List.mem_map.mp ((ht.keys r).mpr hr)
  obtain rfl : r = r' := heq.symm
  obtain ⟨l₁, l₂, hl⟩ := List.append_of_mem hm
  have hsorted := ht.sorted
  rw [hl, List.map_append, List.map_cons, List.pairwise_append, List.pairwise_cons] at hsorted
  obtain ⟨_, ⟨hlater, _⟩, hbefore⟩ := hsorted
  have hkeys : ∀ x ∈ l₁ ++ (r, v) :: l₂, x.1 ∈ keys := by
    intro x hx
    exact (ht.keys x.1).mp (List.mem_map_of_mem (hl ▸ hx))
  have hself : r.cmp r = .eq := cmp_eq_iff.mpr (by simp [VARange.eq])
  refine ⟨v, l₁, l₂, hl, fun x hx => ?_, fun x hx => ?_⟩
  · have hlt := hbefore x.1 (List.mem_map_of_mem hx) r List.mem_cons_self
    refine ⟨hkeys x (List.mem_append_left _ hx), ?_, hlt⟩
    intro heq
    simp [heq, hself] at hlt
  · have hlt := hlater x.1 (List.mem_map_of_mem hx)
    refine ⟨hkeys x (List.mem_append_right _ (List.mem_cons_of_mem _ hx)), ?_, hlt⟩
    intro heq
    simp [heq, hself] at hlt

variable (hk : DisjointRanges keys) (hr : r ∈ keys) (hva : r.start ≤ va ∧ va < r.stop)
include hk hr hva

theorem DisjointRanges.side (hmem : k ∈ keys) (hne : k ≠ r) (hend : k.stop ≠ va) :
    (k.stop ≤ r.start ∧ k.stop < va) ∨ r.stop ≤ k.start := by
  rcases hk.disjoint k hmem r hr hne with h | h
  · exact .inl ⟨h, by omega⟩
  · exact .inr h

theorem DisjointRanges.order (hmem : k ∈ keys) (hne : k ≠ r) (hend : k.stop ≠ va) :
    (point va).cmp k = r.cmp k ∧ k.cmp (point va) = k.cmp r ∧ (point va).cmp k ≠ .eq := by
  have hpos := hk.nonempty k hmem
  have hrpos := hk.nonempty r hr
  rcases hk.side hr hva hmem hne hend with ⟨hle, hlt⟩ | hle
  · have h₁ := cmp_of_below (j := k) (k := point va) (.inl hlt) (by omega) (le_refl _)
    have h₂ := cmp_of_below (j := k) (k := r) (by omega) (by omega) (by omega)
    exact ⟨h₁.2.trans h₂.2.symm, h₁.1.trans h₂.1.symm, by simp [h₁.2]⟩
  · have h₁ := cmp_of_below (j := point va) (k := k) (.inl (Nat.lt_of_lt_of_le hva.2 hle))
      (le_refl _) (by omega)
    have h₂ := cmp_of_below (j := r) (k := k) (by omega) (by omega) (by omega)
    exact ⟨h₁.1.trans h₂.1.symm, h₁.2.trans h₂.2.symm, by simp [h₁.1]⟩

theorem DisjointRanges.found (hends : ∀ k ∈ keys, k.stop ≠ va) {ν : Type}
    {t : BinaryTree (VARange × ν)} (ht : MapOf keys t) :
    ∃ v l₁ l₂, SearchTree.inorder t = l₁ ++ (r, v) :: l₂ ∧
      SearchTree.locate VARange.cmp (point va) t = some (l₁, (r, v), l₂) := by
  obtain ⟨v, l₁, l₂, hl, hbefore, hlater⟩ := ht.split hr
  refine ⟨v, l₁, l₂, hl, SearchTree.locate_of_divides hl (fun x hx => ?_) ?_ fun x hx => ?_⟩
  · obtain ⟨hmem, hne, hlt⟩ := hbefore x hx
    have hpos := hk.nonempty x.1 hmem
    have hrpos := hk.nonempty r hr
    rcases hk.side hr hva hmem hne (hends _ hmem) with ⟨_, hgt⟩ | hle
    · exact (cmp_of_below (j := x.1) (k := point va) (.inl hgt) (by omega) (le_refl _)).2
    · have := (cmp_of_below (j := r) (k := x.1) (by omega) (by omega) (by omega)).2
      simp [this] at hlt
  · exact cmp_eq_iff.mpr
      ((eq_point (Nat.le_of_lt (hk.nonempty r hr))).mpr ⟨hva.1, Nat.le_of_lt hva.2⟩)
  · obtain ⟨hmem, hne, hlt⟩ := hlater x hx
    rw [(hk.order hr hva hmem hne (hends _ hmem)).1]
    exact hlt

end Compare

/-- An address of a range is looked up as it should be, whatever the shape of the tree, exactly if
no other range ends at it. -/
theorem point_lookup_iff (keys : Finset VARange) (hk : DisjointRanges keys)
    (r : VARange) (hr : r ∈ keys) (va : Nat) (hva : r.start ≤ va ∧ va < r.stop) :
    Unambiguous keys va r ↔ ∀ k ∈ keys, k.stop ≠ va := by
  constructor
  · intro h k hmem hend
    have hpos := hk.nonempty k hmem
    obtain rfl := h.only k hmem (cmp_eq_iff.mpr ((eq_point (by omega)).mpr (by omega)))
    omega
  · intro hends
    refine ⟨cmp_eq_iff.mpr ((eq_point (by omega)).mpr (by omega)), fun k hmem heq => ?_,
      fun k hmem hne => ?_,
      fun ν t ht => ?_⟩
    · by_contra hne
      exact (hk.order hr hva hmem hne (hends k hmem)).2.2 heq
    · obtain ⟨h₁, h₂, _⟩ := hk.order hr hva hmem hne (hends k hmem)
      exact ⟨h₁, h₂⟩
    · obtain ⟨v, l₁, l₂, hl, hlocate⟩ := hk.found hr hva hends ht
      refine ⟨v, l₁ ++ l₂, ?_, ?_, ?_⟩
      · rw [SearchTree.find, hlocate, Option.map_some]
      · rw [SearchTree.remove, hlocate, Option.map_some]
      · rw [hl]
        exact List.perm_middle

def touching : Finset VARange := {⟨0x1000, 0x2000⟩, ⟨0x2000, 0x3000⟩}

theorem touching_keys : DisjointRanges touching := ⟨by decide, by decide⟩

theorem point_lookup_inside : Unambiguous touching 0x2800 ⟨0x2000, 0x3000⟩ :=
  (point_lookup_iff touching touching_keys ⟨0x2000, 0x3000⟩
    (by decide) 0x2800 (by decide)).mpr (by decide)

/-- At the address where the segments touch the search finds the lower one where that comes
first. -/
theorem point_lookup_at_border : DisjointRanges touching ∧ ⟨0x2000, 0x3000⟩ ∈ touching ∧
    ¬ Unambiguous touching 0x2000 ⟨0x2000, 0x3000⟩ ∧
    ∃ t : BinaryTree (VARange × Bool), MapOf touching t ∧
      SearchTree.find VARange.cmp (point 0x2000) t = some (⟨0x1000, 0x2000⟩, false) := by
  refine ⟨touching_keys, by decide, fun h => ?_, ?_⟩
  · have := h.only ⟨0x1000, 0x2000⟩ (by decide) (by decide)
    simp at this
  · refine ⟨SearchTree.spine [(⟨0x1000, 0x2000⟩, false), (⟨0x2000, 0x3000⟩, true)],
      ⟨fun k => ?_, ?_⟩, by decide⟩
    · simp [SearchTree.inorder_spine, touching]
    · rw [SearchTree.inorder_spine]
      decide

end HectoOs.Mm
