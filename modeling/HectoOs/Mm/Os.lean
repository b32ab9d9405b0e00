import HectoOs.Mm.Fault
import HectoOs.Mm.Filling
import HectoOs.Mm.Fork

/-! # The address spaces of the system

The kernel's address space and those of the processes share the frames. What one of them does is an
exchange of its own trackers; the others keep theirs.
-/

open HectoOs.Lib

namespace HectoOs.Mm

open PageTableImpl

/-- The memory, the kernel's address space, and the address spaces of the processes; `none` is one
that has been dropped. -/
structure Os where
  phys : Phys
  kernel : AddressSpace
  spaces : List (Option AddressSpace)

/-- The trackers of the address spaces of a list. -/
def space_trackers (l : List (Option AddressSpace)) : List Nat :=
  l.flatMap fun o => o.elim [] AddressSpace.trackers

def Os.trackers (s : Os) : List Nat := s.kernel.trackers ++ space_trackers s.spaces

/-- The trackers of everybody but one address space, which stands between `l₁` and `l₂`. -/
def others (kernel : AddressSpace) (l₁ l₂ : List (Option AddressSpace)) : List Nat :=
  kernel.trackers ++ (space_trackers l₁ ++ space_trackers l₂)

section Trackers

variable {kernel as : AddressSpace} {l l₁ l₂ : List (Option AddressSpace)} {q : Nat}

theorem split_at {o : Option AddressSpace} {i : Nat} (h : l[i]? = some o) :
    ∃ l₁ l₂, l = l₁ ++ o :: l₂ ∧ l₁.length = i ∧ ∀ o', l.set i o' = l₁ ++ o' :: l₂ := by
  obtain ⟨hi, rfl⟩ := List.getElem?_eq_some_iff.mp h
  have hl : l = l.take i ++ l[i] :: l.drop (i + 1) := by rw [List.getElem_cons_drop,
    List.take_append_drop]
  refine ⟨l.take i, l.drop (i + 1), hl, by simp; omega, fun o' => ?_⟩
  rw [List.set_eq_take_append_cons_drop, if_pos hi]

theorem mem_of_ne {o : Option AddressSpace} {j : Nat} (hj : j ≠ l₁.length)
    (h : (l₁ ++ o :: l₂)[j]? = some (some as)) :
    some as ∈ l₁ ∨ some as ∈ l₂ := by
  rcases Nat.lt_or_gt_of_ne hj with hlt | hgt
  · rw [List.getElem?_append_left hlt] at h
    exact .inl (List.mem_of_getElem? h)
  · rw [List.getElem?_append_right (by omega), List.getElem?_cons, if_neg (by omega)] at h
    exact .inr (List.mem_of_getElem? h)

theorem mem_space_trackers : q ∈ space_trackers l ↔ ∃ as, some as ∈ l ∧ q ∈ as.trackers := by
  rw [space_trackers, List.mem_flatMap]
  constructor
  · rintro ⟨o, ho, hq⟩
    cases o with
    | none => simp at hq
    | some as => exact ⟨as, ho, hq⟩
  · rintro ⟨as, has, hq⟩
    exact ⟨some as, has, hq⟩

theorem trackers_perm (φ : Phys) (o : Option AddressSpace) :
    (Os.mk φ kernel (l₁ ++ o :: l₂)).trackers.Perm
      (o.elim [] AddressSpace.trackers ++ others kernel l₁ l₂) := by
  rw [List.perm_iff_count]
  intro q
  simp only [Os.trackers, others, space_trackers, List.flatMap_append,
    List.flatMap_cons, List.count_append]
  omega

theorem mem_others_kernel (h : q ∈ kernel.trackers) : q ∈ others kernel l₁ l₂ :=
  List.mem_append_left _ h

theorem mem_others (h : some as ∈ l₁ ∨ some as ∈ l₂) (hq : q ∈ as.trackers) :
    q ∈ others kernel l₁ l₂ := by
  refine List.mem_append_right _ (List.mem_append.mpr ?_)
  exact h.imp (fun h => mem_space_trackers.mpr ⟨as, h, hq⟩) fun h =>
    mem_space_trackers.mpr ⟨as, h, hq⟩

end Trackers

/-! ## Exchanges -/

theorem Owns.of_count {cfg : Config} {mine : Fin 512 → Prop} {φ : Phys}
    {as : AddressSpace} {live rest : List Nat} (ha : AllocInv φ live)
    (hp : live.Perm (as.trackers ++ rest)) (ht : Tree cfg φ.mem as.page_table mine)
    (honce : ∀ t ∈ as.page_table.tables, live.count t = 1) :
    Owns cfg mine φ as.page_table (as.frames ++ rest) := by
  rw [AddressSpace.trackers, List.append_assoc] at hp
  refine ⟨ha.perm hp.symm, ht, fun t ht => ?_⟩
  rw [← hp.count_eq]
  exact honce t ht

theorem Owns.count_tables {cfg : Config} {mine : Fin 512 → Prop} {φ : Phys}
    {as : AddressSpace} {rest : List Nat} (h : Owns cfg mine φ as.page_table (as.frames ++ rest))
    {t : Nat} (ht : t ∈ as.page_table.tables) :
    (as.trackers ++ rest).count t = 1 := by
  rw [AddressSpace.trackers, List.append_assoc]
  exact h.once t ht

end HectoOs.Mm
