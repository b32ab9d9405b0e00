import HectoOs.Mm.Areas

/-! # Kernel stacks

The stacks of all threads lie in the last gibibyte, under one entry of the kernel's root. Mapping
and unmapping them changes tables that every process shares.
-/

open HectoOs.Lib

namespace HectoOs.Mm

open PageTableImpl

/-- Thread identifiers have their stacks in the last gibibyte. -/
abbrev MAX_TID : Nat := 65535

/-! ## Where the stacks are -/

section Range

variable {tid tid' v w : Nat} {r r' : VARange}

theorem stack_range_isSome (ht : tid < MAX_TID) : ∃ r, get_kernel_stack_range tid = some r := by
  unfold get_kernel_stack_range
  rw [if_pos]
  · exact ⟨_, rfl⟩
  · simp only [MAX_TID, KERNEL_STACK_ALIGN_SIZE, KERNEL_STACK_SIZE, KERNEL_STACK_TOP, USIZE] at *
    omega

theorem stack_range_eq (h : get_kernel_stack_range tid = some r) :
    r = ⟨2 ^ 64 - 2 ^ 14 - tid * 2 ^ 14 - 2 ^ 13, 2 ^ 64 - 2 ^ 14 - tid * 2 ^ 14⟩ := by
  unfold get_kernel_stack_range at h
  split at h
  · exact (Option.some.inj h).symm
  · simp at h

theorem mem_stack_pages (ht : tid < MAX_TID) (h : get_kernel_stack_range tid = some r) :
    v ∈ vpns (floor r.start) (ceil r.stop) ↔ 2 ^ 52 - 6 - 4 * tid ≤ v ∧
    v < 2 ^ 52 - 4 - 4 * tid := by
  rw [stack_range_eq h, mem_vpns]
  simp only [floor, ceil, PAGE_SIZE, MAX_TID] at *
  omega

theorem stack_page_index (ht : tid < MAX_TID) (h : get_kernel_stack_range tid = some r)
    (hv : v ∈ vpns (floor r.start) (ceil r.stop)) :
    vpn_index v 18 = 511 ∧ 2 ^ 52 - 2 ^ 18 ≤ v ∧ v < 2 ^ 52 := by
  have hv := (mem_stack_pages ht h).mp hv
  simp only [MAX_TID] at ht
  refine ⟨Fin.ext ?_, by omega, by omega⟩
  have h511 : (511 : Fin 512).val = 511 := rfl
  rw [vpn_index_val, h511]
  omega

theorem stack_range_inj (ht : tid < MAX_TID) (ht' : tid' < MAX_TID)
    (h : get_kernel_stack_range tid = some r) (h' : get_kernel_stack_range tid' = some r')
    (he : r.cmp r' = .eq) : r = r' := by
  have heq := cmp_eq_iff.mp he
  have hr := stack_range_eq h
  have hr' := stack_range_eq h'
  subst hr hr'
  simp only [VARange.eq_iff, MAX_TID] at heq ht ht'
  have : tid = tid' := by omega
  rw [this]

theorem stack_key_inj (hv : 2 ^ 52 - 2 ^ 18 ≤ v ∧ v < 2 ^ 52)
    (hw : 2 ^ 52 - 2 ^ 18 ≤ w ∧ w < 2 ^ 52) (h : key v = key w) : v = w := by
  unfold key at h
  omega

end Range

/-! ## What is mapped there -/

variable {cfg : Config} {m m' : Mem} {kernel kernel' : AddressSpace} {φ φ' : Phys}

/-- The areas of the kernel are stacks of threads, and the pages in their gibibyte are those that
the areas hold trackers for. -/
structure Stacks (cfg : Config) (m : Mem) (kernel : AddressSpace) : Prop where
  valid : (read_pte m kernel.page_table.root 511).is_valid = true
  keys : ∀ a ∈ kernel.areas, ∃ tid, tid < MAX_TID ∧ get_kernel_stack_range tid = some a.1
  pages : ∀ a ∈ kernel.areas, (a.2.data_frames.map (·.1)).Perm
    (vpns (floor a.1.start) (ceil a.1.stop))
  mapped : ∀ x ∈ kernel.pages, (lookup cfg m kernel.page_table x.vpn).isSome
  tracked : ∀ v e, vpn_index v 18 = 511 → lookup cfg m kernel.page_table v = some e →
    ∃ x ∈ kernel.pages, key x.vpn = key v ∧ x.ppn = e.ppn cfg
  distinct : (kernel.pages.map Page.vpn).Nodup

namespace Stacks

theorem congr (h : Stacks cfg m kernel) (ht : Tree cfg m kernel.page_table fun _ => True)
    (hs : ∀ t ∈ kernel.page_table.tables, SameFrame m m' t) : Stacks cfg m' kernel := by
  have hl : ∀ v, lookup cfg m' kernel.page_table v = lookup cfg m kernel.page_table v :=
    fun v => lookup_congr ht hs trivial
  refine ⟨?_, h.keys, h.pages, fun x hx => ?_, fun v e hv he => ?_, h.distinct⟩
  · rw [read_pte_same (hs _ List.mem_cons_self)]
    exact h.valid
  · rw [hl]
    exact h.mapped x hx
  · rw [hl] at he
    exact h.tracked v e hv he

theorem mem_vpns {a : VARange × MapArea} {x : Page}
    (h : Stacks cfg m kernel) (ha : a ∈ kernel.areas) (hx : x ∈ a.2.pages) :
    x.vpn ∈ vpns (floor a.1.start) (ceil a.1.stop) := by
  obtain ⟨y, hy, rfl⟩ := List.mem_map.mp hx
  exact (h.pages a ha).mem_iff.mp (List.mem_map_of_mem hy)

theorem range {x : Page} (h : Stacks cfg m kernel) (hx : x ∈ kernel.pages) :
    vpn_index x.vpn 18 = 511 ∧ 2 ^ 52 - 2 ^ 18 ≤ x.vpn ∧ x.vpn < 2 ^ 52 := by
  obtain ⟨a, ha, hxa⟩ := List.mem_flatMap.mp hx
  obtain ⟨tid, ht, hr⟩ := h.keys a ha
  exact stack_page_index ht hr (h.mem_vpns ha hxa)

theorem fresh {tid : Nat} {r : VARange} (h : Stacks cfg m kernel)
    (ht : tid < MAX_TID) (hr : get_kernel_stack_range tid = some r)
    (hunmapped : ∀ v ∈ vpns (floor r.start) (ceil r.stop),
    lookup cfg m kernel.page_table v = none) :
    ∀ a ∈ kernel.areas, r.cmp a.1 ≠ .eq := by
  intro a ha he
  obtain ⟨tid', ht', hr'⟩ := h.keys a ha
  have hra := stack_range_inj ht ht' hr hr' he
  have hfirst : 2 ^ 52 - 6 - 4 * tid ∈ vpns (floor r.start) (ceil r.stop) := by
    rw [mem_stack_pages ht hr]
    simp only [MAX_TID] at ht
    omega
  have hnone := hunmapped _ hfirst
  rw [hra] at hfirst
  obtain ⟨y, hy, hyv⟩ := List.mem_map.mp ((h.pages a ha).mem_iff.mpr hfirst)
  have hmapped :=
    h.mapped (Page.of a.2.map_perm y) (List.mem_flatMap.mpr ⟨a, ha, List.mem_map_of_mem hy⟩)
  rw [← hyv] at hnone
  rw [Page.of, hnone] at hmapped
  simp at hmapped

theorem insert {tid : Nat} {r : VARange} {area area' : MapArea} {rest : List Nat}
    {φ₁ : Phys} {new : List (Nat × Nat)} (h : Stacks cfg φ.mem kernel)
    (ha : AllocInv φ' (kernel'.trackers ++ rest)) (ht : tid < MAX_TID)
    (hr : get_kernel_stack_range tid = some r) (harea : area.data_frames = [])
    (hnew : new.map (·.1) = vpns (floor r.start) (ceil r.stop))
    (hi : Inserted cfg (fun _ => True) rest φ kernel r area φ₁ area' new φ' kernel') :
    Stacks cfg φ'.mem kernel' := by
  have hmaps := hi.maps
  have hfr : area'.data_frames.Perm new := by simpa [harea] using hi.filled.frames
  have hpages' : area'.pages.Perm (new.map (Page.of area.map_perm)) := by
    rw [MapArea.pages, hi.filled.map_perm]
    exact hfr.map _
  have hindex : ∀ y ∈ new, vpn_index y.1 18 = 511 ∧ 2 ^ 52 - 2 ^ 18 ≤ y.1 ∧ y.1 < 2 ^ 52 :=
    fun y hy => stack_page_index ht hr (hnew ▸ List.mem_map_of_mem hy)
  have hunmapped : ∀ y ∈ new, lookup cfg φ.mem kernel.page_table y.1 = none :=
    fun y hy => hmaps.unmapped (y.1, _) (List.mem_map.mpr ⟨y, hy, rfl⟩)
  have hfresh := h.fresh ht hr fun v hv => by
    rw [← hnew] at hv
    obtain ⟨y, hy, rfl⟩ := List.mem_map.mp hv
    exact hunmapped y hy
  have hareas : kernel'.areas.Perm ((r, area') :: kernel.areas) :=
    hi.areas ▸ AddressSpace.insert_perm area' hfresh
  have hmem : ∀ a ∈ kernel'.areas, a = (r, area') ∨ a ∈ kernel.areas :=
    fun a ha => List.mem_cons.mp (hareas.mem_iff.mp ha)
  have hperm : kernel'.pages.Perm (new.map (Page.of area.map_perm) ++ kernel.pages) :=
    (hareas.flatMap_right _).trans (hpages'.append_right _)
  have hroot : read_pte φ'.mem kernel'.page_table.root 511 =
    read_pte φ.mem kernel.page_table.root 511 := by
    rw [hi.exchanges.root.root]
    exact hi.exchanges.root.valid 511 h.valid
  refine ⟨hroot ▸ h.valid, fun a ha => ?_, fun a ha => ?_, fun x hx => ?_, fun v e hv he => ?_, ?_⟩
  · rcases hmem a ha with rfl | ha
    · exact ⟨tid, ht, hr⟩
    · exact h.keys a ha
  · rcases hmem a ha with rfl | ha
    · rw [← hnew]
      exact hfr.map _
    · exact h.pages a ha
  · rcases List.mem_append.mp (hperm.mem_iff.mp hx) with hx | hx
    · obtain ⟨y, hy, rfl⟩ := List.mem_map.mp hx
      have he := hmaps.of_mem (List.mem_map_of_mem hy) trivial
      rw [Page.of]
      dsimp only at he ⊢
      rw [he]
      rfl
    · obtain ⟨e, he⟩ := Option.isSome_iff_exists.mp (h.mapped x hx)
      rw [(hmaps.found x.vpn e trivial).mpr (.inl he)]
      rfl
  · rcases (hmaps.found v e trivial).mp he with he | ⟨z, hz, hzv, hze⟩
    · obtain ⟨x, hx, hxv⟩ := h.tracked v e hv he
      exact ⟨x, hperm.mem_iff.mpr (List.mem_append_right _ hx), hxv⟩
    · obtain ⟨y, hy, rfl⟩ := List.mem_map.mp hz
      have hy26 : y.2 < 2 ^ 38 := by
        have hin : y.2 ∈ kernel'.trackers ++ rest := by
          refine List.mem_append_left _ (List.mem_append_right _ ?_)
          rw [AddressSpace.frames_eq]
          exact List.mem_map.mpr ⟨Page.of area.map_perm y,
            hperm.mem_iff.mpr (List.mem_append_left _ (List.mem_map_of_mem hy)), rfl⟩
        have := ha.lt (ha.range _ hin)
        omega
      refine ⟨Page.of area.map_perm y,
        hperm.mem_iff.mpr (List.mem_append_left _ (List.mem_map_of_mem hy)), hzv, ?_⟩
      rw [← hze, PTEImpl.ppn_new cfg hy26]
      rfl
  · refine (hperm.map Page.vpn).nodup_iff.mpr ?_
    rw [List.map_append]
    refine List.nodup_append.mpr ⟨?_, h.distinct, fun u hu w hw huw => ?_⟩
    · have : (new.map (Page.of area.map_perm)).map Page.vpn = new.map (·.1) := by simp [Page.of]
      rw [this, hnew]
      exact nodup_vpns _ _
    · obtain ⟨x, hx, rfl⟩ := List.mem_map.mp hu
      obtain ⟨y, hy, rfl⟩ := List.mem_map.mp hx
      obtain ⟨z, hz, rfl⟩ := List.mem_map.mp hw
      have := h.mapped z hz
      rw [← huw, Page.of, hunmapped y hy] at this
      simp at this

theorem remove {va : Nat} {rest : List Nat}
    {entry : VARange × MapArea} (h : Stacks cfg φ.mem kernel)
    (hrem : Removed cfg (fun _ => True) rest φ kernel va φ' kernel' entry) :
    Stacks cfg φ'.mem kernel' := by
  obtain ⟨areas, _, hfound, rfl⟩ := hrem.found
  have hareas := AddressSpace.remove_perm hfound
  have hsub : ∀ a ∈ areas, a ∈ kernel.areas :=
    fun a ha => hareas.mem_iff.mpr (List.mem_cons_of_mem _ ha)
  have hentry : entry ∈ kernel.areas := hareas.mem_iff.mpr List.mem_cons_self
  have hperm : kernel.pages.Perm (entry.2.pages ++ areas.flatMap (·.2.pages)) :=
    hareas.flatMap_right _
  have hdist := (hperm.map Page.vpn).nodup_iff.mp h.distinct
  rw [List.map_append, List.nodup_append] at hdist
  have hin : ∀ x, x ∈ areas.flatMap (·.2.pages) → x ∈ kernel.pages :=
    fun x hx => hperm.mem_iff.mpr (List.mem_append_right _ hx)
  refine ⟨?_, fun a ha => h.keys a (hsub a ha), fun a ha => h.pages a (hsub a ha), fun x hx => ?_,
    fun v e hv he => ?_, hdist.2.1⟩
  · rw [hrem.exchanges.root.valid 511 h.valid]
    exact h.valid
  · have hgone : key x.vpn ∉ (vpns (floor entry.1.start) (ceil entry.1.stop)).map key := by
      intro hk
      obtain ⟨w, hw, hkw⟩ := List.mem_map.mp hk
      obtain ⟨tid, ht, hr⟩ := h.keys entry hentry
      have hwv := stack_key_inj (stack_page_index ht hr hw).2 (h.range (hin x hx)).2 hkw
      obtain ⟨y, hy, hyv⟩ := List.mem_map.mp ((h.pages entry hentry).mem_iff.mpr hw)
      refine hdist.2.2 _
        (List.mem_map.mpr ⟨Page.of entry.2.map_perm y, List.mem_map_of_mem hy, ?_⟩) _
        (List.mem_map_of_mem hx) hwv
      exact hyv
    rw [hrem.unmaps x.vpn trivial, if_neg hgone]
    exact h.mapped x (hin x hx)
  · rw [hrem.unmaps v trivial] at he
    split at he
    · simp at he
    · rename_i hgone
      obtain ⟨x, hx, hxv, hp⟩ := h.tracked v e hv he
      rcases List.mem_append.mp (hperm.mem_iff.mp hx) with hx | hx
      · exact absurd (hxv ▸ List.mem_map_of_mem (h.mem_vpns hentry hx)) hgone
      · exact ⟨x, hx, hxv, hp⟩

end Stacks

end HectoOs.Mm
