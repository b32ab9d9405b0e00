import HectoOs.Mm.Tracking

/-! # Page faults

The page becomes writable; if its frame has other trackers, it moves to a copy.
-/

open HectoOs.Lib

namespace HectoOs.Mm

open PageTableImpl

/-! ## The areas -/

namespace AddressSpace

theorem pages_of_find {as : AddressSpace} {va v v' frame : Nat} {k : VARange} {area : MapArea}
    (harea : SearchTree.find VARange.cmp ⟨va, va⟩ as.tree = some (k, area))
    (hframe : SearchTree.find compare v (SearchTree.spine area.data_frames) = some (v', frame)) :
    ∃ l₁ l₂, as.pages = l₁ ++ ⟨v, frame, area.map_perm⟩ :: l₂ ∧ ∀ p,
      (set_frame as va v area p).pages = l₁ ++ ⟨v, p, area.map_perm⟩ :: l₂ ∧
      (set_frame as va v area p).areas.map (·.1) = as.areas.map (·.1) := by
  obtain ⟨a₁, a₂, ha, _, hua⟩ := find_spec harea
  obtain ⟨d₁, d₂, hd, heq, hud⟩ := SearchTree.find_spec hframe
  rw [SearchTree.inorder_spine] at hd
  obtain rfl : v = v' := Std.LawfulEqCmp.eq_of_compare heq
  refine ⟨a₁.flatMap (·.2.pages) ++ d₁.map (Page.of area.map_perm),
    d₂.map (Page.of area.map_perm) ++ a₂.flatMap (·.2.pages), ?_, fun p => ⟨?_, ?_⟩⟩
  · simp [pages, MapArea.pages, ha, hd, Page.of]
  · simp [set_frame, pages, MapArea.pages, hua, hud, Page.of]
  · rw [set_frame, hua, ha]
    simp

theorem set_frame_page_table (as : AddressSpace) (va v : Nat) (area : MapArea) (p : Nat) :
    (set_frame as va v area p).page_table = as.page_table := rfl

end AddressSpace

/-! ## The entry -/

/-- The entry after the fault: writable and not copy-on-write. -/
def fault_flags (e : PTEImpl) : PTEImpl := (e.remove .COW).insert .WRITABLE

theorem getLsbD_fault (e : PTEImpl) {i : Nat} (hi : i < 64) :
    (fault_flags e).getLsbD i = (e.getLsbD i && !decide (i = 8) || decide (i = 2)) := by
  rw [fault_flags, PTEImpl.WRITABLE, PTEImpl.COW, PTEImpl.getLsbD_insert _ (by omega),
    PTEImpl.getLsbD_remove _ (by omega) hi]

theorem ppn_fault (cfg : Config) (e : PTEImpl) : (fault_flags e).ppn cfg = e.ppn cfg := by
  refine PTEImpl.ppn_congr cfg fun i hi => ?_
  by_cases h64 : i < 64
  · have h8 : ¬ i = 8 := by omega
    have h2 : ¬ i = 2 := by omega
    rw [getLsbD_fault e h64]
    simp [h8, h2]
  · rw [BitVec.getLsbD_of_ge _ _ (by omega), BitVec.getLsbD_of_ge _ _ (by omega)]

theorem is_valid_fault {e : PTEImpl} (h : e.is_valid = true) : (fault_flags e).is_valid = true := by
  rw [PTEImpl.is_valid_eq] at h ⊢
  rw [getLsbD_fault e (by omega), h]
  rfl

/-! ## The handler -/

variable {cfg : Config} {may : Panic → Prop} {rest : List Nat} {φ : Phys}
  {as : AddressSpace} {va : Nat}

/-- The page `v` moved to the frame `p`, which was free and has the bytes of its old frame. Its
entry is now `e`. -/
structure Copied (cfg : Config) (others : List Nat) (φ : Phys) (pt : PageTableImpl)
    (v frame : Nat) (e : PTEImpl) (φ' : Phys) (p : Nat) : Prop where
  fresh : p ∉ pt.tables ++ others
  owns : Owns cfg userHalf φ' pt (p :: others.erase frame)
  root : SameRoot userHalf φ pt φ' pt
  same : ∀ q ∈ others.erase frame, SameFrame φ.mem φ'.mem q
  update : Updates cfg userHalf φ.mem pt φ'.mem pt v (some (.new p e))
  copy : ∀ i, i < 4096 → φ'.mem (frame_va p + i) = φ.mem (frame_va frame + i)

theorem copyBytes_sameFrame {m : Mem} {p q src : Nat} (h : q ≠ p) :
    SameFrame m (copyBytes m (frame_va p) src 4096) q :=
  SameFrame.of_ne (Ne.symm h) (le_refl _) (le_refl _) (copyBytes_sameOn m (frame_va p) src 4096)

theorem copied_mem {m₂ m₄ : Mem} {pt : PageTableImpl} {others : List Nat} {v t p : Nat}
    {e₁ : PTEImpl} {φ₂ : Phys} (hm₂ : φ₂.mem = m₂) (ho : Owns cfg userHalf φ₂ pt (p :: others))
    (hv : Own userHalf v) (ht : At cfg m₂ pt v t) (he₁ : e₁.is_valid = true) (hfresh : p ∉ others)
    (hm₄ : m₄ = write_pte (copyBytes m₂ (frame_va p) (frame_va (e₁.ppn cfg)) 4096) t (vpn_index v 0)
    (.new p e₁)) :
    Owns cfg userHalf (φ₂.set_mem m₄) pt (p :: others) ∧
    SameRoot userHalf φ₂ pt (φ₂.set_mem m₄) pt ∧
      (∀ q ∈ others, SameFrame m₂ m₄ q) ∧ Updates cfg userHalf m₂ pt m₄ pt v (some (.new p e₁)) ∧
      ∀ i, i < 4096 → m₄ (frame_va p + i) = m₂ (frame_va (e₁.ppn cfg) + i) := by
  subst hm₂
  have hs : ∀ q, q ≠ p →
    SameFrame φ₂.mem (copyBytes φ₂.mem (frame_va p) (frame_va (e₁.ppn cfg)) 4096) q :=
    fun q hq => copyBytes_sameFrame hq
  have hcopy : ∀ i, i < 4096 →
    copyBytes φ₂.mem (frame_va p) (frame_va (e₁.ppn cfg)) 4096 (frame_va p + i) =
      φ₂.mem (frame_va (e₁.ppn cfg) + i) := by
    intro i hi
    rw [copyBytes, if_pos (by omega), Nat.add_sub_cancel_left]
  generalize copyBytes φ₂.mem (frame_va p) (frame_va (e₁.ppn cfg)) 4096 = m₃ at hs hcopy hm₄
  have hnp : ∀ t ∈ pt.tables, t ≠ p := fun t ht he => ho.notMem ht (he ▸ List.mem_cons_self)
  have ho₃ : Owns cfg userHalf (φ₂.set_mem m₃) pt (p :: others) :=
    ho.write fun q hq _ => hs q fun he => hq (he ▸ List.mem_cons_self)
  have ht₃ : At cfg (φ₂.set_mem m₃).mem pt v t := ho.at_congr hv ht fun t ht => hs t (hnp t ht)
  obtain ⟨hmv, hup⟩ := ho₃.set_pte (e := .new p e₁) hv ht₃
  have hleaf : leaf (.new p e₁) = some (.new p e₁) := by
    refine leaf_eq_some.mpr ⟨?_, rfl⟩
    rw [PTEImpl.is_valid_eq, PTEImpl.getLsbD_new _ _ (by omega), ← PTEImpl.is_valid_eq]
    exact he₁
  rw [hleaf] at hup
  rw [Phys.set_mem_mem, Phys.set_mem_set_mem, ← hm₄] at hmv
  rw [Phys.set_mem_mem, ← hm₄] at hup
  have hqp : ∀ q ∈ others, q ≠ p := fun q hq he => hfresh (he ▸ hq)
  have hframe : SameFrame m₃ m₄ p := by simpa using hmv.same p List.mem_cons_self
  refine ⟨hmv.owns, ?_, fun q hq => ?_, fun w hw => ?_, fun i hi => ?_⟩
  · refine (SameRoot.of_same ?_ ((SameRange.refl φ₂).set_mem m₃)).trans hmv.root
    exact hs _ (hnp _ List.mem_cons_self)
  · exact (hs q (hqp q hq)).trans (hmv.same q (List.mem_cons_of_mem _ hq))
  · rw [hup w hw]
    have hsame : lookup cfg m₃ pt w = lookup cfg φ₂.mem pt w :=
      lookup_congr ho.tree (fun t ht => hs t (hnp t ht)) hw
    rw [hsame]
  · rw [hframe _ (by omega) (by omega), hcopy i hi]

theorem copy_frame_spec {pt : PageTableImpl} {others : List Nat} {v t : Nat}
    {e : PTEImpl} {frame : Nat} (hm : NoneFree φ (pt.tables ++ others) → may .out_of_frames)
    (ho : Owns cfg userHalf φ pt others) (hv : Own userHalf v) (ht : At cfg φ.mem pt v t)
    (hread : read_pte φ.mem t (vpn_index v 0) = e) (he : e.is_valid = true)
    (hframe : frame ∈ others) (hppn : e.ppn cfg = frame) :
    wp may (AddressSpace.copy_frame cfg ⟨t, vpn_index v 0⟩ frame)
      (fun p φ' => Copied cfg others φ pt v frame e φ' p) φ := by
  rw [AddressSpace.copy_frame, wp_bind]
  refine wp_mono (ho.frame_alloc hm) ?_
  rintro p φ₁ ⟨hp, ho₁, hs₁, hr₁⟩
  have hnp : ∀ q ∈ pt.tables ++ others, q ≠ p := fun q hq he => hp (he ▸ hq)
  have hfp : frame ≠ p := hnp frame (List.mem_append_right _ hframe)
  have htab : ∀ t ∈ pt.tables, t ≠ p := fun t ht => hnp t (List.mem_append_left _ ht)
  have hread₁ : read_pte φ₁.mem t (vpn_index v 0) = e := by
    rw [read_pte_same (hs₁ t (htab t (ho.at_mem hv ht))), hread]
  have ht₁ : At cfg φ₁.mem pt v t := ho.at_congr hv ht fun t ht => hs₁ t (htab t ht)
  simp only [wp_bind, wp_get, wp_modify, set_pte, hread₁, PTEImpl.set_ppn_eq_new, Phys.set_mem_mem,
    Phys.set_mem_set_mem]
  obtain ⟨ho₂, hroot₂, hs₂, hu₂, hc₂⟩ := copied_mem rfl ho₁ hv ht₁ he
    (fun h => hp (List.mem_append_right _ h)) rfl
  generalize write_pte _ t (vpn_index v 0) (.new p e) = m₂ at ho₂ hroot₂ hs₂ hu₂ hc₂ ⊢
  refine wp_mono (ho₂.dealloc (p := frame) (List.mem_cons_of_mem _ hframe)) ?_
  rintro _ φ₃ ⟨ho₃, hs₃, hr₃⟩
  rw [List.erase_cons_tail (by simpa using Ne.symm hfp)] at ho₃ hs₃
  rw [wp_pure]
  have htab₃ : ∀ t ∈ pt.tables, SameFrame m₂ φ₃.mem t := fun t ht => by
    refine hs₃ t (.inl fun he => ?_)
    exact ho.notMem ht (he ▸ hframe)
  have hroot : pt.root ∈ pt.tables := List.mem_cons_self
  refine ⟨hp, ho₃, ?_, fun q hq => ?_, fun w hw => ?_, fun i hi => ?_⟩
  · refine (SameRoot.of_same (hs₁ _ (htab _ hroot)) hr₁).trans
      (hroot₂.trans (SameRoot.of_same ?_ hr₃))
    exact htab₃ _ hroot
  · have hqo := List.mem_of_mem_erase hq
    have hqp := hnp q (List.mem_append_right _ hqo)
    exact ((hs₁ q hqp).trans (hs₂ q hqo)).trans (hs₃ q (.inr (List.mem_cons_of_mem _ hq)))
  · have hsame : lookup cfg φ₁.mem pt w = lookup cfg φ.mem pt w :=
      ho.sameMap (fun t ht => hs₁ t (htab t ht)) w hw
    have hsame₃ : lookup cfg φ₃.mem pt w = lookup cfg m₂ pt w := ho₂.sameMap htab₃ w hw
    rw [hsame₃, hu₂ w hw, hsame]
  · have hp₃ : SameFrame m₂ φ₃.mem p := hs₃ p (.inl (Ne.symm hfp))
    have hf₁ : SameFrame φ.mem φ₁.mem frame := hs₁ frame hfp
    rw [hp₃ _ (by omega) (by omega), hc₂ i hi, hppn, hf₁ _ (by omega) (by omega)]

/-- What the handler looks up. -/
structure Faults (cfg : Config) (m : Mem) (as : AddressSpace) (va : Nat)
    (e : PTEImpl) (area : MapArea) (frame : Nat) : Prop where
  entry : lookup cfg m as.page_table (floor va) = some e
  cow : e.contains .COW = true
  found : ∃ k, SearchTree.find VARange.cmp ⟨va, va⟩ as.tree = some (k, area)
  tracker : ∃ v, SearchTree.find compare (floor va) (SearchTree.spine area.data_frames) =
    some (v, frame)

/-- What the handler leaves: the page is writable, in its frame if nobody else has a tracker of it,
and in a copy otherwise. -/
inductive Handled (cfg : Config) (rest : List Nat) (φ : Phys) (as : AddressSpace)
    (va : Nat) (e : PTEImpl) (area : MapArea) (frame : Nat) : AddressSpace → Phys → Prop
  | inPlace {φ' : Phys} (hcount : (as.trackers ++ rest).count frame ≤ 1)
      (hmoves : Moves cfg userHalf (as.frames ++ rest) φ as.page_table φ' as.page_table)
      (hup : Updates cfg userHalf φ.mem as.page_table φ'.mem as.page_table (floor va)
        (some (fault_flags e))) :
      Handled cfg rest φ as va e area frame as φ'
  | copied {φ' : Phys} {p : Nat} (hcount : 1 < (as.trackers ++ rest).count frame)
      (hcopied : Copied cfg (as.frames ++ rest) φ as.page_table (floor va) frame
        (fault_flags e) φ' p) :
      Handled cfg rest φ as va e area frame (AddressSpace.set_frame as va (floor va) area p) φ'

theorem handled_spec {v t : Nat} {e : PTEImpl} {area : MapArea} {frame : Nat}
    (hm : NoneFree φ (as.page_table.tables ++ (as.frames ++ rest)) → may .out_of_frames)
    (ho : Owns cfg userHalf φ as.page_table (as.frames ++ rest)) (hv : Own userHalf v)
    (hva : floor va = v) (ht : At cfg φ.mem as.page_table v t) (he : e.is_valid = true)
    (hframe : frame ∈ as.frames) (hppn : e.ppn cfg = frame) :
    wp may (do
      let count ← PhyPageAllocator.get_ref_count frame
      if count > 1 then
        let new_frame ← AddressSpace.copy_frame cfg ⟨t, vpn_index v 0⟩ frame
        return AddressSpace.set_frame as va v area new_frame
      else
        return as) (Handled cfg rest φ as va e area frame)
      (φ.set_mem (write_pte φ.mem t (vpn_index v 0) (fault_flags e))) := by
  subst hva
  have hmem : frame ∈ as.frames ++ rest := List.mem_append_left _ hframe
  have hvalid := is_valid_fault he
  obtain ⟨hmv, hup⟩ := ho.set_pte (e := fault_flags e) hv ht
  have hat := ho.at_write (e := fault_flags e) hv ht
  have hread : read_pte (write_pte φ.mem t (vpn_index (floor va) 0) (fault_flags e)) t
    (vpn_index (floor va) 0) =
      fault_flags e := read_write_same
  rw [leaf_eq_some.mpr ⟨hvalid, rfl⟩] at hup
  generalize write_pte φ.mem t (vpn_index (floor va) 0) (fault_flags e) = m₁ at hmv hup hat hread ⊢
  rw [wp_bind]
  refine PhyPageAllocator.get_ref_count_spec hmv.owns.alloc (List.mem_append_right _ hmem) ?_
  have hcount : (as.page_table.tables ++ (as.frames ++ rest)).count frame =
    (as.trackers ++ rest).count frame := by
    rw [AddressSpace.trackers, List.append_assoc]
  rw [hcount, wp_ite]
  refine ⟨fun h1 => ?_, fun h1 => ?_⟩
  · rw [wp_bind]
    refine wp_mono (copy_frame_spec (fun hfull => hm fun p hp => hfull p (by simpa using hp))
      hmv.owns hv hat hread hvalid hmem ((ppn_fault cfg e).trans hppn)) ?_
    intro p φ' hc
    have hsame : ∀ q ∈ as.frames ++ rest, SameFrame φ.mem m₁ q := hmv.same
    rw [wp_pure]
    refine .copied h1 ⟨hc.fresh, hc.owns, hmv.root.trans hc.root, fun q hq => ?_,
      fun w hw => ?_, fun i hi => ?_⟩
    · exact (hsame q (List.mem_of_mem_erase hq)).trans (hc.same q hq)
    · rw [hc.update w hw, Phys.set_mem_mem, hup w hw]
      by_cases hk : key w = key (floor va)
      · rw [if_pos hk, if_pos hk]
      · rw [if_neg hk, if_neg hk, if_neg hk]
    · rw [hc.copy i hi, Phys.set_mem_mem, hsame frame hmem _ (by omega) (by omega)]
  · exact .inPlace (by omega) hmv hup

theorem handle_pagefault_spec (hm : NoneFree φ (as.page_table.tables ++ (as.frames ++ rest)) →
    may .out_of_frames) (ho : Owns cfg userHalf φ as.page_table (as.frames ++ rest))
    (htr : Tracks cfg φ.mem as.page_table as.pages)
    (hfail : (∀ e area frame, ¬ Faults cfg φ.mem as va e area frame) → may .assert) :
    wp may (AddressSpace.handle_pagefault cfg as va) (fun as' φ' => ∃ e area frame,
      Faults cfg φ.mem as va e area frame ∧ Handled cfg rest φ as va e area frame as' φ') φ := by
  rw [AddressSpace.handle_pagefault, wp_bind, wp_get, wp_bind, wp_unwrap]
  cases hlook : lookup cfg φ.mem as.page_table (floor va) with
  | none =>
    rw [find_pte_eq_none hlook]
    refine ⟨by simp, fun _ => hfail fun e area frame hf => ?_⟩
    rw [hf.entry] at hlook
    simp at hlook
  | some e =>
    obtain ⟨t, hfind, hwalk, hread⟩ := find_pte_of_lookup hlook
    rw [hfind]
    refine ⟨?_, by simp⟩
    rintro pte hpte
    obtain rfl := Option.some.inj hpte
    simp only [wp_bind, wp_assert, wp_unwrap, set_pte, wp_modify, hread]
    refine ⟨fun hcow => ⟨?_, fun hnone => hfail fun e' area frame hf => ?_⟩,
      fun hcow => hfail fun e' area frame hf => ?_⟩
    · rintro ⟨k, area⟩ harea
      refine ⟨?_, fun hnone => hfail fun e' area' frame hf => ?_⟩
      · rintro ⟨v', frame⟩ hframe
        obtain ⟨l₁, l₂, hpages, _⟩ := AddressSpace.pages_of_find harea hframe
        have hx : (⟨floor va, frame, area.map_perm⟩ : Page) ∈ as.pages := by simp [hpages]
        have hv : Own userHalf (floor va) := own_of_lt (htr.low _ hx)
        have hppn : e.ppn cfg = frame := by
          obtain ⟨e', he', hp⟩ := htr.mapped _ hx
          rw [hlook] at he'
          obtain rfl := Option.some.inj he'
          exact hp
        have hmem : frame ∈ as.frames := by
          rw [AddressSpace.frames_eq]
          exact List.mem_map.mpr ⟨_, hx, rfl⟩
        have htail : wp may _ (Handled cfg rest φ as va e area frame) _ :=
          handled_spec hm ho hv rfl hwalk (lookup_valid hlook) hmem hppn
        rw [wp_bind] at htail
        refine wp_mono htail fun count φ₁ hc => wp_mono hc fun as' φ' hh => ?_
        exact ⟨e, area, frame, ⟨hlook, hcow, ⟨k, harea⟩, ⟨v', hframe⟩⟩, hh⟩
      · obtain ⟨k', hk'⟩ := hf.found
        obtain ⟨v', hv'⟩ := hf.tracker
        rw [harea] at hk'
        obtain ⟨rfl, rfl⟩ := Prod.mk.inj (Option.some.inj hk')
        rw [hv'] at hnone
        simp at hnone
    · obtain ⟨k, hk⟩ := hf.found
      rw [hk] at hnone
      simp at hnone
    · rw [hf.entry] at hlook
      obtain rfl := Option.some.inj hlook
      rw [hf.cow] at hcow
      simp at hcow

end HectoOs.Mm
