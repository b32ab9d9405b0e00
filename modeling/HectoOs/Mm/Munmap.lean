import HectoOs.Mm.Isolation

/-! # `munmap` undoes `mmap`

As long as no end of a data segment moves, every area has trackers for exactly the pages of its key.
A new area is a page away from all others, so its start leads to no other area.
-/

open HectoOs.Lib

namespace HectoOs.Mm

open PageTableImpl

variable {cfg : Config} {s s' : Os} {φ φ₁ φ' : Phys} {kernel as as' : AddressSpace}
  {rest : List Nat} {u : Unit} {i : Nat}

/-! ## Whole areas -/

/-- The areas of all processes have the pages of their keys. -/
def AllWhole (s : Os) : Prop := ∀ as, some as ∈ s.spaces → ∀ a ∈ as.areas, Whole a

/-- The step fits, and it is no `brk`. -/
def Event.keeps_areas (s : Os) : Event → Bool
  | .brk _ _ => false
  | .munmap _ _ => true
  | e => e.fits s

theorem munmap_fits_of_whole (h : ∀ a ∈ as.areas, Whole a) (va : Nat) :
    as.munmap_fits va = true := by
  unfold AddressSpace.munmap_fits
  rw [Option.all_eq_true]
  rintro ⟨entry, areas⟩ hrem
  obtain ⟨l₁, l₂, hareas, _⟩ := AddressSpace.remove_spec hrem
  have hw := h entry (by simp [hareas])
  simp only [Bool.and_eq_true, List.all_eq_true, List.any_eq_true, decide_eq_true_eq]
  refine ⟨fun x hx => (hw x.1).mpr (List.mem_map_of_mem hx), fun v hv => ?_⟩
  obtain ⟨x, hx, hxv⟩ := List.mem_map.mp ((hw v).mp hv)
  exact ⟨x, hx, hxv⟩

theorem fits_of_keeps {e : Event} (hw : AllWhole s) (h : e.keeps_areas s = true) :
    e.fits s = true := by
  cases e with
  | brk i addr => simp [Event.keeps_areas] at h
  | munmap i addr =>
    rw [Event.fits, Os.at_space, Option.all_eq_true]
    intro as has
    have hmem := List.mem_of_getElem? (Option.join_eq_some_iff.mp has)
    exact munmap_fits_of_whole (hw as hmem) addr
  | _ => exact h

theorem AreaAdded.whole {perm : PTEImpl} {r : VARange} (h : AreaAdded cfg rest φ as perm r φ' as')
    (hkey : ∀ a ∈ as.areas, r.cmp a.1 ≠ .eq) (hw : ∀ a ∈ as.areas, Whole a) :
    ∀ a ∈ as'.areas, Whole a := by
  obtain ⟨φ₁, area, new, hnew, hi⟩ := h.inserted
  rw [hi.areas]
  exact all_insert hkey hw (hi.filled.whole rfl hnew)

theorem insert_user_area_whole {size : Nat} {perm : PTEImpl} (h : Ready cfg rest φ as)
    (hfit : as.user_area_fits size = true) (hw : ∀ a ∈ as.areas, Whole a) :
    wp anyPanic (AddressSpace.insert_user_area cfg as size perm)
    (fun r _ => ∀ a ∈ r.1.areas, Whole a) φ := by
  refine wp_mono (insert_user_area_spec trivial h (fun stop hstop => ?_) (.inl trivial)) ?_
  · rw [AddressSpace.user_area_fits, hstop] at hfit
    exact of_decide_eq_true hfit
  · rintro r φ' ⟨hstop, hadded⟩
    exact hadded.whole (alloc_user_area_apart h.keys hstop).2 hw

theorem set_frame_whole {va v v' frame p : Nat}
    {k : VARange} {area : MapArea} (hw : ∀ a ∈ as.areas, Whole a)
    (harea : SearchTree.find VARange.cmp ⟨va, va⟩ as.tree = some (k, area))
    (hframe : SearchTree.find compare v (SearchTree.spine area.data_frames) = some (v', frame)) :
    ∀ a ∈ (AddressSpace.set_frame as va v area p).areas, Whole a := by
  obtain ⟨a₁, a₂, ha, _, hua⟩ := AddressSpace.find_spec harea
  obtain ⟨d₁, d₂, hd, _, hud⟩ := SearchTree.find_spec hframe
  rw [SearchTree.inorder_spine] at hd
  have hpages : (SearchTree.update compare v p (SearchTree.spine area.data_frames)).map (·.1) =
    area.data_frames.map (·.1) := by
    rw [hud, hd]
    simp
  intro a hmem
  simp only [AddressSpace.set_frame, hua, List.mem_append, List.mem_cons] at hmem
  rcases hmem with hmem | rfl | hmem
  · exact hw a (by simp [ha, hmem])
  · intro w
    dsimp only
    rw [hpages]
    exact hw (k, area) (by simp [ha]) w
  · exact hw a (by simp [ha, hmem])

theorem handle_pagefault_whole {va : Nat} (h : Ready cfg rest φ as) (hw : ∀ a ∈ as.areas, Whole a) :
    wp anyPanic (AddressSpace.handle_pagefault cfg as va)
    (fun as' _ => ∀ a ∈ as'.areas, Whole a) φ := by
  refine wp_mono (handle_pagefault_spec (fun _ => trivial) h.owns h.tracks fun _ => trivial) ?_
  rintro as' φ' ⟨e, area, frame, hf, hh⟩
  obtain ⟨k, hfound⟩ := hf.found
  obtain ⟨v, htracker⟩ := hf.tracker
  cases hh with
  | inPlace _ _ _ => exact hw
  | copied _ _ => exact set_frame_whole hw hfound htracker

theorem remove_area_whole {va : Nat} (h : Ready cfg rest φ as) (hw : ∀ a ∈ as.areas, Whole a) :
    wp anyPanic (AddressSpace.remove_area cfg as va) (fun as' _ => ∀ a ∈ as'.areas, Whole a) φ := by
  have hfit := munmap_fits_of_whole hw va
  have hlow : ∀ entry areas, SearchTree.remove VARange.cmp ⟨va, va⟩ as.tree = some (entry, areas) →
      ∀ v ∈ entry.1.pages, Own userHalf v := by
    intro entry areas hrem v hv
    obtain ⟨l₁, l₂, hareas, _, _⟩ := AddressSpace.remove_spec hrem
    have hmem : entry ∈ as.areas := by simp [hareas]
    obtain ⟨x, hx, rfl⟩ := List.mem_map.mp ((hw entry hmem v).mp hv)
    exact own_of_lt (h.tracks.low (Page.of entry.2.map_perm x)
      (List.mem_flatMap.mpr ⟨entry, hmem, List.mem_map_of_mem hx⟩))
  refine wp_mono (remove_area_spec h.owns hlow (.inl trivial)) ?_
  rintro as' φ' ⟨entry, hrem⟩
  obtain ⟨areas, _, hfound, rfl⟩ := hrem.found
  obtain ⟨l₁, l₂, hareas, rfl, _⟩ := AddressSpace.remove_spec hfound
  intro a ha
  refine hw a ?_
  simp only [hareas, List.mem_append, List.mem_cons] at ha ⊢
  tauto

theorem on_space_whole {f : AddressSpace → Kernel AddressSpace} (h : Consistent cfg s)
    (hw : AllWhole s) (hs : s.on_space i f = .ok (s', u)) (hf : ∀ as rest, s.spaces[i]? =
    some (some as) → Ready cfg rest s.phys as → (∀ a ∈ as.areas, Whole a) →
      wp anyPanic (f as) (fun as' _ => ∀ a ∈ as'.areas, Whole a) s.phys) : AllWhole s' := by
  obtain ⟨φ, kernel, l⟩ := s
  obtain ⟨as, as', φ', l₁, l₂, has, hok, rfl, rfl⟩ := on_space_cases hs
  have hready := h.tracked.ready (h.keys as (by simp))
  have hnew := wp_ok (hf as _ has hready (hw as (by simp))) hok
  intro a ha
  rcases mem_replaced ha with rfl | hother
  · exact hnew
  · exact hw a (mem_spaces_of_other hother)

theorem step_whole {e : Event} (h : Consistent cfg s) (hw : AllWhole s)
    (he : e.keeps_areas s = true) (hs : Os.step cfg s e = .ok (s', u)) : AllWhole s' := by
  have hfit := fits_of_keeps hw he
  cases e with
  | from_elf elf =>
    obtain ⟨φ, kernel, l⟩ := s
    obtain ⟨as, φ', ⟨_, _, _, hnew⟩, heq⟩ :=
      wp_map_ok (from_elf_evolves (of_decide_eq_true hfit) h.tracked) hs
    obtain ⟨rfl, _⟩ := Prod.mk.inj heq
    intro a ha
    simp only [List.mem_append, List.mem_singleton, Option.some.injEq] at ha
    rcases ha with ha | rfl
    · exact hw a ha
    · exact hnew
  | fork i =>
    obtain ⟨φ, kernel, l⟩ := s
    obtain ⟨as, c, φ', l₁, l₂, _, hok, rfl, rfl⟩ := new_from_cases hs
    obtain ⟨_, hf, _, _⟩ := wp_ok (fork_evolves h.tracked (h.keys as (by simp)).sorted) hok
    intro a ha
    simp only [List.mem_append, List.mem_singleton, Option.some.injEq] at ha
    rcases ha with ha | rfl
    · exact hw a (List.mem_append.mpr ha)
    · rw [hf.areas]
      exact hw as (by simp)
  | drop i =>
    obtain ⟨φ, kernel, l⟩ := s
    obtain ⟨as, φ', l₁, l₂, _, rfl, rfl⟩ := drop_space_cases hs
    intro a ha
    refine hw a (mem_spaces_of_other ?_)
    simpa using ha
  | handle_pagefault i va =>
    exact on_space_whole h hw hs fun as rest _ hr hw => handle_pagefault_whole hr hw
  | brk i addr => simp [Event.keeps_areas] at he
  | mmap i addr length prot =>
    refine on_space_whole h hw hs fun as rest has hr hw => ?_
    rw [AddressSpace.sys_mmap]
    by_cases haddr : addr = 0
    · rw [if_neg (by simpa using haddr)]
      rw [Event.fits, if_pos haddr] at hfit
      refine wp_call (wp_call (insert_user_area_whole hr (at_space_eq hfit has) hw)
        fun r φ' h' => ?_) fun r φ' h' => h'
      exact h'
    · rw [if_pos haddr]
      refine wp_call (Q := fun (r : AddressSpace × Nat) _ => ∀ a ∈ r.1.areas, Whole a)
        (wp_call (wp_any _) fun _ _ _ => ?_) fun r φ' h' => h'
      exact hw
  | munmap i addr => exact on_space_whole h hw hs fun as rest _ hr hw => remove_area_whole hr hw
  | alloc_user_stack i arguments environments elf header =>
    refine on_space_whole h hw hs fun as rest has hr hw => ?_
    have hfits : UserStack.stack_fits as arguments environments = true := at_space_eq hfit has
    have harea := ((Bool.and_eq_true _ _).mp hfits).1
    refine wp_call ?_ fun r φ' h' => h'
    refine UserStack.alloc_user_stack_space (P := fun as' => ∀ a ∈ as'.areas, Whole a) ?_
    exact insert_user_area_whole hr harea hw
  | poke i va b =>
    obtain ⟨φ, kernel, l⟩ := s
    obtain ⟨as, as', φ', l₁, l₂, _, hok, rfl, rfl⟩ := on_space_cases hs
    obtain ⟨rfl, _⟩ := wp_ok (poke_evolves h.tracked (of_decide_eq_true hfit)) hok
    exact hw
  | insert_kernel_stack tid =>
    obtain ⟨r, kernel', φ', _, _, rfl⟩ := on_stack_cases hs
    exact hw
  | remove_kernel_stack tid =>
    obtain ⟨r, kernel', φ', _, _, rfl⟩ := on_stack_cases hs
    exact hw

theorem run_whole {sym : Layout} {mem : Mem} {pt : PageTableImpl} {es : List Event}
    {os : List Unit} (hboot : boot cfg sym ⟨mem, PhyPageAllocator.new⟩ = .ok (pt, φ))
    (hmeets : Meets (Os.step cfg) (fun s e => e.keeps_areas s = true) (Os.start pt φ) es)
    (hrun : run (Os.step cfg) (Os.start pt φ) es = .ok (s, os)) :
    Consistent cfg s ∧ AllWhole s := by
  refine run_invariant_of_meets (fun s => Consistent cfg s ∧ AllWhole s)
    (fun s e s' u hs he hstep => ?_) ?_ hmeets hrun
  · exact ⟨(step_steps hs.1 (fits_of_keeps hs.2 he) hstep).consistent,
      step_whole hs.1 hs.2 he hstep⟩
  · exact ⟨start_consistent hboot, by simp [AllWhole, Os.start]⟩

/-! ## The new area -/

section Added

variable {size stop : Nat} {perm : PTEImpl}

theorem pages_apart {r r' : VARange}
    (h : r'.stop + PAGE_SIZE ≤ r.start ∨ r.stop + PAGE_SIZE ≤ r'.start) :
    ∀ v ∈ r.pages, v ∉ r'.pages := by
  intro v hv hv'
  simp only [VARange.pages, mem_vpns, floor, ceil, PAGE_SIZE] at h hv hv'
  omega

theorem user_area_free_of_whole (hk : Keys as)
    (hw : ∀ a ∈ as.areas, Whole a) (h : as.alloc_user_area size = some stop)
    (hdev : ∀ v ∈ (VARange.mk (stop - size) stop).pages, v ∉ cfg.device_pages) :
    as.user_area_free cfg size := by
  obtain ⟨hle, hall⟩ := alloc_user_area_spec hk.sorted.starts h
  refine ⟨stop, h, fun v hv => ⟨hdev v hv, fun hmem => ?_⟩⟩
  obtain ⟨x, hx, rfl⟩ := List.mem_map.mp hmem
  obtain ⟨a, ha, hxa⟩ := List.mem_flatMap.mp hx
  obtain ⟨y, hy, rfl⟩ := List.mem_map.mp hxa
  have hpage : y.1 ∈ a.1.pages := (hw a ha y.1).mpr (List.mem_map_of_mem hy)
  refine pages_apart ?_ _ hv hpage
  have := hall a ha
  dsimp only
  omega

theorem remove_added {area : MapArea} (hk : Keys as) (h : as.alloc_user_area size = some stop)
    (hareas : as'.areas = (SearchTree.insert VARange.cmp ⟨stop - size, stop⟩ area as.tree).1) :
    SearchTree.remove VARange.cmp ⟨stop - size, stop - size⟩ as'.tree =
      some ((⟨stop - size, stop⟩, area), as.areas) := by
  obtain ⟨hle, hall⟩ := alloc_user_area_spec hk.sorted.starts h
  have hne := (alloc_user_area_apart hk h).2
  rw [← as.inorder_tree] at hne
  obtain ⟨l₁, l₂, hl, hi⟩ := SearchTree.insert_of_ne area hne
  rw [as.inorder_tree] at hl
  have hsorted : Sorted as'.areas := hareas ▸ sorted_insert hk.sorted
  rw [hi] at hareas
  rw [hareas] at hsorted
  rw [hl]
  refine SearchTree.remove_of_divides (as'.inorder_tree.trans hareas)
    (fun e he => ?_) ?_ fun e he => ?_
  · have hbefore := (List.pairwise_append.mp hsorted).2.2 e he _ List.mem_cons_self
    have hmem : e ∈ as.areas := by simp [hl, he]
    have hord := hk.ordered e hmem
    have hapart := hall e hmem
    have hstart : e.1.start ≤ stop - size := hbefore.1.le
    have hne : ¬ VARange.eq ⟨stop - size, stop - size⟩ e.1 = true := by
      simp only [VARange.eq_iff, PAGE_SIZE] at hapart hle ⊢
      omega
    unfold VARange.cmp
    rw [if_neg hne, if_neg (by simpa using hstart)]
  · rw [cmp_eq_iff]
    simp only [VARange.eq_iff]
    omega
  · have hafter := (List.pairwise_cons.mp (List.pairwise_append.mp hsorted).2.1).1 e he
    have hstop : stop < e.1.stop := hafter.2
    exact VARange.cmp_of_after ⟨hafter.1, show stop - size < e.1.stop by omega⟩

theorem AreaAdded.mapped {r : VARange} (h : AreaAdded cfg rest φ as perm r φ' as')
    (hlow : ∀ v ∈ r.pages, v < 2 ^ 26) :
    AllMapped cfg φ'.mem as'.page_table r.pages := by
  obtain ⟨φ₁, area, new, hnew, hi⟩ := h.inserted
  refine ⟨fun v hv => ?_,
    (nodup_vpns _ _).imp_of_mem fun hv hw hne he => hne ((key_inj (hlow _ hv) (hlow _ hw)).mp he)⟩
  rw [← hnew] at hv
  obtain ⟨x, hx, rfl⟩ := List.mem_map.mp hv
  have he := hi.maps.of_mem (List.mem_map_of_mem hx) (hi.filled.own x hx)
  dsimp only at he
  rw [he]
  rfl

end Added

/-! ## `munmap` after `mmap` -/

theorem KernelHalf.lookup_upper {l₁ l₂ : List (Option AddressSpace)}
    {v : Nat} (h : KernelHalf cfg ⟨φ, kernel, l₁ ++ some as :: l₂⟩)
    (hx : Exchanges cfg userHalf (others kernel l₁ l₂)
    φ as.page_table as.frames φ' as'.page_table as'.frames) (hv : ¬ Own userHalf v) :
    lookup cfg φ'.mem as'.page_table v = lookup cfg φ.mem as.page_table v := by
  have hk : SameFrame φ.mem φ'.mem kernel.page_table.root :=
    hx.same _ (mem_others_kernel (mem_trackers_of_table List.mem_cons_self))
  have hshared := (h.spaces as (by simp)).shared _ hv
  have hnow : lookup cfg φ'.mem as'.page_table v = lookup cfg φ'.mem kernel.page_table v := by
    refine lookup_of_root_eq ?_
    rw [hx.root.root, hx.root.keep _ hv, hshared, read_pte_same hk]
  rw [hnow, h.kernel_lookup hx.same, lookup_of_root_eq hshared]

theorem Inserted.lookup_unmapped {k : VARange} {area area' : MapArea} {new : List (Nat × Nat)}
    {m : Mem} {v : Nat} (h : Inserted cfg userHalf rest φ as k area φ₁ area' new φ' as')
    (hv : Own userHalf v) (hu : lookup cfg m as'.page_table v =
      if key v ∈ (new.map (·.1)).map key then none else lookup cfg φ'.mem as'.page_table v) :
    lookup cfg m as'.page_table v = lookup cfg φ.mem as.page_table v := by
  rw [hu, List.map_map]
  split
  · -- a page of the new area was not mapped before
    rename_i hmem
    obtain ⟨x, hx, hxv⟩ := List.mem_map.mp hmem
    have hnone := h.maps.unmapped _ (List.mem_map_of_mem hx)
    dsimp only at hnone
    rw [← hnone]
    exact lookup_mod hxv
  · rename_i hmem
    refine h.maps.other hv fun y hy he => hmem ?_
    obtain ⟨x, hx, rfl⟩ := List.mem_map.mp hy
    exact List.mem_map.mpr ⟨x, hx, he⟩

/-- What `munmap` restores. -/
structure Restored (cfg : Config) (s : Os) (as : AddressSpace) (φ' : Phys)
    (as' : AddressSpace) : Prop where
  areas : as'.areas = as.areas
  entries : ∀ v, lookup cfg φ'.mem as'.page_table v = lookup cfg s.phys.mem as.page_table v
  counts : ∀ p ∈ s.trackers, φ'.ref_count p = s.phys.ref_count p

theorem munmap_restores {size stop : Nat} {perm : PTEImpl}
    {l₁ l₂ : List (Option AddressSpace)} (h : Consistent cfg ⟨φ, kernel, l₁ ++ some as :: l₂⟩)
    (halloc : as.alloc_user_area size = some stop) (hfit : stop ≤ 2 ^ 38)
    (hadded : AreaAdded cfg (others kernel l₁ l₂) φ as perm ⟨stop - size, stop⟩ φ₁ as') :
    wp (fun _ => False) (as'.remove_area cfg (stop - size)) (fun as₂ φ₂ =>
      Restored cfg ⟨φ, kernel, l₁ ++ some as :: l₂⟩ as φ₂ as₂) φ₁ := by
  have hkeys := h.keys as (by simp)
  have hlow : ∀ v ∈ (VARange.mk (stop - size) stop).pages, v < 2 ^ 26 :=
    fun v hv => page_lt hfit (mem_vpns.mp hv).2
  obtain ⟨_, area, new, hnew, hi⟩ := hadded.inserted
  have hremove := remove_added hkeys halloc hi.areas
  have hchecks : ceil_checks stop = true := by
    have := (alloc_user_area_spec hkeys.sorted.starts halloc).1
    simp only [ceil_checks, Bool.and_eq_true, decide_eq_true_eq, PAGE_SIZE, USIZE] at *
    omega
  have hx : Exchanges cfg userHalf (others kernel l₁ l₂)
    φ as.page_table as.frames φ₁ as'.page_table as'.frames := by
    simpa [MapArea.frames] using hi.exchanges
  refine wp_mono (remove_area_spec hx.owns (fun entry areas hrem v hv => ?_)
    (.inr ⟨_, _, hremove, hchecks, hadded.mapped hlow⟩)) ?_
  · rw [hremove] at hrem
    obtain ⟨rfl, _⟩ := Prod.mk.inj (Option.some.inj hrem)
    exact own_of_lt (hlow v hv)
  rintro as₂ φ₂ ⟨entry, hrem⟩
  obtain ⟨areas, shape, hfound, rfl⟩ := hrem.found
  rw [hremove] at hfound
  obtain ⟨rfl, rfl⟩ := Prod.mk.inj (Option.some.inj hfound)
  have hx₂ := hx.trans hrem.exchanges
  have hframes : ({ as' with areas := as.areas, shape } : AddressSpace).frames = as.frames := rfl
  refine ⟨rfl, fun v => ?_, fun p hp => ?_⟩
  · by_cases hv : Own userHalf v
    · refine hi.lookup_unmapped hv ?_
      rw [hnew]
      exact hrem.unmaps v hv
    · exact h.tracked.half.lookup_upper hx₂ hv
  · rw [hframes] at hx₂
    refine hx₂.ref_count h.tracked.half.owns ?_
    have hmem := (trackers_perm φ (some as)).mem_iff.mp hp
    simpa [AddressSpace.trackers] using hmem

/-- In every run without `brk` whose steps fit: an anonymous `mmap` of any length, in a place below
the upper half without a device, runs out of frames, or the `munmap` of the address that it returns
restores the areas, what is found for every page, and the reference counts. -/
theorem munmap_undoes_mmap (cfg : Config) (sym : Layout) (mem : Mem)
    (kernel : PageTableImpl) (φ : Phys) (es : List Event) (s : Os) (os : List Unit)
    (i : Nat) (as : AddressSpace) (length stop : Nat) (prot : AddressSpace.Prot)
    (hboot : boot cfg sym ⟨mem, PhyPageAllocator.new⟩ = .ok (kernel, φ))
    (hmeets : Meets (Os.step cfg) (fun s e => e.keeps_areas s = true) (Os.start kernel φ) es)
    (hrun : run (Os.step cfg) (Os.start kernel φ) es = .ok (s, os))
    (has : s.spaces[i]? = some (some as))
    (halloc : as.alloc_user_area length = some stop) (hfit : stop ≤ 2 ^ 38)
    (hdev : ∀ v ∈ (VARange.mk (stop - length) stop).pages, v ∉ cfg.device_pages) :
    as.sys_mmap cfg 0 length prot s.phys = .error .out_of_frames ∨
    ∃ as₁ φ₁ as₂ φ₂, as.sys_mmap cfg 0 length prot s.phys = .ok ((as₁, stop - length), φ₁) ∧
      as₁.remove_area cfg (stop - length) φ₁ = .ok (as₂, φ₂) ∧ Restored cfg s as φ₂ as₂ := by
  obtain ⟨h, hw⟩ := run_whole hboot hmeets hrun
  obtain ⟨φ, kernel, l⟩ := s
  obtain ⟨l₁, l₂, hl, _, _⟩ := split_at has
  dsimp only at hl
  subst hl
  have hkeys := h.keys as (by simp)
  have hready := h.tracked.ready hkeys
  have hspec : wp (fun e => e = .out_of_frames) (as.sys_mmap cfg 0 length prot)
    (fun r φ' => r.2 = stop - length ∧
      AreaAdded cfg (others kernel l₁ l₂) φ as prot.map_perm ⟨stop - length, stop⟩ φ' r.1) φ := by
    rw [AddressSpace.sys_mmap, if_neg (by simp)]
    refine wp_call (insert_user_area_spec rfl hready (fun stop' hstop' => ?_)
      (.inr (user_area_free_of_whole hkeys (hw as (by simp)) halloc hdev))) ?_
    · obtain rfl := Option.some.inj (halloc.symm.trans hstop')
      exact hfit
    · rintro ⟨as', stop'⟩ φ' ⟨hstop', hadded⟩
      obtain rfl := Option.some.inj (halloc.symm.trans hstop')
      exact ⟨rfl, hadded⟩
  cases hm : as.sys_mmap cfg 0 length prot φ with
  | error e => exact .inl (by rw [wp_error hspec hm])
  | ok r =>
    obtain ⟨⟨as₁, va⟩, φ₁⟩ := r
    obtain ⟨hva, hadded⟩ := wp_ok hspec hm
    dsimp only at hva
    subst hva
    obtain ⟨as₂, φ₂, hrem, hrestored⟩ := wp_total (munmap_restores h halloc hfit hadded)
    exact .inr ⟨as₁, φ₁, as₂, φ₂, rfl, hrem, hrestored⟩

theorem munmap_undoes_mmap_partial_page : ∃ kernel φ s os as as₁ φ₁ as₂ φ₂,
    boot qemu smallLayout ⟨fun _ => 0, PhyPageAllocator.new⟩ = .ok (kernel, φ) ∧
    run (Os.step qemu) (Os.start kernel φ)
    [.from_elf (onePage 0x1000), .mmap 0 0 0 ⟨true, true, false⟩] =
      .ok (s, os) ∧ s.spaces[0]? = some (some as) ∧
    as.sys_mmap qemu 0 0x1801 ⟨true, true, false⟩ s.phys = .ok ((as₁, 0x7000), φ₁) ∧
    as₁.remove_area qemu 0x7000 φ₁ = .ok (as₂, φ₂) ∧ Restored qemu s as φ₂ as₂ := by
  obtain ⟨kernel, φ, s, os, hboot, hmeets, hrun, hseen⟩ :=
    small_run_meets [.from_elf (onePage 0x1000), .mmap 0 0 0 ⟨true, true, false⟩]
      (fun s e => e.keeps_areas s = true)
      (fun s => ((s.spaces[0]?).join.any fun as => as.alloc_user_area 0x1801 = some 0x8801 &&
        (as.sys_mmap qemu 0 0x1801 ⟨true, true, false⟩ s.phys).toOption.isSome) = true)
          (by decide +kernel)
  obtain ⟨as, has, hp⟩ := (Option.any_eq_true _ _).mp hseen
  rw [Bool.and_eq_true, decide_eq_true_eq] at hp
  have has := Option.join_eq_some_iff.mp has
  rcases munmap_undoes_mmap qemu smallLayout _ kernel φ _ s os 0 as 0x1801 0x8801
    ⟨true, true, false⟩ hboot hmeets hrun has
    hp.1 (by decide) (by decide) with hno | ⟨as₁, φ₁, as₂, φ₂, hmap, hunmap, hrestored⟩
  · rw [hno] at hp
    simp [Except.toOption] at hp
  · exact ⟨kernel, φ, s, os, as, as₁, φ₁, as₂, φ₂, hboot, hrun, has, hmap, hunmap, hrestored⟩

/-- An empty segment, a segment of two pages at the same address, and a last one below them. -/
def hiddenPages : ElfFile :=
  ⟨[⟨true, 0x5000, 0, 0, 0, true, true, false⟩, ⟨true, 0x5000, 0x2000, 0, 0, true, true, false⟩,
    ⟨true, 0x1000, 0x1000, 0, 0, true, true, false⟩], []⟩

/-- The two pages stand under the key of the empty segment, so that `mmap` takes their place for
free and panics. -/
theorem mmap_meets_pages : ∃ kernel φ s os as,
    boot qemu smallLayout ⟨fun _ => 0, PhyPageAllocator.new⟩ = .ok (kernel, φ) ∧
    run (Os.step qemu) (Os.start kernel φ)
    [.from_elf hiddenPages] = .ok (s, os) ∧ s.spaces[0]? = some (some as) ∧
    as.alloc_user_area 0x1000 = some 0x7000 ∧
    (∀ v ∈ (VARange.mk 0x6000 0x7000).pages, v ∉ qemu.device_pages) ∧
    as.sys_mmap qemu 0 0x1000 ⟨true, true, false⟩ s.phys = .error .assert := by
  obtain ⟨kernel, φ, s, os, hboot, hrun, hseen⟩ := small_run_ends [.from_elf hiddenPages]
    (fun s => ((s.spaces[0]?).join.any fun as => as.alloc_user_area 0x1000 = some 0x7000 &&
      panics .assert (as.sys_mmap qemu 0 0x1000 ⟨true, true, false⟩ s.phys)) = true)
        (by decide +kernel)
  obtain ⟨as, has, hp⟩ := (Option.any_eq_true _ _).mp hseen
  rw [Bool.and_eq_true, decide_eq_true_eq] at hp
  exact ⟨kernel, φ, s, os, as, hboot, hrun, Option.join_eq_some_iff.mp has,
    hp.1, by decide, panics_iff.mp hp.2⟩

end HectoOs.Mm
