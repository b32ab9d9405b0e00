import HectoOs.Mm.Protection
import HectoOs.Process.StackWrites

/-! # Runs of the address spaces

Every step keeps the trackers and the keys if it `fits`; the frames of writable pages stay unshared
and the kernel's pages stay hidden under a condition more.
-/

open HectoOs.Lib

namespace HectoOs.Mm

open PageTableImpl

variable {cfg : Config} {s s' : Os} {φ φ' : Phys} {kernel as as' : AddressSpace}
  {l₁ l₂ : List (Option AddressSpace)}

/-! ## Steps -/

/-- The invariant of all runs: the trackers, and the keys of the areas. -/
structure Consistent (cfg : Config) (s : Os) : Prop where
  tracked : Tracked cfg s
  keys : ∀ as, some as ∈ s.spaces → Keys as

/-- A condition on the address space of a process. -/
def Os.at_space (s : Os) (i : Nat) (p : AddressSpace → Bool) : Bool := (s.spaces[i]?).join.all p

/-- The pages that are mapped and the keys that are inserted lie in the lower half, no key replaces
another, an area that is removed has the pages of its key, and what is written to a new stack stays
in its last page. -/
def Event.fits (s : Os) : Event → Bool
  | .from_elf elf => elf.Separate
  | .brk i addr => s.at_space i (·.brk_fits addr)
  | .mmap i addr length _ =>
    if addr = 0 then s.at_space i (·.user_area_fits length)
    else (mmap_pages addr length).all (· < 2 ^ 26)
  | .munmap i addr => s.at_space i (·.munmap_fits addr)
  | .alloc_user_stack i arguments environments _ _ =>
    s.at_space i (UserStack.stack_fits · arguments environments)
  | .poke _ va _ => va < 2 ^ 38
  | .insert_kernel_stack tid => tid < MAX_TID
  | .fork _ | .drop _ | .handle_pagefault _ _ | .remove_kernel_stack _ => true

/-- A page that is made writable has a frame of its own, and a page that is shared has not been made
writable behind its area. -/
def Event.unshares (cfg : Config) (s : Os) : Event → Bool
  | .fork i => s.at_space i (·.fork_fits cfg s.phys.mem)
  | .mmap i addr length prot => addr = 0 || !prot.write || s.at_space i fun as =>
    (mmap_pages addr length).all fun v => (lookup cfg s.phys.mem as.page_table v).all fun e =>
      s.phys.ref_count (e.ppn cfg) ≤ 1
  | _ => true

/-- A page that gets new flags is no device's. -/
def Event.hides (cfg : Config) : Event → Bool
  | .mmap _ addr length _ => addr = 0 || (mmap_pages addr length).all (· ∉ cfg.device_pages)
  | _ => true

section Step

variable {u : Unit} {i : Nat} {e : Event}

theorem at_space_eq {p : AddressSpace → Bool} (h : s.at_space i p = true)
    (has : s.spaces[i]? = some (some as)) :
    p as = true := by
  rw [Os.at_space, has] at h
  exact h

theorem Consistent.replace (h : Consistent cfg ⟨φ, kernel, l₁ ++ some as :: l₂⟩)
    (h' : Tracked cfg ⟨φ', kernel, l₁ ++ some as' :: l₂⟩) (hk : Keys as') :
    Consistent cfg ⟨φ', kernel, l₁ ++ some as' :: l₂⟩ := by
  refine ⟨h', fun a ha => ?_⟩
  rcases mem_replaced ha with rfl | hother
  · exact hk
  · exact h.keys a (mem_spaces_of_other hother)

/-- What a step does to the three properties. -/
structure Steps (cfg : Config) (s : Os) (e : Event) (s' : Os) : Prop where
  consistent : Consistent cfg s'
  unshared : e.unshares cfg s = true → Unshared cfg s → Unshared cfg s'
  hidden : e.hides cfg = true → Hidden cfg s → Hidden cfg s'

theorem Steps.of_evolves (h : Evolves cfg s s') (hk : ∀ as, some as ∈ s'.spaces → Keys as) :
    Steps cfg s e s' :=
  ⟨⟨h.tracked, hk⟩, fun _ => h.unshared, fun _ => h.hidden⟩

theorem on_space_steps {f : AddressSpace → Kernel AddressSpace} (h : Consistent cfg s)
    (hs : s.on_space i f = .ok (s', u)) (hf : ∀ as rest, s.spaces[i]? = some (some as) →
    Ready cfg rest s.phys as → wp anyPanic (f as) (fun as' φ' =>
      Changes cfg rest s.phys as φ' as' ∧ Writes cfg rest s.phys as φ' as' ∧ Keys as') s.phys) :
      Steps cfg s e s' := by
  obtain ⟨φ, kernel, l⟩ := s
  obtain ⟨as, as', φ', l₁, l₂, has, hok, rfl, rfl⟩ := on_space_cases hs
  have hready := h.tracked.ready (h.keys as (by simp))
  obtain ⟨hc, hw, hk⟩ := wp_ok (hf as _ has hready) hok
  exact Steps.of_evolves (Evolves.change h.tracked hc hw) (h.replace (h.tracked.change hc) hk).keys

theorem user_area_changes {size : Nat} {perm : PTEImpl} {rest : List Nat}
    (hfit : as.user_area_fits size = true) (h : Ready cfg rest φ as) :
    wp anyPanic (AddressSpace.insert_user_area cfg as size perm) (fun r φ' =>
      as.alloc_user_area size = some r.2 ∧
      Changes cfg rest φ as φ' r.1 ∧ Writes cfg rest φ as φ' r.1 ∧ Keys r.1) φ := by
  refine insert_user_area_changes h fun stop hstop => ?_
  rw [AddressSpace.user_area_fits, hstop] at hfit
  exact of_decide_eq_true hfit

theorem fork_steps (h : Consistent cfg s) (hs : Os.step cfg s (.fork i) = .ok (s', u)) :
    Steps cfg s (.fork i) s' := by
  obtain ⟨φ, kernel, l⟩ := s
  obtain ⟨as, c, φ', l₁, l₂, has, hok, rfl, rfl⟩ := new_from_cases hs
  have hkeys := h.keys as (by simp)
  obtain ⟨htracked, hf, hunshared, hhidden⟩ := wp_ok (fork_evolves h.tracked hkeys.sorted) hok
  have happ : (l₁ ++ some as :: l₂) ++ [some c] = l₁ ++ some as :: (l₂ ++ [some c]) := by simp
  dsimp only
  rw [happ]
  refine ⟨⟨htracked, fun a ha => ?_⟩, fun hfit => hunshared (at_space_eq hfit has),
    fun _ => hhidden⟩
  dsimp only at ha
  rw [← happ, List.mem_append, List.mem_singleton, Option.some.injEq] at ha
  rcases ha with ha | rfl
  · exact h.keys a ha
  · exact hkeys.of_map (by rw [hf.areas]) hf.data_segment_end hf.data_segment_max

section Mmap

variable {addr length : Nat} {prot : AddressSpace.Prot}

theorem prot_write {p : Nat} (h : (PTEImpl.new p (prot.map_perm ||| .VALID)).getLsbD 2 = true) :
    prot.write = true := by
  rw [PTEImpl.getLsbD_new _ _ (by omega)] at h
  revert h
  cases prot with
  | mk read write exec => cases read <;> cases write <;> cases exec <;> decide

theorem mmap_fixed_steps (h : Consistent cfg ⟨φ, kernel, l₁ ++ some as :: l₂⟩)
    (has : (l₁ ++ some as :: l₂)[i]? = some (some as)) (haddr : addr ≠ 0)
    (hlow : ∀ v ∈ mmap_pages addr length, v < 2 ^ 26) :
    wp anyPanic (do return (← as.sys_mmap cfg addr length prot).1) (fun as' φ' =>
      Steps cfg ⟨φ, kernel, l₁ ++ some as :: l₂⟩ (.mmap i addr length prot)
        ⟨φ', kernel, l₁ ++ some as' :: l₂⟩) φ := by
  have hkeys := h.keys as (by simp)
  have htracks := h.tracked.tracks as (by simp)
  rw [AddressSpace.sys_mmap, if_pos haddr]
  simp only [wp_bind]
  refine wp_mono (mmap_fixed_changes (h.tracked.ready hkeys) hlow) ?_
  rintro _ φ' ⟨hc, hre⟩
  refine ⟨h.replace (h.tracked.change hc) hkeys,
    fun hfit hu => hu.change h.tracked hc fun v e' hv hd he' hwr => ?_,
    fun hfit hh => hh.change h.tracked hc fun v hd e' he' => ?_⟩
  · rcases hre v e' hv he' with he' | ⟨hmem, e, he, rfl⟩
    · exact .inl he'
    · simp only [Event.unshares, haddr, decide_false, Bool.false_or, prot_write hwr,
        Bool.not_true] at hfit
      have hall := at_space_eq hfit has
      rw [List.all_eq_true] at hall
      have hcount := hall v hmem
      rw [he, Option.all_some, decide_eq_true_eq] at hcount
      -- the reference count is the number of trackers
      obtain ⟨x, hx, hxv⟩ := htracks.tracked v e hv he hd
      have htracker : e.ppn cfg ∈ (Os.mk φ kernel (l₁ ++ some as :: l₂)).trackers := by
        rw [htracks.ppn_eq hx (hxv ▸ he)]
        exact List.mem_append_right _
          (mem_space_trackers.mpr ⟨as, by simp, List.mem_append_right _ (frame_mem hx)⟩)
      have halloc := h.tracked.half.alloc
      have husage := halloc.usage _ (halloc.range _ htracker)
      have hperm : (Os.mk φ kernel (l₁ ++ some as :: l₂)).trackers.Perm
        (as.trackers ++ others kernel l₁ l₂) :=
        trackers_perm φ (some as)
      refine .inr ?_
      rw [PTEImpl.ppn_new_of_lt cfg (PTEImpl.ppn_lt cfg e), ← hperm.count_eq, ← husage]
      exact hcount
  · rcases hre v e' (device_low hd) he' with he' | ⟨hmem, _⟩
    · exact he'
    · simp only [Event.hides, haddr, decide_false, Bool.false_or, List.all_eq_true,
        decide_eq_true_eq] at hfit
      exact absurd hd (hfit v hmem)

theorem mmap_steps (h : Consistent cfg s) (hfit : Event.fits s (.mmap i addr length prot) = true)
    (hs : Os.step cfg s (.mmap i addr length prot) = .ok (s', u)) :
    Steps cfg s (.mmap i addr length prot) s' := by
  by_cases haddr : addr = 0
  · rw [Event.fits, if_pos haddr] at hfit
    refine on_space_steps h hs fun as rest has hready => ?_
    rw [AddressSpace.sys_mmap, if_neg (by simpa using haddr)]
    refine wp_call (wp_call (user_area_changes (at_space_eq hfit has) hready) fun r φ' h' => ?_)
      fun r φ' h' => h'
    exact h'.2
  · rw [Event.fits, if_neg haddr, List.all_eq_true] at hfit
    obtain ⟨φ, kernel, l⟩ := s
    obtain ⟨as, as', φ', l₁, l₂, has, hok, rfl, rfl⟩ := on_space_cases hs
    have h' := wp_ok (mmap_fixed_steps h has haddr fun v hv => of_decide_eq_true (hfit v hv)) hok
    exact h'

end Mmap

open UserStack in
theorem stack_steps {arguments environments : List (List Byte)}
    {elf : ElfFile} {header : ElfHeader} (h : Consistent cfg s)
    (hfit : Event.fits s (.alloc_user_stack i arguments environments elf header) = true)
    (hs : Os.step cfg s (.alloc_user_stack i arguments environments elf header) = .ok (s', u)) :
    Steps cfg s (.alloc_user_stack i arguments environments elf header) s' := by
  obtain ⟨φ, kernel, l⟩ := s
  obtain ⟨as, as', φ', l₁, l₂, has, hok, rfl, rfl⟩ := on_space_cases hs
  have hfits : stack_fits as arguments environments = true := at_space_eq hfit has
  obtain ⟨harea, hsize⟩ := (Bool.and_eq_true _ _).mp hfits
  have hmapped :=
    @user_area_changes _ _ _ _ stack_perm _ harea (h.tracked.ready (h.keys as (by simp)))
  have hspec :
    wp anyPanic (do return (← alloc_user_stack cfg as arguments environments elf header).1)
      (fun as' φ' => ∃ φ₁ top e m, as.alloc_user_area USER_STACK_SIZE = some top ∧
        (Changes cfg (others kernel l₁ l₂) φ as φ₁ as' ∧
          Writes cfg (others kernel l₁ l₂) φ as φ₁ as' ∧ Keys as') ∧
        lookup cfg φ₁.mem as'.page_table (floor (top - 8)) = some e ∧ φ' = φ₁.set_mem m ∧
        ∀ q, q ≠ e.ppn cfg → SameFrame φ₁.mem m q) φ :=
    wp_call (alloc_user_stack_writes hsize hmapped) fun r φ' h' => h'
  obtain ⟨φ₁, top, e, m, htop, ⟨hc, hw, hk⟩, he, rfl, hm⟩ := wp_ok hspec hok
  have hnew := h.replace (h.tracked.change hc) hk
  rw [AddressSpace.user_area_fits, htop, Option.all_some, decide_eq_true_eq] at harea
  have hlast : floor (top - 8) < 2 ^ 26 := floor_low (by omega)
  obtain ⟨ha, hsame⟩ := hnew.tracked.store_apart hlast he hm
  exact Steps.of_evolves
    ((Evolves.change h.tracked hc hw).trans (Evolves.write hnew.tracked hsame ha)) hnew.keys

theorem step_steps (h : Consistent cfg s) (hfit : e.fits s = true)
    (hs : Os.step cfg s e = .ok (s', u)) :
    Steps cfg s e s' := by
  cases e with
  | from_elf elf =>
    obtain ⟨φ, kernel, l⟩ := s
    obtain ⟨as, φ', ⟨h', hk, _⟩, heq⟩ :=
      wp_map_ok (from_elf_evolves (of_decide_eq_true hfit) h.tracked) hs
    obtain ⟨rfl, _⟩ := Prod.mk.inj heq
    refine Steps.of_evolves h' fun a ha => ?_
    simp only [List.mem_append, List.mem_singleton, Option.some.injEq] at ha
    rcases ha with ha | rfl
    · exact h.keys a ha
    · exact hk
  | fork i => exact fork_steps h hs
  | drop i =>
    obtain ⟨φ, kernel, l⟩ := s
    obtain ⟨as, φ', l₁, l₂, hd, rfl, rfl⟩ := drop_space_cases hs
    have hw : wp anyPanic as.drop _ φ := drop_evolves h.tracked
    have h' := wp_ok hw hd
    refine Steps.of_evolves h' fun a ha => h.keys a (mem_spaces_of_other ?_)
    simpa using ha
  | handle_pagefault i va =>
    exact on_space_steps h hs fun as rest _ hready => handle_pagefault_changes hready
  | brk i addr =>
    refine on_space_steps h hs fun as rest has hready => ?_
    exact wp_call (brk_changes hready (at_space_eq hfit has)) fun r φ' h' => h'
  | mmap i addr length prot => exact mmap_steps h hfit hs
  | munmap i addr =>
    exact on_space_steps h hs fun as rest has hready =>
      remove_area_changes hready (at_space_eq hfit has)
  | alloc_user_stack i arguments environments elf header => exact stack_steps h hfit hs
  | poke i va b =>
    obtain ⟨φ, kernel, l⟩ := s
    obtain ⟨as, as', φ', l₁, l₂, _, hok, rfl, rfl⟩ := on_space_cases hs
    obtain ⟨rfl, h'⟩ := wp_ok (poke_evolves h.tracked (of_decide_eq_true hfit)) hok
    exact Steps.of_evolves h' h.keys
  | insert_kernel_stack tid =>
    obtain ⟨φ, kernel, l⟩ := s
    obtain ⟨r, kernel', φ', hr, hi, rfl⟩ := on_stack_cases hs
    have h' := wp_ok (insert_stack_evolves h.tracked (of_decide_eq_true hfit) hr) hi
    exact Steps.of_evolves h' h.keys
  | remove_kernel_stack tid =>
    obtain ⟨φ, kernel, l⟩ := s
    obtain ⟨r, kernel', φ', _, hi, rfl⟩ := on_stack_cases hs
    have h' := wp_ok (remove_stack_evolves h.tracked) hi
    exact Steps.of_evolves h' h.keys

end Step

/-! ## Runs -/

section Run

variable {sym : Layout} {mem : Mem} {pt : PageTableImpl}

theorem start_consistent (hboot : boot cfg sym ⟨mem, PhyPageAllocator.new⟩ = .ok (pt, φ)) :
    Consistent cfg (Os.start pt φ) :=
  ⟨⟨start_half hboot, by simp [Os.start]⟩, by simp [Os.start]⟩

theorem run_consistent {es : List Event} {os : List Unit}
    (hboot : boot cfg sym ⟨mem, PhyPageAllocator.new⟩ = .ok (pt, φ))
    (hfits : Meets (Os.step cfg) (fun s e => e.fits s = true) (Os.start pt φ) es)
    (hrun : run (Os.step cfg) (Os.start pt φ) es = .ok (s, os)) : Consistent cfg s :=
  run_invariant_of_meets (Consistent cfg)
    (fun _ _ _ _ hs hf hstep => (step_steps hs hf hstep).consistent)
    (start_consistent hboot) hfits hrun

theorem start_unshared : Unshared cfg (Os.start pt φ) := by simp [Unshared, Os.start]

theorem start_hidden (hboot : boot cfg sym ⟨mem, PhyPageAllocator.new⟩ = .ok (pt, φ)) :
    Hidden cfg (Os.start pt φ) := by
  obtain ⟨_, _, hno, _⟩ := wp_ok (boot_spec cfg sym mem) hboot
  exact ⟨fun v e _ he => hno v e he, by simp [Os.start]⟩

theorem Tracks.find_pte {m : Mem} {v : Nat} (h : Tracks cfg m as.page_table as.pages)
    (hv : v < 2 ^ 26) (hd : v ∉ cfg.device_pages) :
    ((find_pte cfg m as.page_table v).isSome ↔ ∃ a ∈ as.areas, ∃ p, (v, p) ∈ a.2.data_frames) ∧
    ∀ pte, find_pte cfg m as.page_table v = some pte →
    ∀ a ∈ as.areas, ∀ p, (v, p) ∈ a.2.data_frames →
      p = (read_pte m pte.table pte.index).ppn cfg := by
  have hpage : ∀ a ∈ as.areas, ∀ p, (v, p) ∈ a.2.data_frames →
    Page.of a.2.map_perm (v, p) ∈ as.pages :=
    fun a ha p hp => List.mem_flatMap.mpr ⟨a, ha, List.mem_map_of_mem hp⟩
  refine ⟨⟨fun hsome => ?_, ?_⟩, fun pte hpte a ha p hp => ?_⟩
  · obtain ⟨pte, hpte⟩ := Option.isSome_iff_exists.mp hsome
    have he : lookup cfg m as.page_table v =
      some (read_pte m pte.table pte.index) := by rw [lookup, hpte]; rfl
    obtain ⟨x, hx, rfl⟩ := h.tracked v _ hv he hd
    obtain ⟨a, ha, hxa⟩ := List.mem_flatMap.mp hx
    obtain ⟨y, hy, rfl⟩ := List.mem_map.mp hxa
    exact ⟨a, ha, y.2, hy⟩
  · rintro ⟨a, ha, p, hp⟩
    obtain ⟨e, he, _⟩ := h.mapped _ (hpage a ha p hp)
    obtain ⟨t, hfind, _⟩ := find_pte_of_lookup he
    have hfind : PageTableImpl.find_pte cfg m as.page_table v = _ := hfind
    rw [hfind]
    rfl
  · have he : lookup cfg m as.page_table v =
      some (read_pte m pte.table pte.index) := by rw [lookup, hpte]; rfl
    exact (h.ppn_eq (hpage a ha p hp) he).symm

end Run

/-- However files are loaded, processes fork, fault and exit, and areas and stacks come and go: as
long as every step fits, the pages with an entry are those with a tracker of their frame. -/
theorem entries_tracked (cfg : Config) (sym : Layout) (mem : Mem)
    (kernel : PageTableImpl) (φ : Phys) (es : List Event) (s : Os) (os : List Unit)
    (hboot : boot cfg sym ⟨mem, PhyPageAllocator.new⟩ = .ok (kernel, φ))
    (hfits : Meets (Os.step cfg) (fun s e => e.fits s = true) (Os.start kernel φ) es)
    (hrun : run (Os.step cfg) (Os.start kernel φ) es = .ok (s, os)) :
    ∀ as, some as ∈ s.spaces → ∀ v, v < 2 ^ 26 → v ∉ cfg.device_pages →
      ((find_pte cfg s.phys.mem as.page_table v).isSome ↔
        ∃ a ∈ as.areas, ∃ p, (v, p) ∈ a.2.data_frames) ∧
      ∀ pte, find_pte cfg s.phys.mem as.page_table v = some pte →
      ∀ a ∈ as.areas, ∀ p, (v, p) ∈ a.2.data_frames →
        p = (read_pte s.phys.mem pte.table pte.index).ppn cfg := by
  have h : Consistent cfg s := run_consistent hboot hfits hrun
  intro as has v hv hd
  exact (h.tracked.tracks as has).find_pte hv hd

theorem entries_tracked_brk : ∃ kernel φ s os as,
    boot qemu smallLayout ⟨fun _ => 0, PhyPageAllocator.new⟩ = .ok (kernel, φ) ∧
    run (Os.step qemu) (Os.start kernel φ)
    [.from_elf (onePage 0x1000), .brk 0 0x2800, .mmap 0 0 4096 ⟨true, true, false⟩,
      .munmap 0 0x6000] = .ok (s, os) ∧ some as ∈ s.spaces ∧
    (find_pte qemu s.phys.mem as.page_table 2).isSome ∧
    ∃ a ∈ as.areas, ∃ p, (2, p) ∈ a.2.data_frames := by
  obtain ⟨kernel, φ, s, os, hboot, hfits, hrun, hseen⟩ :=
    small_run_meets [.from_elf (onePage 0x1000), .brk 0 0x2800, .mmap 0 0 4096 ⟨true, true, false⟩,
      .munmap 0 0x6000]
      (fun s e => e.fits s = true)
      (fun s => s.spaces.any
        (·.any fun as => (find_pte qemu s.phys.mem as.page_table 2).isSome) = true)
      (by decide +kernel)
  obtain ⟨as, has, hsome⟩ := exists_space hseen
  have h := entries_tracked qemu smallLayout _ kernel φ _ s os hboot hfits hrun as has 2
    (by decide) (by decide)
  exact ⟨kernel, φ, s, os, as, hboot, hrun, has, hsome, h.1.mp hsome⟩

/-- `brk` moves the end of the area below its second page, and `munmap` unmaps up to the new end:
the entry of the second page stays when the area with its frame is dropped. -/
theorem entry_outlives_frame : ∃ kernel φ s os as v,
    boot qemu smallLayout ⟨fun _ => 0, PhyPageAllocator.new⟩ = .ok (kernel, φ) ∧
    run (Os.step qemu) (Os.start kernel φ)
    [.from_elf ⟨[⟨true, 0x1000, 0x2000, 0, 0, true, true, false⟩], []⟩,
      .brk 0 0x1800, .munmap 0 0x1000] = .ok (s, os) ∧ some as ∈ s.spaces ∧
      v < 2 ^ 26 ∧ v ∉ qemu.device_pages ∧
    ¬ ((find_pte qemu s.phys.mem as.page_table v).isSome ↔
      ∃ a ∈ as.areas, ∃ p, (v, p) ∈ a.2.data_frames) := by
  obtain ⟨kernel, φ, s, os, hboot, hrun, hseen⟩ :=
    small_run_ends [.from_elf ⟨[⟨true, 0x1000, 0x2000, 0, 0, true, true, false⟩], []⟩,
      .brk 0 0x1800, .munmap 0 0x1000]
      (fun s => s.spaces.any
        (·.any fun as => (find_pte qemu s.phys.mem as.page_table 2).isSome && as.areas.isEmpty) =
        true) (by decide +kernel)
  obtain ⟨as, has, hsome⟩ := exists_space hseen
  rw [Bool.and_eq_true, List.isEmpty_iff] at hsome
  refine ⟨kernel, φ, s, os, as, 2, hboot, hrun, has, by decide, by decide, fun hiff => ?_⟩
  obtain ⟨a, ha, _⟩ := hiff.mp hsome.1
  rw [hsome.2] at ha
  simp at ha

/-- In every run whose steps fit, do not make a shared page writable, and do not share a page that
was made writable behind its area, no page with a shared frame is writable. -/
theorem shared_not_writable (cfg : Config) (sym : Layout) (mem : Mem)
    (kernel : PageTableImpl) (φ : Phys) (es : List Event) (s : Os) (os : List Unit)
    (hboot : boot cfg sym ⟨mem, PhyPageAllocator.new⟩ = .ok (kernel, φ))
    (hfits : Meets (Os.step cfg) (fun s e => e.fits s = true ∧ e.unshares cfg s = true)
    (Os.start kernel φ) es) (hrun : run (Os.step cfg) (Os.start kernel φ) es = .ok (s, os)) :
    ∀ as, some as ∈ s.spaces → ∀ v e, v < 2 ^ 26 → lookup cfg s.phys.mem as.page_table v = some e →
      s.phys.InRange (e.ppn cfg) → 1 < s.phys.ref_count (e.ppn cfg) →
      e.contains .WRITABLE = false := by
  have h : Consistent cfg s ∧ Unshared cfg s :=
    run_invariant_of_meets (fun s => Consistent cfg s ∧ Unshared cfg s)
      (fun s e s' u hs hf hstep =>
        have hsteps := step_steps hs.1 hf.1 hstep
        ⟨hsteps.consistent, hsteps.unshared hf.2 hs.2⟩) ⟨start_consistent hboot,
          start_unshared⟩ hfits hrun
  intro as has v e hv he hrange hcount
  have hhalf := h.1.tracked.half
  -- the frame of a device is not one that the allocator counts
  have hd : v ∉ cfg.device_pages := by
    intro hd
    obtain ⟨e', he', hp⟩ := (h.1.tracked.tracks as has).devices v hd
    rw [he] at he'
    obtain rfl := Option.some.inj he'
    have := (hhalf.ram _ hrange).1
    have := device_lt hd
    omega
  rw [PTEImpl.WRITABLE, PTEImpl.contains_flag _ (by omega), ← Bool.not_eq_true]
  intro hwr
  have hone := h.2 as has v e hv hd he hwr
  rw [hhalf.alloc.usage _ hrange] at hcount
  omega

theorem shared_not_writable_fork : ∃ kernel φ s os as e,
    boot qemu smallLayout ⟨fun _ => 0, PhyPageAllocator.new⟩ = .ok (kernel, φ) ∧
    run (Os.step qemu) (Os.start kernel φ)
    [.from_elf (onePage 0x1000), .fork 0, .mmap 0 0x1000 4096 ⟨true, false, false⟩] =
      .ok (s, os) ∧ some as ∈ s.spaces ∧ lookup qemu s.phys.mem as.page_table 1 = some e ∧
    1 < s.phys.ref_count (e.ppn qemu) ∧ e.contains .WRITABLE = false := by
  obtain ⟨kernel, φ, s, os, hboot, hfits, hrun, hseen⟩ :=
    small_run_meets [.from_elf (onePage 0x1000), .fork 0, .mmap 0 0x1000 4096 ⟨true, false, false⟩]
      (fun s e => e.fits s = true ∧ e.unshares qemu s = true)
      (fun s => s.spaces.any (·.any fun as => (lookup qemu s.phys.mem as.page_table 1).any fun e =>
        s.phys.InRange (e.ppn qemu) && 1 < s.phys.ref_count (e.ppn qemu)) = true)
      (by decide +kernel)
  obtain ⟨as, has, hsome⟩ := exists_space hseen
  obtain ⟨e, he, hcount⟩ := (Option.any_eq_true _ _).mp hsome
  rw [Bool.and_eq_true, decide_eq_true_eq, decide_eq_true_eq] at hcount
  have h := shared_not_writable qemu smallLayout _ kernel φ _ s os hboot hfits hrun as has 1 e
    (by decide) he hcount.1
    hcount.2
  exact ⟨kernel, φ, s, os, as, e, hboot, hrun, has, he, hcount.2, h⟩

/-- After `fork`, `mmap` at the address of a shared page makes it writable. -/
theorem shared_writable : ∃ kernel φ s os as v e,
    boot qemu smallLayout ⟨fun _ => 0, PhyPageAllocator.new⟩ = .ok (kernel, φ) ∧
    run (Os.step qemu) (Os.start kernel φ)
    [.from_elf (onePage 0x1000), .fork 0, .mmap 0 0x1000 4096 ⟨true, true, false⟩] =
      .ok (s, os) ∧ some as ∈ s.spaces ∧ v < 2 ^ 26 ∧
      lookup qemu s.phys.mem as.page_table v = some e ∧
    s.phys.InRange (e.ppn qemu) ∧ 1 < s.phys.ref_count (e.ppn qemu) ∧
    e.contains .WRITABLE = true := by
  obtain ⟨kernel, φ, s, os, hboot, hrun, hseen⟩ :=
    small_run_ends [.from_elf (onePage 0x1000), .fork 0, .mmap 0 0x1000 4096 ⟨true, true, false⟩]
      (fun s => s.spaces.any (·.any fun as => (lookup qemu s.phys.mem as.page_table 1).any fun e =>
        s.phys.InRange (e.ppn qemu) &&
          (decide (1 < s.phys.ref_count (e.ppn qemu)) && e.contains .WRITABLE)) = true)
      (by decide +kernel)
  obtain ⟨as, has, hsome⟩ := exists_space hseen
  obtain ⟨e, he, hcount⟩ := (Option.any_eq_true _ _).mp hsome
  rw [Bool.and_eq_true, Bool.and_eq_true, decide_eq_true_eq, decide_eq_true_eq] at hcount
  exact ⟨kernel, φ, s, os, as, 1, e, hboot, hrun, has, by decide, he, hcount⟩

end HectoOs.Mm
