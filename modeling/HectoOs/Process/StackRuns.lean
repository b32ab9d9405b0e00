import HectoOs.Mm.Isolation
import HectoOs.Process.ThreadRefs

/-! # Thread numbers and kernel stacks

The kernel stacks that are mapped are those of the threads that are alive. Processes do not touch
the last gibibyte as long as what they map fits in the lower half.
-/

open HectoOs.Lib
open HectoOs.Mm (Os Config MAX_TID get_kernel_stack_range stack_range_isSome)

namespace HectoOs.Threads

/-- The kernel's areas are the stacks of the threads with the numbers `l`. -/
structure StackSet (cfg : Config) (os : Os) (l : List Nat) : Prop where
  consistent : Mm.Consistent cfg os
  nodup : l.Nodup
  keys : ∀ tid, tid ∈ l ↔ tid < MAX_TID ∧
    ∃ a ∈ os.kernel.areas, get_kernel_stack_range tid = some a.1

section Stacks

variable {cfg : Config} {os os' : Os} {l : List Nat} {tid tid' v : Nat}
  {r : Mm.VARange} {u : Unit} {e : Mm.Event}

theorem stack_pages_eq (hr : get_kernel_stack_range tid = some r) :
    stack_pages tid = Mm.vpns (Mm.floor r.start) (Mm.ceil r.stop) := by
  rw [stack_pages, hr]
  rfl

theorem stack_page_unique (ht : tid < MAX_TID) (ht' : tid' < MAX_TID) (hv : v ∈ stack_pages tid)
    (hv' : v ∈ stack_pages tid') : tid = tid' := by
  obtain ⟨r, hr⟩ := stack_range_isSome ht
  obtain ⟨r', hr'⟩ := stack_range_isSome ht'
  rw [stack_pages_eq hr, Mm.mem_stack_pages ht hr] at hv
  rw [stack_pages_eq hr', Mm.mem_stack_pages ht' hr'] at hv'
  simp only [MAX_TID] at *
  omega

theorem first_mem_stack_pages (ht : tid < MAX_TID) : 2 ^ 52 - 6 - 4 * tid ∈ stack_pages tid := by
  obtain ⟨r, hr⟩ := stack_range_isSome ht
  rw [stack_pages_eq hr, Mm.mem_stack_pages ht hr]
  simp only [MAX_TID] at ht
  omega

theorem stack_tid_unique (ht : tid < MAX_TID) (ht' : tid' < MAX_TID)
    (hr : get_kernel_stack_range tid = some r) (hr' : get_kernel_stack_range tid' = some r) :
    tid = tid' := by
  have hv := first_mem_stack_pages ht
  refine stack_page_unique ht ht' hv ?_
  rw [stack_pages_eq hr']
  rw [stack_pages_eq hr] at hv
  exact hv

theorem area_mapped (h : Mm.Consistent cfg os) {a : Mm.VARange × Mm.MapArea}
    (ha : a ∈ os.kernel.areas) (hr : get_kernel_stack_range tid = some a.1)
    (hv : v ∈ stack_pages tid) : kernel_maps cfg os v = true := by
  have hstack := h.tracked.half.stack
  rw [stack_pages_eq hr] at hv
  obtain ⟨y, hy, rfl⟩ := List.mem_map.mp ((hstack.pages a ha).mem_iff.mpr hv)
  exact hstack.mapped (Mm.Page.of a.2.map_perm y)
    (List.mem_flatMap.mpr ⟨a, ha, List.mem_map_of_mem hy⟩)

theorem area_of_mapped (h : Mm.Consistent cfg os) (ht : tid < MAX_TID)
    (hv : v ∈ stack_pages tid) (hm : kernel_maps cfg os v = true) :
    ∃ a ∈ os.kernel.areas, get_kernel_stack_range tid = some a.1 := by
  have hstack := h.tracked.half.stack
  obtain ⟨r, hr⟩ := stack_range_isSome ht
  obtain ⟨entry, hentry⟩ := Option.isSome_iff_exists.mp hm
  have hrange := Mm.stack_page_index ht hr (stack_pages_eq hr ▸ hv)
  obtain ⟨x, hx, hkey, _⟩ := hstack.tracked v entry hrange.1 hentry
  obtain ⟨a, ha, hxa⟩ := List.mem_flatMap.mp hx
  obtain ⟨tid', ht', hr'⟩ := hstack.keys a ha
  have hxv : x.vpn = v := Mm.stack_key_inj (hstack.range hx).2 hrange.2 hkey
  have hv' : v ∈ stack_pages tid' := by
    rw [stack_pages_eq hr', ← hxv]
    exact hstack.mem_vpns ha hxa
  obtain rfl := stack_page_unique ht ht' hv hv'
  exact ⟨a, ha, hr'⟩

namespace StackSet

theorem perm {l' : List Nat} (h : StackSet cfg os l) (hp : l.Perm l') : StackSet cfg os l' :=
  ⟨h.consistent, hp.nodup_iff.mp h.nodup, fun tid => hp.mem_iff.symm.trans (h.keys tid)⟩

theorem unmapped (h : StackSet cfg os l) (ht : tid < MAX_TID) (hnot : tid ∉ l) :
    (stack_pages tid).all (!kernel_maps cfg os ·) = true := by
  rw [List.all_eq_true]
  intro v hv
  rw [Bool.not_eq_true', ← Bool.not_eq_true]
  intro hm
  exact hnot ((h.keys tid).mpr ⟨ht, area_of_mapped h.consistent ht hv hm⟩)

theorem mapped (h : StackSet cfg os l) (hmem : tid ∈ l) :
    (stack_pages tid).all (kernel_maps cfg os ·) = true := by
  obtain ⟨_, a, ha, hr⟩ := (h.keys tid).mp hmem
  rw [List.all_eq_true]
  exact fun v hv => area_mapped h.consistent ha hr hv

theorem insert (h : StackSet cfg os l) (ht : tid < MAX_TID) (hnot : tid ∉ l)
    (hs : os.step cfg (.insert_kernel_stack tid) = .ok (os', u)) : StackSet cfg os' (tid :: l) := by
  have hfit : Mm.Event.fits os (.insert_kernel_stack tid) = true := decide_eq_true ht
  have hc := (Mm.step_steps h.consistent hfit hs).consistent
  obtain ⟨φ, kernel, spaces⟩ := os
  obtain ⟨r, kernel', φ', hr, hok, rfl⟩ := Mm.on_stack_cases hs
  have hspec : wp Mm.anyPanic (kernel.insert_kernel_stack_area cfg r) _ φ :=
    Mm.map_and_insert_spec trivial (.inr rfl) h.consistent.tracked.half.kernel_owns
      (fun _ _ => trivial) (.inl trivial)
  obtain ⟨_, φ₁, area', new, _, hi⟩ := wp_ok hspec hok
  have hfresh : ∀ a ∈ kernel.areas, r.cmp a.1 ≠ .eq := by
    intro a ha he
    obtain ⟨tid', ht', hr'⟩ := h.consistent.tracked.half.stack.keys a ha
    have hra := Mm.stack_range_inj ht ht' hr hr' he
    exact hnot ((h.keys tid).mpr ⟨ht, a, ha, hra ▸ hr⟩)
  have hareas : ∀ a, a ∈ kernel'.areas ↔ a = (r, area') ∨ a ∈ kernel.areas := by
    intro a
    rw [hi.areas, (Mm.AddressSpace.insert_perm area' hfresh).mem_iff, List.mem_cons]
  refine ⟨hc, List.nodup_cons.mpr ⟨hnot, h.nodup⟩, fun w => ?_⟩
  rw [List.mem_cons, h.keys w]
  simp only [hareas]
  constructor
  · rintro (rfl | ⟨hw, a, ha, hra⟩)
    · exact ⟨ht, (r, area'), .inl rfl, hr⟩
    · exact ⟨hw, a, .inr ha, hra⟩
  · rintro ⟨hw, a, rfl | ha, hra⟩
    · exact .inl (stack_tid_unique hw ht hra hr)
    · exact .inr ⟨hw, a, ha, hra⟩

theorem stack_end_unique (ht : tid < MAX_TID) (ht' : tid' < MAX_TID) {r' : Mm.VARange}
    (hr : get_kernel_stack_range tid = some r) (hr' : get_kernel_stack_range tid' = some r')
    (he : Mm.VARange.cmp ⟨r.stop, r.stop⟩ r' = .eq) : tid = tid' := by
  have heq := Mm.cmp_eq_iff.mp he
  rw [Mm.stack_range_eq hr, Mm.stack_range_eq hr'] at heq
  simp only [Mm.VARange.eq_iff, MAX_TID] at heq ht ht'
  omega

theorem remove (h : StackSet cfg os (tid :: l))
    (hs : os.step cfg (.remove_kernel_stack tid) = .ok (os', u)) :
    StackSet cfg os' l := by
  have hfit : Mm.Event.fits os (.remove_kernel_stack tid) = true := rfl
  have hc := (Mm.step_steps h.consistent hfit hs).consistent
  obtain ⟨ht, _⟩ := (h.keys tid).mp List.mem_cons_self
  obtain ⟨hnot, hnodup⟩ := List.nodup_cons.mp h.nodup
  obtain ⟨φ, kernel, spaces⟩ := os
  obtain ⟨r, kernel', φ', hr, hok, rfl⟩ := Mm.on_stack_cases hs
  have hspec : wp Mm.anyPanic (kernel.remove_area cfg r.stop) _ φ :=
    Mm.remove_area_spec h.consistent.tracked.half.kernel_owns (fun _ _ _ _ _ => trivial)
      (.inl trivial)
  obtain ⟨entry, hrem⟩ := wp_ok hspec hok
  obtain ⟨areas, _, hfound, rfl⟩ := hrem.found
  obtain ⟨l₁, l₂, hl, rfl, hcmp⟩ := Mm.AddressSpace.remove_spec hfound
  -- the entry that was found is the stack of `tid`
  obtain ⟨tid', ht', hr'⟩ := h.consistent.tracked.half.stack.keys entry (by simp [hl])
  obtain rfl := stack_end_unique ht ht' hr hr' hcmp
  refine ⟨hc, hnodup, fun w => ?_⟩
  have hkeys := h.keys w
  dsimp only at hkeys ⊢
  rw [hl] at hkeys
  simp only [List.mem_append, List.mem_cons] at hkeys ⊢
  constructor
  · intro hw
    obtain ⟨hlt, a, ha, hra⟩ := hkeys.mp (.inr hw)
    refine ⟨hlt, a, ?_, hra⟩
    rcases ha with ha | rfl | ha
    · exact .inl ha
    · obtain rfl := stack_tid_unique hlt ht hra hr'
      exact absurd hw hnot
    · exact .inr ha
  · rintro ⟨hlt, a, ha, hra⟩
    rcases hkeys.mpr ⟨hlt, a, ha.imp_right .inr, hra⟩ with rfl | hw
    · -- another area of the same stack would be mapped, but the pages are gone
      have hv := first_mem_stack_pages hlt
      have hmapped := area_mapped hc (List.mem_append.mpr ha) hra hv
      have hnone := hrem.unmaps (2 ^ 52 - 6 - 4 * w) trivial
      rw [if_pos (List.mem_map_of_mem (stack_pages_eq hr' ▸ hv))] at hnone
      rw [kernel_maps] at hmapped
      dsimp only at hmapped hnone
      rw [hnone] at hmapped
      cases hmapped
    · exact hw

theorem user (h : StackSet cfg os l) (he : user_event e) (hfit : e.fits os = true)
    (hs : os.step cfg e = .ok (os', u)) : StackSet cfg os' l := by
  have hc := (Mm.step_steps h.consistent hfit hs).consistent
  have hkernel : os'.kernel = os.kernel := by
    cases e with
    | insert_kernel_stack tid => exact he.elim
    | remove_kernel_stack tid => exact he.elim
    | from_elf elf =>
      have hs : (Mm.AddressSpace.from_elf cfg os.kernel.page_table.root elf os.phys).map _ =
        .ok (os', u) := hs
      cases hf : Mm.AddressSpace.from_elf cfg os.kernel.page_table.root elf os.phys with
      | error p =>
        rw [hf] at hs
        cases hs
      | ok q =>
        rw [hf] at hs
        obtain ⟨rfl, _⟩ := Prod.mk.inj (Except.ok.inj hs)
        rfl
    | fork i =>
      obtain ⟨_, _, _, _, _, _, _, _, rfl⟩ := Mm.new_from_cases hs
      rfl
    | drop i =>
      obtain ⟨_, _, _, _, _, _, rfl⟩ := Mm.drop_space_cases hs
      rfl
    | handle_pagefault i va | brk i addr | mmap i addr length prot | munmap i addr
    | alloc_user_stack i arguments environments elf header | poke i va b =>
      obtain ⟨_, _, _, _, _, _, _, _, rfl⟩ := Mm.on_space_cases hs
      rfl
  exact ⟨hc, h.nodup, fun tid => by rw [h.keys tid, hkernel]⟩

end StackSet

end Stacks

/-! ## Runs -/

/-- The numbers of the threads and the recycled ones are all different and all there are, and the
stacks that are mapped are those of the threads. -/
structure Distinct (cfg : Config) (s : System) : Prop where
  live : s.tids.Nodup
  recycled : s.TID_ALLOCATOR.recycled.Nodup
  apart : ∀ tid ∈ s.tids, tid ∉ s.TID_ALLOCATOR.recycled
  all : ∀ tid, tid < s.TID_ALLOCATOR.current ↔ tid ∈ s.tids ∨ tid ∈ s.TID_ALLOCATOR.recycled
  mapped : ∀ tid ∈ s.tids, ∀ v ∈ stack_pages tid, kernel_maps cfg s.os v = true
  unmapped : ∀ tid, tid < MAX_TID → tid ∉ s.tids →
    ∀ v ∈ stack_pages tid, kernel_maps cfg s.os v = false
  pool : (s.pool.map s.tid).Nodup

section Run

variable {cfg : Config} {s : System}

theorem Inv.distinct (h : Inv (StackSet cfg) s) : Distinct cfg s := by
  have hn := h.core.numbers_nodup
  rw [List.nil_append, List.nodup_append] at hn
  have hset : StackSet cfg s.os s.tids := h.core.memory
  refine ⟨hn.1, hn.2.1, fun tid ht hr => hn.2.2 tid ht tid hr rfl, fun tid => ?_,
    fun tid ht => ?_, fun tid hlt ht v hv => ?_,
    ?_⟩
  · rw [← List.mem_range, ← h.core.numbers.mem_iff, List.nil_append, List.mem_append]
  · exact List.all_eq_true.mp (hset.mapped ht)
  · have hall := List.all_eq_true.mp (hset.unmapped hlt ht) v hv
    simpa using hall
  · refine h.pool.map_on fun t ht t' _ heq => ?_
    exact h.core.ptr_eq (mem_held_of_pool ht) heq

end Run

instance Event.Fits.decidable (cfg : Config) (s : System) (e : Event) :
    Decidable (e.Fits cfg (fun os e => e.fits os = true) s) :=
  inferInstanceAs (Decidable (Meets (Os.step cfg) (fun os e => e.fits os = true) s.os (e.spaces s)))

end HectoOs.Threads
