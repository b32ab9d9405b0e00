import HectoOs.Mm.Changes
import HectoOs.Mm.System
import HectoOs.Process.StackWrites

/-! # Places for user pages and the pages of devices

Every page table maps the devices at their physical addresses, and no area stands for them. What
keeps `alloc_user_area` and `brk` away from them is only that both look behind the end of the data
segment.
-/

open HectoOs.Lib

namespace HectoOs.Mm

open PageTableImpl

variable {cfg : Config} {s s' : Os} {φ : Phys} {as as' : AddressSpace} {u : Unit} {i : Nat}

/-- No place that `alloc_user_area` finds and no page that `brk` can add is a device's. -/
def AvoidsDevices (cfg : Config) (as : AddressSpace) : Prop :=
  (∀ size stop, as.alloc_user_area size = some stop →
    ∀ v ∈ (VARange.mk (stop - size) stop).pages, v ∉ cfg.device_pages) ∧
  ∀ addr, addr ≤ as.data_segment_max →
    ∀ v ∈ vpns (floor (round_up as.data_segment_end)) (ceil addr), v ∉ cfg.device_pages

/-- The end of the segment that is loaded last; without a segment it is that of an empty address
space. -/
def ElfFile.data_end (elf : ElfFile) : Nat :=
  ( elf.program_iter.filter (·.load)).getLast?.elim 1 (·.va_range.stop)

/-- Every device lies before the end of a data segment, or in the page that stays free behind its
limit. -/
def BehindDevices (cfg : Config) (data_end limit : Nat) : Prop :=
  ∀ d ∈ cfg.device_pages, vpn_va (d + 1) ≤ round_up data_end ∨ vpn_va d = limit

instance (cfg : Config) (data_end limit : Nat) : Decidable (BehindDevices cfg data_end limit) :=
  inferInstanceAs (Decidable (∀ d ∈ cfg.device_pages, _))

/-! ## The ends of the data segment -/

/-- The data segment ends behind the devices and up to a page boundary. -/
structure Ends (cfg : Config) (as : AddressSpace) : Prop where
  aligned : as.data_segment_max % PAGE_SIZE = 0
  stop : as.data_segment_end ≤ as.data_segment_max
  devices : BehindDevices cfg as.data_segment_end as.data_segment_max

theorem round_up_le {a b : Nat} (h : a ≤ b) : round_up a ≤ round_up b :=
  Nat.mul_le_mul_right _ (Nat.div_le_div_right (Nat.add_le_add_right h _))

theorem Ends.avoids (h : Ends cfg as) : AvoidsDevices cfg as := by
  have hmod := h.aligned
  have hle := h.stop
  refine ⟨fun size stop hstop v hv hd => ?_, fun addr haddr v hv hd => ?_⟩
  · have hge := alloc_user_area_ge hstop
    have hdev := h.devices v hd
    simp only [VARange.pages, mem_vpns, floor, ceil, round_up, vpn_va, PAGE_SIZE] at *
    omega
  · have hdev := h.devices v hd
    simp only [mem_vpns, floor, ceil, round_up, vpn_va, PAGE_SIZE] at *
    omega

/-! ## Steps -/

/-- The loaded file ends behind the devices, and so does what `brk` leaves of a data segment. -/
def Event.avoids_devices (cfg : Config) (s : Os) : Event → Prop
  | .from_elf elf => BehindDevices cfg elf.data_end (round_up elf.data_end + AddressSpace.BRK_MAX)
  | .brk i addr => ∀ as, s.spaces[i]? = some (some as) →
    addr = 0 ∨ as.data_segment_max < addr ∨ BehindDevices cfg addr as.data_segment_max
  | _ => True

instance (cfg : Config) (s : Os) (e : Event) : Decidable (e.avoids_devices cfg s) :=
  match e with
  | .from_elf elf => inferInstanceAs (Decidable (BehindDevices cfg _ _))
  | .brk i addr =>
    match h : s.spaces[i]? with
    | some (some as) => decidable_of_iff
      (addr = 0 ∨ as.data_segment_max < addr ∨ BehindDevices cfg addr as.data_segment_max)
      ⟨fun hc as' has => by rw [h] at has; cases has; exact hc, fun hc => hc as h⟩
    | some none => isTrue fun as has => by rw [h] at has; cases has
    | none => isTrue fun as has => by rw [h] at has; cases has
  | .fork _ | .drop _ | .handle_pagefault _ _ | .mmap _ _ _ _ | .munmap _ _ | .alloc_user_stack ..
  | .poke _ _ _ | .insert_kernel_stack _ | .remove_kernel_stack _ => isTrue trivial

/-- The data segment is as before. -/
structure SameEnds (as as' : AddressSpace) : Prop where
  stop : as'.data_segment_end = as.data_segment_end
  limit : as'.data_segment_max = as.data_segment_max

theorem Ends.congr (h : Ends cfg as) (hs : SameEnds as as') : Ends cfg as' := by
  refine ⟨?_, ?_, ?_⟩
  · rw [hs.limit]
    exact h.aligned
  · rw [hs.limit, hs.stop]
    exact h.stop
  · rw [hs.limit, hs.stop]
    exact h.devices

section Operations

variable {k : VARange} {area : MapArea}

theorem insert_area_ends :
    wp anyPanic (as.insert_area cfg k area) (fun as' _ => SameEnds as as') φ := by
  rw [AddressSpace.insert_area]
  exact wp_call (wp_any _) fun _ _ _ => ⟨rfl, rfl⟩

theorem map_and_insert_ends {data : Option (List Byte)} :
    wp anyPanic (as.map_and_insert cfg k area data) (fun as' _ => SameEnds as as') φ := by
  rw [AddressSpace.map_and_insert]
  refine wp_call (wp_any _) fun r φ' _ => ?_
  refine wp_mono insert_area_ends ?_
  exact fun as' _ h => ⟨h.stop, h.limit⟩

theorem insert_user_area_ends {size : Nat} {perm : PTEImpl} :
    wp anyPanic (as.insert_user_area cfg size perm) (fun r _ => SameEnds as r.1) φ := by
  rw [AddressSpace.insert_user_area]
  refine wp_call (wp_any _) fun stop φ' _ => ?_
  exact wp_call map_and_insert_ends fun as' _ h => h

theorem handle_pagefault_ends {va : Nat} :
    wp anyPanic (as.handle_pagefault cfg va) (fun as' _ => SameEnds as as') φ := by
  rw [AddressSpace.handle_pagefault]
  refine wp_call (wp_any _) fun φ₁ _ _ => wp_call (wp_any _) fun pte _ _ =>
    wp_call (wp_any _) fun _ _ _ =>
    wp_call (wp_any _) fun _ _ _ => wp_call (wp_any _) fun entry _ _ =>
      wp_call (wp_any _) fun x _ _ =>
    wp_call (wp_any _) fun count _ _ => wp_ite.mpr ⟨fun _ => ?_, fun _ => ⟨rfl, rfl⟩⟩
  exact wp_call (wp_any _) fun _ _ _ => ⟨rfl, rfl⟩

theorem remove_area_ends {va : Nat} :
    wp anyPanic (as.remove_area cfg va) (fun as' _ => SameEnds as as') φ := by
  rw [AddressSpace.remove_area]
  exact wp_call (wp_any _) fun entry _ _ => wp_call (wp_any _) fun r _ _ =>
    wp_call (wp_any _) fun _ _ _ =>
    wp_call (wp_any _) fun _ _ _ => ⟨rfl, rfl⟩

theorem sys_mmap_ends {addr length : Nat} {prot : AddressSpace.Prot} :
    wp anyPanic (as.sys_mmap cfg addr length prot) (fun r _ => SameEnds as r.1) φ := by
  rw [AddressSpace.sys_mmap, wp_ite]
  refine ⟨fun _ => wp_call (wp_any _) fun _ _ _ => ⟨rfl, rfl⟩, fun _ => ?_⟩
  exact wp_call insert_user_area_ends fun r _ h => h

theorem fork_ends {kernel_root : Nat} :
    wp anyPanic (AddressSpace.fork cfg kernel_root as) (fun c _ => SameEnds as c) φ := by
  rw [AddressSpace.fork]
  exact wp_call (wp_any _) fun c _ _ => wp_call (wp_any _) fun c' _ _ => ⟨rfl, rfl⟩

theorem poke_ends {va : Nat} {b : Byte} :
    wp anyPanic (as.poke cfg va b) (fun as' _ => SameEnds as as') φ := by
  rw [AddressSpace.poke]
  exact wp_call (wp_any _) fun φ₁ _ _ => wp_call (wp_any _) fun pte _ _ =>
    wp_call (wp_any _) fun _ _ _ =>
    wp_call (wp_any _) fun _ _ _ => ⟨rfl, rfl⟩

theorem brk_ends {addr : Nat} : wp anyPanic (as.brk cfg addr) (fun r _ => SameEnds as r.1 ∨
    addr ≠ 0 ∧ addr ≤ as.data_segment_max ∧ r.1.data_segment_end = addr ∧
      r.1.data_segment_max = as.data_segment_max) φ := by
  rw [AddressSpace.brk]
  refine wp_call (wp_any _) fun cur_end _ _ => wp_ite.mpr ⟨fun _ => .inl ⟨rfl, rfl⟩, fun hne => ?_⟩
  refine wp_ite.mpr ⟨fun _ => .inl ⟨rfl, rfl⟩, fun hle => ?_⟩
  refine wp_call (wp_any _) ?_
  rintro ⟨entry, areas⟩ _ _
  -- with new pages or without, the area is inserted again
  have hinsert : ∀ (pt : PageTableImpl) (shape : SearchTree.Shape) (area : MapArea) (φ : Phys),
    wp anyPanic (do
      let as ← AddressSpace.insert_area cfg ⟨pt, areas, shape, addr,
        as.data_segment_max⟩ ⟨entry.1.start, addr⟩ area
      return (as, (addr : Int))) (fun r _ => SameEnds as r.1 ∨
        addr ≠ 0 ∧ addr ≤ as.data_segment_max ∧ r.1.data_segment_end = addr ∧
          r.1.data_segment_max = as.data_segment_max) φ := by
    intro pt shape area φ
    exact wp_call insert_area_ends fun as' _ h => .inr ⟨hne, Nat.not_lt.mp hle, h.stop, h.limit⟩
  dsimp only
  refine wp_ite.mpr ⟨fun _ => ?_, fun _ => ?_⟩
  · exact wp_call (wp_any _) fun _ _ _ => wp_call (wp_any _) fun r _ _ => hinsert r.1 _ r.2 _
  · exact wp_call (wp_any _) fun r _ _ => hinsert r.1 _ r.2 _

theorem from_elf_ends {kernel_root : Nat} {elf : ElfFile} :
    wp anyPanic (AddressSpace.from_elf cfg kernel_root elf)
    (fun as _ => as.data_segment_end = elf.data_end ∧
      as.data_segment_max = round_up elf.data_end + AddressSpace.BRK_MAX) φ := by
  rw [AddressSpace.from_elf]
  have hnew : wp anyPanic (AddressSpace.new_kernel cfg kernel_root)
    (fun as _ => as.data_segment_end = 1) φ := by
    rw [AddressSpace.new_kernel]
    exact wp_call (wp_any _) fun _ _ _ => wp_call (wp_any _) fun _ _ _ => rfl
  refine wp_call hnew fun as₀ φ₀ h₀ => ?_
  refine wp_call (wp_foldlM (fun done as _ => as.data_segment_end =
    (done.filter (·.load)).getLast?.elim 1 (·.va_range.stop)) h₀ ?_) ?_
  · intro done ph later as φ₁ _ hdone
    rw [AddressSpace.load_segment, wp_ite]
    refine ⟨fun hload => ?_, fun hload => ?_⟩
    · rw [List.filter_append, List.filter_cons_of_pos hload, List.filter_nil, List.getLast?_concat]
      refine wp_call (wp_any _) fun _ _ _ => wp_call (wp_any _) fun _ _ _ =>
        wp_call (wp_any _) fun r _ _ =>
        wp_call (wp_any _) fun t _ _ => ?_
      exact wp_mono insert_area_ends fun as' _ h => h.stop
    · rw [List.filter_append, List.filter_cons_of_neg hload, List.filter_nil, List.append_nil]
      exact hdone
  · intro as φ₁ hend
    rw [wp_bind, wp_unwrap]
    refine ⟨fun stop hstop => ?_, fun _ => trivial⟩
    rw [wp_bind, wp_unwrap]
    refine ⟨fun limit hlimit => ⟨hend, ?_⟩, fun _ => trivial⟩
    rw [checked_add_eq hlimit, checked_round_up_eq hstop, hend]
    rfl

theorem Ends.brk {addr : Nat} (h : Ends cfg as)
    (hkeep : addr = 0 ∨ as.data_segment_max < addr ∨ BehindDevices cfg addr as.data_segment_max) :
    wp anyPanic (as.brk cfg addr) (fun r _ => Ends cfg r.1) φ := by
  refine wp_mono brk_ends ?_
  rintro r _ (hs | ⟨hne, hle, hend, hmax⟩)
  · exact h.congr hs
  · have hdevices := (hkeep.resolve_left hne).resolve_left hle.not_gt
    refine ⟨?_, ?_, ?_⟩
    · rw [hmax]
      exact h.aligned
    · rw [hmax, hend]
      exact hle
    · rw [hmax, hend]
      exact hdevices

theorem limit_aligned (data_end : Nat) :
    (round_up data_end + AddressSpace.BRK_MAX) % PAGE_SIZE = 0 := by
  simp only [round_up, AddressSpace.BRK_MAX, PAGE_SIZE]
  omega

theorem Ends.of_file {elf : ElfFile} (hend : as.data_segment_end = elf.data_end)
    (hmax : as.data_segment_max = round_up elf.data_end + AddressSpace.BRK_MAX)
    (h : BehindDevices cfg elf.data_end (round_up elf.data_end + AddressSpace.BRK_MAX)) :
    Ends cfg as := by
  rw [← hend] at hmax h
  refine ⟨?_, ?_, ?_⟩
  · rw [hmax]
    exact limit_aligned _
  · rw [hmax]
    exact (le_round_up _).trans (Nat.le_add_right _ _)
  · rw [hmax]
    exact h

end Operations

/-! ## Runs -/

section Steps

variable {P : AddressSpace → Prop} {e : Event}

theorem on_space_keeps {f : AddressSpace → Kernel AddressSpace}
    (h : ∀ as, some as ∈ s.spaces → P as) (hs : s.on_space i f = .ok (s', u)) (hf : ∀ as,
    s.spaces[i]? = some (some as) → P as → wp anyPanic (f as) (fun as' _ => P as') s.phys) :
    ∀ as, some as ∈ s'.spaces → P as := by
  obtain ⟨φ, kernel, l⟩ := s
  obtain ⟨as, as', φ', l₁, l₂, has, hok, rfl, rfl⟩ := on_space_cases hs
  have hnew := wp_ok (hf as has (h as (by simp))) hok
  intro a ha
  simp only [List.mem_append, List.mem_cons, Option.some.injEq] at ha
  rcases ha with ha | rfl | ha
  · exact h a (by simp [ha])
  · exact hnew
  · exact h a (by simp [ha])

theorem step_keeps_ends (h : ∀ as, some as ∈ s.spaces → P as)
    (hcongr : ∀ as as', P as → SameEnds as as' → P as')
    (hfile : ∀ elf as, e = .from_elf elf → as.data_segment_end = elf.data_end →
      as.data_segment_max = round_up elf.data_end + AddressSpace.BRK_MAX → P as)
    (hbrk : ∀ i addr as φ, e = .brk i addr → s.spaces[i]? = some (some as) → P as →
      wp anyPanic (as.brk cfg addr) (fun r _ => P r.1) φ)
    (hs : Os.step cfg s e = .ok (s', u)) : ∀ as, some as ∈ s'.spaces → P as := by
  cases e with
  | from_elf elf =>
    obtain ⟨as, φ', ⟨hend, hmax⟩, heq⟩ := wp_map_ok from_elf_ends hs
    obtain ⟨rfl, _⟩ := Prod.mk.inj heq
    intro a ha
    simp only [List.mem_append, List.mem_singleton, Option.some.injEq] at ha
    rcases ha with ha | rfl
    · exact h a ha
    · exact hfile elf a rfl hend hmax
  | fork i =>
    obtain ⟨as, c, φ', l₁, l₂, has, hok, _, rfl⟩ := new_from_cases hs
    have hc := wp_ok fork_ends hok
    intro a ha
    simp only [List.mem_append, List.mem_singleton, Option.some.injEq] at ha
    rcases ha with ha | rfl
    · exact h a ha
    · exact hcongr as a (h as (List.mem_of_getElem? has)) hc
  | drop i =>
    obtain ⟨φ, kernel, l⟩ := s
    obtain ⟨as, φ', l₁, l₂, _, rfl, rfl⟩ := drop_space_cases hs
    intro a ha
    refine h a ?_
    simp only [List.mem_append, List.mem_cons, reduceCtorEq, false_or] at ha ⊢
    tauto
  | handle_pagefault i va =>
    exact on_space_keeps h hs fun as _ ha => wp_mono handle_pagefault_ends fun as' _ =>
      hcongr as as' ha
  | brk i addr =>
    exact on_space_keeps h hs fun as has ha =>
      wp_call (hbrk i addr as _ rfl has ha) fun r _ h' => h'
  | mmap i addr length prot =>
    exact on_space_keeps h hs fun as _ ha => wp_call sys_mmap_ends fun r _ h' => hcongr as r.1 ha h'
  | munmap i addr =>
    exact on_space_keeps h hs fun as _ ha => wp_mono remove_area_ends fun as' _ => hcongr as as' ha
  | alloc_user_stack i arguments environments elf header =>
    refine on_space_keeps h hs fun as _ ha => wp_call ?_ fun r _ h' => hcongr as r.1 ha h'
    exact UserStack.alloc_user_stack_space insert_user_area_ends
  | poke i va b =>
    exact on_space_keeps h hs fun as _ ha => wp_mono poke_ends fun as' _ => hcongr as as' ha
  | insert_kernel_stack tid =>
    obtain ⟨r, kernel', φ', _, _, rfl⟩ := on_stack_cases hs
    exact h
  | remove_kernel_stack tid =>
    obtain ⟨r, kernel', φ', _, _, rfl⟩ := on_stack_cases hs
    exact h

theorem step_ends (h : ∀ as, some as ∈ s.spaces → Ends cfg as) (he : e.avoids_devices cfg s)
    (hs : Os.step cfg s e = .ok (s', u)) : ∀ as, some as ∈ s'.spaces → Ends cfg as := by
  refine step_keeps_ends h (fun as as' => Ends.congr) ?_ ?_ hs
  · rintro elf as rfl hend hmax
    exact Ends.of_file hend hmax he
  · rintro i addr as φ rfl has ha
    exact ha.brk (he as has)

theorem step_aligned (h : ∀ as, some as ∈ s.spaces → as.data_segment_max % PAGE_SIZE = 0)
    (hs : Os.step cfg s e = .ok (s', u)) :
    ∀ as, some as ∈ s'.spaces → as.data_segment_max % PAGE_SIZE = 0 := by
  refine step_keeps_ends h (fun as as' ha hsame => by rw [hsame.limit]; exact ha) ?_ ?_ hs
  · rintro elf as rfl _ hmax
    rw [hmax]
    exact limit_aligned _
  · rintro i addr as φ rfl _ ha
    refine wp_mono brk_ends ?_
    rintro r _ (hsame | ⟨_, _, _, hmax⟩)
    · rw [hsame.limit]
      exact ha
    · rw [hmax]
      exact ha

end Steps

/-! ## Files that do not end behind the devices -/

theorem alloc_loop_first {size va_end : Nat}
    {l : List (VARange × MapArea)} (hfit : va_end + PAGE_SIZE < USIZE)
    (hl : ∀ a ∈ l, a.1.start ≤ va_end ∧ round_up a.1.stop + PAGE_SIZE + size ≤ va_end) :
    AddressSpace.alloc_user_area_loop size l va_end = some va_end := by
  induction l with
  | nil => rfl
  | cons a l ih =>
    obtain ⟨hstart, hstop⟩ := hl a List.mem_cons_self
    have hadd : ∀ x y, x + y ≤ va_end + PAGE_SIZE → checked_add x y = some (x + y) :=
      fun x y hxy => by
      unfold checked_add
      rw [if_pos (Nat.lt_of_le_of_lt hxy hfit)]
    have hup : checked_round_up a.1.stop = some (round_up a.1.stop) := by
      have := le_round_up a.1.stop
      unfold checked_round_up
      rw [if_pos (by omega)]
    simp only [AddressSpace.alloc_user_area_loop, Option.bind_eq_bind,
      hadd va_end PAGE_SIZE (Nat.le_refl _),
      Option.bind_some]
    rw [if_neg (by simp only [PAGE_SIZE]; omega), hup, Option.bind_some,
      hadd _ _ (by omega), Option.bind_some,
      hadd _ _ (by omega), Option.bind_some, max_eq_left hstop]
    exact ih fun b hb => hl b (List.mem_cons_of_mem _ hb)

theorem device_end_fits {d : Nat} (hd : d ∈ cfg.device_pages) :
    vpn_va (d + 1) + PAGE_SIZE < USIZE := by
  have h := device_lt hd
  have hend : vpn_va (d + 1) + PAGE_SIZE ≤ vpn_va FIRST_PPN + PAGE_SIZE :=
    Nat.add_le_add_right (Nat.mul_le_mul_right _ h) _
  exact Nat.lt_of_le_of_lt hend (by decide)

theorem alloc_user_area_first {size : Nat}
    (hfit : as.data_segment_max + PAGE_SIZE + size + PAGE_SIZE < USIZE)
    (hstops : ∀ a ∈ as.areas, a.1.start ≤ a.1.stop ∧ round_up a.1.stop ≤ as.data_segment_max) :
    as.alloc_user_area size = some (as.data_segment_max + PAGE_SIZE + size) := by
  have hone : as.data_segment_max + PAGE_SIZE < USIZE := by omega
  have htwo : as.data_segment_max + PAGE_SIZE + size < USIZE := by omega
  unfold AddressSpace.alloc_user_area checked_add
  simp only [if_pos hone, if_pos htwo, Option.bind_eq_bind, Option.bind_some]
  refine alloc_loop_first hfit fun a ha => ?_
  obtain ⟨hle, hstop⟩ := hstops a ha
  have hup := le_round_up a.1.stop
  omega

theorem devices_of_avoids (h : AvoidsDevices cfg as) (hmod : as.data_segment_max % PAGE_SIZE = 0)
    (hstops : ∀ a ∈ as.areas, a.1.start ≤ a.1.stop ∧ a.1.stop ≤ as.data_segment_max) :
    BehindDevices cfg as.data_segment_end as.data_segment_max := by
  intro d hd
  have hfit := device_end_fits hd
  have hnext : vpn_va (d + 1) = vpn_va d + PAGE_SIZE := Nat.succ_mul _ _
  have hpage : vpn_va d % PAGE_SIZE = 0 := Nat.mul_mod_left _ _
  by_contra hnot
  rw [not_or] at hnot
  by_cases hbehind : as.data_segment_max < vpn_va d
  · -- the place that ends with the device's page
    have hlimit : as.data_segment_max + PAGE_SIZE ≤ vpn_va d := by
      simp only [PAGE_SIZE] at hmod hpage ⊢
      omega
    have hsum : as.data_segment_max + PAGE_SIZE +
      (vpn_va (d + 1) - (as.data_segment_max + PAGE_SIZE)) = vpn_va (d + 1) := by
      omega
    have halloc : as.alloc_user_area (vpn_va (d + 1) - (as.data_segment_max + PAGE_SIZE)) = _ :=
      alloc_user_area_first (by rw [hsum]; exact hfit) fun a ha => ?_
    · rw [hsum] at halloc
      refine h.1 _ _ halloc d ?_ hd
      have hsize : vpn_va (d + 1) - (vpn_va (d + 1) - (as.data_segment_max + PAGE_SIZE)) ≤
        vpn_va d := by omega
      rw [VARange.pages, mem_vpns]
      refine ⟨?_, ?_⟩
      · exact (Nat.div_le_div_right hsize).trans (Nat.mul_div_cancel d (by decide)).le
      · simp only [ceil, vpn_va, PAGE_SIZE]
        omega
    · obtain ⟨hle, hstop⟩ := hstops a ha
      refine ⟨hle, (round_up_le hstop).trans ?_⟩
      simp only [round_up, PAGE_SIZE] at hmod ⊢
      omega
  · refine h.2 _ (Nat.le_refl _) d ?_ hd
    have hbefore : vpn_va d < as.data_segment_max := by omega
    have hstart := hnot.1
    rw [mem_vpns]
    simp only [floor, ceil, round_up, vpn_va, PAGE_SIZE] at hstart hbefore hmod ⊢
    omega

/-- In every run whose files end behind the devices, and in which `brk` moves no end back before
them, `alloc_user_area` and `brk` find no page of a device. And of an address space that was just
loaded, with its segments before the limit, this holds only if its file ends behind the devices. -/
theorem placement_avoids_devices (cfg : Config) (sym : Layout) (mem : Mem)
    (kernel : PageTableImpl) (φ : Phys) (es : List Event) (s : Os) (os : List Unit)
    (_hboot : boot cfg sym ⟨mem, PhyPageAllocator.new⟩ = .ok (kernel, φ))
    (hmeets : Meets (Os.step cfg) (fun s e => e.avoids_devices cfg s) (Os.start kernel φ) es)
    (hrun : run (Os.step cfg) (Os.start kernel φ) es = .ok (s, os)) :
    (∀ as, some as ∈ s.spaces → AvoidsDevices cfg as) ∧
    ∀ elf as φ', AddressSpace.from_elf cfg s.kernel.page_table.root elf s.phys = .ok (as, φ') →
      (∀ a ∈ as.areas, a.1.start ≤ a.1.stop ∧ a.1.stop ≤ as.data_segment_max) →
      (AvoidsDevices cfg as ↔
        BehindDevices cfg elf.data_end (round_up elf.data_end + AddressSpace.BRK_MAX)) := by
  have hends : ∀ as, some as ∈ s.spaces → Ends cfg as := run_invariant_of_meets
    (fun s => ∀ as, some as ∈ s.spaces → Ends cfg as)
      (fun s e s' u hs he hstep => step_ends hs he hstep)
    (by simp [Os.start]) hmeets hrun
  refine ⟨fun as has => (hends as has).avoids, fun elf as φ' hload hstops => ?_⟩
  have hspec : wp anyPanic (AddressSpace.from_elf cfg s.kernel.page_table.root elf)
    _ s.phys := from_elf_ends
  obtain ⟨hend, hmax⟩ := wp_ok hspec hload
  refine ⟨fun h => ?_, fun h => (Ends.of_file hend hmax h).avoids⟩
  have hdev := devices_of_avoids h (by rw [hmax]; exact limit_aligned _) hstops
  rw [hend, hmax] at hdev
  exact hdev

/-- A file linked behind the devices of `qemu`, whose data segment grows and shrinks again. -/
theorem placement_avoids_devices_behind : ∃ kernel φ s os as,
    boot qemu smallLayout ⟨fun _ => 0, PhyPageAllocator.new⟩ = .ok (kernel, φ) ∧
    run (Os.step qemu) (Os.start kernel φ)
    [.from_elf (onePage 0x20000000), .brk 0 0x20001800, .brk 0 0x20001000] =
      .ok (s, os) ∧ s.spaces[0]? = some (some as) ∧ AvoidsDevices qemu as := by
  obtain ⟨kernel, φ, s, os, hboot, hmeets, hrun, hseen⟩ :=
    small_run_meets [.from_elf (onePage 0x20000000), .brk 0 0x20001800, .brk 0 0x20001000]
      (fun s e => e.avoids_devices qemu s) (fun s => (s.spaces[0]?).join.isSome = true)
        (by decide +kernel)
  obtain ⟨as, has⟩ := Option.isSome_iff_exists.mp hseen
  have has := Option.join_eq_some_iff.mp has
  exact ⟨kernel, φ, s, os, as, hboot, hrun, has,
    (placement_avoids_devices qemu smallLayout _ kernel φ _ s os hboot
    hmeets hrun).1 as (List.mem_of_getElem? has)⟩

/-- On the other board the last device is further up. -/
example (s : Os) : ¬ Event.avoids_devices k210 s (.from_elf (onePage 0x20000000)) ∧
    Event.avoids_devices k210 s (.from_elf (onePage 0x54001000)) :=
  ⟨by show ¬ BehindDevices k210 _ _; decide, by show BehindDevices k210 _ _; decide⟩

/-- Below the devices of `qemu` the place that `mmap` takes is the page of the first one, so that it
panics. -/
theorem mmap_meets_device : ∃ kernel φ s os as,
    boot qemu smallLayout ⟨fun _ => 0, PhyPageAllocator.new⟩ = .ok (kernel, φ) ∧
    run (Os.step qemu) (Os.start kernel φ) [.from_elf (onePage 0xFFFC000)] = .ok (s, os) ∧
    s.spaces[0]? = some (some as) ∧ ¬ AvoidsDevices qemu as ∧
    Os.step qemu s (.mmap 0 0 4096 ⟨true, true, false⟩) = .error .assert := by
  obtain ⟨kernel, φ, s, os, hboot, hrun, hseen⟩ := small_run_ends [.from_elf (onePage 0xFFFC000)]
    (fun s => ((s.spaces[0]?).join.any fun as => as.alloc_user_area 4096 = some 0x10002000) = true ∧
      panics .assert (Os.step qemu s (.mmap 0 0 4096 ⟨true, true, false⟩)) = true)
        (by decide +kernel)
  obtain ⟨as, has, hp⟩ := (Option.any_eq_true _ _).mp hseen.1
  rw [decide_eq_true_eq] at hp
  refine ⟨kernel, φ, s, os, as, hboot, hrun, Option.join_eq_some_iff.mp has,
    fun h => ?_, panics_iff.mp hseen.2⟩
  exact h.1 4096 _ hp 0x10001 (by decide) (by decide)

end HectoOs.Mm
