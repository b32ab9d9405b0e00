import HectoOs.Mm.DevicePages
import HectoOs.Mm.LoadedSegments

/-! # The bytes of a loaded file

A segment may have any address. Below the upper half its pages get tables of the process; in the
upper half they come into the tables that the process shares with the kernel. Both are seen at once
from a page table that counts the kernel's tables among its own.
-/

open HectoOs.Lib

namespace HectoOs.Mm

open PageTableImpl

variable {cfg : Config} {s : Os} {φ φ₀ φ' : Phys} {as as' : AddressSpace}
  {pt : PageTableImpl} {K : List Nat}

/-! ## Tables of somebody else -/

/-- The page table with the tables `K` more. -/
def PageTableImpl.grow (K : List Nat) (pt : PageTableImpl) : PageTableImpl :=
  { pt with frames := K ++ pt.frames }

def AddressSpace.grow (K : List Nat) (as : AddressSpace) : AddressSpace :=
  { as with page_table := as.page_table.grow K }

def AddressSpace.Loading.grow (K : List Nat) (s : AddressSpace.Loading) : AddressSpace.Loading :=
  { s with page_table := s.page_table.grow K }

@[simp] theorem lookup_grow (m : Mem) (v : Nat) :
    lookup cfg m (pt.grow K) v = lookup cfg m pt v := rfl

theorem create_table_grow (pte : Slot) :
    (pt.grow K).create_table pte = PageTableImpl.grow K <$> pt.create_table pte := by
  simp only [create_table, PageTableImpl.grow, map_bind, map_pure, List.append_assoc]

theorem find_pte_create_loop_grow (pt : PageTableImpl) (pte : Slot) (idxs : List (Fin 512)) :
    find_pte_create_loop cfg (pt.grow K) pte idxs =
      (fun r => (r.1.grow K, r.2)) <$> find_pte_create_loop cfg pt pte idxs := by
  induction idxs generalizing pt pte with
  | nil => rfl
  | cons idx idxs ih =>
    simp only [find_pte_create_loop, map_bind]
    refine bind_congr fun φ => ?_
    split
    · exact ih pt _
    · simp only [create_table_grow, bind_map_left, map_bind, ih]

theorem map_one_grow (pt : PageTableImpl) (v p : Nat) (f : PTEImpl) :
    map_one cfg (pt.grow K) v p f = PageTableImpl.grow K <$> map_one cfg pt v p f := by
  have hroot : (pt.grow K).root = pt.root := rfl
  simp only [PageTableImpl.map_one, find_pte_create, hroot, find_pte_create_loop_grow,
    bind_map_left, map_bind, map_pure]

theorem load_page_grow (file : List Byte) (ph : ProgramHeader)
    (s : AddressSpace.Loading) (v : Nat) :
    AddressSpace.load_page cfg file ph (s.grow K) v =
      AddressSpace.Loading.grow K <$> AddressSpace.load_page cfg file ph s v := by
  simp only [AddressSpace.load_page, AddressSpace.Loading.grow, map_one_grow,
    bind_map_left, map_bind, map_pure]
  rfl

theorem insert_area_grow (as : AddressSpace) (k : VARange) (area : MapArea) :
    (as.grow K).insert_area cfg k area = AddressSpace.grow K <$> as.insert_area cfg k area := by
  simp only [AddressSpace.insert_area, AddressSpace.grow, AddressSpace.tree, map_bind, map_pure]

theorem load_segment_grow (file : List Byte) (as : AddressSpace) (ph : ProgramHeader) :
    AddressSpace.load_segment cfg file (as.grow K) ph =
      AddressSpace.grow K <$> AddressSpace.load_segment cfg file as ph := by
  rw [AddressSpace.load_segment, AddressSpace.load_segment]
  split
  · simp only [map_bind]
    refine bind_congr fun _ => bind_congr fun _ => bind_congr fun pages => ?_
    -- the loop starts with the same tables, grown
    have hloop := foldlM_hom (AddressSpace.Loading.grow K)
      (f := AddressSpace.load_page cfg file ph) (l := pages)
      (b := ⟨as.page_table, ⟨[], .Framed, ph.map_perm⟩, ph.offset, page_offset ph.virtual_addr⟩)
        (load_page_grow file ph)
    refine Eq.trans (congrArg (· >>= _) hloop) ?_
    rw [bind_map_left]
    refine bind_congr fun s => ?_
    exact insert_area_grow ⟨s.page_table, as.areas, as.shape, ph.va_range.stop,
      as.data_segment_max⟩ ph.va_range s.area
  · rfl

/-! ## Both halves -/

section Grown

variable {kernel : AddressSpace} {l : List (Option AddressSpace)}

/-- The other trackers, when the kernel's tables are the process' too. -/
def beside (kernel : AddressSpace) (l : List (Option AddressSpace)) : List Nat :=
  kernel.page_table.root :: (kernel.frames ++ space_trackers l)

theorem mem_grown {t : Nat} (h : kernel.page_table.tables.Nodup) :
    t ∈ (as.page_table.grow kernel.page_table.frames).tables ↔
      t ∈ as.page_table.tables ∨ t ∈ kernel.page_table.tables ∧ t ≠ kernel.page_table.root := by
  have hroot : kernel.page_table.root ∉ kernel.page_table.frames := (List.nodup_cons.mp h).1
  have hne : t ∈ kernel.page_table.frames → t ≠ kernel.page_table.root :=
    fun ht he => hroot (he ▸ ht)
  simp only [tables, PageTableImpl.grow, List.mem_cons, List.mem_append]
  tauto

theorem KernelHalf.grown (h : KernelHalf cfg ⟨φ, kernel, l ++ [some as]⟩) :
    Owns cfg (fun _ => True) φ (as.page_table.grow kernel.page_table.frames)
    (as.frames ++ beside kernel l) := by
  have hspace := h.spaces as (by simp)
  have hnodup := h.kernel_owns.nodup
  have hmem : ∀ t, t ∈ (as.page_table.grow kernel.page_table.frames).tables ↔
      t ∈ as.page_table.tables ∨ t ∈ kernel.page_table.tables ∧ t ≠ kernel.page_table.root :=
        fun t => mem_grown hnodup
  have htables : ∀ t ∈ (as.page_table.grow kernel.page_table.frames).tables,
      t ∈ (Os.mk φ kernel (l ++ [some as])).tables := fun t ht =>
    Os.mem_tables.mpr (((hmem t).mp ht).elim (fun ht => .inr ⟨as, by simp, ht⟩) fun ht => .inl ht.1)
  have hperm : (Os.mk φ kernel (l ++ [some as])).trackers.Perm
      ((as.grow kernel.page_table.frames).trackers ++ beside kernel l) := by
    rw [List.perm_iff_count]
    intro q
    simp only [Os.trackers, beside, space_trackers, AddressSpace.trackers,
      tables, AddressSpace.grow, PageTableImpl.grow,
      AddressSpace.frames, List.flatMap_append, List.flatMap_cons, List.flatMap_nil,
      Option.elim_some, List.count_append,
      List.count_cons, List.count_nil]
    omega
  refine Owns.of_count h.alloc hperm ?_ fun t ht => h.once t (htables t ht)
  obtain ⟨path, htree⟩ := hspace.tree
  obtain ⟨path', hkernel⟩ := h.kernel
  have hapart : ∀ t, t ∈ as.page_table.tables → t ∉ kernel.page_table.tables := fun t ht hk =>
    h.owns.notMem ht (List.mem_append_right _ (mem_others_kernel (mem_trackers_of_table hk)))
  have hjoin := htree.join hkernel (by decide) hspace.shared hapart
  have heq : (fun t => t ∈ (as.page_table.grow kernel.page_table.frames).tables) =
      fun t => t ∈ as.page_table.tables ∨ t ∈ kernel.page_table.tables ∧
      t ≠ kernel.page_table.root :=
    funext fun t => propext (hmem t)
  rw [← heq] at hjoin
  exact ⟨_, hjoin⟩

end Grown

/-! ## Segment after segment -/

def loaded_entry (y : LoadedPage) : Nat × PTEImpl := (y.2.1, .new y.2.2 (y.1.map_perm ||| .VALID))

/-- The segments `done` of a file have been loaded into the pages `L`. -/
structure Placing (cfg : Config) (file : List Byte) (rest : List Nat) (φ₀ : Phys)
    (as₀ : AddressSpace) (done : List ProgramHeader) (φ : Phys) (as : AddressSpace)
    (L : List LoadedPage) : Prop where
  owns : Owns cfg (fun _ => True) φ as.page_table (as.frames ++ rest)
  loading : Loading done as
  stop : as.data_segment_end = (done.filter (·.load)).getLast?.elim 1 (·.va_range.stop)
  headers : L.map (fun y => (y.1, y.2.1)) = (done.filter (·.load)).flatMap fun ph =>
    ph.pages.map (Prod.mk ph)
  held : ∀ y ∈ L, y.2.2 ∈ as.frames
  shown : ∀ y ∈ L, y.1.InFrame file φ.mem y.2
  maps : Maps cfg (fun _ => True) φ₀.mem as₀.page_table φ.mem as.page_table (L.map loaded_entry)

section Place

variable {may : Panic → Prop} {rest : List Nat} {as₀ : AddressSpace} {file : List Byte}
  {done later : List ProgramHeader}
  {ph : ProgramHeader} {L : List LoadedPage}

theorem Placing.skip (h : Placing cfg file rest φ₀ as₀ done φ as L) (hload : ¬ ph.load = true) :
    Placing cfg file rest φ₀ as₀ (done ++ [ph]) φ as L := by
  have hfilter : (done ++ [ph]).filter (·.load) = done.filter (·.load) := by
    rw [List.filter_append, List.filter_cons_of_neg hload, List.filter_nil, List.append_nil]
  refine { h with loading := h.loading.skip hload, stop := ?_, headers := ?_ }
  · rw [hfilter]
    exact h.stop
  · rw [hfilter]
    exact h.headers

theorem load_segment_places (hm : may .out_of_frames)
    (hload : ph.load = true) (h : Placing cfg file rest φ₀ as₀ done φ as L)
    (hkey : ∀ a ∈ as.areas, ph.va_range.cmp a.1 ≠ .eq)
    (hfree : may .assert ∨ ph.Loadable file ∧ Unmapped cfg φ.mem as.page_table ph.pages) :
    wp may (AddressSpace.load_segment cfg file as ph) (fun as' φ' =>
      ∃ L', Placing cfg file rest φ₀ as₀ (done ++ [ph]) φ' as' L') φ := by
  refine wp_mono (load_segment_spec file hm hload h.owns (fun _ _ => trivial) hfree) ?_
  rintro as' φ' ⟨has, φ₁, area', new, hnew, hshown, hi⟩
  have hfilter : (done ++ [ph]).filter (·.load) = done.filter (·.load) ++ [ph] := by
    rw [List.filter_append, List.filter_cons_of_pos hload, List.filter_nil]
  have hframes : ∀ q ∈ as.frames, q ∈ as'.frames := by
    intro q hq
    rw [AddressSpace.frames, hi.areas,
      ((AddressSpace.insert_perm area' hkey).flatMap_right _).mem_iff, List.flatMap_cons]
    exact List.mem_append_right _ hq
  refine ⟨L ++ new.map (Prod.mk ph), ?_, h.loading.snoc hload hkey hi.areas,
    ?_, ?_, fun y hy => ?_, fun y hy => ?_, ?_⟩
  · exact hi.exchanges.owns
  · rw [has, hfilter, List.getLast?_concat]
    rfl
  · rw [hfilter, List.flatMap_append, List.flatMap_singleton, List.map_append,
      h.headers, ← hnew, List.map_map, List.map_map]
    rfl
  · rcases List.mem_append.mp hy with hy | hy
    · exact hframes _ (h.held y hy)
    · obtain ⟨x, hx, rfl⟩ := List.mem_map.mp hy
      rw [AddressSpace.frames, hi.areas]
      obtain ⟨k', hmem⟩ := SearchTree.insert_mem VARange.cmp ph.va_range area' as.tree
      exact List.mem_flatMap.mpr ⟨_, hmem, hi.filled.mem_frames.mpr (.inl (List.mem_map_of_mem hx))⟩
  · rcases List.mem_append.mp hy with hy | hy
    · refine (h.shown y hy).same ((hi.filled.same _ ?_).trans (hi.same _ ?_))
      · exact List.mem_append_right _ (List.mem_append_left _ (h.held y hy))
      · exact List.mem_append_right _ (List.mem_append_left _ (hframes _ (h.held y hy)))
    · obtain ⟨x, hx, rfl⟩ := List.mem_map.mp hy
      exact hshown x hx
  · have hmaps := h.maps.trans hi.maps fun _ _ => trivial
    rw [List.map_append, List.map_map]
    exact hmaps

/-- The pages of the segments, one after the other. -/
def ElfFile.pages (elf : ElfFile) : List Nat := elf.loads.flatMap ProgramHeader.pages

theorem Placing.pages (h : Placing cfg file rest φ₀ as₀ done φ as L) :
    (L.map loaded_entry).map (·.1) = (done.filter (·.load)).flatMap ProgramHeader.pages := by
  have hheaders := congrArg (List.map Prod.snd) h.headers
  rw [List.map_map, List.map_flatMap] at hheaders
  rw [List.map_map]
  refine hheaders.trans (List.flatMap_congr fun ph _ => ?_)
  rw [List.map_map]
  exact List.map_id _

theorem Placing.next (h : Placing cfg file rest φ₀ as₀ done φ as L)
    {elf : ElfFile} (hl : elf.program_iter = done ++ ph :: later)
    (hload : ph.load = true) (hfree : Unmapped cfg φ₀.mem as₀.page_table elf.pages) :
    Unmapped cfg φ.mem as.page_table ph.pages := by
  have hpages : elf.pages = (L.map loaded_entry).map (·.1) ++
      (ph.pages ++ (later.filter (·.load)).flatMap ProgramHeader.pages) := by
    rw [h.pages, ElfFile.pages, ElfFile.loads, hl, List.filter_append,
      List.filter_cons_of_pos hload, List.flatMap_append,
      List.flatMap_cons]
  have hdistinct := hfree.distinct
  rw [hpages] at hdistinct
  obtain ⟨_, hrest, hcross⟩ := List.pairwise_append.mp hdistinct
  refine ⟨fun v hv => ?_, (List.pairwise_append.mp hrest).1⟩
  rw [h.maps.other trivial, hfree.free v (by simp [hpages, hv])]
  exact fun y hy => hcross y.1 (List.mem_map_of_mem hy) v (List.mem_append_left _ hv)

theorem segments_places {elf : ElfFile} (hm : may .out_of_frames)
    (hareas : as₀.areas = []) (hstop : as₀.data_segment_end = 1)
    (ho : Owns cfg (fun _ => True) φ₀ as₀.page_table (as₀.frames ++ rest))
    (hpair : elf.loads.Pairwise fun a b => b.va_range.eq a.va_range = false) (hfree : may .assert ∨
    (∀ ph ∈ elf.loads, ph.Loadable elf.file) ∧ Unmapped cfg φ₀.mem as₀.page_table elf.pages) :
    wp may (elf.program_iter.foldlM (AddressSpace.load_segment cfg elf.file) as₀) (fun as φ =>
      ∃ L, Placing cfg elf.file rest φ₀ as₀ elf.program_iter φ as L) φ₀ := by
  refine wp_foldlM (fun done as φ => ∃ L, Placing cfg elf.file rest φ₀ as₀ done φ as L) ?_ ?_
  · exact ⟨[], ho, ⟨by rw [hareas]; exact List.Pairwise.nil, by simp [hareas], by simp⟩,
      hstop, rfl, by simp, by simp, Maps.nil⟩
  · rintro done ph later as φ hl ⟨L, h⟩
    by_cases hload : ph.load = true
    · refine load_segment_places hm hload h (h.loading.new_key hl hload hpair)
        (hfree.imp_right fun hc => ?_)
      exact ⟨hc.1 ph (by simp [ElfFile.loads, hl, hload]), h.next hl hload hc.2⟩
    · rw [AddressSpace.load_segment, if_neg hload]
      exact ⟨L, h.skip hload⟩

end Place

/-! ## Files that can be loaded -/

/-- The segments lie in the file, and their pages are apart from each other and from the devices. -/
structure ElfFile.WellFormed (cfg : Config) (elf : ElfFile) : Prop where
  nonempty : ∀ ph ∈ elf.loads, 0 < ph.mem_size
  size : ∀ ph ∈ elf.loads, ph.file_size ≤ ph.mem_size
  inside : ∀ ph ∈ elf.loads, ph.offset + ph.file_size ≤ elf.file.length
  disjoint : elf.loads.Pairwise fun a b => ∀ v ∈ a.pages, v ∉ b.pages
  devices : ∀ v ∈ elf.pages, v ∉ cfg.device_pages

/-- No page with the indices of `v` is mapped in a new address space: the lower half has the
devices, and the upper half what the kernel has. -/
def Vacant (cfg : Config) (m : Mem) (kernel : PageTableImpl) (v : Nat) : Prop :=
  if userHalf (vpn_index v 18) then key v ∉ cfg.device_pages else lookup cfg m kernel v = none

instance (m : Mem) (kernel : PageTableImpl) (v : Nat) : Decidable (Vacant cfg m kernel v) :=
  inferInstanceAs (Decidable
    (if userHalf (vpn_index v 18) then key v ∉ cfg.device_pages else lookup cfg m kernel v = none))

/-- The limit of the heap behind the segments, when it can be computed. -/
def ElfFile.data_segment_max (elf : ElfFile) : Option Nat :=
  (checked_round_up elf.data_end).bind (checked_add · AddressSpace.BRK_MAX)

/-- The ends of the segments can be computed. -/
def ElfFile.Ends (elf : ElfFile) : Prop :=
  (∀ ph ∈ elf.loads, ph.virtual_addr + ph.mem_size < USIZE ∧ ceil_checks ph.va_range.stop = true) ∧
    elf.data_segment_max.isSome = true

/-- The ends of the segments can be computed, and their pages can be mapped beside the kernel's. -/
def ElfFile.Mappable (cfg : Config) (m : Mem) (kernel : PageTableImpl) (elf : ElfFile) : Prop :=
  elf.Ends ∧ (∀ v ∈ elf.pages, Vacant cfg m kernel v) ∧ elf.pages.Pairwise fun v w => key v ≠ key w

/-- Every byte of the segment can be read through the page table: those of the file, then zeros. -/
def ProgramHeader.Placed (cfg : Config) (file : List Byte) (m : Mem) (pt : PageTableImpl)
    (ph : ProgramHeader) : Prop :=
  ∀ k, k < ph.mem_size → ∃ e, lookup cfg m pt (floor (ph.virtual_addr + k)) = some e ∧
    m (frame_va (e.ppn cfg) + page_offset (ph.virtual_addr + k)) =
      (if k < ph.file_size then file.getD (ph.offset + k) 0 else 0) ∧
    e.contains .USER = true ∧ e.contains .READABLE = ph.is_read ∧
    e.contains .WRITABLE = ph.is_write ∧
    e.contains .EXECUTABLE = ph.is_execute


theorem ProgramHeader.floor_mem {ph : ProgramHeader} {a : Nat} (hload : ph.load = true)
    (h1 : ph.virtual_addr ≤ a) (h2 : a < ph.virtual_addr + ph.mem_size) : floor a ∈ ph.pages := by
  rw [ProgramHeader.pages, if_pos hload, mem_vpns]
  simp only [ProgramHeader.va_range, floor, ceil, PAGE_SIZE]
  omega

section WellFormed

variable {elf : ElfFile} (h : elf.WellFormed cfg)
include h

theorem ElfFile.WellFormed.keys :
    elf.loads.Pairwise fun a b => b.va_range.eq a.va_range = false := by
  refine h.disjoint.imp_of_mem fun {a b} ha hb hdisjoint => ?_
  have hloada := (List.mem_filter.mp ha).2
  have hloadb := (List.mem_filter.mp hb).2
  have ha0 := h.nonempty a ha
  have hb0 := h.nonempty b hb
  by_contra heq
  simp only [VARange.eq, ProgramHeader.va_range, Bool.not_eq_false, Bool.or_eq_true,
    Bool.and_eq_true] at heq
  rcases heq with ⟨h1, h2⟩ | ⟨h1, h2⟩
  all_goals
    replace h1 := of_decide_eq_true h1
    replace h2 := of_decide_eq_true h2
  · exact hdisjoint _ (a.floor_mem hloada (le_refl _) (by omega)) (b.floor_mem hloadb h1 (by omega))
  · exact hdisjoint _ (a.floor_mem hloada h1 (by omega)) (b.floor_mem hloadb (le_refl _) (by omega))

theorem ElfFile.WellFormed.loadable (he : elf.Ends) :
    ∀ ph ∈ elf.loads, ph.Loadable elf.file := fun ph hph =>
  ⟨h.size ph hph, h.inside ph hph, (he.1 ph hph).1, (he.1 ph hph).2⟩

end WellFormed

theorem NewSpace.vacant {live : List Nat} {kernel : PageTableImpl}
    {v : Nat} (h : NewSpace cfg live kernel.root φ φ' pt)
    (htree : Tree cfg φ.mem kernel fun _ => True) (hlive : ∀ t ∈ kernel.tables, t ∈ live) :
    lookup cfg φ'.mem pt v = none ↔ Vacant cfg φ.mem kernel v := by
  unfold Vacant
  split
  · rename_i hv
    have hkey : key (key v) = key v := Nat.mod_mod _ _
    have hlow : key v < 2 ^ 26 := by
      simp only [userHalf, vpn_index_val] at hv
      simp only [key]
      omega
    rw [← lookup_mod hkey]
    refine ⟨fun hnone hd => ?_, fun hd => ?_⟩
    · rw [h.devices _ hd] at hnone
      simp at hnone
    · by_contra hsome
      obtain ⟨e, he⟩ := Option.ne_none_iff_exists'.mp hsome
      obtain ⟨x, hx, _⟩ := h.tracks.tracked _ e hlow he hd
      simp at hx
  · rename_i hv
    have hkernel : lookup cfg φ'.mem kernel v = lookup cfg φ.mem kernel v :=
      lookup_congr htree (fun t ht => h.same t (hlive t ht)) trivial
    rw [lookup_of_root_eq (h.shared _ hv), hkernel]

theorem segment_flags (ph : ProgramHeader) (p : Nat) :
    (PTEImpl.new p (ph.map_perm ||| .VALID)).contains .USER = true ∧
    (PTEImpl.new p (ph.map_perm ||| .VALID)).contains .READABLE = ph.is_read ∧
    (PTEImpl.new p (ph.map_perm ||| .VALID)).contains .WRITABLE = ph.is_write ∧
    (PTEImpl.new p (ph.map_perm ||| .VALID)).contains .EXECUTABLE = ph.is_execute := by
  simp only [PTEImpl.USER, PTEImpl.READABLE, PTEImpl.WRITABLE, PTEImpl.EXECUTABLE]
  rw [PTEImpl.contains_flag _ (by omega), PTEImpl.contains_flag _ (by omega),
    PTEImpl.contains_flag _ (by omega),
    PTEImpl.contains_flag _ (by omega)]
  rw [PTEImpl.getLsbD_new _ _ (by omega), PTEImpl.getLsbD_new _ _ (by omega),
    PTEImpl.getLsbD_new _ _ (by omega),
    PTEImpl.getLsbD_new _ _ (by omega), ProgramHeader.map_perm]
  cases ph.is_read <;> cases ph.is_write <;> cases ph.is_execute <;> decide

/-! ## The whole file -/

section Whole

variable {may : Panic → Prop} {kernel as₀ : AddressSpace} {l : List (Option AddressSpace)}
  {elf : ElfFile} {rest : List Nat}
  {L : List LoadedPage}

theorem Placing.placed (h : Placing cfg elf.file rest φ₀ as₀ elf.program_iter φ as L) :
    ∀ ph ∈ elf.loads, ph.Placed cfg elf.file φ.mem as.page_table := by
  intro ph hph k hk
  have hv := ph.floor_mem (List.mem_filter.mp hph).2 (Nat.le_add_right _ k)
    (Nat.add_lt_add_left hk _)
  have hmem : (ph, floor (ph.virtual_addr + k)) ∈ L.map fun y => (y.1, y.2.1) := by
    rw [h.headers]
    exact List.mem_flatMap.mpr ⟨ph, hph, List.mem_map_of_mem hv⟩
  obtain ⟨⟨ph', v, p⟩, hy, heq⟩ := List.mem_map.mp hmem
  obtain ⟨rfl, hvk⟩ := Prod.mk.inj heq
  dsimp only at hvk ⊢
  subst hvk
  have he := h.maps.of_mem (List.mem_map_of_mem hy) trivial
  have hp : p < 2 ^ 26 := by
    have hframe := h.held _ hy
    exact h.owns.alloc.lt
      (h.owns.alloc.range p (List.mem_append_right _ (List.mem_append_left _ hframe)))
  refine ⟨_, he, ?_, segment_flags ph' p⟩
  rw [loaded_entry, PTEImpl.ppn_new cfg (hp.trans (by decide))]
  exact h.shown _ hy k hk rfl

theorem from_elf_places (hm : may .out_of_frames) (h : KernelHalf cfg ⟨φ, kernel, l⟩)
    (hwf : elf.WellFormed cfg) (hfree : may .assert ∨ elf.Mappable cfg φ.mem kernel.page_table) :
    wp may (AddressSpace.from_elf cfg kernel.page_table.root elf) (fun as φ' =>
      (∀ ph ∈ elf.loads, ph.Placed cfg elf.file φ'.mem as.page_table) ∧
      elf.data_segment_max.isSome = true ∧
      (∀ v ∈ elf.pages, Vacant cfg φ.mem kernel.page_table v) ∧
        elf.pages.Pairwise fun v w => key v ≠ key w) φ := by
  have hk : kernel.page_table.root ∈ (Os.mk φ kernel l).trackers :=
    List.mem_append_left _ (mem_trackers_of_table List.mem_cons_self)
  rw [AddressSpace.from_elf, wp_bind]
  refine wp_mono (wp_and (new_space_half hm h) (new_space_spec hm h.alloc hk)) ?_
  rintro as₀ φ₀ ⟨hhalf, hn, has⟩
  have hareas : (as₀.grow kernel.page_table.frames).areas = [] := by rw [has]; rfl
  have hstop : as₀.data_segment_end = 1 := by rw [has]
  have hvacant : ∀ v, lookup cfg φ₀.mem as₀.page_table v = none ↔
    Vacant cfg φ.mem kernel.page_table v := fun v =>
    hn.vacant h.kernel fun t ht => List.mem_append_left _ (mem_trackers_of_table ht)
  have hfree' : may .assert ∨ (∀ ph ∈ elf.loads, ph.Loadable elf.file) ∧
      Unmapped cfg φ₀.mem (as₀.grow kernel.page_table.frames).page_table elf.pages :=
        hfree.imp_right fun hc =>
    ⟨hwf.loadable hc.1, fun v hv => (hvacant v).mpr (hc.2.1 v hv), hc.2.2⟩
  -- the loop runs on the tables of both halves
  have hloop := segments_places hm hareas hstop hhalf.grown hwf.keys hfree'
  rw [foldlM_hom (AddressSpace.grow kernel.page_table.frames) (load_segment_grow elf.file),
    wp_map] at hloop
  rw [wp_bind]
  refine wp_mono hloop ?_
  rintro as φ₁ ⟨L, hL⟩
  have hlast : as.data_segment_end = elf.data_end := hL.stop
  have hmax : may .assert ∨ elf.data_segment_max.isSome = true := hfree.imp_right fun hc => hc.1.2
  have hplaced := hL.placed
  have hpages : (L.map loaded_entry).map (·.1) = elf.pages := hL.pages
  have hunmapped : ∀ v ∈ elf.pages, Vacant cfg φ.mem kernel.page_table v := fun v hv => by
    rw [← hpages] at hv
    obtain ⟨y, hy, rfl⟩ := List.mem_map.mp hv
    exact (hvacant y.1).mp (hL.maps.unmapped y hy)
  have hdistinct : elf.pages.Pairwise fun v w => key v ≠ key w := by
    rw [← hpages, List.pairwise_map]
    exact hL.maps.distinct
  unfold ElfFile.data_segment_max at hmax ⊢
  rw [hlast]
  simp only [wp_bind, wp_unwrap, wp_pure]
  refine ⟨fun stop hstop => ⟨fun limit hlimit => ?_, fun hno => ?_⟩, fun hno => ?_⟩
  · rw [hstop, Option.bind_some, hlimit]
    exact ⟨hplaced, rfl, hunmapped, hdistinct⟩
  · rw [hstop, Option.bind_some, hno] at hmax
    simpa using hmax
  · rw [hno] at hmax
    simpa using hmax

theorem from_elf_checked (k : Nat) : wp anyPanic (AddressSpace.from_elf cfg k elf) (fun _ _ =>
    ∀ ph ∈ elf.loads, ph.virtual_addr + ph.mem_size < USIZE ∧
      ceil_checks ph.va_range.stop = true) φ := by
  rw [AddressSpace.from_elf, wp_bind]
  refine wp_mono (wp_any _) fun as₀ φ₀ _ => ?_
  rw [wp_bind]
  refine wp_mono (wp_foldlM (fun done _ _ => ∀ ph ∈ done.filter (·.load),
    ph.virtual_addr + ph.mem_size < USIZE ∧ ceil_checks ph.va_range.stop = true) (by simp) ?_)
      fun as φ₁ hends => ?_
  · intro done ph later as φ₁ _ hdone
    rw [AddressSpace.load_segment, wp_ite]
    refine ⟨fun hload => ?_, fun hno => ?_⟩
    · simp only [wp_bind, wp_assert, wp_unwrap]
      refine ⟨fun hstop => ⟨fun _ => ⟨fun pages hpages => ?_, fun _ => trivial⟩, fun _ => trivial⟩,
        fun _ => trivial⟩
      refine wp_mono (wp_any _) fun s φ₂ _ => wp_mono (wp_any _) fun as' φ₃ _ => ?_
      rw [List.filter_append, List.filter_cons_of_pos hload]
      refine List.forall_mem_append.mpr ⟨hdone, fun ph' hph' => ?_⟩
      obtain rfl := List.mem_singleton.mp hph'
      refine ⟨of_decide_eq_true hstop, ?_⟩
      by_contra hchecks
      rw [VARange.vpn_range, if_neg hchecks] at hpages
      simp at hpages
    · rw [wp_pure, List.filter_append, List.filter_cons_of_neg hno, List.filter_nil,
        List.append_nil]
      exact hdone
  · simp only [wp_bind, wp_unwrap]
    exact ⟨fun _ _ => ⟨fun _ _ => hends, fun _ => trivial⟩, fun _ => trivial⟩

theorem from_elf_placed_iff (h : Consistent cfg s) (hwf : elf.WellFormed cfg)
    (hframes : AddressSpace.from_elf cfg s.kernel.page_table.root elf s.phys ≠
    .error .out_of_frames) :
    (∃ as φ', AddressSpace.from_elf cfg s.kernel.page_table.root elf s.phys = .ok (as, φ') ∧
      ∀ ph ∈ elf.loads, ph.Placed cfg elf.file φ'.mem as.page_table) ↔
    elf.Mappable cfg s.phys.mem s.kernel.page_table := by
  have hhalf : KernelHalf cfg ⟨s.phys, s.kernel, s.spaces⟩ := h.tracked.half
  constructor
  · rintro ⟨as, φ', hok, _⟩
    have hplaces : wp anyPanic (AddressSpace.from_elf cfg s.kernel.page_table.root elf) _ s.phys :=
      from_elf_places trivial hhalf hwf (.inl trivial)
    have hends : wp anyPanic (AddressSpace.from_elf cfg s.kernel.page_table.root elf) _ s.phys :=
      from_elf_checked _
    obtain ⟨⟨_, hmax, hvacant, hdistinct⟩, hends⟩ := wp_ok (wp_and hplaces hends) hok
    exact ⟨⟨hends, hmax⟩, hvacant, hdistinct⟩
  · intro hmap
    have hplaces : wp (fun p => p = Panic.out_of_frames)
      (AddressSpace.from_elf cfg s.kernel.page_table.root elf) _ s.phys :=
      from_elf_places rfl hhalf hwf (.inr hmap)
    cases hok : AddressSpace.from_elf cfg s.kernel.page_table.root elf s.phys with
    | error p =>
      have hp := wp_error hplaces hok
      exact absurd (hp ▸ hok) hframes
    | ok r => exact ⟨r.1, r.2, rfl, (wp_ok hplaces hok).1⟩

end Whole

/-! ## Runs -/

/-- However address spaces and kernel stacks came and went: if there are enough frames, all bytes of
a well-formed file are placed exactly if the ends of its segments can be computed and none of its
pages has the place of another, of a device or of a page of the kernel. -/
theorem segments_placed (cfg : Config) (sym : Layout) (mem : Mem) (kernel : PageTableImpl)
    (φ : Phys) (es : List Event) (s : Os) (os : List Unit) (elf : ElfFile)
    (hboot : boot cfg sym ⟨mem, PhyPageAllocator.new⟩ = .ok (kernel, φ))
    (hfits : Meets (Os.step cfg) (fun s e => e.fits s = true) (Os.start kernel φ) es)
    (hrun : run (Os.step cfg) (Os.start kernel φ) es = .ok (s, os)) (hwf : elf.WellFormed cfg)
    (hframes : AddressSpace.from_elf cfg s.kernel.page_table.root elf s.phys ≠
    .error .out_of_frames) :
    (∃ as φ', AddressSpace.from_elf cfg s.kernel.page_table.root elf s.phys = .ok (as, φ') ∧
      ∀ ph ∈ elf.loads, ph.Placed cfg elf.file φ'.mem as.page_table) ↔
    elf.Mappable cfg s.phys.mem s.kernel.page_table := by
  have h : Consistent cfg s := run_consistent hboot hfits hrun
  exact from_elf_placed_iff h hwf hframes

/-- Three bytes of the file and a zero, across the border of two pages. -/
def acrossPages : ElfFile := ⟨[⟨true, 0x1FFE, 4, 0, 3, true, false, true⟩], [1, 2, 3]⟩

theorem acrossPages_wellFormed : acrossPages.WellFormed qemu :=
  ⟨by decide, by decide, by decide, by decide, by decide +kernel⟩

theorem segments_placed_across : ∃ kernel φ s os as φ',
    boot qemu smallLayout ⟨fun _ => 0, PhyPageAllocator.new⟩ = .ok (kernel, φ) ∧
    run (Os.step qemu) (Os.start kernel φ) [.insert_kernel_stack 7] = .ok (s, os) ∧
    AddressSpace.from_elf qemu s.kernel.page_table.root acrossPages s.phys = .ok (as, φ') ∧
    ∀ ph ∈ acrossPages.loads, ph.Placed qemu acrossPages.file φ'.mem as.page_table := by
  obtain ⟨kernel, φ, s, os, hboot, hfits, hrun, hframes, hvacant⟩ :=
    small_run_meets [.insert_kernel_stack 7] (fun s e => e.fits s = true)
      (fun s => panics .out_of_frames
        (AddressSpace.from_elf qemu s.kernel.page_table.root acrossPages s.phys) = false ∧
        ∀ v ∈ acrossPages.pages, Vacant qemu s.phys.mem s.kernel.page_table v) (by decide +kernel)
  have hne : AddressSpace.from_elf qemu s.kernel.page_table.root acrossPages s.phys ≠
    .error .out_of_frames := fun h => by
    rw [panics_iff.mpr h] at hframes
    simp at hframes
  have hends : acrossPages.Ends := ⟨by decide, by decide +kernel⟩
  have h := segments_placed qemu smallLayout _ kernel φ _ s os acrossPages
    hboot hfits hrun acrossPages_wellFormed hne
  obtain ⟨as, φ', hok, hplaced⟩ := h.mpr ⟨hends, hvacant, by decide⟩
  exact ⟨kernel, φ, s, os, as, φ', hboot, hrun, hok, hplaced⟩

/-- One byte where the kernel maps the memory. -/
def inKernel : ElfFile := ⟨[⟨true, 0xFFFF_FFC0_8020_0000, 1, 0, 1, true, false, false⟩], [7]⟩

theorem segment_not_placed : ∃ kernel φ,
    boot qemu smallLayout ⟨fun _ => 0, PhyPageAllocator.new⟩ = .ok (kernel, φ) ∧
    inKernel.WellFormed qemu ∧
    AddressSpace.from_elf qemu kernel.root inKernel φ = .error .assert ∧
    ¬ ∃ as φ', AddressSpace.from_elf qemu kernel.root inKernel φ = .ok (as, φ') ∧
      ∀ ph ∈ inKernel.loads, ph.Placed qemu inKernel.file φ'.mem as.page_table := by
  obtain ⟨kernel, φ, s, os, hboot, hrun, hpanic⟩ := small_run_ends []
    (fun s => panics .assert (AddressSpace.from_elf qemu s.kernel.page_table.root inKernel s.phys) =
      true) (by decide +kernel)
  simp only [run, Except.ok.injEq, Prod.mk.injEq] at hrun
  obtain ⟨rfl, _⟩ := hrun
  have herror : AddressSpace.from_elf qemu kernel.root inKernel φ = .error .assert :=
    panics_iff.mp hpanic
  refine ⟨kernel, φ, hboot,
    ⟨by decide, by decide, by decide, by decide, by decide +kernel⟩, herror, ?_⟩
  rintro ⟨as, φ', hok, _⟩
  rw [herror] at hok
  simp at hok

end HectoOs.Mm
