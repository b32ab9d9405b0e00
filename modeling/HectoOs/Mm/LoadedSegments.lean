import HectoOs.Mm.FreshMemory

/-! # What the pages of a file show

`from_elf` fills each page of a segment from the start of the segment to its end. What lies before
the start in the first page and behind the end in the last page stays as it was.
-/

open HectoOs.Lib

namespace HectoOs.Mm

open PageTableImpl

variable {cfg : Config} {s : Os} {φ φ₀ φ₁ φ' ψ ψ' : Phys} {as as' : AddressSpace}
  {D : Set Nat} {ph : ProgramHeader}

/-- The segments that can be read start in the first eight bytes of a page, which are clean, and end
with a page. -/
def ElfFile.Clean (elf : ElfFile) : Prop :=
  ∀ ph ∈ elf.loads, ph.is_read = true → page_offset ph.virtual_addr ≤ 8 ∧
  page_offset ph.va_range.stop = 0

instance (elf : ElfFile) : Decidable elf.Clean :=
  inferInstanceAs (Decidable (∀ ph ∈ elf.loads, ph.is_read = true → _))

/-- A page of a segment, with its frame. -/
abbrev LoadedPage := ProgramHeader × Nat × Nat

def loaded_page (y : LoadedPage) : Page := Page.of y.1.map_perm y.2

/-- The bytes that the segments give to their pages. -/
def loaded_bytes (L : List LoadedPage) : Set Nat := {a | ∃ y ∈ L, a ∈ y.1.fill y.2}

theorem shows_segment (ph : ProgramHeader) : ph.map_perm.shows = ph.is_read := by
  rw [ProgramHeader.map_perm]
  cases ph.is_read <;> cases ph.is_write <;> cases ph.is_execute <;> decide

/-! ## Which pages are covered -/

theorem fill_in_frame {x : Nat × Nat} {a : Nat} (h : a ∈ ph.fill x) :
    frame_va x.2 ≤ a ∧ a < frame_va x.2 + 4096 := by
  rw [ProgramHeader.fill, Set.mem_Ico] at h
  have := bss_end_le ph.va_range.stop x.1
  omega

theorem body_subset_fill {x : Nat × Nat} : body x.2 ⊆ ph.fill x ↔
    ph.page_start x.1 ≤ 8 ∧ AddressSpace.bss_end ph.va_range.stop x.1 = 4096 := by
  have hle := bss_end_le ph.va_range.stop x.1
  simp only [body, ProgramHeader.fill, Set.subset_def, Set.mem_Ico]
  constructor
  · intro h
    have hfirst := h (frame_va x.2 + 8) (by omega)
    have hlast := h (frame_va x.2 + 4095) (by omega)
    omega
  · rintro ⟨hstart, hstop⟩ a ha
    omega

theorem page_start_eq (ph : ProgramHeader) (v : Nat) :
    ph.page_start v = if v = ph.virtual_addr / 4096 then ph.virtual_addr % 4096 else 0 := (rfl)

theorem bss_end_eq (stop v : Nat) :
    AddressSpace.bss_end stop v = if (v + 1) * 4096 ≤ stop then 4096 else stop % 4096 := (rfl)

theorem covered_pages (hload : ph.load = true) :
    (∀ v ∈ ph.pages, ph.page_start v ≤ 8 ∧ AddressSpace.bss_end ph.va_range.stop v = 4096) ↔
      page_offset ph.virtual_addr ≤ 8 ∧ page_offset ph.va_range.stop = 0 := by
  have hstop : ph.virtual_addr ≤ ph.va_range.stop := Nat.le_add_right _ _
  have hmem : ∀ v, v ∈ ph.pages ↔ floor ph.virtual_addr ≤ v ∧ v < ceil ph.va_range.stop := by
    intro v
    rw [ProgramHeader.pages, if_pos hload, mem_vpns]
    rfl
  simp only [hmem, page_start_eq, bss_end_eq]
  generalize ph.va_range.stop = stop at *
  generalize ph.virtual_addr = start at *
  simp only [floor, ceil, page_offset, PAGE_SIZE]
  constructor
  · intro h
    constructor
    · by_contra hoff
      have := (h (start / 4096) (by omega)).1
      rw [if_pos rfl] at this
      omega
    · by_contra hoff
      have := (h (stop / 4096) (by omega)).2
      rw [if_neg (by omega)] at this
      omega
  · rintro ⟨h1, h2⟩ v hv
    refine ⟨?_, if_pos (by omega)⟩
    split
    · exact h1
    · omega

/-! ## Loading -/

/-- The pages of `L` have been loaded from the segments `done`, into frames that were free. -/
structure Loaded (cfg : Config) (s : Os) (D : Set Nat) (done : List ProgramHeader)
    (as' : AddressSpace) (φ' ψ' : Phys) (L : List LoadedPage) : Prop where
  tracked : Tracked cfg ⟨φ', s.kernel, s.spaces ++ [some as']⟩
  loading : Loading done as'
  same : ∀ q ∈ s.trackers, SameFrame s.phys.mem φ'.mem q
  range : SameRange s.phys φ'
  pages : as'.pages.Perm (L.map loaded_page)
  headers : ∀ ph v, (∃ p, (ph, v, p) ∈ L) ↔ ph ∈ done.filter (·.load) ∧ v ∈ ph.pages
  fresh : ∀ y ∈ L, y.2.2 ∉ s.trackers
  nodup : (L.map (·.2.2)).Nodup
  mapped : ∀ y ∈ L, lookup cfg φ'.mem as'.page_table y.2.1 =
    some (.new y.2.2 (y.1.map_perm ||| .VALID))
  found : ∀ v e, Own userHalf v → lookup cfg φ'.mem as'.page_table v = some e →
    (∃ y ∈ L, e = .new y.2.2 (y.1.map_perm ||| .VALID)) ∨ ¬ s.phys.InRange (e.ppn cfg)
  differ : Differ ((D \ loaded_bytes L) \ as'.page_table.bytes) φ' ψ'

section Load

variable {done : List ProgramHeader} {L : List LoadedPage}

theorem others_snoc (s : Os) : others s.kernel s.spaces [] = s.trackers := by
  simp [others, Os.trackers, space_trackers]

theorem loaded_bytes_append (new : List (Nat × Nat)) : (D \ loaded_bytes L) \ given ph.fill new =
    D \ loaded_bytes (new.map (Prod.mk ph) ++ L) := by
  ext a
  simp only [Set.mem_sdiff, loaded_bytes, given, Set.mem_ofPred_eq, List.mem_append, List.mem_map]
  constructor
  · rintro ⟨⟨hD, hL⟩, hnew⟩
    refine ⟨hD, ?_⟩
    rintro ⟨y, ⟨x, hx, rfl⟩ | hy, ha⟩
    · exact hnew ⟨x, hx, ha⟩
    · exact hL ⟨y, hy, ha⟩
  · rintro ⟨hD, h⟩
    refine ⟨⟨hD, ?_⟩, ?_⟩
    · rintro ⟨y, hy, ha⟩
      exact h ⟨y, .inr hy, ha⟩
    · rintro ⟨x, hx, ha⟩
      exact h ⟨(ph, x), .inl ⟨x, hx, rfl⟩, ha⟩

theorem Loaded.skip (h : Loaded cfg s D done as φ ψ L) (hload : ¬ ph.load = true) :
    Loaded cfg s D (done ++ [ph]) as φ ψ L := by
  refine { h with loading := h.loading.skip hload, headers := fun ph' v => ?_ }
  rw [h.headers, List.filter_append, List.filter_cons_of_neg hload, List.filter_nil,
    List.append_nil]

theorem Loaded.mem_frames (h : Loaded cfg s D done as φ ψ L) {y : LoadedPage} (hy : y ∈ L) :
    y.2.2 ∈ as.frames :=
  frame_mem (h.pages.mem_iff.mpr (List.mem_map_of_mem hy))

theorem Loaded.low (h : Loaded cfg s D done as φ ψ L) {y : LoadedPage} (hy : y ∈ L) :
    y.2.1 < 2 ^ 26 :=
  (h.tracked.tracks as (by simp)).low (loaded_page y) (h.pages.mem_iff.mpr (List.mem_map_of_mem hy))

theorem load_segment_loads (file : List Byte) (h : Loaded cfg s D done as φ ψ L)
    (hload : ph.load = true) (hlow : ph.va_range.stop ≤ 2 ^ 38)
    (hkey : ∀ a ∈ as.areas, ph.va_range.cmp a.1 ≠ .eq) :
    wp2 (AddressSpace.load_segment cfg file as ph) (AddressSpace.load_segment cfg file as ph)
    (fun as' φ' ψ' =>
      ∃ L', Loaded cfg s D (done ++ [ph]) as' φ' ψ' L') φ ψ := by
  have hpages : ∀ v ∈ ph.pages, v < 2 ^ 26 := by
    intro v hv
    rw [ProgramHeader.pages, if_pos hload] at hv
    exact page_lt hlow (mem_vpns.mp hv).2
  refine wp2_mono (load_segment_differ file hload h.tracked.half.owns
    (fun v hv => own_of_lt (hpages v hv)) h.differ) ?_
  rintro as' φ' ψ' ⟨φ₁, area', new, hnew, hi, hd⟩
  have hlow' : ∀ x ∈ new, x.1 < 2 ^ 26 := fun x hx => hpages x.1 (hnew ▸ List.mem_map_of_mem hx)
  obtain ⟨hc, _⟩ := hi.changes rfl (List.Perm.refl _) (h.tracked.tracks as (by simp)) hkey hlow'
  rw [others_snoc] at hi
  have hfresh : ∀ x ∈ new, x.2 ∉ as.frames ∧ x.2 ∉ s.trackers := by
    intro x hx
    have := hi.filled.fresh x hx
    simp only [List.mem_append, not_or] at this
    exact ⟨this.2.2.1, this.2.2.2⟩
  refine ⟨new.map (Prod.mk ph) ++ L, h.tracked.change hc, h.loading.snoc hload hkey hi.areas,
    fun q hq => (h.same q hq).trans (hi.exchanges.same q hq),
    h.range.trans hi.exchanges.root.range, ?_,
    fun ph' v => ?_, fun y hy => ?_, ?_, fun y hy => ?_, fun v e hv he => ?_, ?_⟩
  · have hp := hi.pages hkey
    rw [List.map_append, List.map_map]
    exact hp.trans (h.pages.append_left _)
  · rw [List.filter_append, List.filter_cons_of_pos hload, List.filter_nil,
      List.mem_append, List.mem_singleton,
      or_and_right, ← h.headers]
    simp only [List.mem_append, List.mem_map, exists_or, Prod.mk.injEq]
    rw [or_comm]
    refine or_congr Iff.rfl ⟨?_, ?_⟩
    · rintro ⟨p, x, hx, rfl, rfl⟩
      exact ⟨rfl, hnew ▸ List.mem_map_of_mem hx⟩
    · rintro ⟨rfl, hv⟩
      rw [← hnew] at hv
      obtain ⟨x, hx, rfl⟩ := List.mem_map.mp hv
      exact ⟨x.2, x, hx, rfl, rfl⟩
  · rcases List.mem_append.mp hy with hy | hy
    · obtain ⟨x, hx, rfl⟩ := List.mem_map.mp hy
      exact (hfresh x hx).2
    · exact h.fresh y hy
  · rw [List.map_append, List.map_map]
    refine List.nodup_append.mpr ⟨hi.filled.nodup, h.nodup, fun a ha b hb hab => ?_⟩
    obtain ⟨x, hx, rfl⟩ := List.mem_map.mp ha
    obtain ⟨y, hy, rfl⟩ := List.mem_map.mp hb
    have hab : x.2 = y.2.2 := hab
    exact (hfresh x hx).1 (hab ▸ h.mem_frames hy)
  · rcases List.mem_append.mp hy with hy | hy
    · obtain ⟨x, hx, rfl⟩ := List.mem_map.mp hy
      have he := hi.maps.of_mem (List.mem_map_of_mem hx) (hi.filled.own x hx)
      dsimp only at he
      exact he
    · exact (hi.maps.found _ _ (own_of_lt (h.low hy))).mpr (.inl (h.mapped y hy))
  · rcases (hi.maps.found v e hv).mp he with he | ⟨z, hz, _, rfl⟩
    · rcases h.found v e hv he with ⟨y, hy, rfl⟩ | hout
      · exact .inl ⟨y, List.mem_append_right _ hy, rfl⟩
      · exact .inr hout
    · obtain ⟨x, hx, rfl⟩ := List.mem_map.mp hz
      exact .inl ⟨(ph, x), List.mem_append_left _ (List.mem_map_of_mem hx), rfl⟩
  · rw [← loaded_bytes_append]
    exact hd

/-! ## The whole file -/

theorem new_space_loads (hs : Consistent cfg s) (hD : D ⊆ freeBytes s.phys)
    (hd : Differ D s.phys ψ) :
    wp2 (AddressSpace.new_kernel cfg s.kernel.page_table.root)
    (AddressSpace.new_kernel cfg s.kernel.page_table.root)
      (fun as' φ' ψ' => Loaded cfg s D [] as' φ' ψ' []) s.phys ψ := by
  have hroot : s.kernel.page_table.root ∈ s.trackers :=
    List.mem_append_left _ (mem_trackers_of_table List.mem_cons_self)
  have hspec : wp anyPanic (AddressSpace.new_kernel cfg s.kernel.page_table.root) _ s.phys :=
    new_space_evolves trivial hs.tracked
  refine wp2_mono (wp2_and hspec (new_space_differ hd hs.tracked.half.alloc hroot
    fun x hx => apart_of_tracker hs hD hroot hx)) ?_
  rintro as' φ' ψ' ⟨⟨hevolves, hareas⟩, ⟨hn, _⟩, h'⟩
  have hpages : as'.pages = [] := by simp [AddressSpace.pages, hareas]
  refine ⟨hevolves.tracked, ⟨by rw [hareas]; exact List.Pairwise.nil, by simp [hareas], by simp⟩,
    hn.same, hn.range, by simp [hpages],
    by simp, by simp, by simp, by simp, fun v e hv he => ?_, ?_⟩
  · rcases hn.tracks.entry (fun p hp => (hs.tracked.half.ram p hp).1) hv he with ⟨x, hx, _⟩ | hout
    · simp at hx
    · exact .inr hout
  · exact h'.congr (by simp [loaded_bytes])

theorem Loaded.supplied (h : Loaded cfg s D done as φ ψ L) (limit : Nat) :
    Supplied cfg s φ { as with data_segment_max := limit } (L.map loaded_page) := by
  have hspace := h.tracked.half.spaces as (by simp)
  have hkernel : ∀ t ∈ s.kernel.page_table.tables, SameFrame s.phys.mem φ.mem t := fun t ht =>
    h.same t (List.mem_append_left _ (mem_trackers_of_table ht))
  refine ⟨hspace.tree, hspace.shared, hkernel, fun x hx => ?_, fun x hx => ?_,
    fun x hx => ?_, fun v e hv he => ?_⟩
  · obtain ⟨y, hy, rfl⟩ := List.mem_map.mp hx
    have howns := h.tracked.half.owns
    have hmem := h.mem_frames hy
    refine ⟨(h.range.inRange _).mp (howns.alloc.range _ ?_), h.fresh y hy, fun ht => ?_⟩
    · exact List.mem_append_right _ (List.mem_append_left _ hmem)
    · exact howns.notMem ht (List.mem_append_left _ hmem)
  · obtain ⟨y, hy, rfl⟩ := List.mem_map.mp hx
    exact own_of_lt (h.low hy)
  · obtain ⟨y, hy, rfl⟩ := List.mem_map.mp hx
    exact h.mapped y hy
  · rcases h.found v e hv he with ⟨y, hy, rfl⟩ | hout
    · exact .inl ⟨_, List.mem_map_of_mem hy, rfl⟩
    · exact .inr (.inr hout)

theorem Loaded.covered (h : Loaded cfg s D done as φ ψ L) {elf : ElfFile}
    (hdone : elf.program_iter = done) :
    Covered (L.map loaded_page) (loaded_bytes L) ↔ elf.Clean := by
  have hown : ∀ y ∈ L, body y.2.2 ⊆ loaded_bytes L ↔ body y.2.2 ⊆ y.1.fill y.2 := by
    intro y hy
    refine ⟨fun hsub a ha => ?_, fun hsub a ha => ⟨y, hy, hsub ha⟩⟩
    obtain ⟨z, hz, haz⟩ := hsub ha
    obtain ⟨hle, hlt⟩ := fill_in_frame haz
    obtain rfl := List.inj_on_of_nodup_map h.nodup hz hy (body_frame ha hle hlt)
    exact haz
  have hheaders : ∀ ph v, (∃ p, (ph, v, p) ∈ L) ↔ ph ∈ elf.loads ∧ v ∈ ph.pages := by
    rw [ElfFile.loads, hdone]
    exact h.headers
  constructor
  · intro hc ph hph hread
    refine (covered_pages (List.mem_filter.mp hph).2).mp fun v hv => ?_
    obtain ⟨p, hp⟩ := (hheaders ph v).mpr ⟨hph, hv⟩
    have hsub := hc _ (List.mem_map_of_mem hp) ((shows_segment ph).trans hread)
    exact body_subset_fill.mp ((hown _ hp).mp hsub)
  · intro hclean x hx hshow
    obtain ⟨⟨ph, v, p⟩, hy, rfl⟩ := List.mem_map.mp hx
    obtain ⟨hph, hv⟩ := (hheaders ph v).mp ⟨p, hy⟩
    have hread : ph.is_read = true := (shows_segment ph).symm.trans hshow
    refine (hown _ hy).mpr (body_subset_fill.mpr ?_)
    exact (covered_pages (List.mem_filter.mp hph).2).mpr (hclean ph hph hread) v hv

theorem from_elf_supplies {elf : ElfFile} (he : elf.Separate) (hs : Consistent cfg s)
    (hD : D ⊆ freeBytes s.phys) (hd : Differ D s.phys ψ) :
    wp2 (AddressSpace.from_elf cfg s.kernel.page_table.root elf)
    (AddressSpace.from_elf cfg s.kernel.page_table.root elf)
      (fun as' φ' ψ' => ∃ new W, Supplied cfg s φ' as' new ∧ (Covered new W ↔ elf.Clean) ∧
        Differ ((D \ W) \ as'.page_table.bytes) φ' ψ') s.phys ψ := by
  refine wp2_call (new_space_loads hs hD hd) fun as₀ φ₀ ψ₀ h₀ => ?_
  refine wp2_call (wp2_foldlM (fun done as φ ψ => ∃ L, Loaded cfg s D done as φ ψ L) ⟨[], h₀⟩ ?_) ?_
  · rintro done ph later as φ ψ hl ⟨L, h⟩
    by_cases hload : ph.load = true
    · obtain ⟨hlow, hkey⟩ := h.loading.next he hl hload
      exact load_segment_loads elf.file h hload hlow hkey
    · rw [AddressSpace.load_segment, if_neg hload]
      exact wp2_pure ⟨L, h.skip hload⟩
  rintro as φ ψ ⟨L, h⟩
  refine wp2_bind (wp2_unwrap fun stop _ => wp2_bind (wp2_unwrap fun limit _ => wp2_pure ?_))
  exact ⟨_, _, h.supplied limit, h.covered rfl, h.differ⟩

end Load

end HectoOs.Mm
