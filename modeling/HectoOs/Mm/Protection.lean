import HectoOs.Mm.Changes
import HectoOs.Mm.KernelHalf

/-! # Protection

Three properties of the page tables of all processes: an entry of the lower half has a tracker, the
frame of a writable page has no other tracker, and no entry of the kernel is the user's. Each holds
in every run whose steps stay away from the places where the kernel misses a check.
-/

open HectoOs.Lib

namespace HectoOs.Mm

open PageTableImpl

variable {cfg : Config} {s s' s'' : Os} {φ φ' : Phys} {kernel kernel' as as' : AddressSpace}
  {l l₁ l₂ : List (Option AddressSpace)}

/-- The page tables of the processes map what their areas have trackers for. -/
structure Tracked (cfg : Config) (s : Os) : Prop where
  half : KernelHalf cfg s
  tracks : ∀ as, some as ∈ s.spaces → Tracks cfg s.phys.mem as.page_table as.pages

/-- The frame of a writable page has one tracker. -/
def Unshared (cfg : Config) (s : Os) : Prop :=
  ∀ as, some as ∈ s.spaces → ∀ v e, v < 2 ^ 26 → v ∉ cfg.device_pages →
    lookup cfg s.phys.mem as.page_table v = some e → e.getLsbD 2 = true →
    s.trackers.count (e.ppn cfg) ≤ 1

/-- The user cannot use the entries of the kernel and of the devices. -/
structure Hidden (cfg : Config) (s : Os) : Prop where
  kernel : ∀ v e, ¬ userHalf (vpn_index v 18) →
    lookup cfg s.phys.mem s.kernel.page_table v = some e →
    e.getLsbD 4 = false
  devices : ∀ as, some as ∈ s.spaces → ∀ v ∈ cfg.device_pages, ∀ e,
    lookup cfg s.phys.mem as.page_table v = some e → e.getLsbD 4 = false

/-- What a step keeps: the trackers, and each of the other two properties. -/
structure Evolves (cfg : Config) (s s' : Os) : Prop where
  tracked : Tracked cfg s'
  unshared : Unshared cfg s → Unshared cfg s'
  hidden : Hidden cfg s → Hidden cfg s'

theorem Evolves.trans (h : Evolves cfg s s') (h' : Evolves cfg s' s'') : Evolves cfg s s'' :=
  ⟨h'.tracked, fun hu => h'.unshared (h.unshared hu), fun hh => h'.hidden (h.hidden hh)⟩

/-! ## One address space changes -/

theorem Tracked.ready (h : Tracked cfg ⟨φ, kernel, l₁ ++ some as :: l₂⟩) (hk : Keys as) :
    Ready cfg (others kernel l₁ l₂) φ as := ⟨h.half.owns, h.tracks as (by simp), hk⟩

section Others

variable {o : Option AddressSpace}

theorem KernelHalf.other_lookup (h : KernelHalf cfg ⟨φ, kernel, l₁ ++ o :: l₂⟩)
    (hs : ∀ q ∈ others kernel l₁ l₂, SameFrame φ.mem φ'.mem q) (has : some as ∈ l₁ ∨ some as ∈ l₂) :
    SameMap cfg userHalf φ.mem as.page_table φ'.mem as.page_table := by
  have hmem : some as ∈ l₁ ++ o :: l₂ := by
    simp only [List.mem_append, List.mem_cons]
    tauto
  exact fun w hw => lookup_congr (h.spaces as hmem).tree
    (fun t ht => hs t (mem_others has (mem_trackers_of_table ht))) hw

theorem KernelHalf.kernel_lookup (h : KernelHalf cfg ⟨φ, kernel, l₁ ++ o :: l₂⟩)
    (hs : ∀ q ∈ others kernel l₁ l₂, SameFrame φ.mem φ'.mem q) (v : Nat) :
    lookup cfg φ'.mem kernel.page_table v = lookup cfg φ.mem kernel.page_table v :=
  lookup_congr h.kernel (fun _ ht => hs _ (mem_others_kernel (mem_trackers_of_table ht))) trivial

theorem mem_replaced (h : some as ∈ l₁ ++ some as' :: l₂) :
    as = as' ∨ some as ∈ l₁ ∨ some as ∈ l₂ := by
  simp only [List.mem_append, List.mem_cons, Option.some.injEq] at h
  tauto

theorem mem_spaces_of_other (h : some as ∈ l₁ ∨ some as ∈ l₂) : some as ∈ l₁ ++ o :: l₂ := by
  simp only [List.mem_append, List.mem_cons]
  tauto

end Others

theorem Tracked.change (h : Tracked cfg ⟨φ, kernel, l₁ ++ some as :: l₂⟩)
    (hc : Changes cfg (others kernel l₁ l₂) φ as φ' as') :
    Tracked cfg ⟨φ', kernel, l₁ ++ some as' :: l₂⟩ := by
  refine ⟨h.half.exchange hc.exchanges fun x hx => own_of_lt (hc.tracks.low x hx), fun a ha => ?_⟩
  rcases mem_replaced ha with rfl | hother
  · exact hc.tracks
  · exact (h.tracks a (mem_spaces_of_other hother)).congr
      (h.half.other_lookup hc.exchanges.same hother)

theorem Unshared.change (hu : Unshared cfg ⟨φ, kernel, l₁ ++ some as :: l₂⟩)
    (h : Tracked cfg ⟨φ, kernel, l₁ ++ some as :: l₂⟩)
    (hc : Changes cfg (others kernel l₁ l₂) φ as φ' as')
    (hw : ∀ v e, v < 2 ^ 26 → v ∉ cfg.device_pages → lookup cfg φ'.mem as'.page_table v = some e →
      e.getLsbD 2 = true → lookup cfg φ.mem as.page_table v = some e ∨
        (as'.trackers ++ others kernel l₁ l₂).count (e.ppn cfg) ≤ 1) :
    Unshared cfg ⟨φ', kernel, l₁ ++ some as' :: l₂⟩ := by
  intro a ha v e hv hd he hwr
  have hnew : (Os.mk φ' kernel (l₁ ++ some as' :: l₂)).trackers.Perm
    (as'.trackers ++ others kernel l₁ l₂) :=
    trackers_perm φ' (some as')
  have hold : (Os.mk φ kernel (l₁ ++ some as :: l₂)).trackers.Perm
    (as.trackers ++ others kernel l₁ l₂) :=
    trackers_perm φ (some as)
  rw [hnew.count_eq]
  -- an entry from before had a frame with one tracker
  have hkeep : ∀ b, some b ∈ l₁ ++ some as :: l₂ → lookup cfg φ.mem b.page_table v = some e →
      (as'.trackers ++ others kernel l₁ l₂).count (e.ppn cfg) ≤ 1 := by
    intro b hb hbe
    have hone := hu b hb v e hv hd hbe hwr
    rw [hold.count_eq] at hone
    have := hc.count (e.ppn cfg)
    omega
  rcases mem_replaced ha with rfl | hother
  · rcases hw v e hv hd he hwr with he | hone
    · exact hkeep as (by simp) he
    · exact hone
  · rw [h.half.other_lookup hc.exchanges.same hother v (own_of_lt hv)] at he
    exact hkeep a (mem_spaces_of_other hother) he

theorem Hidden.change (hh : Hidden cfg ⟨φ, kernel, l₁ ++ some as :: l₂⟩)
    (h : Tracked cfg ⟨φ, kernel, l₁ ++ some as :: l₂⟩)
    (hc : Changes cfg (others kernel l₁ l₂) φ as φ' as')
    (hw : ∀ v ∈ cfg.device_pages, ∀ e, lookup cfg φ'.mem as'.page_table v = some e →
      lookup cfg φ.mem as.page_table v = some e) :
      Hidden cfg ⟨φ', kernel, l₁ ++ some as' :: l₂⟩ := by
  refine ⟨fun v e hv he => hh.kernel v e hv ?_, fun a ha v hd e he => ?_⟩
  · rw [← he]
    exact (h.half.kernel_lookup hc.exchanges.same v).symm
  · rcases mem_replaced ha with rfl | hother
    · exact hh.devices as (by simp) v hd e (hw v hd e he)
    · rw [h.half.other_lookup hc.exchanges.same hother v (own_of_lt (device_low hd))] at he
      exact hh.devices a (mem_spaces_of_other hother) v hd e he

theorem Evolves.change (h : Tracked cfg ⟨φ, kernel, l₁ ++ some as :: l₂⟩)
    (hc : Changes cfg (others kernel l₁ l₂) φ as φ' as')
    (hw : Writes cfg (others kernel l₁ l₂) φ as φ' as') :
    Evolves cfg ⟨φ, kernel, l₁ ++ some as :: l₂⟩ ⟨φ', kernel, l₁ ++ some as' :: l₂⟩ := by
  refine ⟨h.change hc, fun hu => hu.change h hc fun v e hv _ he hwr => ?_,
    fun hh => hh.change h hc fun v hd e he => ?_⟩
  · rcases hw v e hv he with he | ⟨_, hone⟩
    · exact .inl he
    · exact .inr (hone hwr)
  · rcases hw v e (device_low hd) he with he | ⟨hnot, _⟩
    · exact he
    · exact absurd hd hnot

/-! ## Address spaces come and go -/

theorem drop_evolves {may : Panic → Prop} (h : Tracked cfg ⟨φ, kernel, l₁ ++ some as :: l₂⟩) :
    wp may as.drop (fun _ φ' => Evolves cfg ⟨φ, kernel, l₁ ++ some as :: l₂⟩
      ⟨φ', kernel, l₁ ++ none :: l₂⟩) φ := by
  have hold : (Os.mk φ kernel (l₁ ++ some as :: l₂)).trackers.Perm
    (as.trackers ++ others kernel l₁ l₂) :=
    trackers_perm φ (some as)
  refine wp_mono (drop_frames_spec h.half.alloc hold) ?_
  rintro _ φ' ⟨ha, hs, hr⟩
  have hnew : (Os.mk φ' kernel (l₁ ++ none :: l₂)).trackers.Perm (others kernel l₁ l₂) :=
    trackers_perm φ' none
  have hother : ∀ a, some a ∈ l₁ ++ none :: l₂ → some a ∈ l₁ ∨ some a ∈ l₂ := by
    intro a ha
    simpa using ha
  refine ⟨⟨h.half.drop ha hr hs, fun a ha => ?_⟩, fun hu a ha v e hv hd he hwr => ?_,
    fun hh => ⟨fun v e hv he => ?_,
    fun a ha v hd e he => ?_⟩⟩
  · exact (h.tracks a (mem_spaces_of_other (hother a ha))).congr
      (h.half.other_lookup hs (hother a ha))
  · have he' : lookup cfg φ'.mem a.page_table v = some e := he
    rw [h.half.other_lookup hs (hother a ha) v (own_of_lt hv)] at he'
    have hone := hu a (mem_spaces_of_other (hother a ha)) v e hv hd he' hwr
    rw [hold.count_eq, List.count_append] at hone
    rw [hnew.count_eq]
    omega
  · refine hh.kernel v e hv ?_
    rw [← he]
    exact (h.half.kernel_lookup hs v).symm
  · have he' : lookup cfg φ'.mem a.page_table v = some e := he
    rw [h.half.other_lookup hs (hother a ha) v (own_of_lt (device_low hd))] at he'
    exact hh.devices a (mem_spaces_of_other (hother a ha)) v hd e he'

theorem device_entry_user (v : Nat) : (device_entry v).getLsbD 4 = false := by
  rw [device_entry, PTEImpl.getLsbD_new _ _ (by omega)]
  decide

theorem new_space_evolves {may : Panic → Prop} (hm : may .out_of_frames)
    (h : Tracked cfg ⟨φ, kernel, l⟩) :
    wp may (AddressSpace.new_kernel cfg kernel.page_table.root) (fun as φ' =>
      Evolves cfg ⟨φ, kernel, l⟩ ⟨φ', kernel, l ++ [some as]⟩ ∧ as.areas = []) φ := by
  have hk : kernel.page_table.root ∈ (Os.mk φ kernel l).trackers :=
    List.mem_append_left _ (mem_trackers_of_table List.mem_cons_self)
  refine wp_mono (wp_and (new_space_half hm h.half) (new_space_spec hm h.half.alloc hk)) ?_
  rintro as φ' ⟨hhalf, hn, has⟩
  have hareas : as.areas = [] := by rw [has]
  have hpages : as.pages = [] := by simp [AddressSpace.pages, hareas]
  have hframes : as.frames = [] := by simp [AddressSpace.frames, hareas]
  have hs : ∀ q ∈ others kernel l [], SameFrame φ.mem φ'.mem q := by
    intro q hq
    refine hn.same q ?_
    simpa [others, Os.trackers, space_trackers] using hq
  have hnone := h.half.snoc_none
  have hold : ∀ a, some a ∈ l ++ [some as] → a = as ∨ some a ∈ l := by
    intro a ha
    simp only [List.mem_append, List.mem_singleton, Option.some.injEq] at ha
    tauto
  refine ⟨⟨⟨hhalf, fun a ha => ?_⟩, fun hu a ha v e hv hd he hwr => ?_,
    fun hh => ⟨fun v e hv he => ?_,
    fun a ha v hd e he => ?_⟩⟩, hareas⟩
  · rcases hold a ha with rfl | ha
    · rw [hpages]
      exact hn.tracks
    · exact (h.tracks a ha).congr (hnone.other_lookup hs (.inl ha))
  · rcases hold a ha with rfl | ha
    · obtain ⟨x, hx, _⟩ := hn.tracks.tracked v e hv he hd
      simp at hx
    · have he' : lookup cfg φ'.mem a.page_table v = some e := he
      rw [hnone.other_lookup hs (.inl ha) v (own_of_lt hv)] at he'
      have hone := hu a ha v e hv hd he' hwr
      -- the frame of an old page is not one of the new tables
      have hperm : (Os.mk φ' kernel (l ++ [some as])).trackers.Perm
        (as.trackers ++ (Os.mk φ kernel l).trackers) := by
        refine (trackers_perm φ' (some as)).trans ?_
        simp [others, Os.trackers, space_trackers]
      obtain ⟨x, hx, hxv⟩ := (h.tracks a ha).tracked v e hv he' hd
      have hmem : e.ppn cfg ∈ (Os.mk φ kernel l).trackers := by
        obtain ⟨e₀, he₀, hp⟩ := (h.tracks a ha).mapped x hx
        rw [hxv, he'] at he₀
        obtain rfl := Option.some.inj he₀
        rw [hp]
        refine List.mem_append_right _
          (mem_space_trackers.mpr ⟨a, ha, List.mem_append_right _ (frame_mem hx)⟩)
      have hzero : as.trackers.count (e.ppn cfg) = 0 := by
        rw [AddressSpace.trackers, hframes, List.append_nil]
        exact List.count_eq_zero.mpr fun ht => hn.owns.notMem ht hmem
      rw [hperm.count_eq, List.count_append, hzero]
      omega
  · refine hh.kernel v e hv ?_
    rw [← he]
    exact (hnone.kernel_lookup hs v).symm
  · rcases hold a ha with rfl | ha
    · have he' : lookup cfg φ'.mem a.page_table v = some e := he
      rw [hn.devices v hd] at he'
      obtain rfl := Option.some.inj he'
      exact device_entry_user v
    · have he' : lookup cfg φ'.mem a.page_table v = some e := he
      rw [hnone.other_lookup hs (.inl ha) v (own_of_lt (device_low hd))] at he'
      exact hh.devices a ha v hd e he'

/-! ## Loading a file -/

/-- The segments that are loaded. -/
def ElfFile.loads (elf : ElfFile) : List ProgramHeader := elf.program_iter.filter (·.load)

/-- The segments lie in the lower half, and no range contains another. -/
def ElfFile.Separate (elf : ElfFile) : Prop :=
  (∀ ph ∈ elf.loads, ph.va_range.stop ≤ 2 ^ 38) ∧ elf.loads.Pairwise fun a b =>
    b.va_range.eq a.va_range = false

instance (elf : ElfFile) : Decidable elf.Separate := inferInstanceAs (Decidable (_ ∧ _))

theorem load_segment_evolves (file : List Byte) {ph : ProgramHeader} (hload : ph.load = true)
    (hlow : ph.va_range.stop ≤ 2 ^ 38) (hkey : ∀ a ∈ as.areas, ph.va_range.cmp a.1 ≠ .eq)
    (h : Tracked cfg ⟨φ, kernel, l ++ [some as]⟩) :
    wp anyPanic (AddressSpace.load_segment cfg file as ph) (fun as' φ' =>
      Evolves cfg ⟨φ, kernel, l ++ [some as]⟩ ⟨φ', kernel, l ++ [some as']⟩ ∧
      ∃ area, as'.areas = (SearchTree.insert VARange.cmp ph.va_range area as.tree).1 ∧
        Whole (ph.va_range, area)) φ := by
  have hpages : ∀ v ∈ ph.pages, v < 2 ^ 26 := by
    intro v hv
    rw [ProgramHeader.pages, if_pos hload] at hv
    exact page_lt hlow (mem_vpns.mp hv).2
  refine wp_mono (load_segment_spec file trivial hload h.half.owns
    (fun v hv => own_of_lt (hpages v hv)) (.inl trivial)) ?_
  rintro as' φ' ⟨_, φ₁, area', new, hnew, _, hi⟩
  have hlow' : ∀ x ∈ new, x.1 < 2 ^ 26 := fun x hx => hpages x.1 (hnew ▸ List.mem_map_of_mem hx)
  obtain ⟨hc, hw⟩ := hi.changes rfl (List.Perm.refl _) (h.tracks as (by simp)) hkey hlow'
  refine ⟨Evolves.change h hc hw, area', hi.areas, hi.filled.whole rfl ?_⟩
  rw [hnew, ProgramHeader.pages, if_pos hload]
  rfl

/-- The keys while a file is loaded are the ranges of the segments so far. -/
structure Loading (done : List ProgramHeader) (as : AddressSpace) : Prop where
  sorted : Sorted as.areas
  keys : ∀ a ∈ as.areas, ∃ ph ∈ done, ph.load = true ∧ a.1 = ph.va_range
  all : ∀ ph ∈ done, ph.load = true → ph.va_range ∈ as.areas.map (·.1)

theorem Loading.snoc {done : List ProgramHeader} {ph : ProgramHeader}
    {area : MapArea} (h : Loading done as) (hload : ph.load = true)
    (hkey : ∀ a ∈ as.areas, ph.va_range.cmp a.1 ≠ .eq)
    (hareas : as'.areas = (SearchTree.insert VARange.cmp ph.va_range area as.tree).1) :
    Loading (done ++ [ph]) as' := by
  refine ⟨by rw [hareas]; exact sorted_insert h.sorted, fun a ha => ?_, fun ph' hph' hload' => ?_⟩
  · rw [hareas] at ha
    rcases AddressSpace.mem_insert ha with hk | ⟨b, hb, hk⟩
    · exact ⟨ph, by simp, hload, hk⟩
    · obtain ⟨ph', hph', hload', hkey'⟩ := h.keys b hb
      exact ⟨ph', List.mem_append_left _ hph', hload', hk.trans hkey'⟩
  · rw [hareas, ((AddressSpace.insert_perm area hkey).map _).mem_iff, List.map_cons, List.mem_cons]
    rcases List.mem_append.mp hph' with hph' | hph'
    · exact .inr (h.all ph' hph' hload')
    · exact .inl (congrArg _ (List.mem_singleton.mp hph'))

theorem Loading.skip {done : List ProgramHeader} {ph : ProgramHeader} (h : Loading done as)
    (hno : ¬ ph.load = true) :
    Loading (done ++ [ph]) as := by
  refine ⟨h.sorted, fun a ha => ?_, fun ph' hph' hload' => ?_⟩
  · obtain ⟨ph', hph', hload', hkey'⟩ := h.keys a ha
    exact ⟨ph', List.mem_append_left _ hph', hload', hkey'⟩
  · rcases List.mem_append.mp hph' with hph' | hph'
    · exact h.all ph' hph' hload'
    · exact absurd hload' (List.mem_singleton.mp hph' ▸ hno)

theorem Loading.new_key {l done later : List ProgramHeader} {ph : ProgramHeader}
    (h : Loading done as) (hl : l = done ++ ph :: later) (hload : ph.load = true)
    (hpair : (l.filter (·.load)).Pairwise fun a b => b.va_range.eq a.va_range = false) :
    ∀ a ∈ as.areas, ph.va_range.cmp a.1 ≠ .eq := by
  intro a ha hcmp
  rw [hl, List.filter_append, List.filter_cons_of_pos hload] at hpair
  obtain ⟨ph', hph', hload', hkey'⟩ := h.keys a ha
  have hne := (List.pairwise_append.mp hpair).2.2 ph'
    (List.mem_filter.mpr ⟨hph', hload'⟩) ph List.mem_cons_self
  rw [hkey'] at hcmp
  rw [cmp_eq_iff.mp hcmp] at hne
  simp at hne

theorem Loading.next {elf : ElfFile} {done later : List ProgramHeader} {ph : ProgramHeader}
    (h : Loading done as) (he : elf.Separate) (hl : elf.program_iter = done ++ ph :: later)
    (hload : ph.load = true) :
    ph.va_range.stop ≤ 2 ^ 38 ∧ ∀ a ∈ as.areas, ph.va_range.cmp a.1 ≠ .eq := by
  refine ⟨he.1 ph ?_, h.new_key hl hload he.2⟩
  simp [ElfFile.loads, hl, hload]

theorem from_elf_evolves {elf : ElfFile} (he : elf.Separate) (h : Tracked cfg ⟨φ, kernel, l⟩) :
    wp anyPanic (AddressSpace.from_elf cfg kernel.page_table.root elf) (fun as φ' =>
      Evolves cfg ⟨φ, kernel, l⟩ ⟨φ', kernel, l ++ [some as]⟩ ∧ Keys as ∧
      Loading elf.program_iter as ∧
      ∀ a ∈ as.areas, Whole a) φ := by
  rw [AddressSpace.from_elf, wp_bind]
  refine wp_mono (new_space_evolves trivial h) ?_
  rintro as₀ φ₀ ⟨h₀, hareas⟩
  rw [wp_bind]
  refine wp_mono
    (wp_foldlM (fun done as φ' => Evolves cfg ⟨φ, kernel, l⟩ ⟨φ', kernel, l ++ [some as]⟩ ∧
    Loading done as ∧ ∀ a ∈ as.areas, Whole a) ?_ ?_) ?_
  · exact ⟨h₀,
      ⟨by rw [hareas]; exact List.Pairwise.nil, by simp [hareas], by simp⟩, by simp [hareas]⟩
  · rintro done ph later as φ₁ hl ⟨h₁, hkeys, hwhole⟩
    by_cases hload : ph.load = true
    · obtain ⟨hlow, hkey⟩ := hkeys.next he hl hload
      refine wp_mono (load_segment_evolves elf.file hload hlow hkey h₁.tracked) ?_
      rintro as' φ₂ ⟨h₂, area, hareas', hnew⟩
      refine ⟨h₁.trans h₂, hkeys.snoc hload hkey hareas', ?_⟩
      rw [hareas']
      exact all_insert hkey hwhole hnew
    · rw [AddressSpace.load_segment, if_neg hload, wp_pure]
      exact ⟨h₁, hkeys.skip hload, hwhole⟩
  · intro as φ₁ hloaded
    obtain ⟨h₁, hkeys, hwhole⟩ := hloaded
    rw [wp_bind, wp_unwrap]
    refine ⟨fun stop hstop => ?_, fun _ => trivial⟩
    rw [wp_bind, wp_unwrap]
    refine ⟨fun limit hlimit => ?_, fun _ => trivial⟩
    rw [wp_pure]
    have hlast := h₁.tracked.tracks as (by simp)
    obtain ⟨hc, hw⟩ := Changes.refl h₁.tracked.half.owns hlast
    have hevolves : Evolves cfg ⟨φ₁, kernel, l ++ [some as]⟩
        ⟨φ₁, kernel, l ++ [some { as with data_segment_max := limit }]⟩ :=
      Evolves.change h₁.tracked ⟨hc.exchanges, hc.tracks, hc.count⟩ hw
    refine ⟨h₁.trans hevolves, ⟨hkeys.sorted, fun a ha => .inl ?_, ?_⟩,
      ⟨hkeys.sorted, hkeys.keys, hkeys.all⟩, hwhole⟩
    · obtain ⟨ph, _, _, hkey⟩ := hkeys.keys a ha
      rw [hkey]
      exact Nat.le_add_right _ _
    · have h1 := checked_round_up_eq hstop
      have h2 := checked_add_eq hlimit
      have h3 := le_round_up as.data_segment_end
      show as.data_segment_end ≤ limit
      omega

/-! ## Fork -/

/-- A page of an area that `fork` does not make copy-on-write has no writable entry. -/
def AddressSpace.fork_fits (cfg : Config) (m : Mem) (as : AddressSpace) : Bool :=
  as.areas.all fun a => is_cow a.2.map_perm || a.2.data_frames.all fun x =>
    (lookup cfg m as.page_table x.1).all fun e => !e.getLsbD 2

theorem fork_entry_read_only (x : Page) : (fork_entry x).getLsbD 2 = false := by
  rw [fork_entry, PTEImpl.getLsbD_new _ _ (by omega), BitVec.getLsbD_or,
    AddressSpace.fork_flags, PTEImpl.VALID,
    PTEImpl.getLsbD_flag (by omega)]
  split
  · rw [PTEImpl.COW, PTEImpl.WRITABLE, PTEImpl.getLsbD_insert _ (by omega),
      PTEImpl.getLsbD_remove _ (by omega) (by omega)]
    simp
  · rename_i hcow
    simp only [AddressSpace.is_cow, PTEImpl.WRITABLE,
      PTEImpl.contains_flag _ (show 2 < 64 by omega), Bool.or_eq_true,
      not_or, Bool.not_eq_true] at hcow
    rw [hcow.1]
    rfl

section Forked

variable {c : AddressSpace} {v : Nat} {e : PTEImpl}
  (h : Tracked cfg ⟨φ, kernel, l₁ ++ some as :: l₂⟩)
  (hf : Forked cfg (others kernel l₁ l₂) kernel.page_table.root as φ φ' c)
include h hf

omit h hf in
theorem space_of_forked {a : AddressSpace} (ha : some a ∈ l₁ ++ some as :: (l₂ ++ [some c])) :
    a = as ∨ a = c ∨ some a ∈ l₁ ∨ some a ∈ l₂ := by
  simp only [List.mem_append, List.mem_cons, Option.some.injEq, List.not_mem_nil, or_false] at ha
  tauto

omit h in
theorem Forked.same : ∀ q ∈ others kernel l₁ l₂, SameFrame φ.mem φ'.mem q :=
  fun q hq => hf.state.same q (List.mem_append_right _ hq)

theorem fork_tracked (hhalf : KernelHalf cfg ⟨φ', kernel, l₁ ++ some as :: (l₂ ++ [some c])⟩) :
    Tracked cfg ⟨φ', kernel, l₁ ++ some as :: (l₂ ++ [some c])⟩ := by
  refine ⟨hhalf, fun a ha => ?_⟩
  rcases space_of_forked ha with rfl | rfl | hother
  · exact hf.state.tracks
  · rw [AddressSpace.pages, hf.areas]
    exact hf.state.child_tracks
  · exact (h.tracks a (mem_spaces_of_other hother)).congr (h.half.other_lookup hf.same hother)

theorem fork_parent_read_only (hfit : as.fork_fits cfg φ.mem = true) (hv : v < 2 ^ 26)
    (hd : v ∉ cfg.device_pages) (he : lookup cfg φ'.mem as.page_table v = some e) :
    e.getLsbD 2 = false := by
  rcases hf.state.parent_entry v hv with ⟨x, _, _, hx⟩ | ⟨hnot, hx⟩
  · obtain rfl := Option.some.inj (hx.symm.trans he)
    exact fork_entry_read_only x
  · rw [hx] at he
    obtain ⟨x, hx, hxv⟩ := (h.tracks as (by simp)).tracked v e hv he hd
    obtain ⟨b, hb, hxb⟩ := List.mem_flatMap.mp hx
    obtain ⟨y, hy, rfl⟩ := List.mem_map.mp hxb
    simp only [AddressSpace.fork_fits, List.all_eq_true, Bool.or_eq_true] at hfit
    rcases hfit b hb with hcow | hro
    · exact absurd hxv (hnot _ (List.mem_filter.mpr ⟨hx, hcow⟩))
    · have hro := hro y hy
      have hyv : y.1 = v := hxv
      rw [hyv, he, Option.all_some] at hro
      simpa using hro

omit h in
theorem fork_child_read_only (hv : v < 2 ^ 26) (hd : v ∉ cfg.device_pages)
    (he : lookup cfg φ'.mem c.page_table v = some e) : e.getLsbD 2 = false := by
  obtain ⟨x, hx, hxv⟩ := hf.state.child_tracks.tracked v e hv he hd
  have hentry := hf.state.child_entry x hx
  rw [hxv, he] at hentry
  obtain rfl := Option.some.inj hentry
  exact fork_entry_read_only x

omit h in
theorem fork_other_count {p : Nat} (hp : p ∈ others kernel l₁ l₂)
    (hone : (Os.mk φ kernel (l₁ ++ some as :: l₂)).trackers.count p ≤ 1) :
    (Os.mk φ' kernel (l₁ ++ some as :: (l₂ ++ [some c]))).trackers.count p ≤ 1 := by
  have hpos := List.count_pos_iff.mpr hp
  rw [(trackers_perm φ (some as)).count_eq, Option.elim_some, List.count_append] at hone
  have has0 : as.trackers.count p = 0 := by omega
  have hframes0 : as.frames.count p = 0 := by
    rw [AddressSpace.trackers, List.count_append] at has0
    omega
  have hcframes : c.frames = as.frames := by rw [AddressSpace.frames, hf.areas, AddressSpace.frames]
  have htab0 : c.page_table.tables.count p = 0 :=
    List.count_eq_zero.mpr fun ht => hf.state.child.notMem ht (by simp [hp])
  have hperm : (Os.mk φ' kernel (l₁ ++ some as :: (l₂ ++ [some c]))).trackers.Perm
      (c.trackers ++ (as.trackers ++ others kernel l₁ l₂)) := by
    rw [List.perm_iff_count]
    intro q
    simp only [Os.trackers, others, space_trackers, List.flatMap_append,
      List.flatMap_cons, List.flatMap_nil,
      Option.elim_some, List.count_append, List.count_nil]
    omega
  rw [hperm.count_eq, List.count_append, List.count_append, AddressSpace.trackers,
    List.count_append, hcframes, htab0,
    hframes0]
  omega

theorem fork_unshared (hfit : as.fork_fits cfg φ.mem = true)
    (hu : Unshared cfg ⟨φ, kernel, l₁ ++ some as :: l₂⟩) :
    Unshared cfg ⟨φ', kernel, l₁ ++ some as :: (l₂ ++ [some c])⟩ := by
  intro a ha v e hv hd he hwr
  have he' : lookup cfg φ'.mem a.page_table v = some e := he
  rcases space_of_forked ha with rfl | rfl | hother
  · rw [fork_parent_read_only h hf hfit hv hd he'] at hwr
    cases hwr
  · rw [fork_child_read_only hf hv hd he'] at hwr
    cases hwr
  · -- the frame of another process' page is not one of the parent's
    rw [h.half.other_lookup hf.same hother v (own_of_lt hv)] at he'
    have hone := hu a (mem_spaces_of_other hother) v e hv hd he' hwr
    obtain ⟨x, hx, hxv⟩ := (h.tracks a (mem_spaces_of_other hother)).tracked v e hv he' hd
    have hp : e.ppn cfg = x.ppn := by
      obtain ⟨e₀, he₀, hp⟩ := (h.tracks a (mem_spaces_of_other hother)).mapped x hx
      rw [hxv, he'] at he₀
      obtain rfl := Option.some.inj he₀
      exact hp
    refine fork_other_count hf ?_ hone
    rw [hp]
    exact mem_others hother (List.mem_append_right _ (frame_mem hx))

theorem fork_hidden (hh : Hidden cfg ⟨φ, kernel, l₁ ++ some as :: l₂⟩) :
    Hidden cfg ⟨φ', kernel, l₁ ++ some as :: (l₂ ++ [some c])⟩ := by
  refine ⟨fun v e hv he => ?_, fun a ha v hd e he => ?_⟩
  · refine hh.kernel v e hv ?_
    rw [← he]
    exact (h.half.kernel_lookup hf.same v).symm
  · have he' : lookup cfg φ'.mem a.page_table v = some e := he
    rcases space_of_forked ha with rfl | rfl | hother
    · rcases hf.state.parent_entry v (device_low hd) with ⟨x, hx, hxv, _⟩ | ⟨_, hx⟩
      · refine absurd ?_ ((h.tracks a (by simp)).apart x (List.mem_filter.mp hx).1)
        rw [hxv]
        exact hd
      · rw [hx] at he'
        exact hh.devices a (by simp) v hd e he'
    · rw [hf.state.devices v hd] at he'
      obtain rfl := Option.some.inj he'
      exact device_entry_user v
    · rw [h.half.other_lookup hf.same hother v (own_of_lt (device_low hd))] at he'
      exact hh.devices a (mem_spaces_of_other hother) v hd e he'

end Forked

theorem fork_evolves (h : Tracked cfg ⟨φ, kernel, l₁ ++ some as :: l₂⟩)
    (hsorted : Sorted as.areas) :
    wp anyPanic (AddressSpace.fork cfg kernel.page_table.root as) (fun c φ' =>
      Tracked cfg ⟨φ', kernel, l₁ ++ some as :: (l₂ ++ [some c])⟩ ∧
      Forked cfg (others kernel l₁ l₂) kernel.page_table.root as φ φ' c ∧
      (as.fork_fits cfg φ.mem = true → Unshared cfg ⟨φ, kernel, l₁ ++ some as :: l₂⟩ →
        Unshared cfg ⟨φ', kernel, l₁ ++ some as :: (l₂ ++ [some c])⟩) ∧
      (Hidden cfg ⟨φ, kernel, l₁ ++ some as :: l₂⟩ →
        Hidden cfg ⟨φ', kernel, l₁ ++ some as :: (l₂ ++ [some c])⟩)) φ := by
  have hkroot : kernel.page_table.root ∈ others kernel l₁ l₂ :=
    mem_others_kernel (mem_trackers_of_table List.mem_cons_self)
  refine wp_mono (wp_and (fork_half h.half)
    (fork_spec trivial h.half.owns (h.tracks as (by simp)) hsorted hkroot)) ?_
  rintro c φ' ⟨hhalf, hf⟩
  exact ⟨fork_tracked h hf hhalf, hf, fork_unshared h hf, fork_hidden h hf⟩

/-! ## Kernel stacks -/

theorem Evolves.kernel_change (h : Tracked cfg ⟨φ, kernel, l⟩)
    (h' : KernelHalf cfg ⟨φ', kernel', l⟩) (hx : Exchanges cfg (fun _ => True)
    (space_trackers l) φ kernel.page_table kernel.frames φ' kernel'.page_table
      kernel'.frames)
    (hnew : ∀ v e, lookup cfg φ'.mem kernel'.page_table v = some e →
      lookup cfg φ.mem kernel.page_table v = some e ∨ e.getLsbD 4 = false) :
    Evolves cfg ⟨φ, kernel, l⟩ ⟨φ', kernel', l⟩ := by
  have hlook : ∀ a, some a ∈ l → SameMap cfg userHalf φ.mem a.page_table φ'.mem a.page_table := by
    intro a ha w hw
    refine lookup_congr (h.half.spaces a ha).tree (fun t ht => hx.same t ?_) hw
    exact mem_space_trackers.mpr ⟨a, ha, mem_trackers_of_table ht⟩
  refine ⟨⟨h', fun a ha => (h.tracks a ha).congr (hlook a ha)⟩, fun hu a ha v e hv hd he hwr => ?_,
    fun hh => ⟨fun v e hv he => ?_, fun a ha v hd e he => ?_⟩⟩
  · have he' : lookup cfg φ'.mem a.page_table v = some e := he
    rw [hlook a ha v (own_of_lt hv)] at he'
    have hone := hu a ha v e hv hd he' hwr
    obtain ⟨x, hx', hxv⟩ := (h.tracks a ha).tracked v e hv he' hd
    have hp := (h.tracks a ha).ppn_eq hx' (hxv ▸ he')
    -- the frame is the process', so that the kernel neither had nor got a tracker of it
    have hmem : e.ppn cfg ∈ space_trackers l := by
      rw [hp]
      exact mem_space_trackers.mpr ⟨a, ha, List.mem_append_right _ (frame_mem hx')⟩
    have hpos := List.count_pos_iff.mpr hmem
    simp only [Os.trackers, AddressSpace.trackers, List.count_append] at hone ⊢
    have htab : e.ppn cfg ∉ kernel'.page_table.tables :=
      fun ht => hx.owns.notMem ht (List.mem_append_right _ hmem)
    have hframes : e.ppn cfg ∉ kernel'.frames := by
      intro hq
      rcases hx.frames _ hq with hold | hfresh
      · have := List.count_pos_iff.mpr hold
        omega
      · exact hfresh (by simp [hmem])
    rw [List.count_eq_zero.mpr htab, List.count_eq_zero.mpr hframes]
    omega
  · rcases hnew v e he with he | hno
    · exact hh.kernel v e hv he
    · exact hno
  · have he' : lookup cfg φ'.mem a.page_table v = some e := he
    rw [hlook a ha v (own_of_lt (device_low hd))] at he'
    exact hh.devices a ha v hd e he'

section Stack

variable {tid : Nat} {r : VARange}

theorem insert_stack_evolves (h : Tracked cfg ⟨φ, kernel, l⟩) (ht : tid < MAX_TID)
    (hr : get_kernel_stack_range tid = some r) : wp anyPanic (kernel.insert_kernel_stack_area cfg r)
      (fun kernel' φ' => Evolves cfg ⟨φ, kernel, l⟩ ⟨φ', kernel', l⟩) φ := by
  have hall : wp anyPanic (kernel.insert_kernel_stack_area cfg r) _ φ :=
    map_and_insert_spec trivial (.inr rfl) h.half.kernel_owns (fun _ _ => trivial) (.inl trivial)
  refine wp_mono (wp_and (insert_stack_half h.half ht hr) hall) ?_
  rintro kernel' φ' ⟨h', ⟨_, φ₁, area', new, _, hi⟩⟩
  refine Evolves.kernel_change h h' (by simpa [MapArea.frames] using hi.exchanges) fun v e he => ?_
  rcases (hi.maps.found v e trivial).mp he with he | ⟨z, hz, _, rfl⟩
  · exact .inl he
  · obtain ⟨y, _, rfl⟩ := List.mem_map.mp hz
    refine .inr ?_
    rw [PTEImpl.getLsbD_new _ _ (by omega)]
    decide

theorem remove_stack_evolves {va : Nat} (h : Tracked cfg ⟨φ, kernel, l⟩) :
    wp anyPanic (kernel.remove_area cfg va)
      (fun kernel' φ' => Evolves cfg ⟨φ, kernel, l⟩ ⟨φ', kernel', l⟩) φ := by
  have hall : wp anyPanic (kernel.remove_area cfg va) _ φ :=
    remove_area_spec h.half.kernel_owns (fun _ _ _ _ _ => trivial) (.inl trivial)
  refine wp_mono (wp_and (remove_stack_half h.half) hall) ?_
  rintro kernel' φ' ⟨h', ⟨entry, hrem⟩⟩
  refine Evolves.kernel_change h h' hrem.exchanges fun v e he => .inl ?_
  rw [hrem.unmaps v trivial] at he
  split at he
  · simp at he
  · exact he

end Stack

/-! ## Bytes -/

section Write

variable {m : Mem} (h : Tracked cfg s) (hs : ∀ t ∈ s.tables, SameFrame s.phys.mem m t)
include h hs

theorem Tracked.write_lookup (has : some as ∈ s.spaces) :
    SameMap cfg userHalf s.phys.mem as.page_table m as.page_table :=
  fun _ hw => lookup_congr (h.half.spaces as has).tree
    (fun t ht => hs t (Os.mem_tables.mpr (.inr ⟨as, has, ht⟩))) hw

theorem Evolves.write (ha : AllocInv (s.phys.set_mem m) s.trackers) :
    Evolves cfg s ⟨s.phys.set_mem m, s.kernel, s.spaces⟩ := by
  have hk : ∀ t ∈ s.kernel.page_table.tables, SameFrame s.phys.mem m t :=
    fun t ht => hs t (Os.mem_tables.mpr (.inl ht))
  have hu : ∀ a, some a ∈ s.spaces → ∀ t ∈ a.page_table.tables, SameFrame s.phys.mem m t :=
    fun a ha t ht => hs t (Os.mem_tables.mpr (.inr ⟨a, ha, ht⟩))
  refine ⟨⟨⟨ha, h.half.ram, h.half.once, h.half.kernel.congr hk,
    h.half.stack.congr h.half.kernel hk, fun a ha => ?_⟩,
    fun a ha => (h.tracks a ha).congr (h.write_lookup hs ha)⟩, fun hun a ha v e hv hd he hwr => ?_,
    fun hh => ⟨fun v e hv he => hh.kernel v e hv ?_,
      fun a ha v hd e he => hh.devices a ha v hd e ?_⟩⟩
  · exact (h.half.spaces a ha).congr (hu a ha) fun i _ => read_pte_same (hk _ List.mem_cons_self)
  · have he' : lookup cfg m a.page_table v = some e := he
    rw [h.write_lookup hs ha v (own_of_lt hv)] at he'
    exact hun a ha v e hv hd he' hwr
  · rw [← he]
    exact (lookup_congr h.half.kernel hk trivial).symm
  · rw [← he]
    exact (h.write_lookup hs ha v (own_of_lt (device_low hd))).symm

end Write

theorem Tracked.store_apart {v : Nat} {e : PTEImpl}
    (h : Tracked cfg ⟨φ, kernel, l₁ ++ some as :: l₂⟩)
    (hv : v < 2 ^ 26) (he : lookup cfg φ.mem as.page_table v = some e)
    (hm : ∀ q, q ≠ e.ppn cfg → SameFrame φ.mem m q) :
    AllocInv (φ.set_mem m) (Os.mk φ kernel (l₁ ++ some as :: l₂)).trackers ∧
    ∀ t ∈ (Os.mk φ kernel (l₁ ++ some as :: l₂)).tables, SameFrame φ.mem m t := by
  have htr := h.tracks as (by simp)
  have hframe : e.ppn cfg ∈ as.frames ∨ ¬ φ.InRange (e.ppn cfg) := by
    by_cases hd : v ∈ cfg.device_pages
    · obtain ⟨e', he', hp⟩ := htr.devices _ hd
      have he' : lookup cfg φ.mem as.page_table v = some e' := he'
      rw [he] at he'
      obtain rfl := Option.some.inj he'
      refine .inr fun hr => ?_
      have := (h.half.ram _ hr).1
      have := device_lt hd
      omega
    · obtain ⟨x, hx, hxv⟩ := htr.tracked _ e hv he hd
      rw [htr.ppn_eq hx (hxv ▸ he)]
      exact .inl (frame_mem hx)
  have hsame : ∀ q, φ.InRange q → q ∉ as.frames → SameFrame φ.mem m q := by
    intro q hq hnot
    refine hm q ?_
    rintro rfl
    exact hframe.elim hnot fun hr => hr hq
  refine ⟨h.half.alloc.write fun q hr hq => hsame q hr fun hf => hq ?_, fun t ht => ?_⟩
  · exact List.mem_append_right _ (mem_space_trackers.mpr ⟨as, by simp, List.mem_append_right _ hf⟩)
  · have hmem : t ∈ (Os.mk φ kernel (l₁ ++ some as :: l₂)).trackers :=
      List.count_pos_iff.mp (by rw [h.half.once t ht]; omega)
    exact hsame t (h.half.alloc.range t hmem) (h.half.notMem_frames ht)

theorem floor_low {va : Nat} (hva : va < 2 ^ 38) : floor va < 2 ^ 26 := by
  simp only [floor, PAGE_SIZE]
  omega

theorem poke_evolves {va : Nat} {b : Byte} (h : Tracked cfg ⟨φ, kernel, l₁ ++ some as :: l₂⟩)
    (hva : va < 2 ^ 38) :
    wp anyPanic (AddressSpace.poke cfg as va b) (fun as' φ' => as' = as ∧
      Evolves cfg ⟨φ, kernel, l₁ ++ some as :: l₂⟩ ⟨φ', kernel, l₁ ++ some as' :: l₂⟩) φ := by
  rw [AddressSpace.poke, wp_bind, wp_get, wp_bind, wp_unwrap]
  refine ⟨fun pte hpte => ?_, fun _ => trivial⟩
  rw [wp_bind, wp_assert]
  refine ⟨fun _ => ?_, fun _ => trivial⟩
  rw [wp_bind, wp_modify, wp_pure]
  have hlook : lookup cfg φ.mem as.page_table (floor va) =
    some (read_pte φ.mem pte.table pte.index) := by
    rw [lookup, hpte]
    rfl
  obtain ⟨ha, hs⟩ := h.store_apart (floor_low hva) hlook fun q hq =>
    storeByte_sameFrame (Ne.symm hq)
  exact ⟨rfl, Evolves.write h hs ha⟩

end HectoOs.Mm
