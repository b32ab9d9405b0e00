import HectoOs.Mm.KernelStacks
import HectoOs.Mm.System

/-! # The kernel's half of every address space

A page table copies the upper half of the kernel's root when it is made and never looks at the
kernel's root again. All agree as long as processes leave the upper half alone and the kernel does
not touch these entries of its root: its stacks lie below one table that exists from the start.
-/

open HectoOs.Lib

namespace HectoOs.Mm

open PageTableImpl

/-- The frames of all page tables. -/
def Os.tables (s : Os) : List Nat :=
  s.kernel.page_table.tables ++ s.spaces.flatMap fun o => o.elim [] (·.page_table.tables)

/-- A process owns the lower half of its root, and has the kernel's entries in the upper half. -/
structure UserSpace (cfg : Config) (m : Mem) (k : Nat) (as : AddressSpace) : Prop where
  tree : Tree cfg m as.page_table userHalf
  shared : ∀ i, ¬ userHalf i → read_pte m as.page_table.root i = read_pte m k i
  pages : ∀ x ∈ as.pages, Own userHalf x.vpn

structure KernelHalf (cfg : Config) (s : Os) : Prop where
  alloc : AllocInv s.phys s.trackers
  ram : ∀ p, s.phys.InRange p → FIRST_PPN ≤ p ∧ p + 1 < 2 ^ 26
  once : ∀ t ∈ s.tables, s.trackers.count t = 1
  kernel : Tree cfg s.phys.mem s.kernel.page_table fun _ => True
  stack : Stacks cfg s.phys.mem s.kernel
  spaces : ∀ as, some as ∈ s.spaces → UserSpace cfg s.phys.mem s.kernel.page_table.root as

variable {cfg : Config} {s : Os} {φ φ' : Phys} {kernel kernel' as as' : AddressSpace}
  {o : Option AddressSpace}
  {l l₁ l₂ : List (Option AddressSpace)} {t : Nat}

/-! ## Tables and trackers -/

theorem Os.mem_tables : t ∈ s.tables ↔ t ∈ s.kernel.page_table.tables ∨
    ∃ as, some as ∈ s.spaces ∧ t ∈ as.page_table.tables := by
  rw [Os.tables, List.mem_append, List.mem_flatMap]
  refine or_congr_right ⟨?_, fun ⟨as, has, ht⟩ => ⟨some as, has, ht⟩⟩
  rintro ⟨o, ho, ht⟩
  cases o with
  | none => simp at ht
  | some as => exact ⟨as, ho, ht⟩

theorem mem_trackers_of_table (h : t ∈ as.page_table.tables) : t ∈ as.trackers :=
  List.mem_append_left _ h

theorem mem_tables_split : t ∈ (Os.mk φ kernel (l₁ ++ o :: l₂)).tables →
    (∃ as, o = some as ∧ t ∈ as.page_table.tables) ∨ t ∈ others kernel l₁ l₂ := by
  rw [Os.mem_tables]
  rintro (hk | ⟨as, has, ht⟩)
  · exact .inr (mem_others_kernel (mem_trackers_of_table hk))
  · simp only [List.mem_append, List.mem_cons] at has
    rcases has with h | rfl | h
    · exact .inr (mem_others (.inl h) (mem_trackers_of_table ht))
    · exact .inl ⟨as, rfl, ht⟩
    · exact .inr (mem_others (.inr h) (mem_trackers_of_table ht))

theorem UserSpace.congr {m m' : Mem} {k k' : Nat} (h : UserSpace cfg m k as)
    (hs : ∀ t ∈ as.page_table.tables, SameFrame m m' t)
    (hk : ∀ i, ¬ userHalf i → read_pte m' k' i = read_pte m k i) : UserSpace cfg m' k' as := by
  refine ⟨h.tree.congr hs, fun i hi => ?_, h.pages⟩
  rw [read_pte_same (hs _ List.mem_cons_self), h.shared i hi]
  exact (hk i hi).symm

namespace KernelHalf

theorem owns (h : KernelHalf cfg ⟨φ, kernel, l₁ ++ some as :: l₂⟩) :
    Owns cfg userHalf φ as.page_table (as.frames ++ others kernel l₁ l₂) :=
  Owns.of_count h.alloc (trackers_perm φ (some as)) (h.spaces as (by simp)).tree
    fun t ht => h.once t (Os.mem_tables.mpr (.inr ⟨as, by simp, ht⟩))

theorem kernel_owns (h : KernelHalf cfg s) :
    Owns cfg (fun _ => True) s.phys s.kernel.page_table
      (s.kernel.frames ++ space_trackers s.spaces) :=
  Owns.of_count h.alloc (List.Perm.refl _) h.kernel fun t ht =>
    h.once t (Os.mem_tables.mpr (.inl ht))

theorem notMem_frames (h : KernelHalf cfg ⟨φ, kernel, l₁ ++ some as :: l₂⟩)
    (ht : t ∈ (Os.mk φ kernel (l₁ ++ some as :: l₂)).tables) : t ∉ as.frames := by
  intro hf
  have hone := h.once t ht
  rw [(trackers_perm φ (some as)).count_eq, Option.elim_some, List.count_append,
    AddressSpace.trackers,
    List.count_append] at hone
  have hpos := List.count_pos_iff.mpr hf
  rcases mem_tables_split ht with ⟨_, hsome, ht⟩ | ht
  · obtain rfl := Option.some.inj hsome
    have := List.count_pos_iff.mpr ht
    omega
  · have := List.count_pos_iff.mpr ht
    omega

theorem replace (h : KernelHalf cfg ⟨φ, kernel, l₁ ++ o :: l₂⟩)
    (ho : Owns cfg userHalf φ' as'.page_table (as'.frames ++ others kernel l₁ l₂))
    (hr : SameRange φ φ') (hs : ∀ q ∈ others kernel l₁ l₂, SameFrame φ.mem φ'.mem q)
    (hf : ∀ q ∈ as'.frames, q ∉ (Os.mk φ kernel (l₁ ++ o :: l₂)).tables)
    (hshared : ∀ i, ¬ userHalf i → read_pte φ'.mem as'.page_table.root i =
    read_pte φ'.mem kernel.page_table.root i) (hpages : ∀ x ∈ as'.pages, Own userHalf x.vpn) :
    KernelHalf cfg ⟨φ', kernel, l₁ ++ some as' :: l₂⟩ := by
  have hperm : (Os.mk φ' kernel (l₁ ++ some as' :: l₂)).trackers.Perm
    (as'.trackers ++ others kernel l₁ l₂) :=
    trackers_perm φ' (some as')
  have hcount : ∀ t ∈ as'.page_table.tables, (as'.trackers ++ others kernel l₁ l₂).count t = 1 :=
    fun t ht => ho.count_tables ht
  have hkernel : ∀ t ∈ kernel.page_table.tables, SameFrame φ.mem φ'.mem t :=
    fun t ht => hs t (mem_others_kernel (mem_trackers_of_table ht))
  have hkroot : ∀ i, read_pte φ'.mem kernel.page_table.root i =
    read_pte φ.mem kernel.page_table.root i :=
    fun i => read_pte_same (hkernel _ List.mem_cons_self)
  refine ⟨?_, fun p hp => h.ram p ((hr.inRange p).mp hp), fun t ht => ?_, h.kernel.congr hkernel,
    h.stack.congr h.kernel hkernel, fun as has => ?_⟩
  · have halloc := ho.alloc
    rw [← List.append_assoc] at halloc
    exact halloc.perm hperm
  · rw [hperm.count_eq]
    rcases mem_tables_split ht with ⟨_, hsome, ht⟩ | hothers
    · obtain rfl := Option.some.inj hsome
      exact hcount t ht
    · by_cases ht' : t ∈ as'.page_table.tables
      · exact hcount t ht'
      · -- the table of another: it was one before, and is no frame of the new address space
        have hold : t ∈ (Os.mk φ kernel (l₁ ++ o :: l₂)).tables := by
          rcases Os.mem_tables.mp ht with hk | ⟨as, has, hta⟩
          · exact Os.mem_tables.mpr (.inl hk)
          · refine Os.mem_tables.mpr (.inr ⟨as, ?_, hta⟩)
            simp only [List.mem_append, List.mem_cons] at has ⊢
            rcases has with h | h | h
            · exact .inl h
            · exact absurd (Option.some.inj h ▸ hta) ht'
            · exact .inr (.inr h)
        have hone := h.once t hold
        rw [(trackers_perm φ o).count_eq, List.count_append] at hone
        have hpos := List.count_pos_iff.mpr hothers
        have hnot : as'.trackers.count t = 0 := by
          rw [AddressSpace.trackers, List.count_append, List.count_eq_zero.mpr ht',
            List.count_eq_zero.mpr fun hq => hf t hq hold]
        rw [List.count_append, hnot]
        omega
  · have hcase : as = as' ∨ some as ∈ l₁ ∨ some as ∈ l₂ := by
      simp only [List.mem_append, List.mem_cons, Option.some.injEq] at has
      tauto
    rcases hcase with rfl | hother
    · exact ⟨ho.tree, hshared, hpages⟩
    · have hu := h.spaces as (by
        simp only [List.mem_append, List.mem_cons]
        tauto)
      exact hu.congr (fun t ht => hs t (mem_others hother (mem_trackers_of_table ht)))
        fun i _ => hkroot i

theorem exchange (h : KernelHalf cfg ⟨φ, kernel, l₁ ++ some as :: l₂⟩) (hx : Exchanges cfg userHalf
    (others kernel l₁ l₂) φ as.page_table as.frames φ' as'.page_table as'.frames)
    (hpages : ∀ x ∈ as'.pages, Own userHalf x.vpn) :
    KernelHalf cfg ⟨φ', kernel, l₁ ++ some as' :: l₂⟩ := by
  refine h.replace hx.owns hx.root.range hx.same (fun q hq ht => ?_) (fun i hi => ?_) hpages
  · rcases hx.frames q hq with hold | hfresh
    · exact h.notMem_frames ht hold
    · refine hfresh ?_
      rcases mem_tables_split ht with ⟨_, hsome, ht⟩ | ht
      · obtain rfl := Option.some.inj hsome
        exact List.mem_append_left _ ht
      · exact List.mem_append_right _ (List.mem_append_right _ ht)
  · have hk : SameFrame φ.mem φ'.mem kernel.page_table.root :=
      hx.same _ (mem_others_kernel (mem_trackers_of_table List.mem_cons_self))
    rw [hx.root.root, hx.root.keep i hi, (h.spaces as (by simp)).shared i hi, read_pte_same hk]

theorem drop (h : KernelHalf cfg ⟨φ, kernel, l₁ ++ some as :: l₂⟩)
    (ha : AllocInv φ' (others kernel l₁ l₂)) (hr : SameRange φ φ')
    (hs : ∀ q ∈ others kernel l₁ l₂, SameFrame φ.mem φ'.mem q) :
    KernelHalf cfg ⟨φ', kernel, l₁ ++ none :: l₂⟩ := by
  have hperm : (Os.mk φ' kernel (l₁ ++ none :: l₂)).trackers.Perm (others kernel l₁ l₂) :=
    trackers_perm φ' none
  have hkernel : ∀ t ∈ kernel.page_table.tables, SameFrame φ.mem φ'.mem t :=
    fun t ht => hs t (mem_others_kernel (mem_trackers_of_table ht))
  refine ⟨ha.perm hperm, fun p hp => h.ram p ((hr.inRange p).mp hp), fun t ht => ?_,
    h.kernel.congr hkernel,
    h.stack.congr h.kernel hkernel, fun a ha => ?_⟩
  · have hothers : t ∈ others kernel l₁ l₂ := by
      rcases mem_tables_split ht with ⟨_, hsome, _⟩ | ht
      · simp at hsome
      · exact ht
    have hold : t ∈ (Os.mk φ kernel (l₁ ++ some as :: l₂)).tables := by
      rcases Os.mem_tables.mp ht with hk | ⟨a, ha, hta⟩
      · exact Os.mem_tables.mpr (.inl hk)
      · refine Os.mem_tables.mpr (.inr ⟨a, ?_, hta⟩)
        simp only [List.mem_append, List.mem_cons, reduceCtorEq, false_or] at ha ⊢
        tauto
    have hone := h.once t hold
    rw [(trackers_perm φ (some as)).count_eq, List.count_append] at hone
    have hpos := List.count_pos_iff.mpr hothers
    rw [hperm.count_eq]
    omega
  · have hother : some a ∈ l₁ ∨ some a ∈ l₂ := by
      simp only [List.mem_append, List.mem_cons, reduceCtorEq, false_or] at ha
      exact ha
    have hu := h.spaces a (by
      simp only [List.mem_append, List.mem_cons]
      tauto)
    exact hu.congr (fun t ht => hs t (mem_others hother (mem_trackers_of_table ht)))
      fun i _ => read_pte_same (hkernel _ List.mem_cons_self)

theorem snoc_none (h : KernelHalf cfg ⟨φ, kernel, l⟩) :
    KernelHalf cfg ⟨φ, kernel, l ++ [none]⟩ := by
  have htr : (Os.mk φ kernel (l ++ [none])).trackers = (Os.mk φ kernel l).trackers := by
    simp [Os.trackers, space_trackers]
  have htab : (Os.mk φ kernel (l ++ [none])).tables = (Os.mk φ kernel l).tables := by
    simp [Os.tables]
  refine ⟨htr ▸ h.alloc, h.ram, fun t ht => ?_, h.kernel, h.stack,
    fun as has => h.spaces as (by simpa using has)⟩
  rw [htr]
  exact h.once t (htab ▸ ht)

theorem kernel_exchange (h : KernelHalf cfg ⟨φ, kernel, l⟩) (hx : Exchanges cfg (fun _ => True)
    (space_trackers l) φ kernel.page_table kernel.frames φ' kernel'.page_table
      kernel'.frames)
    (hroot : ∀ i, ¬ userHalf i →
      read_pte φ'.mem kernel'.page_table.root i = read_pte φ.mem kernel.page_table.root i)
    (hst : Stacks cfg φ'.mem kernel') : KernelHalf cfg ⟨φ', kernel', l⟩ := by
  refine ⟨?_, fun p hp => h.ram p ((hx.root.range.inRange p).mp hp), fun t ht => ?_,
    hx.owns.tree, hst, fun as has => ?_⟩
  · have halloc := hx.owns.alloc
    rw [← List.append_assoc] at halloc
    exact halloc
  · rcases Os.mem_tables.mp ht with hk | ⟨as, has, hta⟩
    · exact hx.owns.count_tables hk
    · have hspace : t ∈ space_trackers l :=
        mem_space_trackers.mpr ⟨as, has, mem_trackers_of_table hta⟩
      have hold : t ∈ (Os.mk φ kernel l).tables := Os.mem_tables.mpr (.inr ⟨as, has, hta⟩)
      have hone := h.once t hold
      simp only [Os.trackers, AddressSpace.trackers, List.count_append] at hone ⊢
      have hpos := List.count_pos_iff.mpr hspace
      have htab : t ∉ kernel'.page_table.tables :=
        fun hk => hx.owns.notMem hk (List.mem_append_right _ hspace)
      have hfr : t ∉ kernel'.frames := by
        intro hq
        rcases hx.frames t hq with hold | hfresh
        · have := List.count_pos_iff.mpr hold
          omega
        · exact hfresh (by simp [hspace])
      rw [List.count_eq_zero.mpr htab, List.count_eq_zero.mpr hfr]
      omega
  · exact (h.spaces as has).congr
      (fun t ht => hx.same t (mem_space_trackers.mpr ⟨as, has, mem_trackers_of_table ht⟩)) hroot

end KernelHalf

/-! ## Making and dropping address spaces -/

section Spaces

variable {may : Panic → Prop}

theorem new_space_half (hm : may .out_of_frames) (h : KernelHalf cfg ⟨φ, kernel, l⟩) :
    wp may (AddressSpace.new_kernel cfg kernel.page_table.root)
      (fun as φ' => KernelHalf cfg ⟨φ', kernel, l ++ [some as]⟩) φ := by
  have hothers : others kernel l [] = (Os.mk φ kernel l).trackers := by simp [others, Os.trackers,
    space_trackers]
  have hk : kernel.page_table.root ∈ (Os.mk φ kernel l).trackers :=
    List.mem_append_left _ (mem_trackers_of_table List.mem_cons_self)
  refine wp_mono (new_space_spec hm h.alloc hk) ?_
  rintro as φ' ⟨hn, has⟩
  have hareas : as.areas = [] := by rw [has]
  have hframes : as.frames = [] := by simp [AddressSpace.frames, hareas]
  refine h.snoc_none.replace ?_ hn.range ?_ (by simp [hframes]) hn.shared
    (by simp [AddressSpace.pages, hareas])
  · rw [hframes, List.nil_append, hothers]
    exact hn.owns
  · rw [hothers]
    exact hn.same

/-- The segments of the file lie in the lower half. -/
def ElfFile.User (elf : ElfFile) : Prop := ∀ ph ∈ elf.program_iter, ∀ v ∈ ph.pages, Own userHalf v

instance (elf : ElfFile) : Decidable elf.User :=
  inferInstanceAs (Decidable (∀ ph ∈ elf.program_iter, ∀ v ∈ ph.pages, Own userHalf v))

theorem load_segment_half (file : List Byte) {ph : ProgramHeader}
    (hown : ∀ v ∈ ph.pages, Own userHalf v) (h : KernelHalf cfg ⟨φ, kernel, l ++ [some as]⟩) :
    wp anyPanic (AddressSpace.load_segment cfg file as ph)
      (fun as' φ' => KernelHalf cfg ⟨φ', kernel, l ++ [some as']⟩) φ := by
  by_cases hload : ph.load = true
  · refine wp_mono (load_segment_spec file trivial hload h.owns hown (.inl trivial)) ?_
    rintro as' φ' ⟨_, φ₁, area', new, hnew, _, hi⟩
    refine h.exchange (by simpa [MapArea.frames] using hi.exchanges) fun x hx => ?_
    rcases hi.mem_pages hx with ⟨y, hy, rfl⟩ | hx | hx
    · exact hown y.1 (hnew ▸ List.mem_map_of_mem hy)
    · simp [MapArea.pages] at hx
    · exact (h.spaces as (by simp)).pages x hx
  · rw [AddressSpace.load_segment, if_neg hload]
    exact h

theorem from_elf_half {elf : ElfFile} (he : elf.User) (h : KernelHalf cfg ⟨φ, kernel, l⟩) :
    wp anyPanic (AddressSpace.from_elf cfg kernel.page_table.root elf)
      (fun as φ' => KernelHalf cfg ⟨φ', kernel, l ++ [some as]⟩) φ := by
  rw [AddressSpace.from_elf, wp_bind]
  refine wp_mono (new_space_half trivial h) fun as₀ φ₀ h₀ => ?_
  rw [wp_bind]
  refine wp_mono (wp_foldlM (fun _ as φ' => KernelHalf cfg ⟨φ', kernel, l ++ [some as]⟩) h₀ ?_) ?_
  · intro done ph later as φ₁ hl h₁
    exact load_segment_half elf.file (he ph (by rw [hl]; simp)) h₁
  · intro as φ₁ h₁
    simp only [wp_bind, wp_unwrap]
    refine ⟨fun _ _ => ⟨fun _ _ => ?_, fun _ => trivial⟩, fun _ => trivial⟩
    exact h₁.exchange (Exchanges.refl h₁.owns) (h₁.spaces as (by simp)).pages

theorem drop_half (h : KernelHalf cfg ⟨φ, kernel, l₁ ++ some as :: l₂⟩) :
    wp may as.drop (fun _ φ' => KernelHalf cfg ⟨φ', kernel, l₁ ++ none :: l₂⟩) φ := by
  refine wp_mono (drop_frames_spec h.alloc (trackers_perm φ (some as))) ?_
  rintro _ φ' ⟨ha, hs, hr⟩
  exact h.drop ha hr hs

end Spaces

/-! ## Fork -/

section Fork

variable {c : AddressSpace}

theorem fork_page_half {perm : PTEImpl} {pt : PageTableImpl} {v p : Nat} (hv : Own userHalf v)
    (h : KernelHalf cfg ⟨φ, kernel, l₁ ++ some as :: (l₂ ++ [some { c with page_table := pt }])⟩) :
    wp anyPanic (AddressSpace.fork_page cfg as.page_table perm pt (v, p)) (fun pt' φ' =>
      KernelHalf cfg ⟨φ', kernel, l₁ ++
        some as :: (l₂ ++ [some { c with page_table := pt' }])⟩) φ := by
  have happ : ∀ o : Option AddressSpace, l₁ ++ some as :: (l₂ ++ [o]) =
    (l₁ ++ some as :: l₂) ++ [o] := by simp
  rw [happ] at h
  rw [AddressSpace.fork_page, wp_bind]
  refine wp_mono (h.owns.map_one trivial hv (.inl trivial)) ?_
  rintro pt' φ₁ ⟨_, hm, _⟩
  have h₁ : KernelHalf cfg ⟨φ₁, kernel, (l₁ ++ some as :: l₂) ++
    [some { c with page_table := pt' }]⟩ :=
    h.exchange (Exchanges.of_moves hm) (h.spaces { c with page_table := pt } (by simp)).pages
  rw [← happ] at h₁
  cases AddressSpace.is_cow perm with
  | false => exact h₁
  | true =>
    refine wp_call (h₁.owns.remap_one hv (.inl trivial)) ?_
    rintro _ φ₂ ⟨hm, _⟩
    exact h₁.exchange (Exchanges.of_moves hm) (h₁.spaces as (by simp)).pages

theorem clone_loop_spec {mine : Fin 512 → Prop} {may : Panic → Prop} {pt : PageTableImpl}
    {F R : List Nat} (ho : Owns cfg mine φ pt R) (hsub : ∀ p ∈ F, p ∈ R) :
    wp may (F.foldlM (fun _ p => PhyPageAllocator.clone p) ()) (fun _ φ' =>
      Owns cfg mine φ' pt (F ++ R) ∧ φ'.mem = φ.mem ∧ SameRange φ φ') φ := by
  refine wp_foldlM (fun done _ φ' => Owns cfg mine φ' pt (done ++ R) ∧
    φ'.mem = φ.mem ∧ SameRange φ φ') ?_ ?_
  · exact ⟨ho, rfl, SameRange.refl φ⟩
  · rintro done p later _ φ₁ hl ⟨h₁, hmem, hr⟩
    refine wp_mono (h₁.clone (p := p) (List.mem_append_right _ (hsub p (by rw [hl]; simp)))) ?_
    rintro _ φ₂ ⟨h₂, hmem₂, hr₂⟩
    refine ⟨h₂.perm ?_, hmem₂.trans hmem, hr.trans hr₂⟩
    rw [List.append_assoc]
    exact List.perm_middle

theorem fork_area_half {entry : VARange × MapArea} (hentry : entry ∈ as.areas)
    (h : KernelHalf cfg ⟨φ, kernel, l₁ ++ some as :: (l₂ ++ [some c])⟩) :
    wp anyPanic (AddressSpace.fork_area cfg as.page_table c entry) (fun c' φ' =>
      KernelHalf cfg ⟨φ', kernel, l₁ ++ some as :: (l₂ ++ [some c'])⟩) φ := by
  have hpage : ∀ x ∈ entry.2.pages, x ∈ as.pages :=
    fun x hx => List.mem_flatMap.mpr ⟨entry, hentry, hx⟩
  have hframe : ∀ p ∈ entry.2.frames, p ∈ as.frames :=
    fun p hp => List.mem_flatMap.mpr ⟨entry, hentry, hp⟩
  have happ : ∀ o : Option AddressSpace, l₁ ++ some as :: (l₂ ++ [o]) =
    (l₁ ++ some as :: l₂) ++ [o] := by simp
  have hown := (h.spaces as (by simp)).pages
  rw [AddressSpace.fork_area, wp_bind]
  refine wp_mono (wp_foldlM (fun _ pt' φ' =>
    KernelHalf cfg ⟨φ', kernel, l₁ ++ some as :: (l₂ ++ [some { c with page_table := pt' }])⟩) h ?_)
      ?_
  · rintro done ⟨v, p⟩ later pt' φ₁ hl h₁
    have hx : Page.of entry.2.map_perm (v, p) ∈ entry.2.pages :=
      List.mem_map_of_mem (by rw [hl]; simp)
    have hv : Own userHalf v := hown (Page.of entry.2.map_perm (v, p)) (hpage _ hx)
    exact fork_page_half hv h₁
  · intro pt₁ φ₁ h₁
    have htables : ∀ p ∈ entry.2.frames, p ∉ (Os.mk φ₁ kernel (l₁ ++ some as :: (l₂ ++
        [some { c with page_table := pt₁ }]))).tables :=
          fun p hp ht => h₁.notMem_frames ht (hframe p hp)
    rw [happ] at h₁ htables
    have hsub : ∀ p ∈ entry.2.frames, p ∈ AddressSpace.frames { c with page_table := pt₁ } ++
        others kernel (l₁ ++ some as :: l₂) [] := by
      intro p hp
      have hmem : p ∈ as.trackers := List.mem_append_right _ (hframe p hp)
      exact List.mem_append_right _ (mem_others (.inl (by simp)) hmem)
    rw [wp_bind, AddressSpace.clone_area, wp_bind]
    refine wp_mono (clone_loop_spec h₁.owns hsub) ?_
    rintro _ φ₂ ⟨h₂, hmem, hr⟩
    rw [← List.append_assoc] at h₂
    rw [wp_pure]
    refine wp_mono (insert_area_spec (k := entry.1) h₂) ?_
    rintro c' φ₃ ⟨⟨shape, hc'⟩, hx, _⟩
    rw [happ]
    have hmem' : ∀ q, SameFrame φ₁.mem φ₂.mem q := fun q => by
      rw [hmem]
      exact SameFrame.refl _ _
    have hpt : c'.page_table = pt₁ := by rw [hc']
    have hkroot : kernel.page_table.root ∈ others kernel (l₁ ++ some as :: l₂) [] :=
      mem_others_kernel (mem_trackers_of_table List.mem_cons_self)
    refine h₁.replace (by rw [hpt]; exact hx.owns) (hr.trans hx.root.range)
      (fun q hq => (hmem' q).trans (hx.same q hq)) (fun q hq ht => ?_)
      (fun i hi => ?_) fun x hxp => ?_
    · rcases hx.frames q hq with hold | hfresh
      · rcases List.mem_append.mp hold with hold | hold
        · exact htables q hold ht
        · exact h₁.notMem_frames ht hold
      · refine hfresh ?_
        rcases mem_tables_split ht with ⟨_, hsome, ht⟩ | ht
        · obtain rfl := Option.some.inj hsome
          exact List.mem_append_left _ ht
        · exact List.mem_append_right _ (List.mem_append_right _ ht)
    · have hshared := (h₁.spaces { c with page_table := pt₁ } (by simp)).shared i hi
      have hroot : read_pte φ₃.mem pt₁.root i = read_pte φ₂.mem pt₁.root i := hx.root.keep i hi
      rw [hpt, hroot, hmem, hshared, read_pte_same (hx.same _ hkroot), hmem]
    · rw [hc', AddressSpace.pages] at hxp
      rcases mem_pages_insert hxp with hxp | hxp
      · exact hown x (hpage x hxp)
      · exact (h₁.spaces { c with page_table := pt₁ } (by simp)).pages x hxp

theorem fork_half (h : KernelHalf cfg ⟨φ, kernel, l₁ ++ some as :: l₂⟩) :
    wp anyPanic (AddressSpace.fork cfg kernel.page_table.root as) (fun c φ' =>
      KernelHalf cfg ⟨φ', kernel, l₁ ++ some as :: (l₂ ++ [some c])⟩) φ := by
  have happ : ∀ o : Option AddressSpace, (l₁ ++ some as :: l₂) ++ [o] =
    l₁ ++ some as :: (l₂ ++ [o]) := by simp
  rw [AddressSpace.fork, wp_bind]
  refine wp_mono (new_space_half trivial h) fun c₀ φ₀ h₀ => ?_
  rw [happ] at h₀
  rw [wp_bind]
  refine wp_mono (wp_foldlM (fun _ c φ' => KernelHalf cfg
    ⟨φ', kernel, l₁ ++ some as :: (l₂ ++ [some c])⟩) h₀ ?_) ?_
  · intro done entry later c φ₁ hl h₁
    exact fork_area_half (by rw [hl]; simp) h₁
  · intro c φ₁ h₁
    rw [← happ] at h₁
    rw [wp_pure, ← happ]
    exact h₁.exchange (Exchanges.refl h₁.owns) (h₁.spaces c (by simp)).pages

end Fork

/-! ## The kernel's operations -/

section Operations

variable {tid : Nat} {r : VARange}

theorem root_same {pt pt' : PageTableImpl} (hvalid : (read_pte φ.mem pt.root 511).is_valid = true)
    (hr : SameRoot (· = 511) φ pt φ' pt') (i : Fin 512) :
    read_pte φ'.mem pt'.root i = read_pte φ.mem pt.root i := by
  rw [hr.root]
  by_cases hi : i = 511
  · subst hi
    exact hr.valid 511 hvalid
  · exact hr.keep i hi

theorem insert_stack_half (h : KernelHalf cfg ⟨φ, kernel, l⟩) (ht : tid < MAX_TID)
    (hr : get_kernel_stack_range tid = some r) :
    wp anyPanic (kernel.insert_kernel_stack_area cfg r)
    (fun kernel' φ' => KernelHalf cfg ⟨φ', kernel', l⟩) φ := by
  have ho := h.kernel_owns
  -- once for the whole root, and once for its last entry alone
  have ho' : Owns cfg (· = 511) φ kernel.page_table (kernel.frames ++ space_trackers l) :=
    ho.mono fun _ _ => trivial
  have hall : wp anyPanic (kernel.insert_kernel_stack_area cfg r) _ φ :=
    map_and_insert_spec trivial (.inr rfl) ho (fun _ _ => trivial) (.inl trivial)
  have hlast : wp anyPanic (kernel.insert_kernel_stack_area cfg r) _ φ :=
    map_and_insert_spec trivial (.inr rfl) ho' (fun v hv => (stack_page_index ht hr hv).1)
      (.inl trivial)
  refine wp_mono (wp_and hall hlast) ?_
  rintro kernel' φ' ⟨⟨_, φ₁, area', new, hnew, hi⟩, ⟨_, _, _, _, _, hi'⟩⟩
  have hx : Exchanges cfg (fun _ => True)
    (space_trackers l) φ kernel.page_table kernel.frames φ' kernel'.page_table
      kernel'.frames := by simpa [MapArea.frames] using hi.exchanges
  refine h.kernel_exchange hx (fun i _ => root_same h.stack.valid hi'.exchanges.root i)
    (h.stack.insert ?_ ht hr rfl hnew hi)
  rw [AddressSpace.trackers, List.append_assoc]
  exact hx.owns.alloc

theorem remove_stack_half {va : Nat} (h : KernelHalf cfg ⟨φ, kernel, l⟩) :
    wp anyPanic (kernel.remove_area cfg va)
    (fun kernel' φ' => KernelHalf cfg ⟨φ', kernel', l⟩) φ := by
  have ho := h.kernel_owns
  have hkey : ∀ entry areas, SearchTree.remove VARange.cmp ⟨va, va⟩ kernel.tree =
    some (entry, areas) →
      ∀ v ∈ vpns (floor entry.1.start) (ceil entry.1.stop), Own (· = 511) v := by
    intro entry areas hrem v hv
    obtain ⟨l₁, l₂, hl, _, _⟩ := AddressSpace.remove_spec hrem
    obtain ⟨tid, ht, hr⟩ := h.stack.keys entry (by simp [hl])
    exact (stack_page_index ht hr hv).1
  have ho' : Owns cfg (· = 511) φ kernel.page_table (kernel.frames ++ space_trackers l) :=
    ho.mono fun _ _ => trivial
  have hall : wp anyPanic (kernel.remove_area cfg va) _ φ :=
    remove_area_spec ho (fun _ _ _ _ _ => trivial) (.inl trivial)
  have hlast : wp anyPanic (kernel.remove_area cfg va) _ φ :=
    remove_area_spec ho' hkey (.inl trivial)
  refine wp_mono (wp_and hall hlast) ?_
  rintro kernel' φ' ⟨⟨entry, hrem⟩, ⟨_, hrem'⟩⟩
  exact h.kernel_exchange hrem.exchanges (fun i _ => root_same h.stack.valid hrem'.exchanges.root i)
    (h.stack.remove hrem)

end Operations

/-! ## Runs -/

/-- Page tables are made and dropped, and threads take and give back kernel stacks. -/
def Event.Tables : Event → Prop
  | .from_elf _ | .fork _ | .drop _ => True
  | .insert_kernel_stack tid | .remove_kernel_stack tid => tid < MAX_TID
  | _ => False

/-- A file that is loaded has its segments in the lower half. -/
def Event.LoadsUser : Event → Prop
  | .from_elf elf => elf.User
  | _ => True

section Run

variable {s' : Os} {u : Unit}

/-- The frames that a page table reaches: its tables, and the kernel stacks. The linear mapping maps
the whole memory, so its pages do not count. -/
def Reachable (cfg : Config) (m : Mem) (pt : PageTableImpl) (p : Nat) : Prop :=
  (∃ is, is.length ≤ 2 ∧ walk (child cfg) (read_pte m) pt.root is = some p) ∨
  ∃ v e, vpn_index v 18 = 511 ∧ lookup cfg m pt v = some e ∧ e.ppn cfg = p

theorem KernelHalf.reachable (h : KernelHalf cfg s) {p : Nat}
    (hp : Reachable cfg s.phys.mem s.kernel.page_table p) :
    p ∈ s.kernel.trackers := by
  rcases hp with ⟨is, hlen, hw⟩ | ⟨v, e, hv, he, rfl⟩
  · obtain ⟨path, hr⟩ := h.kernel
    have hin : Inside (fun _ => True) is := by cases is <;> trivial
    exact mem_trackers_of_table (hr.walk_own hlen hin hw).1
  · obtain ⟨x, hx, _, hp⟩ := h.stack.tracked v e hv he
    refine List.mem_append_right _ ?_
    rw [AddressSpace.frames_eq]
    exact List.mem_map.mpr ⟨x, hx, hp⟩

theorem start_half {sym : Layout} {mem : Mem} {kernel : PageTableImpl}
    (hboot : boot cfg sym ⟨mem, PhyPageAllocator.new⟩ = .ok (kernel, φ)) :
    KernelHalf cfg (Os.start kernel φ) := by
  obtain ⟨halive, hnodup, _, hstack, hram⟩ := wp_ok (boot_spec cfg sym mem) hboot
  have htr : (Os.start kernel φ).trackers = kernel.tables := by
    simp [Os.start, Os.trackers, space_trackers, AddressSpace.trackers, AddressSpace.frames]
  have htab : (Os.start kernel φ).tables = kernel.tables := by simp [Os.start, Os.tables]
  refine ⟨htr ▸ halive.alloc, hram, fun t ht => ?_, halive.tree, ?_, by simp [Os.start]⟩
  · rw [htr]
    exact List.count_eq_one_of_mem hnodup (htab ▸ ht)
  · refine ⟨hstack.valid, by simp [Os.start], by simp [Os.start], by simp [Os.start,
      AddressSpace.pages],
      fun v e hv he => ?_, by simp [Os.start, AddressSpace.pages]⟩
    have hnone : lookup cfg φ.mem kernel v = none := hstack.empty v hv
    rw [Os.start, hnone] at he
    simp at he

theorem step_half {e : Event} (h : KernelHalf cfg s) (ht : e.Tables) (hl : e.LoadsUser)
    (hs : Os.step cfg s e = .ok (s', u)) : KernelHalf cfg s' := by
  obtain ⟨φ, kernel, l⟩ := s
  cases e with
  | from_elf elf =>
    obtain ⟨as, φ', h', heq⟩ := wp_map_ok (from_elf_half hl h) hs
    obtain ⟨rfl, _⟩ := Prod.mk.inj heq
    exact h'
  | fork i =>
    obtain ⟨as, c, φ', l₁, l₂, _, hf, rfl, rfl⟩ := new_from_cases hs
    have h' := wp_ok (fork_half h) hf
    simpa using h'
  | drop i =>
    obtain ⟨as, φ', l₁, l₂, hd, rfl, rfl⟩ := drop_space_cases hs
    have hw : wp anyPanic as.drop _ φ := drop_half h
    have h' := wp_ok hw hd
    exact h'
  | insert_kernel_stack tid =>
    obtain ⟨r, kernel', φ', hr, hi, rfl⟩ := on_stack_cases hs
    have h' := wp_ok (insert_stack_half h ht hr) hi
    exact h'
  | remove_kernel_stack tid =>
    obtain ⟨r, kernel', φ', _, hi, rfl⟩ := on_stack_cases hs
    have h' := wp_ok (remove_stack_half h) hi
    exact h'
  | _ => exact ht.elim

theorem find_pte_of_root_eq {m : Mem} {pt pt' : PageTableImpl} {v : Nat}
    (h : read_pte m pt'.root (vpn_index v 18) = read_pte m pt.root (vpn_index v 18)) :
    find_pte cfg m pt' v = find_pte cfg m pt v := by
  rw [find_pte_eq, find_pte_eq, inner, walk, walk, h]

theorem drop_keeps_reachable (h : KernelHalf cfg s) {as : AddressSpace} (has : some as ∈ s.spaces) :
    ∃ φ', as.drop s.phys = .ok ((), φ') ∧ ∀ p, Reachable cfg s.phys.mem s.kernel.page_table p →
      φ'.InRange p ∧ 0 < φ'.ref_count p := by
  obtain ⟨l₁, l₂, hl⟩ := List.append_of_mem has
  have hperm : s.trackers.Perm (as.trackers ++ others s.kernel l₁ l₂) := by
    rw [Os.trackers, hl]
    exact trackers_perm s.phys (some as)
  obtain ⟨_, φ', hd, ha, _⟩ := wp_total (drop_frames_spec h.alloc hperm)
  refine ⟨φ', hd, fun p hp => ?_⟩
  have hmem : p ∈ others s.kernel l₁ l₂ := mem_others_kernel (h.reachable hp)
  refine ⟨ha.range p hmem, ?_⟩
  rw [ha.usage p (ha.range p hmem)]
  exact List.count_pos_iff.mpr hmem

/-- However address spaces are made and dropped and kernel stacks come and go: if every file that is
loaded has its segments in the lower half, all processes look up the kernel's half as the kernel
does, and dropping an address space frees nothing that the kernel's page table reaches. -/
theorem kernel_half_shared (cfg : Config) (sym : Layout) (mem : Mem)
    (kernel : PageTableImpl) (φ : Phys) (es : List Event) (s : Os) (os : List Unit)
    (hboot : boot cfg sym ⟨mem, PhyPageAllocator.new⟩ = .ok (kernel, φ))
    (htables : ∀ e ∈ es, e.Tables) (huser : ∀ e ∈ es, e.LoadsUser)
    (hrun : run (Os.step cfg) (Os.start kernel φ) es = .ok (s, os)) :
    ∀ as, some as ∈ s.spaces →
      (∀ v, 256 ≤ (vpn_index v 18).val →
        find_pte cfg s.phys.mem as.page_table v = find_pte cfg s.phys.mem s.kernel.page_table v) ∧
      ∃ φ', as.drop s.phys = .ok ((), φ') ∧ ∀ p, Reachable cfg s.phys.mem s.kernel.page_table p →
        φ'.InRange p ∧ 0 < φ'.ref_count p := by
  have hmeets : Meets (Os.step cfg) (fun _ e => e.Tables ∧ e.LoadsUser) (Os.start kernel φ) es :=
    meets_of_forall (fun e he _ => ⟨htables e he, huser e he⟩) _
  have h : KernelHalf cfg s := run_invariant_of_meets (KernelHalf cfg)
    (fun s e s' u hs hc hstep => step_half hs hc.1 hc.2 hstep) (start_half hboot) hmeets hrun
  intro as has
  refine ⟨fun v hv => find_pte_of_root_eq ((h.spaces as has).shared _ ?_),
    drop_keeps_reachable h has⟩
  exact Nat.not_lt.mpr hv

theorem kernel_half_shared_stack : ∃ kernel φ s os,
    boot qemu smallLayout ⟨fun _ => 0, PhyPageAllocator.new⟩ = .ok (kernel, φ) ∧
    run (Os.step qemu) (Os.start kernel φ)
    [.from_elf (onePage 0x1000), .insert_kernel_stack 7] = .ok (s, os) ∧
    s.spaces.map Option.isSome = [true] ∧
    ∀ as, some as ∈ s.spaces → (find_pte qemu s.phys.mem as.page_table (2 ^ 52 - 33)).isSome := by
  obtain ⟨kernel, φ, s, os, hboot, hrun, hspaces, hkernel⟩ :=
    small_run_ends [.from_elf (onePage 0x1000), .insert_kernel_stack 7]
      (fun s => s.spaces.map Option.isSome = [true] ∧
        (find_pte qemu s.phys.mem s.kernel.page_table (2 ^ 52 - 33)).isSome) (by decide +kernel)
  have huser : (onePage 0x1000).User := by decide
  have h := kernel_half_shared qemu smallLayout _ kernel φ _ s os hboot
    (by simp [Event.Tables, MAX_TID])
    (by simp [Event.LoadsUser, huser]) hrun
  refine ⟨kernel, φ, s, os, hboot, hrun, hspaces, fun as has => ?_⟩
  rw [(h as has).1 _ (by decide)]
  exact hkernel

/-- A segment above the lower half gets tables of its own, which only its process sees. -/
theorem kernel_half_not_shared : ∃ kernel φ s os as v,
    boot qemu smallLayout ⟨fun _ => 0, PhyPageAllocator.new⟩ = .ok (kernel, φ) ∧
    run (Os.step qemu) (Os.start kernel φ)
    [.from_elf (onePage (2 ^ 38))] = .ok (s, os) ∧ some as ∈ s.spaces ∧
    256 ≤ (vpn_index v 18).val ∧
    find_pte qemu s.phys.mem as.page_table v ≠ find_pte qemu s.phys.mem s.kernel.page_table v := by
  obtain ⟨kernel, φ, s, os, hboot, hrun, hspaces, hkernel⟩ :=
    small_run_ends [.from_elf (onePage (2 ^ 38))]
      (fun s => s.spaces.map
        (fun o => o.map fun as => (find_pte qemu s.phys.mem as.page_table (2 ^ 26)).isSome) =
        [some true] ∧ (find_pte qemu s.phys.mem s.kernel.page_table (2 ^ 26)).isNone)
          (by decide +kernel)
  obtain ⟨o, l, hl, ho, _⟩ := List.map_eq_cons_iff.mp hspaces
  obtain ⟨as, rfl, hsome⟩ := Option.map_eq_some_iff.mp ho
  refine ⟨kernel, φ, s, os, as, 2 ^ 26, hboot, hrun, by simp [hl], by decide, fun heq => ?_⟩
  rw [heq, Option.isNone_iff_eq_none.mp hkernel] at hsome
  simp at hsome

end Run

end HectoOs.Mm
