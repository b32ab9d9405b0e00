import HectoOs.Mm.Filling
import HectoOs.Mm.Fork

/-! # Areas come and go

Loading a segment, `mmap`, `brk` and `munmap` give an address space new frames and take frames from
it. `Exchanges` is what the others see of that: nothing.
-/

open HectoOs.Lib

namespace HectoOs.Mm

open PageTableImpl

variable {cfg : Config} {mine : Fin 512 → Prop} {may : Panic → Prop} {rest : List Nat}
  {φ φ₁ φ' φ'' : Phys}
  {pt pt' pt'' : PageTableImpl} {F F' F'' : List Nat}

/-- A page table and the frames `F` of its areas become `pt'` and `F'`. What is new among them was
free, and the trackers `rest` of the others keep their frames. -/
structure Exchanges (cfg : Config) (mine : Fin 512 → Prop) (rest : List Nat)
    (φ : Phys) (pt : PageTableImpl) (F : List Nat) (φ' : Phys) (pt' : PageTableImpl)
    (F' : List Nat) : Prop where
  owns : Owns cfg mine φ' pt' (F' ++ rest)
  root : SameRoot mine φ pt φ' pt'
  same : ∀ q ∈ rest, SameFrame φ.mem φ'.mem q
  tables : ∀ t ∈ pt.tables, t ∈ pt'.tables
  frames : ∀ q ∈ F', q ∈ F ∨ q ∉ pt.tables ++ (F ++ rest)

namespace Exchanges

theorem refl (h : Owns cfg mine φ pt (F ++ rest)) : Exchanges cfg mine rest φ pt F φ pt F :=
  ⟨h, SameRoot.refl φ pt, fun _ _ => SameFrame.refl _ _, fun _ ht => ht, fun _ hq => .inl hq⟩

theorem trans (h : Exchanges cfg mine rest φ pt F φ' pt' F')
    (h' : Exchanges cfg mine rest φ' pt' F' φ'' pt'' F'') :
    Exchanges cfg mine rest φ pt F φ'' pt'' F'' := by
  refine ⟨h'.owns, h.root.trans h'.root, fun q hq => (h.same q hq).trans (h'.same q hq),
    fun t ht => h'.tables t (h.tables t ht), fun q hq => ?_⟩
  rcases h'.frames q hq with hF' | hfresh
  · exact h.frames q hF'
  · by_cases hF : q ∈ F
    · exact .inl hF
    · refine .inr fun hmem => hfresh ?_
      simp only [List.mem_append] at hmem ⊢
      rcases hmem with ht | hm | hr
      · exact .inl (h.tables q ht)
      · exact absurd hm hF
      · exact .inr (.inr hr)

theorem perm {G G' : List Nat} (h : Exchanges cfg mine rest φ pt F φ' pt' F')
    (hF : G.Perm F) (hF' : G'.Perm F') :
    Exchanges cfg mine rest φ pt G φ' pt' G' := by
  refine ⟨h.owns.perm (hF'.append_right rest), h.root, h.same, h.tables, fun q hq => ?_⟩
  have := h.frames q (hF'.mem_iff.mp hq)
  simp only [List.mem_append, hF.mem_iff] at this ⊢
  exact this

theorem of_moves (h : Moves cfg mine (F ++ rest) φ pt φ' pt') :
    Exchanges cfg mine rest φ pt F φ' pt' F :=
  ⟨h.owns, h.root, fun q hq => h.same q (List.mem_append_right _ hq), h.tables, fun _ hq => .inl hq⟩

theorem of_filled {area area' : MapArea} {new : List (Nat × Nat)}
    (h : Filled cfg mine (F ++ rest) φ pt area φ' pt' area' new) :
    Exchanges cfg mine rest φ pt (area.frames ++ F) φ' pt' (area'.frames ++ F) := by
  refine ⟨?_, h.root, fun q hq => h.same q (by simp [hq]), h.tables, fun q hq => ?_⟩
  · rw [List.append_assoc]
    exact h.owns
  · rw [List.append_assoc]
    rcases List.mem_append.mp hq with hq | hq
    · rcases h.mem_frames.mp hq with hn | ha
      · obtain ⟨x, hx, rfl⟩ := List.mem_map.mp hn
        exact .inr (h.fresh x hx)
      · exact .inl (List.mem_append_left _ ha)
    · exact .inl (List.mem_append_right _ hq)

end Exchanges

theorem Exchanges.ref_count (ho : Owns cfg mine φ pt (F ++ rest))
    (h : Exchanges cfg mine rest φ pt F φ' pt' F) {p : Nat} (hp : p ∈ pt.tables ++ (F ++ rest)) :
    φ'.ref_count p = φ.ref_count p := by
  have hcount : (pt'.tables ++ (F ++ rest)).count p = (pt.tables ++ (F ++ rest)).count p := by
    by_cases ht : p ∈ pt.tables
    · rw [ho.once p ht, h.owns.once p (h.tables p ht)]
    · have hothers : p ∈ F ++ rest := (List.mem_append.mp hp).resolve_left ht
      have hnew : p ∉ pt'.tables := fun ht' => h.owns.notMem ht' hothers
      simp only [List.count_append, List.count_eq_zero.mpr ht, List.count_eq_zero.mpr hnew]
  have hrange := ho.alloc.range p hp
  rw [ho.alloc.usage p hrange, h.owns.alloc.usage p ((h.root.range.inRange p).mpr hrange), hcount]

theorem release_spec {dropped : List Nat} (h : Owns cfg mine φ pt (F ++ rest))
    (hp : F.Perm (dropped ++ F')) :
    wp may (drop_frames dropped) (fun _ φ' => Exchanges cfg mine rest φ pt F φ' pt F' ∧
      ∀ q ∈ pt.tables ++ (F' ++ rest), SameFrame φ.mem φ'.mem q) φ := by
  have hperm : (F ++ rest).Perm (dropped ++ (F' ++ rest)) := by
    rw [← List.append_assoc]
    exact hp.append_right rest
  refine wp_mono (h.drop_frames hperm) ?_
  rintro _ φ' ⟨ho, hs, hr⟩
  refine ⟨⟨ho, SameRoot.of_same (hs _ ?_) hr, fun q hq => hs q ?_, fun _ ht => ht,
    fun q hq => .inl ?_⟩, hs⟩
  · exact List.mem_append_left _ List.mem_cons_self
  · simp [hq]
  · exact hp.mem_iff.mpr (List.mem_append_right _ hq)

/-! ## Inserting -/

theorem frames_insert (k : VARange) (area : MapArea) (as : AddressSpace) :
    (area.frames ++ as.frames).Perm
      ((SearchTree.insert VARange.cmp k area as.tree).2.toList.flatMap MapArea.frames ++
        (SearchTree.insert VARange.cmp k area as.tree).1.flatMap (·.2.frames)) := by
  rw [List.perm_iff_count, AddressSpace.frames, ← as.inorder_tree]
  intro q
  rcases SearchTree.insert_spec VARange.cmp k area
    as.tree with ⟨l₁, l₂, hl, hi⟩ | ⟨l₁, k', v', l₂, hl, hi, _⟩
  all_goals
    rw [hi, hl]
    simp only [List.flatMap_append, List.flatMap_cons, List.flatMap_nil,
      Option.toList, List.count_append, List.count_nil]
    omega

theorem insert_area_spec {as : AddressSpace} {k : VARange} {area : MapArea}
    (h : Owns cfg mine φ as.page_table (area.frames ++ as.frames ++ rest)) :
    wp may (AddressSpace.insert_area cfg as k area) (fun as' φ' =>
      (∃ shape, as' = { as with
        areas := (SearchTree.insert VARange.cmp k area as.tree).1, shape }) ∧
      Exchanges cfg mine rest φ as.page_table
        (area.frames ++ as.frames) φ' as.page_table as'.frames ∧
      ∀ q ∈ as.page_table.tables ++ (as'.frames ++ rest), SameFrame φ.mem φ'.mem q) φ := by
  rw [AddressSpace.insert_area, wp_bind]
  refine wp_mono (release_spec h (frames_insert k area as)) ?_
  rintro _ φ' ⟨hx, hs⟩
  exact ⟨⟨_, rfl⟩, hx, hs⟩

/-- An area got the pages of `new` in `φ₁` and was inserted under the key `k`. -/
structure Inserted (cfg : Config) (mine : Fin 512 → Prop) (rest : List Nat)
    (φ : Phys) (as : AddressSpace) (k : VARange) (area : MapArea) (φ₁ : Phys)
    (area' : MapArea) (new : List (Nat × Nat)) (φ' : Phys) (as' : AddressSpace) : Prop where
  filled : Filled cfg mine (as.frames ++ rest) φ as.page_table area φ₁ as'.page_table area' new
  areas : as'.areas = (SearchTree.insert VARange.cmp k area' as.tree).1
  exchanges : Exchanges cfg mine rest φ as.page_table
    (area.frames ++ as.frames) φ' as'.page_table as'.frames
  same : ∀ q ∈ as'.page_table.tables ++ (as'.frames ++ rest), SameFrame φ₁.mem φ'.mem q

namespace Inserted

variable {as as' : AddressSpace} {k : VARange} {area area' : MapArea} {new : List (Nat × Nat)}

theorem maps (h : Inserted cfg mine rest φ as k area φ₁ area' new φ' as') :
    Maps cfg mine φ.mem as.page_table φ'.mem as'.page_table
      (new.map fun x => (x.1, .new x.2 (area.map_perm ||| .VALID))) := by
  have hs : SameMap cfg mine φ₁.mem as'.page_table φ'.mem as'.page_table :=
    h.filled.owns.sameMap fun t ht => h.same t (List.mem_append_left _ ht)
  refine ⟨fun w e hw => ?_, h.filled.maps.unmapped, h.filled.maps.distinct⟩
  rw [hs w hw]
  exact h.filled.maps.found w e hw

theorem same_new (h : Inserted cfg mine rest φ as k area φ₁ area' new φ' as')
    {x : Nat × Nat} (hx : x ∈ new) :
    SameFrame φ₁.mem φ'.mem x.2 := by
  have hframe : x.2 ∈ area'.frames := h.filled.mem_frames.mpr (.inl (List.mem_map_of_mem hx))
  refine h.same _ (List.mem_append_right _ (List.mem_append_left _ ?_))
  rw [AddressSpace.frames, h.areas]
  obtain ⟨k', hmem⟩ := SearchTree.insert_mem VARange.cmp k area' as.tree
  exact List.mem_flatMap.mpr ⟨_, hmem, hframe⟩

end Inserted

theorem mem_pages_insert {k : VARange} {area : MapArea} {as : AddressSpace} {x : Page}
    (h : x ∈ (SearchTree.insert VARange.cmp k area as.tree).1.flatMap (·.2.pages)) :
    x ∈ area.pages ∨ x ∈ as.pages := by
  rw [AddressSpace.pages, ← as.inorder_tree]
  rcases SearchTree.insert_spec VARange.cmp k area
    as.tree with ⟨l₁, l₂, hl, hi⟩ | ⟨l₁, k', v', l₂, hl, hi, _⟩
  all_goals
    rw [hi] at h
    rw [hl]
    simp only [List.flatMap_append, List.flatMap_cons, List.mem_append] at h ⊢
    tauto

theorem Inserted.mem_pages {as as' : AddressSpace} {k : VARange} {area area' : MapArea}
    {new : List (Nat × Nat)} (h : Inserted cfg mine rest φ as k area φ₁ area' new φ' as')
    {x : Page} (hx : x ∈ as'.pages) :
    (∃ y ∈ new, x = Page.of area.map_perm y) ∨ x ∈ area.pages ∨ x ∈ as.pages := by
  rw [AddressSpace.pages, h.areas] at hx
  rcases mem_pages_insert hx with hx | hx
  · obtain ⟨y, hy, rfl⟩ := List.mem_map.mp hx
    rw [h.filled.map_perm]
    rcases List.mem_append.mp (h.filled.frames.mem_iff.mp hy) with hy | hy
    · exact .inl ⟨y, hy, rfl⟩
    · exact .inr (.inl (List.mem_map_of_mem hy))
  · exact .inr (.inr hx)

theorem insert_filled {as : AddressSpace}
    {k : VARange} {area area' : MapArea} {new : List (Nat × Nat)}
    (hf : Filled cfg mine (as.frames ++ rest) φ as.page_table area φ₁ pt' area' new) (stop : Nat) :
    wp may (AddressSpace.insert_area cfg { as with
      page_table := pt', data_segment_end := stop } k area') (fun as' φ' =>
      as' = ⟨as'.page_table, as'.areas, as'.shape, stop, as.data_segment_max⟩ ∧
      Inserted cfg mine rest φ as k area φ₁ area' new φ' as') φ₁ := by
  have hx := Exchanges.of_filled hf
  generalize hnow : { as with page_table := pt', data_segment_end := stop } = now
  have ho : Owns cfg mine φ₁ now.page_table (area'.frames ++ now.frames ++ rest) := by
    rw [← hnow]
    exact hx.owns
  refine wp_mono (insert_area_spec ho) ?_
  subst hnow
  rintro as' φ' ⟨⟨shape, rfl⟩, hx', hs⟩
  exact ⟨rfl, hf, rfl, hx.trans hx', hs⟩

theorem mapped_empty {area : MapArea} {m : Mem} (h : area.data_frames = []) :
    Mapped cfg mine m pt area := by
  intro x hx
  rw [h] at hx
  simp at hx

theorem map_and_insert_spec {as : AddressSpace} {r : VARange} {map_type : MapType} {perm : PTEImpl}
    (hm : may .out_of_frames) (htype : map_type = .Framed ∨ map_type = .KernelStack)
    (ho : Owns cfg mine φ as.page_table (as.frames ++ rest)) (hown : ∀ v ∈ r.pages, Own mine v)
    (hfree : may .assert ∨ ceil_checks r.stop = true ∧ Unmapped cfg φ.mem as.page_table r.pages) :
    wp may (AddressSpace.map_and_insert cfg as r ⟨[], map_type, perm⟩ none) (fun as' φ' =>
      as' = ⟨as'.page_table, as'.areas, as'.shape, as.data_segment_end, as.data_segment_max⟩ ∧
      ∃ φ₁ area' new, new.map (·.1) = r.pages ∧
        Inserted cfg mine rest φ as r ⟨[], map_type, perm⟩ φ₁ area' new φ' as') φ := by
  rw [AddressSpace.map_and_insert, wp_bind]
  have hloop : ∀ l, l = r.pages →
      wp may (l.foldlM (map_frame cfg false) (as.page_table, (⟨[], map_type, perm⟩ : MapArea)))
        (fun s φ₁ => ∃ new, new.map (·.1) = l ∧
          Filled cfg mine (as.frames ++ rest) φ as.page_table
            ⟨[], map_type, perm⟩ φ₁ s.1 s.2 new) φ := by
    rintro l rfl
    refine map_frames_spec false hm ?_ hown (mapped_empty rfl) (hfree.imp_right fun h => h.2)
    simpa [MapArea.frames] using ho
  have hmap : wp may (as.page_table.map cfg r ⟨[], map_type, perm⟩ none) (fun s φ₁ => ∃ new,
      new.map (·.1) = r.pages ∧
      Filled cfg mine (as.frames ++ rest) φ as.page_table
        ⟨[], map_type, perm⟩ φ₁ s.1 s.2 new) φ := by
    rw [PageTableImpl.map, wp_bind, wp_unwrap]
    refine ⟨fun l hl => ?_, fun hno => hfree.elim id fun h => absurd hno (vpn_range_ne_none h.1)⟩
    have hl : l = r.pages := vpn_range_eq hl
    subst hl
    rcases htype with rfl | rfl
    · exact hloop _ rfl
    · exact hloop _ rfl
  refine wp_mono hmap ?_
  rintro ⟨pt', area'⟩ φ₁ ⟨new, hnew, hf⟩
  refine wp_mono (insert_filled hf as.data_segment_end) ?_
  rintro as' φ' ⟨has, hi⟩
  exact ⟨has, φ₁, area', new, hnew, hi⟩

/-- The pages of a segment. -/
def ProgramHeader.pages (ph : ProgramHeader) : List Nat :=
  if ph.load then vpns (floor ph.va_range.start) (ceil ph.va_range.stop) else []

/-- The segment has its data in the file, and its addresses can be computed. -/
structure ProgramHeader.Loadable (file : List Byte) (ph : ProgramHeader) : Prop where
  size : ph.file_size ≤ ph.mem_size
  inside : ph.offset + ph.file_size ≤ file.length
  stop : ph.virtual_addr + ph.mem_size < USIZE
  checks : ceil_checks ph.va_range.stop = true

/-- The frame `x.2` of the page `x.1` has the bytes of the segment: those of the file, then
zeros. -/
def ProgramHeader.InFrame (file : List Byte) (ph : ProgramHeader) (m : Mem)
    (x : Nat × Nat) : Prop :=
  ∀ k, k < ph.mem_size → floor (ph.virtual_addr + k) = x.1 →
    m (frame_va x.2 + page_offset (ph.virtual_addr + k)) =
      if k < ph.file_size then file.getD (ph.offset + k) 0 else 0

theorem ProgramHeader.InFrame.same {file : List Byte} {ph : ProgramHeader}
    {m m' : Mem} {x : Nat × Nat} (h : ph.InFrame file m x) (hs : SameFrame m m' x.2) :
    ph.InFrame file m' x := fun k hk hv => by
  have hoff : page_offset (ph.virtual_addr + k) < 4096 := Nat.mod_lt _ (by decide)
  rw [hs _ (Nat.le_add_right _ _) (Nat.add_lt_add_left hoff _)]
  exact h k hk hv

/-- Where `load_page` starts in the page `v`, in the page and in the file. -/
structure AddressSpace.Loading.At (ph : ProgramHeader) (v : Nat)
    (s : AddressSpace.Loading) : Prop where
  start : s.start = ph.virtual_addr - vpn_va v
  pos : s.pos = ph.offset + (min (vpn_va v) (ph.virtual_addr + ph.file_size) - ph.virtual_addr)

section Segment

variable {file : List Byte} {ph : ProgramHeader} {s s' : AddressSpace.Loading} {v p : Nat} {m : Mem}

theorem AddressSpace.Loading.At.next (h : s.At ph v) (hfirst : floor ph.virtual_addr ≤ v)
    (hw : AddressSpace.PageWritten file ph s v p m s') : s'.At ph (v + 1) := by
  have hstart := h.start
  have hpos := h.pos
  have hpos' := hw.pos
  rw [data_end_min] at hpos'
  simp only [vpn_va, floor, PAGE_SIZE] at *
  refine ⟨?_, ?_⟩
  · rw [hw.start]
    simp only [vpn_va, PAGE_SIZE]
    omega
  · rw [hpos']
    simp only [vpn_va, PAGE_SIZE]
    omega

theorem AddressSpace.PageWritten.inFrame (hw : AddressSpace.PageWritten file ph s v p m s')
    (h : s.At ph v) :
    ph.InFrame file m (v, p) := by
  intro k hk hv
  have hstart := h.start
  have hpos := h.pos
  have hdata := hw.data (page_offset (ph.virtual_addr + k))
  have hzero := hw.zero (page_offset (ph.virtual_addr + k))
  have hstop : ph.va_range.stop = ph.virtual_addr + ph.mem_size := rfl
  have hceil : v < ceil ph.va_range.stop := by
    rw [hstop, ceil]
    rw [floor] at hv
    simp only [PAGE_SIZE] at *
    omega
  rw [data_end_min] at hdata
  rw [data_end_min, bss_end_min hceil, hstop] at hzero
  dsimp only at hv ⊢
  simp only [vpn_va, floor, page_offset, PAGE_SIZE] at *
  split
  · rw [hdata (by omega) (by omega)]
    congr 1
    omega
  · exact hzero (by omega) (by omega)

theorem ProgramHeader.Loadable.page_checks (hl : ph.Loadable file) (h : s.At ph v)
    (hv : v ∈ vpns (floor ph.virtual_addr) (ceil ph.va_range.stop)) :
    AddressSpace.page_checks file ph s v := by
  obtain ⟨hfirst, hlast⟩ := mem_vpns.mp hv
  have hsize := hl.size
  have hinside := hl.inside
  have hstart := h.start
  have hpos := h.pos
  have hstop : ph.va_range.stop = ph.virtual_addr + ph.mem_size := rfl
  rw [AddressSpace.page_checks, data_end_min, bss_end_min hlast, hstop]
  simp only [vpn_va, floor, PAGE_SIZE] at *
  refine ⟨by omega, ?_, by omega⟩
  unfold read_exact
  split
  · rfl
  · rw [if_pos (by omega)]
    rfl

end Segment

theorem load_segment_spec (file : List Byte) {as : AddressSpace}
    {ph : ProgramHeader} (hm : may .out_of_frames) (hload : ph.load = true)
    (ho : Owns cfg mine φ as.page_table (as.frames ++ rest)) (hown : ∀ v ∈ ph.pages, Own mine v)
    (hfree : may .assert ∨ ph.Loadable file ∧ Unmapped cfg φ.mem as.page_table ph.pages) :
    wp may (AddressSpace.load_segment cfg file as ph) (fun as' φ' =>
      as' = ⟨as'.page_table, as'.areas, as'.shape, ph.va_range.stop, as.data_segment_max⟩ ∧
      ∃ φ₁ area' new, new.map (·.1) = ph.pages ∧ (∀ x ∈ new, ph.InFrame file φ'.mem x) ∧
        Inserted cfg mine rest φ as ph.va_range
          ⟨[], .Framed, ph.map_perm⟩ φ₁ area' new φ' as') φ := by
  rw [ProgramHeader.pages, if_pos hload] at hown hfree ⊢
  rw [AddressSpace.load_segment, if_pos hload]
  have hcheck : ∀ {P : Prop}, (ph.Loadable file → P) → may .assert ∨ P :=
    fun hP => hfree.imp_right fun hc => hP hc.1
  simp only [wp_bind, wp_assert, wp_unwrap]
  refine ⟨fun _ => ⟨fun _ => ⟨fun l hl => ?_, fun hno => ?_⟩, fun hno => ?_⟩, fun hno => ?_⟩
  rotate_left
  · exact (hcheck fun hc => absurd hno (vpn_range_ne_none hc.checks)).elim id False.elim
  · refine (hcheck fun hc => of_decide_eq_false hno ?_).elim id False.elim
    have := hc.stop
    have := hc.size
    omega
  · exact (hcheck fun hc => absurd hc.stop (of_decide_eq_false hno)).elim id False.elim
  obtain rfl := vpn_range_eq hl
  generalize hstart :
    (⟨as.page_table, ⟨[], .Framed, ph.map_perm⟩, ph.offset, page_offset ph.virtual_addr⟩ :
    AddressSpace.Loading) = start
  have hpt : start.page_table = as.page_table := by rw [← hstart]
  have harea : start.area = ⟨[], .Framed, ph.map_perm⟩ := by rw [← hstart]
  have hat : start.At ph (floor ph.virtual_addr) := by
    rw [← hstart]
    constructor <;> simp only [vpn_va, floor, page_offset, PAGE_SIZE] <;> omega
  have ho' : Owns cfg mine φ start.page_table (start.area.frames ++ (as.frames ++ rest)) := by
    rw [hpt, harea]
    exact ho
  have hfree' : may .assert ∨ Unmapped cfg φ.mem start.page_table
      (vpns (floor ph.va_range.start) (ceil ph.va_range.stop)) := hfree.imp_right fun h => by
    rw [hpt]
    exact h.2
  refine wp_mono (fill_loop_spec (fun s : AddressSpace.Loading => (s.page_table, s.area))
    (fun new s φ => s.At ph (floor ph.virtual_addr + new.length) ∧
      ∀ x ∈ new, ph.InFrame file φ.mem x) ho' hown hfree'
    ⟨hat, by simp⟩ ?_) ?_
  · rintro done v later new s₁ φ₁ hl hnew ⟨hat₁, hshown⟩ hf hnone
    have hv : v = floor ph.virtual_addr + new.length := by
      rw [vpns_at hl, ← hnew, List.length_map]
      rfl
    have hmem : v ∈ vpns (floor ph.virtual_addr) (ceil ph.va_range.stop) := by
      have : v ∈ vpns (floor ph.va_range.start) (ceil ph.va_range.stop) := by simp [hl]
      exact this
    rw [← hv] at hat₁
    have hmapped := hf.mapped (mapped_empty (by rw [harea]))
    refine wp_mono (load_page_spec file hm hf.owns (hf.map_perm.trans (by rw [harea]))
      (hown v hmem) hmapped ?_) ?_
    · rcases hfree with h | h
      · exact .inl h
      · exact hnone.imp_right fun hn => ⟨hn, h.1.page_checks hat₁ hmem⟩
    rintro s' φ' ⟨p, hw, hf'⟩
    refine ⟨p, ⟨?_, fun x hx => ?_⟩, hf'⟩
    · rw [List.length_append, List.length_singleton, ← Nat.add_assoc, ← hv]
      exact hat₁.next (mem_vpns.mp hmem).1 hw
    · rcases List.mem_append.mp hx with hx | hx
      · have hframe : x.2 ∈ s₁.area.frames := hf.mem_frames.mpr (.inl (List.mem_map_of_mem hx))
        exact (hshown x hx).same (hf'.same _ (List.mem_append_left _ hframe))
      · obtain rfl := List.mem_singleton.mp hx
        exact hw.inFrame hat₁
  dsimp only
  rw [hpt, harea]
  rintro s φ₁ ⟨new, hnew, ⟨_, hshown⟩, hf⟩
  refine wp_mono (insert_filled hf ph.va_range.stop) ?_
  rintro as' φ' ⟨has, hi⟩
  exact ⟨has, φ₁, s.area, new, hnew, fun x hx => (hshown x hx).same (hi.same_new hx), hi⟩

/-! ## Removing -/

/-- The pages of a list can be unmapped one after the other. -/
structure AllMapped (cfg : Config) (m : Mem) (pt : PageTableImpl) (l : List Nat) : Prop where
  found : ∀ v ∈ l, (lookup cfg m pt v).isSome
  distinct : l.Pairwise fun v w => key v ≠ key w

theorem unmap_loop_spec {others l : List Nat} (ho : Owns cfg mine φ pt others)
    (hown : ∀ v ∈ l, Own mine v) (hfound : may .assert ∨ AllMapped cfg φ.mem pt l) : wp may
    (l.foldlM (fun _ v => unmap_one cfg pt v) ()) (fun _ φ' => Moves cfg mine others φ pt φ' pt ∧
      ∀ w, Own mine w → lookup cfg φ'.mem pt w =
        if key w ∈ l.map key then none else lookup cfg φ.mem pt w) φ := by
  refine wp_foldlM (fun done _ φ' => Moves cfg mine others φ pt φ' pt ∧ ∀ w, Own mine w →
    lookup cfg φ'.mem pt w = if key w ∈ done.map key then none else lookup cfg φ.mem pt w) ?_ ?_
  · exact ⟨Moves.refl ho, by simp⟩
  · rintro done v later _ φ₁ rfl ⟨hm, hl⟩
    have hv : may .assert ∨ (lookup cfg φ₁.mem pt v).isSome := hfound.imp_right fun hf => by
      rw [hl v (hown v (by simp)), if_neg]
      · exact hf.found v (by simp)
      · rintro hk
        obtain ⟨w, hw, hwv⟩ := List.mem_map.mp hk
        exact (List.pairwise_append.mp hf.distinct).2.2 w hw v List.mem_cons_self hwv
    refine wp_mono (hm.owns.unmap_one (hown v (by simp)) hv) ?_
    rintro _ φ₂ ⟨_, hm', hu⟩
    refine ⟨hm.trans hm', fun w hw => ?_⟩
    rw [hu w hw, hl w hw]
    by_cases hk : key w = key v
    · rw [if_pos hk, if_pos (by simp [hk])]
    · have hiff : key w ∈ (done ++ [v]).map key ↔ key w ∈ done.map key := by simp [hk]
      rw [if_neg hk]
      exact if_congr hiff.symm rfl rfl

/-- What `remove_area` leaves: the entry is gone, and the pages of its key are unmapped. -/
structure Removed (cfg : Config) (mine : Fin 512 → Prop) (rest : List Nat)
    (φ : Phys) (as : AddressSpace) (va : Nat) (φ' : Phys) (as' : AddressSpace)
    (entry : VARange × MapArea) : Prop where
  found : ∃ areas shape, SearchTree.remove VARange.cmp ⟨va, va⟩ as.tree = some (entry, areas) ∧
    as' = { as with areas, shape }
  exchanges : Exchanges cfg mine rest φ as.page_table as.frames φ' as'.page_table as'.frames
  unmaps : ∀ w, Own mine w → lookup cfg φ'.mem as'.page_table w =
    if key w ∈ (vpns (floor entry.1.start) (ceil entry.1.stop)).map key then none
    else lookup cfg φ.mem as.page_table w

theorem remove_area_spec {as : AddressSpace} {va : Nat}
    (ho : Owns cfg mine φ as.page_table (as.frames ++ rest))
    (hown : ∀ entry areas, SearchTree.remove VARange.cmp ⟨va, va⟩ as.tree = some (entry, areas) →
      ∀ v ∈ entry.1.pages, Own mine v)
    (hfound : may .assert ∨ ∃ entry areas, SearchTree.remove VARange.cmp ⟨va, va⟩ as.tree =
      some (entry, areas) ∧
      ceil_checks entry.1.stop = true ∧ AllMapped cfg φ.mem as.page_table entry.1.pages) :
    wp may (AddressSpace.remove_area cfg as va) (fun as' φ' => ∃ entry,
      Removed cfg mine rest φ as va φ' as' entry) φ := by
  rw [AddressSpace.remove_area]
  simp only [wp_bind, wp_unwrap]
  refine ⟨?_, fun hno => ?_⟩
  rotate_left
  · rcases hfound with h | ⟨entry, areas, h, _⟩
    · exact h
    · rw [h] at hno
      simp at hno
  rintro ⟨entry, areas⟩ hrem
  have hentry : may .assert ∨ ceil_checks entry.1.stop = true ∧
    AllMapped cfg φ.mem as.page_table entry.1.pages := by
    refine hfound.imp_right ?_
    rintro ⟨entry', areas', h, hchecks, hmapped⟩
    rw [hrem] at h
    obtain ⟨rfl, -⟩ := Prod.mk.inj (Option.some.inj h)
    exact ⟨hchecks, hmapped⟩
  refine ⟨fun l hl => ?_, fun hno => hentry.elim id fun h => absurd hno (vpn_range_ne_none h.1)⟩
  obtain rfl := vpn_range_eq hl
  obtain ⟨l₁, l₂, hareas, rfl, _⟩ := AddressSpace.remove_spec hrem
  refine wp_mono (unmap_loop_spec ho (hown entry _ hrem) (hentry.imp_right fun h => h.2)) ?_
  rintro _ φ₁ ⟨hm, hu⟩
  have hperm : as.frames.Perm (entry.2.frames ++ (l₁ ++ l₂).flatMap (·.2.frames)) := by
    rw [AddressSpace.frames, hareas, List.perm_iff_count]
    intro q
    simp only [List.flatMap_append, List.flatMap_cons, List.count_append]
    omega
  have hx := Exchanges.of_moves hm
  rw [wp_bind]
  refine wp_mono (release_spec hx.owns hperm) ?_
  rintro _ φ' ⟨hx', hs⟩
  refine ⟨entry, ⟨l₁ ++ l₂, _, hrem, rfl⟩, hx.trans hx', fun w hw => ?_⟩
  rw [← hu w hw]
  exact hx.owns.sameMap (fun t ht => hs t (List.mem_append_left _ ht)) w hw

end HectoOs.Mm
