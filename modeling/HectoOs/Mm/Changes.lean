import HectoOs.Mm.Areas
import HectoOs.Mm.Os

/-! # What an operation does to its address space

`Changes` says that the page table and the trackers still agree, and that no frame got more trackers
than before; `Writes` says which entries are new.
-/

open HectoOs.Lib

namespace HectoOs.Mm

open PageTableImpl

variable {cfg : Config} {rest : List Nat} {φ φ₁ φ' : Phys} {old as as' : AddressSpace}

structure Changes (cfg : Config) (rest : List Nat) (φ : Phys) (as : AddressSpace)
    (φ' : Phys) (as' : AddressSpace) :
    Prop where
  exchanges : Exchanges cfg userHalf rest φ as.page_table as.frames φ' as'.page_table as'.frames
  tracks : Tracks cfg φ'.mem as'.page_table as'.pages
  count : ∀ q, (as'.trackers ++ rest).count q ≤ max 1 ((as.trackers ++ rest).count q)

/-- An entry that is not as before is no device's, and if it is writable its frame has one
tracker. -/
def Writes (cfg : Config) (rest : List Nat) (φ : Phys) (as : AddressSpace)
    (φ' : Phys) (as' : AddressSpace) : Prop :=
  ∀ v e, v < 2 ^ 26 → lookup cfg φ'.mem as'.page_table v = some e →
    lookup cfg φ.mem as.page_table v = some e ∨
      v ∉ cfg.device_pages ∧ (e.getLsbD 2 = true → (as'.trackers ++ rest).count (e.ppn cfg) ≤ 1)

theorem count_le (hx : Exchanges cfg userHalf rest φ as.page_table as.frames
    φ' as'.page_table as'.frames) (hF : ∀ q, as'.frames.count q ≤ as.frames.count q ∨
    as'.frames.count q ≤ 1 ∧ q ∉ as.frames ++ rest) (q : Nat) :
    (as'.trackers ++ rest).count q ≤ max 1 ((as.trackers ++ rest).count q) := by
  by_cases ht : q ∈ as'.page_table.tables
  · rw [hx.owns.count_tables ht]
    omega
  · simp only [AddressSpace.trackers, List.count_append, List.count_eq_zero.mpr ht]
    rcases hF q with hle | ⟨hle, hfresh⟩
    · omega
    · have : rest.count q = 0 := List.count_eq_zero.mpr fun h => hfresh (List.mem_append_right _ h)
      omega

theorem count_le_one {q : Nat} (hle : as'.frames.count q ≤ 1) (hfresh : q ∉ rest)
    (ht : q ∉ as'.page_table.tables) :
    (as'.trackers ++ rest).count q ≤ 1 := by
  simp only [AddressSpace.trackers, List.count_append, List.count_eq_zero.mpr ht,
    List.count_eq_zero.mpr hfresh]
  omega

/-! ## New areas -/

section Insert

variable {k : VARange} {area area' : MapArea} {new : List (Nat × Nat)}

theorem Inserted.pages (h : Inserted cfg userHalf rest φ as k area φ₁ area' new φ' as')
    (hkey : ∀ a ∈ as.areas, k.cmp a.1 ≠ .eq) :
    as'.pages.Perm (new.map (Page.of area.map_perm) ++ (area.pages ++ as.pages)) := by
  have harea : area'.pages.Perm (new.map (Page.of area.map_perm) ++ area.pages) := by
    rw [MapArea.pages, MapArea.pages, h.filled.map_perm, ← List.map_append]
    exact h.filled.frames.map _
  rw [AddressSpace.pages, h.areas, ← List.append_assoc]
  exact ((AddressSpace.insert_perm area' hkey).flatMap_right _).trans (harea.append_right _)

theorem Inserted.changes (h : Inserted cfg userHalf rest φ as k area φ₁ area' new φ' as')
    (hpt : old.page_table = as.page_table) (hold : old.pages.Perm (area.pages ++ as.pages))
    (htr : Tracks cfg φ.mem old.page_table old.pages)
    (hkey : ∀ a ∈ as.areas, k.cmp a.1 ≠ .eq) (hlow : ∀ x ∈ new, x.1 < 2 ^ 26) :
    Changes cfg rest φ old φ' as' ∧ Writes cfg rest φ old φ' as' := by
  have hpages : as'.pages.Perm (new.map (Page.of area.map_perm) ++ old.pages) :=
    (h.pages hkey).trans (hold.symm.append_left _)
  have hframes : as'.frames.Perm (new.map (·.2) ++ old.frames) := by
    rw [AddressSpace.frames_eq, AddressSpace.frames_eq]
    have := hpages.map Page.ppn
    simpa [Page.of, Function.comp_def] using this
  have hmine : (area.frames ++ as.frames).Perm old.frames := by
    rw [AddressSpace.frames_eq, AddressSpace.frames_eq, MapArea.frames_eq, ← List.map_append]
    exact (hold.map Page.ppn).symm
  have hx : Exchanges cfg userHalf rest φ old.page_table old.frames φ'
    as'.page_table as'.frames := by
    rw [hpt]
    exact h.exchanges.perm hmine.symm (List.Perm.refl _)
  have hfresh : ∀ x ∈ new, x.2 ∉ old.page_table.tables ++ (old.frames ++ rest) := by
    intro x hx hmem
    refine h.filled.fresh x hx ?_
    rw [hpt] at hmem
    simp only [List.mem_append, ← hmine.mem_iff] at hmem ⊢
    tauto
  have hcount : ∀ q, as'.frames.count q ≤ old.frames.count q ∨ as'.frames.count q ≤ 1 ∧
    q ∉ old.frames ++ rest := by
    intro q
    rw [hframes.count_eq, List.count_append]
    by_cases hq : q ∈ new.map (·.2)
    · obtain ⟨x, hx, rfl⟩ := List.mem_map.mp hq
      have hnot := hfresh x hx
      have h0 : old.frames.count x.2 = 0 := List.count_eq_zero.mpr fun hm => hnot (by simp [hm])
      have h1 := List.count_eq_one_of_mem h.filled.nodup hq
      exact .inr ⟨by omega, fun hm => hnot (List.mem_append_right _ hm)⟩
    · rw [List.count_eq_zero.mpr hq]
      exact .inl (by omega)
  have hlow' : ∀ x ∈ new.map (Page.of area.map_perm), x.vpn < 2 ^ 26 := by
    intro x hx
    obtain ⟨y, hy, rfl⟩ := List.mem_map.mp hx
    exact hlow y hy
  have hppn : ∀ x ∈ new, x.2 < 2 ^ 38 := by
    intro x hx
    have hmem : x.2 ∈ as'.page_table.tables ++ (as'.frames ++ rest) := by
      refine List.mem_append_right _ (List.mem_append_left _ (hframes.mem_iff.mpr ?_))
      exact List.mem_append_left _ (List.mem_map_of_mem hx)
    have := h.exchanges.owns.alloc.lt (h.exchanges.owns.alloc.range _ hmem)
    omega
  have hmaps := h.maps
  rw [← hpt] at hmaps
  have hmaps' : Maps cfg userHalf φ.mem old.page_table φ'.mem as'.page_table
      ((new.map (Page.of area.map_perm)).map fun x =>
        (x.vpn, .new x.ppn (area.map_perm ||| .VALID))) := by
    simpa [Page.of, Function.comp_def] using hmaps
  have htracks := htr.maps (fun _ => area.map_perm) hmaps' hlow' (by
    intro x hx
    obtain ⟨y, hy, rfl⟩ := List.mem_map.mp hx
    exact hppn y hy)
  refine ⟨⟨hx, htracks.perm hpages, count_le hx hcount⟩, fun v e hv he => ?_⟩
  rcases (hmaps.found v e (own_of_lt hv)).mp he with he | ⟨z, hz, hzv, rfl⟩
  · exact .inl he
  · obtain ⟨y, hy, rfl⟩ := List.mem_map.mp hz
    have hyv : y.1 = v := (key_inj (hlow y hy) hv).mp hzv
    refine .inr ⟨fun hd => ?_, fun _ => ?_⟩
    · obtain ⟨d, hd, _⟩ := htr.devices v hd
      have hnone := hmaps.unmapped (y.1, _) (List.mem_map.mpr ⟨y, hy, rfl⟩)
      dsimp only at hnone
      rw [hyv, hd] at hnone
      simp at hnone
    · rw [PTEImpl.ppn_new cfg (hppn y hy)]
      have hnot := hfresh y hy
      have h0 : old.frames.count y.2 = 0 := List.count_eq_zero.mpr fun hm => hnot (by simp [hm])
      have h1 := List.count_eq_one_of_mem h.filled.nodup (List.mem_map_of_mem hy)
      refine count_le_one ?_ (fun hm => hnot (by simp [hm])) fun ht => ?_
      · rw [hframes.count_eq, List.count_append]
        omega
      · refine hx.owns.notMem ht (List.mem_append_left _ (hframes.mem_iff.mpr ?_))
        exact List.mem_append_left _ (List.mem_map_of_mem hy)

end Insert

/-! ## The keys -/

/-- The keys of the areas, and the limit of the data segment. `brk` can move the end of a key before
its start, but not beyond the limit. -/
structure Keys (as : AddressSpace) : Prop where
  sorted : Sorted as.areas
  ordered : ∀ a ∈ as.areas, a.1.start ≤ a.1.stop ∨ a.1.start ≤ as.data_segment_max
  limit : as.data_segment_end ≤ as.data_segment_max

theorem Sorted.sublist {l l' : List (VARange × MapArea)} (h : Sorted l)
    (hs : l'.Sublist l) : Sorted l' :=
  List.Pairwise.sublist hs h

theorem Keys.insert {k : VARange} {area : MapArea} (h : Keys as)
    (hk : k.start ≤ k.stop ∨ k.start ≤ as.data_segment_max)
    (hareas : as'.areas = (SearchTree.insert VARange.cmp k area as.tree).1)
    (hmax : as'.data_segment_max = as.data_segment_max)
    (hlimit : as'.data_segment_end ≤ as.data_segment_max) :
    Keys as' := by
  refine ⟨?_, fun a ha => ?_, by rw [hmax]; exact hlimit⟩
  · rw [hareas]
    exact sorted_insert h.sorted
  · rw [hareas] at ha
    rw [hmax]
    rcases AddressSpace.mem_insert ha with he | ⟨b, hb, he⟩
    · rw [he]
      exact hk
    · rw [he]
      exact h.ordered b hb

/-- An area has trackers for the pages of its key. -/
def Whole (a : VARange × MapArea) : Prop := ∀ v, v ∈ a.1.pages ↔ v ∈ a.2.data_frames.map (·.1)

theorem Filled.whole {mine : Fin 512 → Prop} {others : List Nat} {pt pt' : PageTableImpl}
    {r : VARange} {area area' : MapArea} {new : List (Nat × Nat)}
    (h : Filled cfg mine others φ pt area φ' pt' area' new) (hempty : area.data_frames = [])
    (hnew : new.map (·.1) = r.pages) : Whole (r, area') := by
  intro v
  have hp := h.frames.map (·.1)
  rw [hempty, List.append_nil, hnew] at hp
  exact hp.mem_iff.symm

theorem all_insert {P : VARange × MapArea → Prop} {k : VARange} {area : MapArea}
    (hkey : ∀ a ∈ as.areas, k.cmp a.1 ≠ .eq) (hl : ∀ a ∈ as.areas, P a) (hnew : P (k, area)) :
    ∀ a ∈ (SearchTree.insert VARange.cmp k area as.tree).1, P a := by
  intro a ha
  rcases List.mem_cons.mp ((AddressSpace.insert_perm area hkey).mem_iff.mp ha) with rfl | ha
  · exact hnew
  · exact hl a ha

theorem checked_add_of_lt {a b : Nat} (h : a + b < USIZE) : checked_add a b = some (a + b) := by
  unfold checked_add
  exact if_pos h

theorem checked_add_eq {a b c : Nat} (h : checked_add a b = some c) : c = a + b := by
  unfold checked_add at h
  split at h
  · exact (Option.some.inj h).symm
  · simp at h

theorem checked_round_up_eq {a b : Nat} (h : checked_round_up a = some b) : b = round_up a := by
  unfold checked_round_up at h
  split at h
  · exact (Option.some.inj h).symm
  · simp at h

theorem le_round_up (a : Nat) : a ≤ round_up a := by
  simp only [round_up, PAGE_SIZE]
  omega

theorem alloc_loop_apart {size stop : Nat} {l : List (VARange × MapArea)} {va_end : Nat}
    (hs : l.Pairwise fun a b => a.1.start ≤ b.1.start)
    (h : AddressSpace.alloc_user_area_loop size l va_end = some stop) :
    va_end ≤ stop ∧ ∀ a ∈ l, a.1.stop + PAGE_SIZE + size ≤ stop ∨ stop + PAGE_SIZE ≤ a.1.start := by
  induction l generalizing va_end with
  | nil =>
    simp only [AddressSpace.alloc_user_area_loop, Option.some.injEq] at h
    exact ⟨by omega, by simp⟩
  | cons a l ih =>
    obtain ⟨hb, hl⟩ := List.pairwise_cons.mp hs
    simp only [AddressSpace.alloc_user_area_loop, Option.bind_eq_bind, Option.bind_eq_some_iff] at h
    obtain ⟨gap, hgap, h⟩ := h
    have hgap := checked_add_eq hgap
    split at h
    · rename_i hle
      obtain rfl := Option.some.inj h
      refine ⟨le_refl _, fun b hb' => .inr ?_⟩
      rcases List.mem_cons.mp hb' with rfl | hb'
      · omega
      · have := hb b hb'
        omega
    · simp only [Option.bind_eq_some_iff] at h
      obtain ⟨r, hr, n₁, h₁, n₂, h₂, h⟩ := h
      have hr := checked_round_up_eq hr
      have h₁ := checked_add_eq h₁
      have h₂ := checked_add_eq h₂
      have hup := le_round_up a.1.stop
      obtain ⟨hle, hall⟩ := ih hl h
      refine ⟨by omega, fun b hb' => ?_⟩
      rcases List.mem_cons.mp hb' with rfl | hb'
      · exact .inl (by omega)
      · exact hall b hb'

theorem Sorted.starts {l : List (VARange × MapArea)} (h : Sorted l) :
    l.Pairwise fun a b => a.1.start ≤ b.1.start :=
  h.imp fun hb => hb.1.le

theorem alloc_loop_ge {size stop : Nat} {l : List (VARange × MapArea)} {va_end : Nat}
    (h : AddressSpace.alloc_user_area_loop size l va_end = some stop) : va_end ≤ stop := by
  induction l generalizing va_end with
  | nil => exact (Option.some.inj h).le
  | cons a l ih =>
    simp only [AddressSpace.alloc_user_area_loop, Option.bind_eq_bind, Option.bind_eq_some_iff] at h
    obtain ⟨gap, _, h⟩ := h
    split at h
    · exact (Option.some.inj h).le
    · simp only [Option.bind_eq_some_iff] at h
      obtain ⟨r, _, n₁, _, n₂, _, h⟩ := h
      exact (le_max_left _ _).trans (ih h)

theorem alloc_user_area_ge {size stop : Nat} (h : as.alloc_user_area size = some stop) :
    as.data_segment_max + PAGE_SIZE + size ≤ stop := by
  unfold AddressSpace.alloc_user_area at h
  simp only [Option.bind_eq_bind, Option.bind_eq_some_iff] at h
  obtain ⟨n₁, h₁, n₂, h₂, h⟩ := h
  have h₁ := checked_add_eq h₁
  have h₂ := checked_add_eq h₂
  have := alloc_loop_ge h
  omega

theorem alloc_user_area_spec {size stop : Nat}
    (hs : as.areas.Pairwise fun a b => a.1.start ≤ b.1.start)
    (h : AddressSpace.alloc_user_area as size = some stop) :
    as.data_segment_max + PAGE_SIZE + size ≤ stop ∧
      ∀ a ∈ as.areas, a.1.stop + PAGE_SIZE + size ≤ stop ∨ stop + PAGE_SIZE ≤ a.1.start := by
  unfold AddressSpace.alloc_user_area at h
  simp only [Option.bind_eq_bind, Option.bind_eq_some_iff] at h
  obtain ⟨n₁, h₁, n₂, h₂, h⟩ := h
  have h₁ := checked_add_eq h₁
  have h₂ := checked_add_eq h₂
  obtain ⟨hle, hall⟩ := alloc_loop_apart hs h
  exact ⟨by omega, hall⟩

theorem alloc_user_area_apart {size stop : Nat} (hk : Keys as)
    (h : AddressSpace.alloc_user_area as size = some stop) :
    size ≤ stop ∧ ∀ a ∈ as.areas, (VARange.mk (stop - size) stop).cmp a.1 ≠ .eq := by
  obtain ⟨h₁, hall⟩ := alloc_user_area_spec hk.sorted.starts h
  refine ⟨by omega, fun a ha he => ?_⟩
  have heq := cmp_eq_iff.mp he
  simp only [VARange.eq_iff] at heq
  have hord := hk.ordered a ha
  have hapart := hall a ha
  simp only [PAGE_SIZE] at h₁ hapart
  omega

/-! ## The operations -/

theorem Changes.refl (ho : Owns cfg userHalf φ as.page_table (as.frames ++ rest))
    (htr : Tracks cfg φ.mem as.page_table as.pages) :
    Changes cfg rest φ as φ as ∧ Writes cfg rest φ as φ as :=
  ⟨⟨Exchanges.refl ho, htr, fun _ => le_max_right _ _⟩, fun _ _ _ he => .inl he⟩

/-- What all operations of a process need to know about its address space. -/
structure Ready (cfg : Config) (rest : List Nat) (φ : Phys) (as : AddressSpace) : Prop where
  owns : Owns cfg userHalf φ as.page_table (as.frames ++ rest)
  tracks : Tracks cfg φ.mem as.page_table as.pages
  keys : Keys as

theorem page_lt {stop v : Nat} (h : stop ≤ 2 ^ 38) (hv : v < ceil stop) : v < 2 ^ 26 := by
  unfold ceil at hv
  simp only [PAGE_SIZE] at hv
  omega

theorem Tracks.unmapped {m : Mem} {pt : PageTableImpl} {pages : List Page}
    {l : List Nat} (h : Tracks cfg m pt pages) (hlow : ∀ v ∈ l, v < 2 ^ 26) (hnodup : l.Nodup)
    (hdev : ∀ v ∈ l, v ∉ cfg.device_pages) (hpages : ∀ v ∈ l, v ∉ pages.map Page.vpn) :
    Unmapped cfg m pt l := by
  refine ⟨fun v hv => ?_,
    hnodup.imp_of_mem fun hv hw hne he => hne ((key_inj (hlow _ hv) (hlow _ hw)).mp he)⟩
  cases he : lookup cfg m pt v with
  | none => rfl
  | some e =>
    obtain ⟨x, hx, hxv⟩ := h.tracked v e (hlow v hv) he (hdev v hv)
    exact absurd (List.mem_map.mpr ⟨x, hx, hxv⟩) (hpages v hv)

/-- The pages of the range that `alloc_user_area` finds can be mapped. -/
def AddressSpace.user_area_free (cfg : Config) (as : AddressSpace) (size : Nat) : Prop :=
  ∃ stop, as.alloc_user_area size = some stop ∧ ∀ v ∈ (VARange.mk (stop - size) stop).pages,
    v ∉ cfg.device_pages ∧ v ∉ as.pages.map Page.vpn

/-- What a new area in a free range changes. -/
structure AreaAdded (cfg : Config) (rest : List Nat) (φ : Phys) (as : AddressSpace)
    (perm : PTEImpl) (r : VARange) (φ' : Phys) (as' : AddressSpace) : Prop where
  same : as' = ⟨as'.page_table, as'.areas, as'.shape, as.data_segment_end, as.data_segment_max⟩
  inserted : ∃ φ₁ area new, new.map (·.1) = r.pages ∧
    Inserted cfg userHalf rest φ as r ⟨[], .Framed, perm⟩ φ₁ area new φ' as'

theorem insert_user_area_spec {may : Panic → Prop} {size : Nat}
    {perm : PTEImpl} (hm : may .out_of_frames) (h : Ready cfg rest φ as)
    (hfit : ∀ stop, AddressSpace.alloc_user_area as size = some stop → stop ≤ 2 ^ 38)
    (hfree : may .assert ∨ as.user_area_free cfg size) :
    wp may (AddressSpace.insert_user_area cfg as size perm)
    (fun r φ' => as.alloc_user_area size = some r.2 ∧
      AreaAdded cfg rest φ as perm ⟨r.2 - size, r.2⟩ φ' r.1) φ := by
  rw [AddressSpace.insert_user_area, wp_bind, wp_unwrap]
  refine ⟨fun stop hstop => ?_,
    fun hno => hfree.elim id fun ⟨stop, hstop, _⟩ => by simp [hno] at hstop⟩
  have hlow : ∀ v ∈ (VARange.mk (stop - size) stop).pages, v < 2 ^ 26 :=
    fun v hv => page_lt (hfit stop hstop) (mem_vpns.mp hv).2
  have hchecks : ceil_checks stop = true := by
    obtain ⟨hpos, _⟩ := alloc_user_area_spec h.keys.sorted.starts hstop
    have := hfit stop hstop
    simp only [ceil_checks, Bool.and_eq_true, decide_eq_true_eq, PAGE_SIZE, USIZE] at *
    omega
  have hfree' : may .assert ∨ ceil_checks stop = true ∧
      Unmapped cfg φ.mem as.page_table (VARange.mk (stop - size) stop).pages := by
    refine hfree.imp_right fun ⟨stop', hstop', hvacant⟩ => ⟨hchecks, ?_⟩
    obtain rfl := Option.some.inj (hstop.symm.trans hstop')
    exact h.tracks.unmapped hlow (nodup_vpns _ _) (fun v hv => (hvacant v hv).1) fun v hv =>
      (hvacant v hv).2
  rw [wp_bind]
  refine wp_mono
    (map_and_insert_spec hm (.inl rfl) h.owns (fun v hv => own_of_lt (hlow v hv)) hfree') ?_
  rintro as' φ' ⟨has, hi⟩
  exact ⟨hstop, has, hi⟩

theorem insert_user_area_changes {size : Nat} {perm : PTEImpl} (h : Ready cfg rest φ as)
    (hfit : ∀ stop, AddressSpace.alloc_user_area as size = some stop → stop ≤ 2 ^ 38) :
    wp anyPanic (AddressSpace.insert_user_area cfg as size perm) (fun r φ' =>
      AddressSpace.alloc_user_area as size = some r.2 ∧
      Changes cfg rest φ as φ' r.1 ∧ Writes cfg rest φ as φ' r.1 ∧ Keys r.1) φ := by
  refine wp_mono (insert_user_area_spec trivial h hfit (.inl trivial)) ?_
  rintro ⟨as', stop⟩ φ' ⟨hstop, hsame, φ₁, area', new, hnew, hi⟩
  obtain ⟨_, hkey⟩ := alloc_user_area_apart h.keys hstop
  have hlow : ∀ x ∈ new, x.1 < 2 ^ 26 := by
    intro x hx
    have hv : x.1 ∈ (VARange.mk (stop - size) stop).pages := hnew ▸ List.mem_map_of_mem hx
    exact page_lt (hfit stop hstop) (mem_vpns.mp hv).2
  obtain ⟨hc, hw⟩ := hi.changes rfl (List.Perm.refl _) h.tracks hkey hlow
  dsimp only at hsame
  refine ⟨hstop, hc, hw, h.keys.insert (.inl ?_) hi.areas (by rw [hsame])
    (by rw [hsame]; exact h.keys.limit)⟩
  exact Nat.sub_le _ _

/-- The place that `alloc_user_area` finds lies in the lower half. -/
def AddressSpace.user_area_fits (as : AddressSpace) (size : Nat) : Bool :=
  (alloc_user_area as size).all (· ≤ 2 ^ 38)

/-- `brk` maps pages of the lower half, and the key with its new end is not equal to another key. -/
def AddressSpace.brk_fits (as : AddressSpace) (addr : Nat) : Bool :=
  addr = 0 || as.data_segment_max < addr ||
    (SearchTree.remove VARange.cmp ⟨as.data_segment_end, as.data_segment_end⟩ as.tree).all fun r =>
      (addr < round_up as.data_segment_end || addr ≤ 2 ^ 38) && r.2.all fun a =>
        !VARange.eq ⟨r.1.1.start, addr⟩ a.1

/-- The area that an address belongs to has trackers for exactly the pages of its key. -/
def AddressSpace.munmap_fits (as : AddressSpace) (va : Nat) : Bool :=
  (SearchTree.remove VARange.cmp ⟨va, va⟩ as.tree).all fun r =>
    let pages := vpns (floor r.1.1.start) (ceil r.1.1.stop)
    (r.1.2.data_frames.all fun x => x.1 ∈ pages) && pages.all fun v =>
      r.1.2.data_frames.any fun x => x.1 = v

theorem Tracks.mapped_area {m : Mem} {pt : PageTableImpl} {pages : List Page}
    {area : MapArea} (h : Tracks cfg m pt pages) (hsub : ∀ x ∈ area.pages, x ∈ pages) :
    Mapped cfg userHalf m pt area := by
  intro x hx
  have hmem := hsub (Page.of area.map_perm x) (List.mem_map_of_mem hx)
  obtain ⟨e, he, _⟩ := h.mapped _ hmem
  refine ⟨own_of_lt (h.low _ hmem), ?_⟩
  have he' : lookup cfg m pt x.1 = some e := he
  rw [he']
  rfl

theorem pages_remove {l₁ l₂ : List (VARange × MapArea)}
    {entry : VARange × MapArea} (h : as.areas = l₁ ++ entry :: l₂) :
    as.pages.Perm (entry.2.pages ++ (l₁ ++ l₂).flatMap (·.2.pages)) := by
  rw [AddressSpace.pages, h]
  exact List.perm_middle.flatMap_right _

theorem Keys.start_le {entry : VARange × MapArea} (h : Keys as) (hentry : entry ∈ as.areas)
    (hcmp : VARange.cmp ⟨as.data_segment_end, as.data_segment_end⟩ entry.1 = .eq) :
    entry.1.start ≤ as.data_segment_max := by
  have heq := cmp_eq_iff.mp hcmp
  simp only [VARange.eq_iff] at heq
  have := h.ordered entry hentry
  have := h.limit
  omega

section Brk

variable {addr : Nat} {entry : VARange × MapArea} {l₁ l₂ : List (VARange × MapArea)}

theorem Keys.remove {shape : SearchTree.Shape} (h : Keys as)
    (hareas : as.areas = l₁ ++ entry :: l₂) :
    Keys { as with areas := l₁ ++ l₂, shape } := by
  refine ⟨h.sorted.sublist ?_, fun a ha => h.ordered a ?_, h.limit⟩
  · rw [hareas]
    exact List.Sublist.append_left (List.sublist_cons_self _ _) _
  · have ha : a ∈ l₁ ++ l₂ := ha
    rw [hareas]
    simp only [List.mem_append, List.mem_cons] at ha ⊢
    tauto

theorem frames_remove (hareas : as.areas = l₁ ++ entry :: l₂) :
    as.frames.Perm (entry.2.frames ++ (l₁ ++ l₂).flatMap (·.2.frames)) := by
  rw [AddressSpace.frames, hareas, List.perm_iff_count]
  intro q
  simp only [List.flatMap_append, List.flatMap_cons, List.count_append]
  omega

theorem brk_insert {may : Panic → Prop} {shape : SearchTree.Shape}
    {pt' : PageTableImpl} {area' : MapArea} {new : List (Nat × Nat)}
    (h : Ready cfg rest φ as) (hareas : as.areas = l₁ ++ entry :: l₂)
    (hcmp : VARange.cmp ⟨as.data_segment_end, as.data_segment_end⟩ entry.1 = .eq)
    (hle : addr ≤ as.data_segment_max)
    (hother : ∀ a ∈ l₁ ++ l₂, VARange.eq ⟨entry.1.start, addr⟩ a.1 = false)
    (hnew : ∀ x ∈ new, x.1 < 2 ^ 26) (hf : Filled cfg userHalf
    ((l₁ ++ l₂).flatMap (·.2.frames) ++ rest) φ as.page_table entry.2 φ₁ pt' area' new) :
    wp may (AddressSpace.insert_area cfg ⟨pt', l₁ ++ l₂, shape, addr,
      as.data_segment_max⟩ ⟨entry.1.start, addr⟩ area')
      (fun as' φ' => Changes cfg rest φ as φ' as' ∧ Writes cfg rest φ as φ' as' ∧
        Keys as' ∧ ∃ pt areas shape', as' =
        ⟨pt, areas, shape', addr, as.data_segment_max⟩ ∧
        areas = (SearchTree.insert VARange.cmp ⟨entry.1.start, addr⟩ area'
          (SearchTree.fill shape (l₁ ++ l₂))).1 ∧
        Maps cfg userHalf φ.mem as.page_table φ'.mem pt
          (new.map fun x => (x.1, .new x.2 (entry.2.map_perm ||| .VALID)))) φ₁ := by
  generalize hbase : { as with areas := l₁ ++ l₂, shape } = base
  have hbpt : as.page_table = base.page_table := by rw [← hbase]
  have hbareas : base.areas = l₁ ++ l₂ := by rw [← hbase]
  have hbmax : base.data_segment_max = as.data_segment_max := by rw [← hbase]
  have hbtree : base.tree = SearchTree.fill shape (l₁ ++ l₂) := by rw [← hbase, AddressSpace.tree]
  have hbshape : base.shape = shape := by rw [← hbase]
  have hpages : as.pages.Perm (entry.2.pages ++ base.pages) := by
    rw [← hbase]
    exact pages_remove hareas
  have hfilled :
    Filled cfg userHalf (base.frames ++ rest) φ base.page_table entry.2 φ₁ pt' area' new := by
    rw [← hbase]
    exact hf
  have hins : wp may
    (AddressSpace.insert_area cfg { base with page_table := pt', data_segment_end := addr }
      ⟨entry.1.start, addr⟩ area') _ φ₁ := insert_filled hfilled addr
  rw [hbareas, hbmax, hbshape] at hins
  refine wp_mono hins ?_
  rintro as' φ' ⟨has, hi⟩
  have hkey : ∀ a ∈ base.areas, (VARange.mk entry.1.start addr).cmp a.1 ≠ .eq := by
    intro a ha he
    rw [hbareas] at ha
    have hne := hother a ha
    rw [cmp_eq_iff.mp he] at hne
    simp at hne
  obtain ⟨hc, hw⟩ := hi.changes hbpt hpages h.tracks hkey hnew
  have hbkeys : Keys base := by
    rw [← hbase]
    exact h.keys.remove hareas
  refine ⟨hc, hw, hbkeys.insert (.inr ?_) hi.areas (by rw [has, hbmax]) ?_, _, _, _, has, ?_, ?_⟩
  · rw [hbmax]
    exact h.keys.start_le (by simp [hareas]) hcmp
  · rw [has, hbmax]
    exact hle
  · rw [hi.areas, hbtree]
  · rw [hbpt]
    exact hi.maps

theorem brk_changes (h : Ready cfg rest φ as) (hfit : as.brk_fits addr = true) :
    wp anyPanic (AddressSpace.brk cfg as addr) (fun r φ' =>
      Changes cfg rest φ as φ' r.1 ∧ Writes cfg rest φ as φ' r.1 ∧ Keys r.1) φ := by
  have hsame : Changes cfg rest φ as φ as ∧ Writes cfg rest φ as φ as ∧ Keys as :=
    ⟨(Changes.refl h.owns h.tracks).1, (Changes.refl h.owns h.tracks).2, h.keys⟩
  rw [AddressSpace.brk, wp_bind, wp_unwrap]
  refine ⟨fun cur_end hcur => ?_, fun _ => trivial⟩
  obtain rfl := checked_round_up_eq hcur
  rw [wp_ite]
  refine ⟨fun _ => hsame, fun hne => ?_⟩
  rw [wp_ite]
  refine ⟨fun _ => hsame, fun hle => ?_⟩
  rw [wp_bind, wp_unwrap]
  refine ⟨?_, fun _ => trivial⟩
  rintro ⟨entry, areas⟩ hrem
  have hle := Nat.not_lt.mp hle
  simp only [AddressSpace.brk_fits, hrem, hne, decide_false, Nat.not_lt.mpr hle,
    Bool.false_or, Option.all_some,
    Bool.and_eq_true, Bool.or_eq_true, decide_eq_true_eq, List.all_eq_true,
      Bool.not_eq_true'] at hfit
  obtain ⟨hlow, hother⟩ := hfit
  obtain ⟨l₁, l₂, hareas, rfl, hcmp⟩ := AddressSpace.remove_spec hrem
  have ho : Owns cfg userHalf φ as.page_table
    (entry.2.frames ++ ((l₁ ++ l₂).flatMap (·.2.frames) ++ rest)) := by
    rw [← List.append_assoc]
    exact h.owns.perm ((frames_remove hareas).append_right rest).symm
  dsimp only
  rw [wp_ite]
  refine ⟨fun hgrow => ?_, fun _ => ?_⟩
  · rw [wp_bind, wp_unwrap]
    refine ⟨fun l hl => ?_, fun _ => trivial⟩
    obtain rfl := vpn_range_eq hl
    have hlow' : ∀ v ∈ vpns (floor (round_up as.data_segment_end)) (ceil addr), v < 2 ^ 26 :=
      fun v hv => page_lt (by omega) (mem_vpns.mp hv).2
    have hmapped : Mapped cfg userHalf φ.mem as.page_table entry.2 :=
      h.tracks.mapped_area fun x hx => (pages_remove hareas).mem_iff.mpr (List.mem_append_left _ hx)
    rw [wp_bind]
    refine wp_mono (map_frames_spec false trivial ho (fun v hv => own_of_lt (hlow' v hv)) hmapped
      (.inl trivial)) ?_
    rintro ⟨pt', area'⟩ φ₁ ⟨new, hnew, hf⟩
    have hnew' : ∀ x ∈ new, x.1 < 2 ^ 26 := fun x hx => hlow' x.1 (hnew ▸ List.mem_map_of_mem hx)
    exact wp_call (brk_insert h hareas hcmp hle hother hnew' hf) fun as' φ' h' =>
      ⟨h'.1, h'.2.1, h'.2.2.1⟩
  · rw [wp_bind, wp_pure]
    exact wp_call (brk_insert h hareas hcmp hle hother (by simp) (Filled.refl ho)) fun as' φ' h' =>
      ⟨h'.1, h'.2.1, h'.2.2.1⟩

end Brk

theorem remove_area_changes {va : Nat} (h : Ready cfg rest φ as) (hfit : as.munmap_fits va = true) :
    wp anyPanic (AddressSpace.remove_area cfg as va) (fun as' φ' =>
      Changes cfg rest φ as φ' as' ∧ Writes cfg rest φ as φ' as' ∧ Keys as') φ := by
  -- the pages of the key are those with trackers
  have hexact : ∀ entry areas, SearchTree.remove VARange.cmp ⟨va, va⟩ as.tree =
    some (entry, areas) →
      ∀ v, v ∈ vpns (floor entry.1.start) (ceil entry.1.stop) ↔ v ∈ entry.2.pages.map Page.vpn := by
    intro entry areas hrem v
    simp only [AddressSpace.munmap_fits, hrem, Option.all_some, Bool.and_eq_true,
      List.all_eq_true, decide_eq_true_eq,
      List.any_eq_true] at hfit
    have hvpn : entry.2.pages.map Page.vpn = entry.2.data_frames.map (·.1) := by
      simp [MapArea.pages, Page.of]
    rw [hvpn, List.mem_map]
    constructor
    · intro hv
      obtain ⟨x, hx, hxv⟩ := hfit.2 v hv
      exact ⟨x, hx, hxv⟩
    · rintro ⟨x, hx, rfl⟩
      exact hfit.1 x hx
  have hmem : ∀ entry areas, SearchTree.remove VARange.cmp ⟨va, va⟩ as.tree = some (entry, areas) →
      ∀ x ∈ entry.2.pages, x ∈ as.pages := by
    intro entry areas hrem x hx
    obtain ⟨l₁, l₂, hareas, _, _⟩ := AddressSpace.remove_spec hrem
    exact (pages_remove hareas).mem_iff.mpr (List.mem_append_left _ hx)
  have hlow : ∀ entry areas, SearchTree.remove VARange.cmp ⟨va, va⟩ as.tree = some (entry, areas) →
      ∀ v ∈ vpns (floor entry.1.start) (ceil entry.1.stop), v < 2 ^ 26 := by
    intro entry areas hrem v hv
    obtain ⟨x, hx, rfl⟩ := List.mem_map.mp ((hexact entry areas hrem v).mp hv)
    exact h.tracks.low x (hmem entry areas hrem x hx)
  refine wp_mono (remove_area_spec h.owns
    (fun entry areas hrem v hv => own_of_lt (hlow entry areas hrem v hv)) (.inl trivial)) ?_
  rintro as' φ' ⟨entry, hrem⟩
  obtain ⟨areas, _, hfound, rfl⟩ := hrem.found
  obtain ⟨l₁, l₂, hareas, rfl, _⟩ := AddressSpace.remove_spec hfound
  have hpages := pages_remove hareas
  have hl : ∀ w, w < 2 ^ 26 → lookup cfg φ'.mem as.page_table w =
      if w ∈ entry.2.pages.map Page.vpn then none else lookup cfg φ.mem as.page_table w := by
    intro w hw
    have hu : lookup cfg φ'.mem as.page_table w = _ := hrem.unmaps w (own_of_lt hw)
    rw [hu]
    refine if_congr ?_ rfl rfl
    rw [← hexact entry _ hfound w, List.mem_map]
    constructor
    · rintro ⟨v, hv, hk⟩
      exact (key_inj (hlow entry _ hfound v hv) hw).mp hk ▸ hv
    · exact fun hv => ⟨w, hv, rfl⟩
  refine ⟨⟨hrem.exchanges, ?_, count_le hrem.exchanges fun q => .inl ?_⟩,
    fun v e hv he => .inl ?_, ?_⟩
  · exact (h.tracks.perm hpages.symm).unmap hl
  · rw [(frames_remove hareas).count_eq, List.count_append]
    exact Nat.le_add_left _ _
  · have hsome : lookup cfg φ'.mem as.page_table v = some e := he
    rw [hl v hv] at hsome
    split at hsome
    · simp at hsome
    · exact hsome
  · exact h.keys.remove hareas

/-! ## Page faults -/

theorem Keys.of_map (h : Keys as) (hk : as'.areas.map (·.1) = as.areas.map (·.1))
    (hend : as'.data_segment_end = as.data_segment_end)
    (hmax : as'.data_segment_max = as.data_segment_max) :
    Keys as' := by
  refine ⟨?_, fun a ha => ?_, by rw [hend, hmax]; exact h.limit⟩
  · have hs : (as.areas.map (·.1)).Pairwise VARange.Before := List.pairwise_map.mpr h.sorted
    rw [← hk] at hs
    exact List.pairwise_map.mp hs
  · have hmem : a.1 ∈ as.areas.map (·.1) := hk ▸ List.mem_map_of_mem ha
    obtain ⟨b, hb, hba⟩ := List.mem_map.mp hmem
    rw [← hba, hmax]
    exact h.ordered b hb

theorem handled_in_place {va : Nat} {e : PTEImpl} {area : MapArea}
    {frame : Nat} (htr : Tracks cfg φ.mem as.page_table as.pages)
    (hf : Faults cfg φ.mem as va e area frame) (hcount : (as.trackers ++ rest).count frame ≤ 1)
    (hm : Moves cfg userHalf (as.frames ++ rest) φ as.page_table φ' as.page_table) (hu : Updates cfg
    userHalf φ.mem as.page_table φ'.mem as.page_table (floor va) (some (fault_flags e))) :
    Changes cfg rest φ as φ' as ∧ Writes cfg rest φ as φ' as := by
  obtain ⟨_, hfound⟩ := hf.found
  obtain ⟨_, htracker⟩ := hf.tracker
  obtain ⟨l₁, l₂, hpages, _⟩ := AddressSpace.pages_of_find hfound htracker
  have hx : (⟨floor va, frame, area.map_perm⟩ : Page) ∈ as.pages := by simp [hpages]
  have hv := htr.low _ hx
  have hppn : e.ppn cfg = frame := htr.ppn_eq hx hf.entry
  refine ⟨⟨Exchanges.of_moves hm, htr.reflag hv hf.entry hu (ppn_fault cfg e),
    fun _ => le_max_right _ _⟩,
    fun v d hvd hd => ?_⟩
  rw [updates_of_lt hu hv hvd] at hd
  by_cases hvv : v = floor va
  · subst hvv
    rw [if_pos rfl] at hd
    obtain rfl := Option.some.inj hd
    refine .inr ⟨htr.apart _ hx, fun _ => ?_⟩
    rw [ppn_fault, hppn]
    exact hcount
  · rw [if_neg hvv] at hd
    exact .inl hd

theorem handled_copied {va : Nat} {e : PTEImpl} {area : MapArea} {frame p : Nat}
    (htr : Tracks cfg φ.mem as.page_table as.pages) (hf : Faults cfg φ.mem as va e area frame)
    (hc : Copied cfg (as.frames ++ rest) φ as.page_table (floor va) frame (fault_flags e) φ' p)
    (has : as' = AddressSpace.set_frame as va (floor va) area p) :
    Changes cfg rest φ as φ' as' ∧ Writes cfg rest φ as φ' as' ∧
    as'.areas.map (·.1) = as.areas.map (·.1) := by
  obtain ⟨_, hfound⟩ := hf.found
  obtain ⟨_, htracker⟩ := hf.tracker
  obtain ⟨l₁, l₂, hpages, hset⟩ := AddressSpace.pages_of_find hfound htracker
  obtain ⟨hpages', hkeys'⟩ := hset p
  rw [← has] at hpages' hkeys'
  have hpt : as'.page_table = as.page_table := by rw [has, AddressSpace.set_frame_page_table]
  have hx : (⟨floor va, frame, area.map_perm⟩ : Page) ∈ as.pages := by simp [hpages]
  have hv : floor va < 2 ^ 26 := htr.low _ hx
  have hframe : frame ∈ as.frames := by
    rw [AddressSpace.frames_eq]
    exact List.mem_map.mpr ⟨_, hx, rfl⟩
  have hfresh : p ∉ as.frames ++ rest := fun hm => hc.fresh (List.mem_append_right _ hm)
  have herase : (as.frames ++ rest).erase frame = as.frames.erase frame ++ rest :=
    List.erase_append_left _ hframe
  -- the tracker of the old frame is replaced by one of the new frame
  have hframes : as'.frames.Perm (p :: as.frames.erase frame) := by
    rw [AddressSpace.frames_eq, AddressSpace.frames_eq, hpages, hpages', List.perm_iff_count]
    intro q
    simp only [List.map_append, List.map_cons, List.count_append, List.count_cons, List.count_erase]
    by_cases hq : q = frame
    · subst hq
      simp
      omega
    · have hq' : ¬ frame = q := fun he => hq he.symm
      simp [hq']
      omega
  have ho : Owns cfg userHalf φ' as'.page_table (as'.frames ++ rest) := by
    rw [hpt]
    refine hc.owns.perm ?_
    rw [herase, ← List.cons_append]
    exact hframes.append_right rest
  have hexch :
    Exchanges cfg userHalf rest φ as.page_table as.frames φ' as'.page_table as'.frames := by
    refine ⟨ho, by rw [hpt]; exact hc.root,
      fun q hq => hc.same q ?_, by rw [hpt]; exact fun _ ht => ht,
      fun q hq => ?_⟩
    · rw [herase]
      exact List.mem_append_right _ hq
    · rcases List.mem_cons.mp (hframes.mem_iff.mp hq) with rfl | hq
      · exact .inr hc.fresh
      · exact .inl (List.mem_of_mem_erase hq)
  have hone : as'.frames.count p ≤ 1 := by
    have h0 : (as.frames.erase frame).count p = 0 :=
      List.count_eq_zero.mpr fun hm => hfresh (List.mem_append_left _ (List.mem_of_mem_erase hm))
    rw [hframes.count_eq, List.count_cons_self, h0]
  have hppn : (PTEImpl.new p (fault_flags e)).ppn cfg = p := by
    refine PTEImpl.ppn_new cfg ?_ _
    have hmem : p ∈ as'.page_table.tables ++ (as'.frames ++ rest) := by
      simp [hframes.mem_iff]
    have := ho.alloc.lt (ho.alloc.range p hmem)
    omega
  refine ⟨⟨hexch, ?_, count_le hexch fun q => ?_⟩, fun v d hvd hd => ?_, ?_⟩
  · rw [hpages] at htr
    have hmove := htr.move hc.update
    rw [hppn] at hmove
    rw [hpt, hpages']
    exact hmove
  · by_cases hq : q = p
    · subst hq
      exact .inr ⟨hone, hfresh⟩
    · rw [hframes.count_eq, List.count_cons_of_ne (Ne.symm hq)]
      exact .inl (List.erase_sublist.count_le q)
  · rw [hpt, updates_of_lt hc.update hv hvd] at hd
    by_cases hvv : v = floor va
    · subst hvv
      rw [if_pos rfl] at hd
      obtain rfl := Option.some.inj hd
      refine .inr ⟨htr.apart _ hx, fun _ => ?_⟩
      rw [hppn]
      refine count_le_one hone (fun hm => hfresh (List.mem_append_right _ hm)) fun ht => ?_
      rw [hpt] at ht
      exact hc.fresh (List.mem_append_left _ ht)
    · rw [if_neg hvv] at hd
      exact .inl hd
  · exact hkeys'

theorem handle_pagefault_changes {va : Nat} (h : Ready cfg rest φ as) :
    wp anyPanic (AddressSpace.handle_pagefault cfg as va) (fun as' φ' =>
      Changes cfg rest φ as φ' as' ∧ Writes cfg rest φ as φ' as' ∧ Keys as') φ := by
  refine wp_mono (handle_pagefault_spec (fun _ => trivial) h.owns h.tracks fun _ => trivial) ?_
  rintro as' φ' ⟨e, area, frame, hf, hh⟩
  cases hh with
  | inPlace hcount hm hu =>
    obtain ⟨hc, hw⟩ := handled_in_place h.tracks hf hcount hm hu
    exact ⟨hc, hw, h.keys⟩
  | copied _ hc =>
    obtain ⟨hc, hw, hkeys⟩ := handled_copied h.tracks hf hc rfl
    exact ⟨hc, hw, h.keys.of_map hkeys rfl rfl⟩

/-! ## New flags -/

/-- Pages keep their frames and get the flags of `prot`. -/
def Reflags (cfg : Config) (pages : List Nat) (prot : AddressSpace.Prot)
    (φ φ' : Phys) (as : AddressSpace) : Prop :=
  ∀ v e', v < 2 ^ 26 → lookup cfg φ'.mem as.page_table v = some e' →
    lookup cfg φ.mem as.page_table v = some e' ∨ v ∈ pages ∧
    ∃ e, lookup cfg φ.mem as.page_table v = some e ∧
      e' = .new (e.ppn cfg) (prot.map_perm ||| .VALID)

theorem modify_loop_changes {l : List Nat} {prot : AddressSpace.Prot} (h : Ready cfg rest φ as)
    (hlow : ∀ v ∈ l, v < 2 ^ 26) :
    wp anyPanic (l.foldlM (fun _ v => as.page_table.modify_flags cfg v prot.map_perm) ())
    (fun _ φ' =>
      Changes cfg rest φ as φ' as ∧ Reflags cfg l prot φ φ' as) φ := by
  refine wp_mono (wp_foldlM (fun done _ φ' => Moves cfg userHalf
    (as.frames ++ rest) φ as.page_table φ' as.page_table ∧
    Tracks cfg φ'.mem as.page_table as.pages ∧ Reflags cfg done prot φ φ' as) ?_ ?_) ?_
  · exact ⟨Moves.refl h.owns, h.tracks, fun _ _ _ he => .inl he⟩
  · rintro done v later _ φ₁ rfl ⟨hm, htr, hre⟩
    have hv : v < 2 ^ 26 := hlow v (by simp)
    refine wp_mono (hm.owns.modify_flags (own_of_lt hv) (.inl trivial)) ?_
    rintro _ φ₂ ⟨e, he, hm', hu⟩
    have hppn : ∀ d : PTEImpl,
      (PTEImpl.new (d.ppn cfg) (prot.map_perm ||| .VALID)).ppn cfg = d.ppn cfg :=
      fun d => PTEImpl.ppn_new_of_lt cfg (PTEImpl.ppn_lt cfg d) _
    refine ⟨hm.trans hm', htr.reflag hv he hu (hppn e), fun w d hw hd => ?_⟩
    rw [updates_of_lt hu hv hw] at hd
    by_cases hwv : w = v
    · subst hwv
      rw [if_pos rfl] at hd
      obtain rfl := Option.some.inj hd
      rcases hre w e hw he with he₀ | ⟨_, e₀, he₀, rfl⟩
      · exact .inr ⟨by simp, e, he₀, rfl⟩
      · exact .inr ⟨by simp, e₀, he₀, by rw [hppn]⟩
    · rw [if_neg hwv] at hd
      rcases hre w d hw hd with hd | ⟨hmem, he₀⟩
      · exact .inl hd
      · exact .inr ⟨List.mem_append_left _ hmem, he₀⟩
  · rintro _ φ' ⟨hm, htr, hre⟩
    exact ⟨⟨Exchanges.of_moves hm, htr, fun _ => le_max_right _ _⟩, hre⟩

/-- The pages that `mmap` at an address gives new flags. -/
def mmap_pages (addr length : Nat) : List Nat := vpns (floor addr) (ceil (addr + length))

theorem mmap_fixed_changes {addr length : Nat} {prot : AddressSpace.Prot} (h : Ready cfg rest φ as)
    (hlow : ∀ v ∈ mmap_pages addr length, v < 2 ^ 26) :
    wp anyPanic (AddressSpace.mmap_fixed cfg as addr length prot) (fun _ φ' =>
      Changes cfg rest φ as φ' as ∧ Reflags cfg (mmap_pages addr length) prot φ φ' as) φ := by
  rw [AddressSpace.mmap_fixed, wp_bind, wp_unwrap]
  refine ⟨fun stop hstop => ?_, fun _ => trivial⟩
  obtain rfl := checked_add_eq hstop
  rw [wp_bind, wp_unwrap]
  refine ⟨fun l hl => ?_, fun _ => trivial⟩
  obtain rfl := vpn_range_eq hl
  exact modify_loop_changes h hlow

end HectoOs.Mm
