import HectoOs.Mm.Tracking

/-! # Fork

The child gets the pages of the parent, and the writable ones become copy-on-write in both.
-/

open HectoOs.Lib

namespace HectoOs.Mm

open PageTableImpl

/-! ## The order of the areas -/

/-- One range lies before the other, and neither contains the other. -/
def VARange.Before (a b : VARange) : Prop := a.start < b.start ∧ a.stop < b.stop

/-- The keys of the areas are in order. -/
def Sorted (areas : List (VARange × MapArea)) : Prop := areas.Pairwise fun a b => a.1.Before b.1

theorem VARange.before_of_lt {a b : VARange} (h : a.cmp b = .lt) : a.Before b := by
  unfold VARange.cmp at h
  split at h
  · simp at h
  · rename_i hne
    split at h
    · simp only [VARange.eq_iff] at hne
      unfold Before
      omega
    · simp at h

theorem VARange.before_of_gt {a b : VARange} (h : a.cmp b = .gt) : b.Before a := by
  unfold VARange.cmp at h
  split at h
  · simp at h
  · rename_i hne
    split at h
    · simp at h
    · simp only [VARange.eq_iff] at hne
      unfold Before
      omega

theorem VARange.cmp_of_before {a b : VARange} (h : b.Before a) : a.cmp b = .gt := by
  unfold Before at h
  unfold VARange.cmp
  rw [if_neg, if_neg (by omega)]
  simp only [VARange.eq_iff]
  omega

theorem VARange.cmp_of_after {a b : VARange} (h : a.Before b) : a.cmp b = .lt := by
  unfold Before at h
  unfold VARange.cmp
  rw [if_neg, if_pos h.1]
  simp only [VARange.eq_iff]
  omega

theorem VARange.Before.trans {a b c : VARange} (h : a.Before b) (h' : b.Before c) : a.Before c :=
  ⟨h.1.trans h'.1, h.2.trans h'.2⟩

theorem insert_last {k : VARange} {area : MapArea} {s : SearchTree.Shape}
    {l : List (VARange × MapArea)} (h : ∀ a ∈ l, a.1.Before k) :
    SearchTree.insert VARange.cmp k area (SearchTree.fill s l) = (l ++ [(k, area)], none) := by
  rw [← SearchTree.inorder_fill s l] at h
  rw [SearchTree.insert_last area fun a ha => VARange.cmp_of_before (h a ha),
    SearchTree.inorder_fill]

theorem sorted_insert {k : VARange} {area : MapArea} {as : AddressSpace} (h : Sorted as.areas) :
    Sorted (SearchTree.insert VARange.cmp k area as.tree).1 := by
  have hkeys : (as.areas.map Prod.fst).Pairwise VARange.Before := List.pairwise_map.mpr h
  rw [← as.inorder_tree] at hkeys
  have hinsert :
    ((SearchTree.insert VARange.cmp k area as.tree).1.map Prod.fst).Pairwise VARange.Before :=
    SearchTree.insert_pairwise (R := VARange.Before) (fun _ _ _ => VARange.Before.trans)
      (fun _ => VARange.before_of_lt)
      (fun _ => VARange.before_of_gt) area hkeys
  exact List.pairwise_map.mp hinsert

/-! ## A new address space -/

section NewSpace

variable {cfg : Config} {may : Panic → Prop} {live : List Nat} {φ φ' : Phys} {k : Nat}

/-- An address space with the devices and the kernel's half. -/
structure NewSpace (cfg : Config) (live : List Nat) (k : Nat) (φ φ' : Phys)
    (pt : PageTableImpl) : Prop where
  owns : Owns cfg userHalf φ' pt live
  tracks : Tracks cfg φ'.mem pt []
  devices : ∀ v ∈ cfg.device_pages, lookup cfg φ'.mem pt v = some (device_entry v)
  shared : ∀ i, ¬ userHalf i → read_pte φ'.mem pt.root i = read_pte φ'.mem k i
  same : ∀ q ∈ live, SameFrame φ.mem φ'.mem q
  range : SameRange φ φ'

theorem Owns.of_newRoot {pt : PageTableImpl} (h : NewRoot cfg userHalf live φ φ' pt) :
    Owns cfg userHalf φ' pt live where
  alloc := h.alloc
  tree := h.tree
  once t ht := by
    rw [List.count_append, List.count_eq_zero.mpr (h.fresh t ht),
      List.count_eq_one_of_mem h.nodup ht]

theorem ceil_checks_device {r : VARange} (hr : r ∈ cfg.devices) : ceil_checks r.stop = true := by
  obtain ⟨d, hd, rfl⟩ := List.mem_map.mp hr
  have := cfg.mmio_low d hd
  simp only [ceil_checks, PAGE_SIZE, USIZE, Bool.and_eq_true, decide_eq_true_eq]
  omega

theorem new_space_spec (hm : may .out_of_frames) (ha : AllocInv φ live) (hk : k ∈ live) :
    wp may (AddressSpace.new_kernel cfg k) (fun as φ' => NewSpace cfg live k φ φ' as.page_table ∧
      as = ⟨as.page_table, [], .nil, 1, 1⟩) φ := by
  have hnew : wp may (PageTableImpl.new_kernel k)
    (fun pt φ' => NewRoot cfg userHalf live φ φ' pt ∧ _ ∧ _) φ :=
    new_kernel_spec hm ha hk
  rw [AddressSpace.new_kernel, wp_bind]
  refine wp_mono hnew ?_
  rintro pt₀ φ₀ ⟨hroot, hnone, hshared⟩
  have hlow : ∀ x ∈ cfg.devices.flatMap device_entries, x.1 < 2 ^ 26 := by
    intro x hx
    rw [device_entries_eq] at hx
    obtain ⟨v, hv, rfl⟩ := List.mem_map.mp hx
    exact device_low hv
  have hdistinct : (cfg.devices.flatMap device_entries).Pairwise fun x y => key x.1 ≠ key y.1 := by
    rw [device_entries_eq, List.pairwise_map]
    exact (nodup_device_pages cfg).imp_of_mem fun hv hw hne he =>
      hne ((key_inj (device_low hv) (device_low hw)).mp he)
  rw [wp_bind]
  refine wp_mono (area_loop_spec (g := device_entries) hroot.alloc hroot.tree
    (fun t ht => List.mem_append_left _ ht) (fun x hx => own_of_lt (hlow x hx))
    (.inr ⟨fun x hx => hnone _ (own_of_lt (hlow x hx)), hdistinct⟩) ?_) ?_
  · intro r hr live φ pt ha ht hl hn
    exact map_device_spec hm ha ht hl (.inr (ceil_checks_device hr))
      (fun x hx => own_of_lt ((device_page_lt hr hx).trans (by decide))) hn
  rintro pt φ' ⟨new, hs, hmaps⟩
  rw [device_entries_eq] at hmaps
  have hroot' := hroot.step hs
  have hdev : ∀ v ∈ cfg.device_pages, lookup cfg φ'.mem pt v = some (device_entry v) := fun v hv =>
    hmaps.of_mem (x := (v, device_entry v)) (List.mem_map.mpr ⟨v, hv, rfl⟩)
      (own_of_lt (device_low hv))
  have hkroot : k ∉ pt₀.tables := fun ht => hroot.fresh k ht hk
  refine ⟨⟨Owns.of_newRoot hroot',
    ⟨by simp, by simp, fun v e hv he hd => ?_, fun v hv => ?_, by simp, by simp⟩,
    fun v hv => ?_, fun i hi => ?_, hroot'.same, hroot'.range⟩, rfl⟩
  · rcases (hmaps.found v e (own_of_lt hv)).mp he with he | ⟨x, hx, hxv, _⟩
    · rw [hnone v (own_of_lt hv)] at he
      simp at he
    · obtain ⟨w, hw, rfl⟩ := List.mem_map.mp hx
      exact absurd ((key_inj (device_low hw) hv).mp hxv ▸ hw) hd
  · exact ⟨device_entry v, hdev v hv, PTEImpl.ppn_new cfg ((device_low hv).trans (by decide)) _⟩
  · exact hdev v hv
  · have hkeep : read_pte φ'.mem k i = read_pte φ₀.mem k i :=
      read_pte_same (hs.same k (List.mem_append_right _ hk) hkroot)
    rw [hs.root, hs.keep i hi, hshared i hi, hkeep]

end NewSpace

/-! ## The loops of `fork` -/

section Loop

variable {cfg : Config} {may : Panic → Prop} {rest : List Nat} {k : Nat}
  {as : AddressSpace} {φ₀ φ φ' : Phys}
  {done cow : List Page} {cloned : List Nat} {c c' : PageTableImpl} {x : Page}

/-- The entry of a page after `fork`. -/
def fork_entry (x : Page) : PTEImpl := .new x.ppn (AddressSpace.fork_flags x.perm ||| .VALID)

/-- While `fork` runs: the child `c` has the pages of `done`, the pages of `cow` have got their new
entries in the parent, and the trackers of `cloned` have been cloned. -/
structure Forking (cfg : Config) (rest : List Nat) (k : Nat) (as : AddressSpace) (φ₀ : Phys)
    (done cow : List Page) (cloned : List Nat) (φ : Phys) (c : PageTableImpl) : Prop where
  child : Owns cfg userHalf φ c (cloned ++ (as.trackers ++ rest))
  parent : Owns cfg userHalf φ as.page_table (as.frames ++ (c.tables ++ cloned ++ rest))
  root : SameRoot userHalf φ₀ as.page_table φ as.page_table
  same : ∀ q ∈ as.frames ++ rest, SameFrame φ₀.mem φ.mem q
  shared : ∀ i, ¬ userHalf i → read_pte φ.mem c.root i = read_pte φ.mem k i
  tracks : Tracks cfg φ.mem as.page_table as.pages
  child_tracks : Tracks cfg φ.mem c done
  child_entry : ∀ x ∈ done, lookup cfg φ.mem c x.vpn = some (fork_entry x)
  devices : ∀ v ∈ cfg.device_pages, lookup cfg φ.mem c v = some (device_entry v)
  parent_entry : ∀ v, v < 2 ^ 26 →
    (∃ x ∈ cow, x.vpn = v ∧ lookup cfg φ.mem as.page_table v = some (fork_entry x)) ∨
    ((∀ x ∈ cow, x.vpn ≠ v) ∧ lookup cfg φ.mem as.page_table v = lookup cfg φ₀.mem as.page_table v)

theorem mem_trackers {q : Nat} : q ∈ as.trackers ↔ q ∈ as.page_table.tables ∨ q ∈ as.frames :=
  List.mem_append

theorem frame_mem (hx : x ∈ as.pages) : x.ppn ∈ as.frames := by
  rw [AddressSpace.frames_eq]
  exact List.mem_map_of_mem hx

namespace Forking

variable (h : Forking cfg rest k as φ₀ done cow cloned φ c)
include h

theorem low_ppn (hx : x ∈ as.pages) : x.ppn < 2 ^ 38 := by
  have hin : φ.InRange x.ppn :=
    h.parent.alloc.range _ (List.mem_append_right _ (List.mem_append_left _ (frame_mem hx)))
  exact (h.parent.alloc.lt hin).trans (by decide)

theorem parent_owns (hc : Owns cfg userHalf φ' c' (cloned ++ (as.trackers ++ rest)))
    (hs : ∀ t ∈ as.page_table.tables, SameFrame φ.mem φ'.mem t) :
    Owns cfg userHalf φ' as.page_table (as.frames ++ (c'.tables ++ cloned ++ rest)) := by
  refine h.parent.congr (hc.alloc.perm ?_) hs fun t ht hmem => ?_
  · rw [List.perm_iff_count]
    intro q
    simp only [AddressSpace.trackers, List.count_append]
    omega
  · have hold := h.parent.notMem ht
    simp only [List.mem_append] at hmem hold
    rcases hmem with hm | (hm | hm) | hm
    · exact hold (.inl hm)
    · refine hc.notMem hm ?_
      simp [mem_trackers, ht]
    · exact hold (.inr (.inl (.inr hm)))
    · exact hold (.inr (.inr hm))

theorem map_one (hm : may .out_of_frames) (hk : k ∈ rest) (hx : x ∈ as.pages)
    (hnew : x.vpn ∉ done.map Page.vpn) :
    wp may (PageTableImpl.map_one cfg c x.vpn x.ppn (AddressSpace.fork_flags x.perm))
      (fun c' φ' => Forking cfg rest k as φ₀ (done ++ [x]) cow cloned φ' c') φ := by
  have hv := h.tracks.low x hx
  have hnone : lookup cfg φ.mem c x.vpn = none := by
    cases he : lookup cfg φ.mem c x.vpn with
    | none => rfl
    | some e =>
      obtain ⟨y, hy, hyx⟩ := h.child_tracks.tracked _ e hv he (h.tracks.apart x hx)
      exact absurd (List.mem_map.mpr ⟨y, hy, hyx⟩) hnew
  refine wp_mono (h.child.map_one hm (own_of_lt hv) (.inr hnone)) ?_
  rintro c' φ' ⟨_, hmv, hu⟩
  have hothers : ∀ q, q ∈ as.trackers ++ rest → SameFrame φ.mem φ'.mem q :=
    fun q hq => hmv.same q (List.mem_append_right _ hq)
  have htables : ∀ t ∈ as.page_table.tables, SameFrame φ.mem φ'.mem t :=
    fun t ht => hothers t (by simp [mem_trackers, ht])
  have hsame : SameMap cfg userHalf φ.mem as.page_table φ'.mem as.page_table :=
    h.parent.sameMap htables
  have hcl : ∀ v, v < 2 ^ 26 → lookup cfg φ'.mem c' v = if v = x.vpn then some (fork_entry x) else
      lookup cfg φ.mem c v := fun v hv' => updates_of_lt hu hv hv'
  have hmaps : Maps cfg userHalf φ.mem c φ'.mem c'
      ([x].map fun x => (x.vpn, .new x.ppn (AddressSpace.fork_flags x.perm ||| .VALID))) :=
        Maps.single hnone hu
  refine ⟨hmv.owns, h.parent_owns hmv.owns htables,
    h.root.trans (SameRoot.of_same ?_ hmv.root.range),
    fun q hq => ?_, fun i hi => ?_, h.tracks.congr hsame, ?_, fun y hy => ?_,
      fun v hv' => ?_, fun v hv' => ?_⟩
  · exact htables _ List.mem_cons_self
  · refine (h.same q hq).trans (hothers q ?_)
    simp only [List.mem_append, mem_trackers] at hq ⊢
    tauto
  · have hkeep : read_pte φ'.mem k i = read_pte φ.mem k i :=
      read_pte_same (hothers k (by simp [hk]))
    rw [hmv.root.root, hmv.root.keep i hi, h.shared i hi, hkeep]
  · have htr := h.child_tracks.maps _ hmaps (by simpa using hv) (by simpa using h.low_ppn hx)
    exact htr.perm List.perm_append_comm
  · rcases List.mem_append.mp hy with hy | hy
    · have hne : y.vpn ≠ x.vpn := fun he => hnew (he ▸ List.mem_map_of_mem hy)
      rw [hcl _ (h.child_tracks.low y hy), if_neg hne, h.child_entry y hy]
    · obtain rfl := List.mem_singleton.mp hy
      rw [hcl _ hv, if_pos rfl]
  · have hne : v ≠ x.vpn := fun he => h.tracks.apart x hx (he ▸ hv')
    rw [hcl v (device_low hv'), if_neg hne, h.devices v hv']
  · rw [hsame v (own_of_lt hv')]
    exact h.parent_entry v hv'

theorem remap_one (hk : k ∈ rest) (hx : x ∈ as.pages) :
    wp may (PageTableImpl.remap_one cfg as.page_table x.vpn x.ppn (AddressSpace.fork_flags x.perm))
      (fun _ φ' => Forking cfg rest k as φ₀ done (cow ++ [x]) cloned φ' c) φ := by
  have hv := h.tracks.low x hx
  obtain ⟨e, he, hppn⟩ := h.tracks.mapped x hx
  refine wp_mono (h.parent.remap_one (own_of_lt hv) (.inr (by rw [he]; rfl))) ?_
  rintro _ φ' ⟨hmv, hu⟩
  have hothers : ∀ q, q ∈ as.frames ++ (c.tables ++ cloned ++ rest) →
    SameFrame φ.mem φ'.mem q := hmv.same
  have htables : ∀ t ∈ c.tables, SameFrame φ.mem φ'.mem t := fun t ht => hothers t (by simp [ht])
  have hsame : SameMap cfg userHalf φ.mem c φ'.mem c := h.child.sameMap htables
  have hpl : ∀ v, v < 2 ^ 26 → lookup cfg φ'.mem as.page_table v =
    if v = x.vpn then some (fork_entry x) else
      lookup cfg φ.mem as.page_table v := fun v hv' => updates_of_lt hu hv hv'
  have halloc : AllocInv φ' (c.tables ++ (cloned ++ (as.trackers ++ rest))) := by
    refine hmv.owns.alloc.perm ?_
    rw [List.perm_iff_count]
    intro q
    simp only [AddressSpace.trackers, List.count_append]
    omega
  refine ⟨h.child.congr halloc htables fun t ht => h.child.notMem ht, hmv.owns,
    h.root.trans hmv.root,
    fun q hq => ?_, fun i hi => ?_, ?_, h.child_tracks.congr hsame, fun y hy => ?_,
      fun v hv' => ?_, fun v hv' => ?_⟩
  · refine (h.same q hq).trans (hothers q ?_)
    simp only [List.mem_append] at hq ⊢
    tauto
  · have hkeep : read_pte φ'.mem k i = read_pte φ.mem k i :=
      read_pte_same (hothers k (by simp [hk]))
    rw [read_pte_same (htables _ List.mem_cons_self), h.shared i hi, hkeep]
  · refine h.tracks.reflag hv he hu ?_
    rw [PTEImpl.ppn_new cfg (h.low_ppn hx), hppn]
  · rw [hsame _ (own_of_lt (h.child_tracks.low y hy)), h.child_entry y hy]
  · rw [hsame _ (own_of_lt (device_low hv')), h.devices v hv']
  · by_cases hvx : v = x.vpn
    · exact .inl ⟨x, by simp, hvx.symm, by rw [hpl v hv', if_pos hvx]⟩
    · rw [hpl v hv', if_neg hvx]
      rcases h.parent_entry v hv' with ⟨y, hy, hyv, hl⟩ | ⟨hn, hl⟩
      · exact .inl ⟨y, List.mem_append_left _ hy, hyv, hl⟩
      · refine .inr ⟨fun y hy => ?_, hl⟩
        rcases List.mem_append.mp hy with hy | hy
        · exact hn y hy
        · obtain rfl := List.mem_singleton.mp hy
          exact Ne.symm hvx

theorem clone {p : Nat} (hp : p ∈ as.frames) :
    wp may (PhyPageAllocator.clone p)
    (fun _ φ' => Forking cfg rest k as φ₀ done cow (p :: cloned) φ' c) φ := by
  have hmem : p ∈ cloned ++ (as.trackers ++ rest) := by simp [mem_trackers, hp]
  refine wp_mono (h.child.clone hmem) ?_
  rintro _ φ' ⟨ho, hmem', hr⟩
  have hs : ∀ q, SameFrame φ.mem φ'.mem q := fun q => by
    rw [hmem']
    exact SameFrame.refl _ _
  refine ⟨ho, ?_, h.root.trans (SameRoot.of_same (hs _) hr), fun q hq => (h.same q hq).trans (hs q),
    ?_, ?_, ?_, ?_,
    ?_, ?_⟩
  · have halloc :
      AllocInv φ' (as.page_table.tables ++ (as.frames ++ (c.tables ++ p :: cloned ++ rest))) := by
      refine ho.alloc.perm ?_
      rw [List.perm_iff_count]
      intro q
      simp only [AddressSpace.trackers, List.count_append, List.count_cons]
      omega
    refine h.parent.congr halloc (fun t _ => hs t) fun t ht hm => ?_
    have hold := h.parent.notMem ht
    simp only [List.mem_append, List.mem_cons] at hm hold
    rcases hm with hm | (hm | rfl | hm) | hm
    · exact hold (.inl hm)
    · exact hold (.inr (.inl (.inl hm)))
    · exact hold (.inl hp)
    · exact hold (.inr (.inl (.inr hm)))
    · exact hold (.inr (.inr hm))
  all_goals rw [hmem']
  · exact h.shared
  · exact h.tracks
  · exact h.child_tracks
  · exact h.child_entry
  · exact h.devices
  · exact h.parent_entry

end Forking

theorem Forking.perm {cloned' : List Nat} (h : Forking cfg rest k as φ₀ done cow cloned φ c)
    (hp : cloned'.Perm cloned) : Forking cfg rest k as φ₀ done cow cloned' φ c :=
  ⟨h.child.perm (hp.append_right _),
    h.parent.perm (((hp.append_left _).append_right _).append_left _), h.root, h.same,
    h.shared, h.tracks, h.child_tracks, h.child_entry, h.devices, h.parent_entry⟩

/-- The pages that become copy-on-write. -/
def cow_pages (pages : List Page) : List Page := pages.filter fun x => AddressSpace.is_cow x.perm

theorem fork_page_spec (h : Forking cfg rest k as φ₀ done (cow_pages done) cloned φ c)
    (hm : may .out_of_frames) (hk : k ∈ rest) (hx : x ∈ as.pages)
    (hnew : x.vpn ∉ done.map Page.vpn) :
    wp may (AddressSpace.fork_page cfg as.page_table x.perm c (x.vpn, x.ppn))
      (fun c' φ' => Forking cfg rest k as φ₀ (done ++ [x])
        (cow_pages (done ++ [x])) cloned φ' c') φ := by
  rw [AddressSpace.fork_page, wp_bind]
  refine wp_mono (h.map_one hm hk hx hnew) ?_
  intro c' φ₁ h₁
  have hfilter : cow_pages (done ++ [x]) = cow_pages done ++
    if AddressSpace.is_cow x.perm then [x] else [] := by
    rw [cow_pages, List.filter_append, cow_pages]
    congr 1
    split <;> simp_all
  rw [hfilter]
  cases AddressSpace.is_cow x.perm with
  | true => exact wp_call (h₁.remap_one hk hx) fun _ φ₂ h₂ => h₂
  | false =>
    simp only [Bool.false_eq_true, if_false, List.append_nil]
    exact h₁

theorem pages_split {l₁ l₂ : List (VARange × MapArea)} {entry : VARange × MapArea}
    (h : as.areas = l₁ ++ entry :: l₂) :
    as.pages = l₁.flatMap (·.2.pages) ++ (entry.2.pages ++ l₂.flatMap (·.2.pages)) := by
  rw [AddressSpace.pages, h, List.flatMap_append, List.flatMap_cons]

theorem fork_pages_spec {l₁ l₂ : List (VARange × MapArea)} {entry : VARange × MapArea}
    (hareas : as.areas = l₁ ++ entry :: l₂) (hm : may .out_of_frames) (hk : k ∈ rest) (h : Forking
    cfg rest k as φ₀ (l₁.flatMap (·.2.pages)) (cow_pages (l₁.flatMap (·.2.pages))) cloned φ c) :
    wp may (entry.2.data_frames.foldlM
      (AddressSpace.fork_page cfg as.page_table entry.2.map_perm) c)
      (fun c' φ' => Forking cfg rest k as φ₀ ((l₁ ++ [entry]).flatMap (·.2.pages))
        (cow_pages ((l₁ ++ [entry]).flatMap (·.2.pages))) cloned φ' c') φ := by
  have hpages := pages_split hareas
  have hgoal : (l₁ ++ [entry]).flatMap (·.2.pages) = l₁.flatMap (·.2.pages) ++
      entry.2.data_frames.map (Page.of entry.2.map_perm) := by
    rw [List.flatMap_append, List.flatMap_singleton, MapArea.pages]
  rw [hgoal]
  refine wp_foldlM (fun processed c' φ' => Forking cfg rest k as φ₀
    (l₁.flatMap (·.2.pages) ++ processed.map (Page.of entry.2.map_perm))
    (cow_pages (l₁.flatMap (·.2.pages) ++ processed.map (Page.of entry.2.map_perm)))
      cloned φ' c') ?_ ?_
  · simpa using h
  · intro processed a later c₁ φ₁ hl h₁
    generalize hx : Page.of entry.2.map_perm a = x
    -- the pages of the parent, with `x` in the middle
    have hsplit : as.pages = (l₁.flatMap (·.2.pages) ++ processed.map (Page.of entry.2.map_perm)) ++
        x :: (later.map (Page.of entry.2.map_perm) ++ l₂.flatMap (·.2.pages)) := by
      rw [hpages, MapArea.pages, hl, ← hx]
      simp
    have hd := h₁.tracks.distinct
    rw [hsplit, List.map_append, List.map_cons] at hd
    have hnew := fun hmem => (List.nodup_append.mp hd).2.2 _ hmem _ List.mem_cons_self rfl
    have hstep := fork_page_spec h₁ hm hk (by rw [hsplit]; simp) hnew
    rw [← hx] at hstep
    refine wp_mono hstep fun c₂ φ₂ h₂ => ?_
    simpa using h₂

theorem clone_area_spec {area : MapArea} (h : Forking cfg rest k as φ₀ done cow cloned φ c)
    (hsub : ∀ p ∈ area.frames, p ∈ as.frames) :
    wp may (AddressSpace.clone_area area) (fun area' φ' => area' = area ∧
      Forking cfg rest k as φ₀ done cow (cloned ++ area.frames) φ' c) φ := by
  rw [AddressSpace.clone_area, wp_bind]
  refine wp_mono
    (wp_foldlM (fun processed _ φ' => Forking cfg rest k as φ₀ done cow (cloned ++ processed) φ' c)
    (by simpa using h) ?_) fun _ φ' h' => ⟨rfl, h'⟩
  intro processed p later _ φ₁ hl h₁
  refine wp_mono (h₁.clone (hsub p (by rw [hl]; simp))) fun _ φ₂ h₂ => h₂.perm ?_
  rw [← List.append_assoc]
  exact List.perm_append_comm

theorem fork_area_spec {l₁ l₂ : List (VARange × MapArea)} {entry : VARange × MapArea}
    {new_as : AddressSpace} (hareas : as.areas = l₁ ++ entry :: l₂) (hsorted : Sorted as.areas)
    (hm : may .out_of_frames) (hk : k ∈ rest) (hnew : new_as.areas = l₁)
    (h : Forking cfg rest k as φ₀ (l₁.flatMap (·.2.pages)) (cow_pages (l₁.flatMap (·.2.pages)))
      (l₁.flatMap (·.2.frames)) φ new_as.page_table) :
    wp may (AddressSpace.fork_area cfg as.page_table new_as entry) (fun new_as' φ' =>
      new_as'.areas = l₁ ++ [entry] ∧ Forking cfg rest k as φ₀ ((l₁ ++ [entry]).flatMap (·.2.pages))
        (cow_pages ((l₁ ++ [entry]).flatMap (·.2.pages))) ((l₁ ++ [entry]).flatMap (·.2.frames)) φ'
        new_as'.page_table) φ := by
  have hsub : ∀ p ∈ entry.2.frames, p ∈ as.frames := by
    intro p hp
    rw [AddressSpace.frames, hareas]
    simp [hp]
  rw [AddressSpace.fork_area, wp_bind]
  refine wp_mono (fork_pages_spec hareas hm hk h) ?_
  intro c' φ₁ h₁
  rw [wp_bind]
  refine wp_mono (clone_area_spec h₁ hsub) ?_
  rintro area φ₂ ⟨rfl, h₂⟩
  have hlast : ∀ a ∈ l₁, a.1.Before entry.1 := by
    rw [Sorted, hareas] at hsorted
    exact fun a ha => (List.pairwise_append.mp hsorted).2.2 a ha entry List.mem_cons_self
  have hframes : (l₁ ++ [entry]).flatMap (·.2.frames) = l₁.flatMap (·.2.frames) ++
    entry.2.frames := by simp
  rw [AddressSpace.insert_area, AddressSpace.tree, hnew, insert_last hlast, hframes]
  exact ⟨rfl, h₂⟩

/-- What `fork` returns and leaves. -/
structure Forked (cfg : Config) (rest : List Nat) (k : Nat) (as : AddressSpace) (φ φ' : Phys)
    (child : AddressSpace) : Prop where
  state : Forking cfg rest k as φ as.pages (cow_pages as.pages) as.frames φ' child.page_table
  areas : child.areas = as.areas
  data_segment_end : child.data_segment_end = as.data_segment_end
  data_segment_max : child.data_segment_max = as.data_segment_max

theorem fork_spec (hm : may .out_of_frames)
    (ho : Owns cfg userHalf φ as.page_table (as.frames ++ rest))
    (htr : Tracks cfg φ.mem as.page_table as.pages) (hsorted : Sorted as.areas) (hk : k ∈ rest) :
    wp may (AddressSpace.fork cfg k as) (fun child φ' => Forked cfg rest k as φ φ' child) φ := by
  have hlive : AllocInv φ (as.trackers ++ rest) := by
    rw [AddressSpace.trackers, List.append_assoc]
    exact ho.alloc
  rw [AddressSpace.fork, wp_bind]
  refine wp_mono (new_space_spec hm hlive (List.mem_append_right _ hk)) ?_
  rintro new_as φ₁ ⟨hn, hnew⟩
  have hs : ∀ q ∈ as.trackers ++ rest, SameFrame φ.mem φ₁.mem q := hn.same
  have htables : ∀ t ∈ as.page_table.tables, SameFrame φ.mem φ₁.mem t :=
    fun t ht => hs t (by simp [mem_trackers, ht])
  have hsame : SameMap cfg userHalf φ.mem as.page_table φ₁.mem as.page_table := ho.sameMap htables
  have hparent : Owns cfg userHalf φ₁ as.page_table
    (as.frames ++ (new_as.page_table.tables ++ [] ++ rest)) := by
    refine ho.congr (hn.owns.alloc.perm ?_) htables fun t ht hmem => ?_
    · rw [List.perm_iff_count]
      intro q
      simp only [AddressSpace.trackers, List.count_append, List.count_nil]
      omega
    · have hold := ho.notMem ht
      simp only [List.mem_append, List.append_nil] at hmem hold
      rcases hmem with hm | hm | hm
      · exact hold (.inl hm)
      · exact hn.owns.notMem hm (by simp [mem_trackers, ht])
      · exact hold (.inr hm)
  have hstart : Forking cfg rest k as φ [] (cow_pages []) [] φ₁ new_as.page_table := by
    refine ⟨hn.owns, hparent, SameRoot.of_same (htables _ List.mem_cons_self) hn.range,
      fun q hq => hs q ?_, hn.shared,
      htr.congr hsame, hn.tracks, by simp, hn.devices,
        fun v hv => .inr ⟨by simp [cow_pages], hsame v (own_of_lt hv)⟩⟩
    simp only [List.mem_append, mem_trackers] at hq ⊢
    tauto
  rw [wp_bind]
  refine wp_mono
    (wp_foldlM (fun (processed : List (VARange × MapArea)) (new_as' : AddressSpace) φ' =>
    new_as'.areas = processed ∧
    Forking cfg rest k as φ (processed.flatMap (·.2.pages))
      (cow_pages (processed.flatMap (·.2.pages)))
      (processed.flatMap (·.2.frames)) φ' new_as'.page_table) ⟨by rw [hnew], hstart⟩ ?_) ?_
  · rintro l₁ entry l₂ new_as₁ φ₂ hareas ⟨hnew₁, h₁⟩
    exact fork_area_spec hareas hsorted hm hk hnew₁ h₁
  · rintro new_as' φ' ⟨hareas, h'⟩
    exact ⟨h', hareas, rfl, rfl⟩

end Loop

end HectoOs.Mm
