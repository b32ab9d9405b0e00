import HectoOs.Mm.Changes

/-! # What a new area leaves alone

An area that is mapped changes the tables of its address space and the frames it gets, and no other
frame, whether somebody holds it or not.
-/

open HectoOs.Lib

namespace HectoOs.Mm

open PageTableImpl

variable {cfg : Config} {mine : Fin 512 → Prop} {φ φ' : Phys} {pt : PageTableImpl}
  {live others rest : List Nat}
  {area : MapArea} {as : AddressSpace} {v p : Nat}

/-- All frames but those of `F` read the same. -/
def Outside (F : List Nat) (m m' : Mem) : Prop := ∀ q, q ∉ F → SameFrame m m' q

theorem Outside.refl (F : List Nat) (m : Mem) : Outside F m m := fun q _ => SameFrame.refl m q

theorem Outside.trans {F F' : List Nat} {m m' m'' : Mem} (h : Outside F m m')
    (h' : Outside F' m' m'') (hF : ∀ q ∈ F, q ∈ F') : Outside F' m m'' :=
  fun q hq => (h q fun hmem => hq (hF q hmem)).trans (h' q hq)

/-! ## Tables -/

theorem create_table_outside {pte : Slot} (ha : AllocInv φ live) :
    wp anyPanic (create_table pt pte)
    (fun pt' φ' => Outside (pte.table :: pt'.frames) φ.mem φ'.mem) φ := by
  rw [create_table, wp_bind]
  refine wp_mono (frame_alloc_spec (fun _ => trivial) ha) ?_
  intro n φ₁ hn
  rw [wp_bind, wp_modify, wp_bind, wp_modify, wp_pure]
  intro q hq
  simp only [List.mem_cons, List.mem_append, List.not_mem_nil, or_false, not_or] at hq
  obtain ⟨hne, _, hqn⟩ := hq
  exact ((hn.same q hqn).trans (zeroBytes_sameFrame (Ne.symm hqn) (le_refl _))).trans
    (write_pte_sameFrame (Ne.symm hne))

theorem find_pte_create_loop_outside {l : List (Fin 512)} :
    ∀ {live : List Nat} {φ : Phys} {pt : PageTableImpl} {pte : Slot} {is : List (Fin 512)},
    AllocInv φ live → Tree cfg φ.mem pt mine → (∀ t ∈ pt.tables, t ∈ live) →
    is.length + l.length = 2 → Inside mine (is ++ [pte.index]) →
    walk (child cfg) (read_pte φ.mem) pt.root is = some pte.table →
    wp anyPanic (find_pte_create_loop cfg pt pte l)
    (fun r φ' => Outside r.1.tables φ.mem φ'.mem) φ := by
  induction l with
  | nil =>
    intro live φ pt pte is _ _ _ _ _ _
    rw [find_pte_create_loop, wp_pure]
    exact Outside.refl _ _
  | cons idx l ih =>
    intro live φ pt pte is ha ht hl hlen hin hreach
    rw [List.length_cons] at hlen
    have hin' : Inside mine (is ++ [pte.index] ++ [idx]) := by
      cases is with
      | nil => exact hin
      | cons i is => exact hin
    have hown : pte.table ∈ pt.tables := by
      obtain ⟨path, hr⟩ := ht
      exact (hr.walk_own (by omega) hin.of_append hreach).1
    rw [find_pte_create_loop, wp_bind, wp_get, wp_ite]
    refine ⟨fun hvalid => ?_, fun hinvalid => ?_⟩
    · have hnext : walk (child cfg) (read_pte φ.mem) pt.root (is ++ [pte.index]) =
          some ((read_pte φ.mem pte.table pte.index).ppn cfg) := by
        rw [walk_snoc, hreach, Option.bind_some, child_of_valid hvalid]
      exact ih ha ht hl (by simp; omega) hin' hnext
    · have hspec : wp anyPanic (create_table pt pte) _ φ :=
        create_table_spec trivial ha ht hl (by omega) hin hreach (by simpa using hinvalid)
      rw [wp_bind]
      refine wp_mono (wp_and hspec (create_table_outside ha)) ?_
      rintro pt₁ φ₁ ⟨⟨n, hc, hentry, hwalk⟩, hout⟩
      have hppn : (read_pte φ₁.mem pte.table pte.index).ppn cfg = n := by
        unfold child at hentry
        split at hentry
        · exact Option.some.inj hentry
        · simp at hentry
      rw [wp_bind, wp_get]
      simp only [hppn]
      have hl₁ := hc.tables_live hl
      have hloop : wp anyPanic (find_pte_create_loop cfg pt₁ ⟨n, idx⟩ l) _ φ₁ :=
        find_pte_create_loop_spec trivial hc.alloc hc.tree hl₁ (by simp; omega) hin' hwalk
      refine wp_mono (wp_and hloop (ih hc.alloc hc.tree hl₁ (by simp; omega) hin' hwalk)) ?_
      rintro ⟨pt₂, pte₂⟩ φ₂ ⟨⟨new, is', hc', _, _⟩, hout'⟩
      refine hout.trans hout' fun q hq => hc'.mem_tables.mpr (.inl ?_)
      rcases List.mem_cons.mp hq with rfl | hq
      · exact hc.mem_tables.mpr (.inl hown)
      · exact List.mem_cons_of_mem _ hq

theorem Owns.map_one_outside {f : PTEImpl} (h : Owns cfg mine φ pt others) (hv : Own mine v) :
    wp anyPanic (PageTableImpl.map_one cfg pt v p f)
    (fun pt' φ' => Outside pt'.tables φ.mem φ'.mem) φ := by
  have hl : ∀ t ∈ pt.tables, t ∈ pt.tables ++ others := fun t ht => List.mem_append_left _ ht
  have hin : Inside mine ([] ++ [vpn_index v 18]) := hv
  have hspec : wp anyPanic (find_pte_create cfg pt v) _ φ :=
    find_pte_create_spec trivial h.alloc h.tree hl hv
  have hout : wp anyPanic (find_pte_create cfg pt v) _ φ :=
    find_pte_create_loop_outside h.alloc h.tree hl
      (show ([] : List (Fin 512)).length + _ = 2 from rfl) hin rfl
  rw [PageTableImpl.map_one, wp_bind]
  refine wp_mono (wp_and hspec hout) ?_
  rintro ⟨pt₁, t, i⟩ φ₁ ⟨⟨new, hc, _, hwalk⟩, hout₁⟩
  simp only [wp_bind, wp_get, wp_assert, PageTableImpl.set_pte, wp_modify, wp_pure]
  refine ⟨fun _ => ?_, fun _ => trivial⟩
  have htable : t ∈ pt₁.tables := by
    obtain ⟨path, hr⟩ := hc.tree
    have hin' : Inside mine (inner v) := hv
    exact (hr.walk_own (le_refl 2) hin' hwalk).1
  intro q hq
  exact (hout₁ q hq).trans (write_pte_sameFrame fun he => hq (he ▸ htable))

/-! ## Areas -/

theorem map_frame_outside (h : Owns cfg mine φ pt (area.frames ++ others)) (hown : Own mine v)
    (hmap : Mapped cfg mine φ.mem pt area) : wp anyPanic (map_frame cfg false (pt, area) v)
      (fun s φ' => Outside (s.1.tables ++ s.2.frames) φ.mem φ'.mem) φ := by
  rw [map_frame, wp_bind]
  refine wp_mono (h.frame_alloc fun _ => trivial) ?_
  rintro p φ₁ ⟨hp, ho, hs, _⟩
  have hmapone : wp anyPanic (PageTableImpl.map_one cfg pt v p area.map_perm) _ φ₁ :=
    ho.map_one trivial hown (.inl trivial)
  rw [wp_bind]
  refine wp_mono (wp_and hmapone (ho.map_one_outside hown)) ?_
  rintro pt' φ₂ ⟨⟨hnone, _, _⟩, hout⟩
  have hkeys : ∀ x ∈ area.data_frames, x.1 ≠ v := by
    rintro x hx rfl
    have hne : ∀ t ∈ pt.tables, t ≠ p := fun t ht he => hp (he ▸ List.mem_append_left _ ht)
    have := (hmap x hx).2
    rw [← (h.sameMap fun t ht => hs t (hne t ht)) x.1 hown, hnone] at this
    simp at this
  refine wp_call (insert_frame_spec hkeys) ?_
  rintro area' φ₃ ⟨rfl, _, hfr⟩ q hq
  have hp' : p ∈ area'.frames := List.mem_map.mpr ⟨(v, p), hfr.mem_iff.mpr List.mem_cons_self, rfl⟩
  have hqp : q ≠ p := fun he => hq (he ▸ List.mem_append_right _ hp')
  exact (hs q hqp).trans (hout q fun ht => hq (List.mem_append_left _ ht))

theorem map_frames_outside {l : List Nat} (h : Owns cfg mine φ pt (area.frames ++ others))
    (hown : ∀ v ∈ l, Own mine v) (hmap : Mapped cfg mine φ.mem pt area) :
    wp anyPanic (l.foldlM (map_frame cfg false) (pt, area))
      (fun s φ' => Outside (s.1.tables ++ s.2.frames) φ.mem φ'.mem) φ := by
  refine wp_mono (fill_loop_spec (fun s => s)
    (fun _ (s : PageTableImpl × MapArea) φ' => Outside (s.1.tables ++ s.2.frames) φ.mem φ'.mem)
      (s := (pt, area)) h hown
    (.inl trivial) (Outside.refl _ _) ?_) fun s φ' ⟨_, _, hout, _⟩ => hout
  rintro done v later new s₁ φ₁ rfl _ hout hf _
  have hv := hown v (by simp)
  have hspec : wp anyPanic (map_frame cfg false s₁ v) _ φ₁ :=
    map_frame_spec false trivial hf.owns hv (hf.mapped hmap) (.inl trivial)
  refine wp_mono (wp_and hspec (map_frame_outside hf.owns hv (hf.mapped hmap))) ?_
  rintro s' φ' ⟨⟨p, hf'⟩, hout'⟩
  refine ⟨p, hout.trans hout' fun q hq => ?_, hf'⟩
  rcases List.mem_append.mp hq with hq | hq
  · exact List.mem_append_left _ (hf'.tables q hq)
  · exact List.mem_append_right _ (hf'.mem_frames.mpr (.inr hq))

theorem insert_area_new {k : VARange} (hkey : ∀ a ∈ as.areas, k.cmp a.1 ≠ .eq) :
    wp anyPanic (as.insert_area cfg k area)
    (fun as' φ' => as'.page_table = as.page_table ∧ φ' = φ) φ := by
  rw [← as.inorder_tree] at hkey
  obtain ⟨l₁, l₂, _, hi⟩ := SearchTree.insert_of_ne area hkey
  rw [AddressSpace.insert_area, hi]
  exact ⟨rfl, rfl⟩

theorem map_and_insert_outside {r : VARange} {perm : PTEImpl}
    (ho : Owns cfg mine φ as.page_table (as.frames ++ rest)) (hown : ∀ v ∈ r.pages, Own mine v)
    (hkey : ∀ a ∈ as.areas, r.cmp a.1 ≠ .eq) :
    wp anyPanic (as.map_and_insert cfg r ⟨[], .Framed, perm⟩ none) (fun as' φ' => ∃ φ₁ area' new,
      new.map (·.1) = r.pages ∧
      Inserted cfg mine rest φ as r ⟨[], .Framed, perm⟩ φ₁ area' new φ' as' ∧
      Outside (as'.page_table.tables ++ new.map (·.2)) φ.mem φ'.mem) φ := by
  have ho' : Owns cfg mine φ as.page_table
    ((⟨[], .Framed, perm⟩ : MapArea).frames ++ (as.frames ++ rest)) := ho
  have hmap : wp anyPanic (as.page_table.map cfg r ⟨[], .Framed, perm⟩ none) (fun s φ₁ => ∃ new,
      new.map (·.1) = r.pages ∧
      Filled cfg mine (as.frames ++ rest) φ as.page_table ⟨[], .Framed, perm⟩ φ₁ s.1 s.2 new ∧
      Outside (s.1.tables ++ new.map (·.2)) φ.mem φ₁.mem) φ := by
    rw [PageTableImpl.map, wp_bind, wp_unwrap]
    refine ⟨fun l hl => ?_, fun _ => trivial⟩
    have hl : l = r.pages := vpn_range_eq hl
    subst hl
    have hfill :
      wp anyPanic (r.pages.foldlM (map_frame cfg false) (as.page_table, ⟨[], .Framed, perm⟩)) _ φ :=
      map_frames_spec false trivial ho' hown (mapped_empty rfl) (.inl trivial)
    refine wp_mono (wp_and hfill (map_frames_outside ho' hown (mapped_empty rfl))) ?_
    rintro s φ₁ ⟨⟨new, hnew, hf⟩, hout⟩
    refine ⟨new, hnew, hf, fun q hq => hout q fun hmem => hq ?_⟩
    rw [List.mem_append] at hmem ⊢
    exact hmem.imp_right fun hq => (hf.mem_frames.mp hq).resolve_right (by simp [MapArea.frames])
  rw [AddressSpace.map_and_insert, wp_bind]
  refine wp_mono hmap ?_
  rintro ⟨pt', area'⟩ φ₁ ⟨new, hnew, hf, hout⟩
  have hinsert :
    wp anyPanic (AddressSpace.insert_area cfg { as with page_table := pt' } r area') _ φ₁ :=
    insert_filled hf as.data_segment_end
  refine wp_mono (wp_and hinsert (insert_area_new hkey)) ?_
  rintro as' φ' ⟨⟨_, hi⟩, hpt, rfl⟩
  dsimp only at hpt
  subst hpt
  exact ⟨φ', area', new, hnew, hi, hout⟩

theorem insert_user_area_outside {size : Nat} {perm : PTEImpl} (h : Ready cfg rest φ as)
    (hfit : ∀ stop, as.alloc_user_area size = some stop → stop ≤ 2 ^ 38) :
    wp anyPanic (as.insert_user_area cfg size perm)
    (fun r φ' => as.alloc_user_area size = some r.2 ∧ ∃ φ₁ area' new,
      new.map (·.1) = (VARange.mk (r.2 - size) r.2).pages ∧
      Inserted cfg userHalf rest φ as ⟨r.2 - size, r.2⟩ ⟨[], .Framed, perm⟩ φ₁ area' new φ' r.1 ∧
      Outside (r.1.page_table.tables ++ new.map (·.2)) φ.mem φ'.mem) φ := by
  rw [AddressSpace.insert_user_area, wp_bind, wp_unwrap]
  refine ⟨fun stop hstop => ?_, fun _ => trivial⟩
  have hlow : ∀ v ∈ (VARange.mk (stop - size) stop).pages, Own userHalf v :=
    fun v hv => own_of_lt (page_lt (hfit stop hstop) (mem_vpns.mp hv).2)
  rw [wp_bind]
  refine wp_mono (map_and_insert_outside h.owns hlow (alloc_user_area_apart h.keys hstop).2) ?_
  exact fun as' φ' h' => ⟨hstop, h'⟩

end HectoOs.Mm
