import HectoOs.Mm.Tracking

/-! # Pages with frames of their own

The loops of `map`, `brk` and `from_elf` allocate a frame for each page, map the page and give the
tracker to the area.
-/

open HectoOs.Lib

namespace HectoOs.Mm

open PageTableImpl

/-- Every panic is allowed: what is shown holds of the calls that return. -/
abbrev anyPanic : Panic → Prop := fun _ => True

variable {cfg : Config} {mine : Fin 512 → Prop} {may : Panic → Prop} {others : List Nat}
  {φ φ₁ φ₂ φ₃ φ₄ φ' φ'' : Phys}
  {pt pt' pt'' : PageTableImpl} {area area' area'' : MapArea} {p v : Nat}

/-- The area got the pages of `new`, each with a frame that was free, and the table maps them. -/
structure Filled (cfg : Config) (mine : Fin 512 → Prop) (others : List Nat)
    (φ : Phys) (pt : PageTableImpl) (area : MapArea) (φ' : Phys) (pt' : PageTableImpl)
    (area' : MapArea) (new : List (Nat × Nat)) : Prop where
  owns : Owns cfg mine φ' pt' (area'.frames ++ others)
  root : SameRoot mine φ pt φ' pt'
  same : ∀ q ∈ area.frames ++ others, SameFrame φ.mem φ'.mem q
  frames : area'.data_frames.Perm (new ++ area.data_frames)
  map_perm : area'.map_perm = area.map_perm
  maps : Maps cfg mine φ.mem pt φ'.mem pt'
    (new.map fun x => (x.1, .new x.2 (area.map_perm ||| .VALID)))
  fresh : ∀ x ∈ new, x.2 ∉ pt.tables ++ (area.frames ++ others)
  nodup : (new.map (·.2)).Nodup
  own : ∀ x ∈ new, Own mine x.1
  tables : ∀ t ∈ pt.tables, t ∈ pt'.tables

namespace Filled

theorem refl (h : Owns cfg mine φ pt (area.frames ++ others)) :
    Filled cfg mine others φ pt area φ pt area [] where
  owns := h
  root := SameRoot.refl φ pt
  same _ _ := SameFrame.refl _ _
  frames := List.Perm.refl _
  map_perm := rfl
  maps := Maps.nil
  fresh := by simp
  nodup := by simp
  own := by simp
  tables _ ht := ht

theorem mem_frames {new : List (Nat × Nat)}
    (h : Filled cfg mine others φ pt area φ' pt' area' new) {q : Nat} :
    q ∈ area'.frames ↔ q ∈ new.map (·.2) ∨ q ∈ area.frames := by
  have hp : area'.frames.Perm (new.map (·.2) ++ area.frames) := by
    simpa [MapArea.frames] using h.frames.map (·.2)
  rw [hp.mem_iff, List.mem_append]

theorem trans {new new' : List (Nat × Nat)} (h : Filled cfg mine others φ pt area φ' pt' area' new)
    (h' : Filled cfg mine others φ' pt' area' φ'' pt'' area'' new') :
    Filled cfg mine others φ pt area φ'' pt'' area'' (new ++ new') := by
  have hold : ∀ q, q ∈ area.frames ++ others → q ∈ area'.frames ++ others := by
    intro q hq
    rcases List.mem_append.mp hq with hq | hq
    · exact List.mem_append_left _ (h.mem_frames.mpr (.inr hq))
    · exact List.mem_append_right _ hq
  refine ⟨h'.owns, h.root.trans h'.root,
    fun q hq => (h.same q hq).trans (h'.same q (hold q hq)), ?_,
    h'.map_perm.trans h.map_perm, ?_, ?_, ?_, ?_, fun t ht => h'.tables t (h.tables t ht)⟩
  · refine h'.frames.trans ((h.frames.append_left new').trans ?_)
    rw [← List.append_assoc]
    exact List.perm_append_comm.append_right _
  · have hm' := h'.maps
    rw [h.map_perm] at hm'
    rw [List.map_append]
    refine h.maps.trans hm' fun x hx => ?_
    rw [← List.map_append] at hx
    obtain ⟨y, hy, rfl⟩ := List.mem_map.mp hx
    rcases List.mem_append.mp hy with hy | hy
    · exact h.own y hy
    · exact h'.own y hy
  · intro x hx
    rcases List.mem_append.mp hx with hx | hx
    · exact h.fresh x hx
    · intro hmem
      refine h'.fresh x hx ?_
      rcases List.mem_append.mp hmem with hmem | hmem
      · exact List.mem_append_left _ (h.tables _ hmem)
      · exact List.mem_append_right _ (hold _ hmem)
  · rw [List.map_append]
    refine List.nodup_append.mpr ⟨h.nodup, h'.nodup, fun a ha b hb hab => ?_⟩
    obtain ⟨x, hx, rfl⟩ := List.mem_map.mp hb
    refine h'.fresh x hx
      (List.mem_append_right _ (List.mem_append_left _ (h.mem_frames.mpr (.inl ?_))))
    exact hab ▸ ha
  · intro x hx
    rcases List.mem_append.mp hx with hx | hx
    · exact h.own x hx
    · exact h'.own x hx

end Filled

/-- The pages that the area holds are mapped, so none of them can be mapped again. -/
def Mapped (cfg : Config) (mine : Fin 512 → Prop) (m : Mem) (pt : PageTableImpl)
    (area : MapArea) : Prop :=
  ∀ x ∈ area.data_frames, Own mine x.1 ∧ (lookup cfg m pt x.1).isSome

theorem Filled.mapped {new : List (Nat × Nat)}
    (h : Filled cfg mine others φ pt area φ' pt' area' new) (hm : Mapped cfg mine φ.mem pt area) :
    Mapped cfg mine φ'.mem pt' area' := by
  intro x hx
  rcases List.mem_append.mp (h.frames.mem_iff.mp hx) with hx | hx
  · refine ⟨h.own x hx, ?_⟩
    have he := h.maps.of_mem (List.mem_map_of_mem hx) (h.own x hx)
    dsimp only at he
    rw [he]
    rfl
  · obtain ⟨ho, hs⟩ := hm x hx
    refine ⟨ho, ?_⟩
    obtain ⟨e, he⟩ := Option.isSome_iff_exists.mp hs
    rw [(h.maps.found x.1 e ho).mpr (.inl he)]
    rfl

/-! ## One page -/

theorem insert_frame_spec (hv : ∀ x ∈ area.data_frames, x.1 ≠ v) :
    wp may (area.insert_frame v p) (fun area' φ' => φ' = φ ∧ area'.map_perm = area.map_perm ∧
      area'.data_frames.Perm ((v, p) :: area.data_frames)) φ := by
  rw [← SearchTree.inorder_spine area.data_frames] at hv ⊢
  have hne : ∀ x ∈ SearchTree.inorder (SearchTree.spine area.data_frames), compare v x.1 ≠ .eq :=
    fun x hx he =>
    hv x hx (Std.LawfulEqCmp.eq_of_compare he).symm
  obtain ⟨l₁, l₂, hl, hi⟩ := SearchTree.insert_of_ne p hne
  rw [MapArea.insert_frame, hi, hl]
  exact ⟨rfl, rfl, List.perm_middle⟩

theorem filled_one (hp : p ∉ pt.tables ++ (area.frames ++ others)) (hown : Own mine v)
    (hs : ∀ q, q ≠ p → SameFrame φ.mem φ₂.mem q) (hr : SameRange φ φ₂)
    (hnone : lookup cfg φ₂.mem pt v = none) (ho₂ : Owns cfg mine φ pt (area.frames ++ others))
    (hm : Moves cfg mine (p :: (area.frames ++ others)) φ₂ pt φ₃ pt')
    (hu : Updates cfg mine φ₂.mem pt φ₃.mem pt' v (some (.new p (area.map_perm ||| .VALID))))
    (ho : Owns cfg mine φ₄ pt' (p :: (area.frames ++ others))) (hs₄ : ∀ q, q ≠ p →
    SameFrame φ₃.mem φ₄.mem q) (hr₄ : SameRange φ₃ φ₄) (hperm : area'.map_perm = area.map_perm)
    (hfr : area'.data_frames.Perm ((v, p) :: area.data_frames)) :
    Filled cfg mine others φ pt area φ₄ pt' area' [(v, p)] := by
  have hne : ∀ q ∈ pt.tables ++ (area.frames ++ others), q ≠ p := fun q hq he => hp (he ▸ hq)
  have htables : ∀ t ∈ pt.tables, t ≠ p := fun t ht => hne t (List.mem_append_left _ ht)
  have hframes : area'.frames.Perm (p :: area.frames) := by
    simpa [MapArea.frames] using hfr.map (·.2)
  have hsame₂ : SameMap cfg mine φ.mem pt φ₂.mem pt := ho₂.sameMap fun t ht => hs t (htables t ht)
  have hp₄ : ∀ t ∈ pt'.tables, t ≠ p := fun t ht he => ho.notMem ht (he ▸ List.mem_cons_self)
  have hsame₄ : SameMap cfg mine φ₃.mem pt' φ₄.mem pt' :=
    hm.owns.sameMap fun t ht => hs₄ t (hp₄ t ht)
  have hroot : pt.root ∈ pt.tables := List.mem_cons_self
  refine ⟨ho.perm ?_, ?_, fun q hq => ?_, hfr, hperm, Maps.single ?_ fun w hw => ?_,
    ?_, by simp, ?_, hm.tables⟩
  · exact hframes.append_right others
  · refine (SameRoot.of_same (hs _ (htables _ hroot)) hr).trans
      (hm.root.trans (SameRoot.of_same ?_ hr₄))
    exact hs₄ _ (hp₄ _ List.mem_cons_self)
  · have hqp := hne q (List.mem_append_right _ hq)
    exact ((hs q hqp).trans (hm.same q (List.mem_cons_of_mem _ hq))).trans (hs₄ q hqp)
  · rw [← hsame₂ v hown]
    exact hnone
  · rw [hsame₄ w hw, hu w hw, hsame₂ w hw]
  · rintro x hx
    obtain rfl := List.mem_singleton.mp hx
    exact hp
  · rintro x hx
    obtain rfl := List.mem_singleton.mp hx
    exact hown

theorem map_frame_spec (fill : Bool) (hf : may .out_of_frames)
    (h : Owns cfg mine φ pt (area.frames ++ others)) (hown : Own mine v)
    (hmap : Mapped cfg mine φ.mem pt area) (hfree : may .assert ∨ lookup cfg φ.mem pt v = none) :
    wp may (map_frame cfg fill (pt, area) v)
      (fun s φ' => ∃ p, Filled cfg mine others φ pt area φ' s.1 s.2 [(v, p)]) φ := by
  rw [map_frame, wp_bind]
  refine wp_mono (h.frame_alloc fun _ => hf) ?_
  rintro p φ₁ ⟨hp, ho, hs, hr⟩
  have hlook : lookup cfg φ₁.mem pt v = lookup cfg φ.mem pt v := by
    have hne : ∀ t ∈ pt.tables, t ≠ p := fun t ht he => hp (he ▸ List.mem_append_left _ ht)
    exact (h.sameMap fun t ht => hs t (hne t ht)) v hown
  rw [wp_bind]
  refine wp_mono (ho.map_one hf hown (by rw [hlook]; exact hfree)) ?_
  rintro pt' φ₂ ⟨hnone, hm, hu⟩
  have hnone' : lookup cfg φ.mem pt v = none := hlook.symm.trans hnone
  have hkeys : ∀ x ∈ area.data_frames, x.1 ≠ v := by
    rintro x hx rfl
    have := (hmap x hx).2
    rw [hnone'] at this
    simp at this
  -- from here on `fill` may write to the new frame only
  have hrest : ∀ φ₃, Owns cfg mine φ₃ pt' (p :: (area.frames ++ others)) →
      (∀ q, q ≠ p → SameFrame φ₂.mem φ₃.mem q) → SameRange φ₂ φ₃ →
      wp may (do let area ← area.insert_frame v p; pure (pt', area))
        (fun s φ' => ∃ p, Filled cfg mine others φ pt area φ' s.1 s.2 [(v, p)]) φ₃ := by
    intro φ₃ ho₃ hs₃ hr₃
    rw [wp_bind]
    refine wp_mono (insert_frame_spec hkeys) ?_
    rintro area' φ₄ ⟨rfl, hperm, hfr⟩
    exact ⟨p, filled_one hp hown hs hr hnone h hm hu ho₃ hs₃ hr₃ hperm hfr⟩
  cases fill with
  | false => exact hrest φ₂ hm.owns (fun _ _ => SameFrame.refl _ _) (SameRange.refl φ₂)
  | true =>
    have hz : ∀ q, q ≠ p → SameFrame φ₂.mem (zeroBytes φ₂.mem (frame_va p) 4096) q :=
      fun q hq => zeroBytes_sameFrame (Ne.symm hq) (le_refl _)
    refine wp_bind.mpr (wp_modify.mpr (hrest _ (hm.owns.write fun q hq _ => hz q ?_) ?_ ?_))
    · exact fun he => hq (he ▸ List.mem_cons_self)
    · simpa using hz
    · exact (SameRange.refl φ₂).set_mem _

/-! ## Loops -/

/-- The pages of a list can be mapped one after the other. -/
structure Unmapped (cfg : Config) (m : Mem) (pt : PageTableImpl) (l : List Nat) : Prop where
  free : ∀ v ∈ l, lookup cfg m pt v = none
  distinct : l.Pairwise fun v w => key v ≠ key w

theorem Unmapped.next {done later : List Nat} {new : List (Nat × Nat)}
    (h : Unmapped cfg φ.mem pt (done ++ v :: later)) (hown : Own mine v)
    (hnew : new.map (·.1) = done) (hf : Filled cfg mine others φ pt area φ' pt' area' new) :
    lookup cfg φ'.mem pt' v = none := by
  rw [hf.maps.other hown, h.free v (by simp)]
  intro y hy
  obtain ⟨x, hx, rfl⟩ := List.mem_map.mp hy
  have hdone : x.1 ∈ done := hnew ▸ List.mem_map_of_mem hx
  exact (List.pairwise_append.mp h.distinct).2.2 x.1 hdone v List.mem_cons_self

theorem fill_loop_spec {σ : Type} (view : σ → PageTableImpl × MapArea)
    (J : List (Nat × Nat) → σ → Phys → Prop) {body : σ → Nat → Kernel σ} {l : List Nat} {s : σ}
    (h : Owns cfg mine φ (view s).1 ((view s).2.frames ++ others)) (hown : ∀ v ∈ l, Own mine v)
    (hfree : may .assert ∨ Unmapped cfg φ.mem (view s).1 l) (hJ : J [] s φ)
    (hbody : ∀ done v later new s₁ φ₁, l = done ++ v :: later → new.map (·.1) = done → J new s₁ φ₁ →
      Filled cfg mine others φ (view s).1 (view s).2 φ₁ (view s₁).1 (view s₁).2 new →
      may .assert ∨ lookup cfg φ₁.mem (view s₁).1 v = none →
      wp may (body s₁ v) (fun s' φ' => ∃ p, J (new ++ [(v, p)]) s' φ' ∧
        Filled cfg mine others φ₁ (view s₁).1 (view s₁).2 φ' (view s').1 (view s').2 [(v, p)]) φ₁) :
    wp may (l.foldlM body s) (fun s' φ' => ∃ new, new.map (·.1) = l ∧ J new s' φ' ∧
      Filled cfg mine others φ (view s).1 (view s).2 φ' (view s').1 (view s').2 new) φ := by
  refine wp_foldlM (fun done s' φ' => ∃ new, new.map (·.1) = done ∧ J new s' φ' ∧
      Filled cfg mine others φ (view s).1 (view s).2 φ' (view s').1 (view s').2 new) ?_ ?_
  · exact ⟨[], rfl, hJ, Filled.refl h⟩
  · rintro done v later s₁ φ₁ rfl ⟨new, hnew, hJ₁, hf⟩
    have hnext : may .assert ∨ lookup cfg φ₁.mem (view s₁).1 v = none :=
      hfree.imp_right fun hu => hu.next (hown v (by simp)) hnew hf
    refine wp_mono (hbody done v later new s₁ φ₁ rfl hnew hJ₁ hf hnext) ?_
    rintro s₂ φ₂ ⟨p, hJ₂, hf'⟩
    exact ⟨new ++ [(v, p)], by simp [hnew], hJ₂, hf.trans hf'⟩

theorem map_frames_spec (fill : Bool) {l : List Nat} (hm : may .out_of_frames)
    (h : Owns cfg mine φ pt (area.frames ++ others)) (hown : ∀ v ∈ l, Own mine v)
    (hmap : Mapped cfg mine φ.mem pt area) (hfree : may .assert ∨ Unmapped cfg φ.mem pt l) :
    wp may (l.foldlM (map_frame cfg fill) (pt, area)) (fun s φ' => ∃ new, new.map (·.1) = l ∧
      Filled cfg mine others φ pt area φ' s.1 s.2 new) φ := by
  refine wp_mono
    (fill_loop_spec (fun s => s) (fun _ _ _ => True) (s := (pt, area)) h hown hfree trivial ?_) ?_
  · rintro done v later new s₁ φ₁ rfl _ _ hf hnone
    refine wp_mono (map_frame_spec fill hm hf.owns (hown v (by simp)) (hf.mapped hmap) hnone) ?_
    rintro s' φ' ⟨p, hf'⟩
    exact ⟨p, trivial, hf'⟩
  · rintro s φ' ⟨new, hnew, _, hf⟩
    exact ⟨new, hnew, hf⟩

/-! ## The pages of a segment -/

theorem read_exact_length {file bytes : List Byte} {pos n : Nat}
    (h : read_exact file pos n = some bytes) :
    bytes.length = n := by
  unfold read_exact at h
  split at h
  · rename_i h0
    obtain rfl := Option.some.inj h
    exact h0.symm
  · split at h
    · obtain rfl := Option.some.inj h
      rw [List.length_take, List.length_drop]
      omega
    · simp at h

theorem data_end_le (bss_start v : Nat) : AddressSpace.data_end bss_start v ≤ 4096 := by
  unfold AddressSpace.data_end page_offset
  split
  · omega
  · split
    · omega
    · exact (Nat.mod_lt _ (by decide)).le

theorem data_end_min (bss_start v : Nat) :
    AddressSpace.data_end bss_start v = min (bss_start - vpn_va v) 4096 := by
  unfold AddressSpace.data_end
  split
  · rename_i h
    simp only [vpn_va, PAGE_SIZE] at h ⊢
    omega
  · split
    all_goals
      rename_i h h'
      simp only [vpn_va, page_offset, PAGE_SIZE] at h h' ⊢
      omega

theorem bss_end_min {stop v : Nat} (h : v < ceil stop) :
    AddressSpace.bss_end stop v = min (stop - vpn_va v) 4096 := by
  unfold AddressSpace.bss_end
  unfold ceil at h
  split
  all_goals
    rename_i h'
    simp only [vpn_va, page_offset, PAGE_SIZE] at h h' ⊢
    omega

theorem bss_end_le (stop v : Nat) : AddressSpace.bss_end stop v ≤ 4096 := by
  unfold AddressSpace.bss_end page_offset
  split
  · omega
  · exact (Nat.mod_lt _ (by decide)).le

namespace AddressSpace

/-- The checks of `load_page`: the slices of the page are in order, and the bytes are in the
file. -/
def page_checks (file : List Byte) (ph : ProgramHeader) (s : Loading) (v : Nat) : Prop :=
  s.start ≤ data_end (ph.virtual_addr + ph.file_size) v ∧
  (read_exact file s.pos (data_end (ph.virtual_addr + ph.file_size) v - s.start)).isSome ∧
  data_end (ph.virtual_addr + ph.file_size) v ≤ bss_end ph.va_range.stop v

/-- What `load_page` has written to the frame `p`, and how far it has read. -/
structure PageWritten (file : List Byte) (ph : ProgramHeader) (s : Loading)
    (v p : Nat) (m : Mem) (s' : Loading) : Prop where
  pos : s'.pos = s.pos + (data_end (ph.virtual_addr + ph.file_size) v - s.start)
  start : s'.start = 0
  data : ∀ i, s.start ≤ i → i < data_end (ph.virtual_addr + ph.file_size) v →
    m (frame_va p + i) = file.getD (s.pos + (i - s.start)) 0
  zero : ∀ i, data_end (ph.virtual_addr + ph.file_size) v ≤ i → i < bss_end ph.va_range.stop v →
    m (frame_va p + i) = 0

end AddressSpace

theorem read_exact_get {file bytes : List Byte} {pos n i : Nat}
    (h : read_exact file pos n = some bytes) (hi : i < n) :
    bytes.getD i 0 = file.getD (pos + i) 0 := by
  unfold read_exact at h
  rw [if_neg (by omega)] at h
  split at h
  · obtain rfl := Option.some.inj h
    rw [List.getD_eq_getElem?_getD, List.getElem?_take_of_lt hi, List.getElem?_drop,
      ← List.getD_eq_getElem?_getD]
  · simp at h

theorem page_bytes (m : Mem) (a stop2 : Nat) {start stop : Nat} {bytes : List Byte}
    (hle : start ≤ stop) (hlen : bytes.length = stop - start) :
    (∀ i, start ≤ i → i < stop →
      zeroBytes (writeBytes m (a + start) bytes) (a + stop) (stop2 - stop) (a + i) =
      bytes.getD (i - start) 0) ∧
    ∀ i, stop ≤ i → i < stop2 → zeroBytes (writeBytes m (a + start) bytes)
    (a + stop) (stop2 - stop) (a + i) = 0 := by
  refine ⟨fun i hi hi' => ?_, fun i hi hi' => ?_⟩
  · rw [zeroBytes, if_neg (by omega), writeBytes, if_pos (by omega), Nat.add_sub_add_left]
  · rw [zeroBytes, if_pos (by omega)]

theorem load_page_spec (file : List Byte) {ph : ProgramHeader} {s : AddressSpace.Loading}
    (hframes : may .out_of_frames) (h : Owns cfg mine φ s.page_table (s.area.frames ++ others))
    (hperm : s.area.map_perm = ph.map_perm) (hown : Own mine v)
    (hmap : Mapped cfg mine φ.mem s.page_table s.area) (hfree : may .assert ∨
    lookup cfg φ.mem s.page_table v = none ∧ AddressSpace.page_checks file ph s v) :
    wp may (AddressSpace.load_page cfg file ph s v) (fun s' φ' => ∃ p,
      AddressSpace.PageWritten file ph s v p φ'.mem s' ∧
      Filled cfg mine others φ s.page_table s.area φ' s'.page_table s'.area [(v, p)]) φ := by
  rw [AddressSpace.load_page, wp_bind]
  refine wp_mono (h.frame_alloc fun _ => hframes) ?_
  rintro p φ₁ ⟨hp, ho, hs, hr⟩
  have hwritten : ∀ {m s'}, _ → _ → _ → _ → AddressSpace.PageWritten file ph s v p m s' :=
    AddressSpace.PageWritten.mk
  unfold AddressSpace.page_checks at hfree
  have hstop := data_end_le (ph.virtual_addr + ph.file_size) v
  have hstop2 := bss_end_le ph.va_range.stop v
  generalize AddressSpace.data_end (ph.virtual_addr + ph.file_size) v =
    stop at hstop hfree hwritten ⊢
  generalize AddressSpace.bss_end ph.va_range.stop v = stop2 at hstop2 hfree hwritten ⊢
  simp only [wp_bind, wp_assert, wp_unwrap, wp_modify]
  have hcheck : ∀ {P : Prop},
    (s.start ≤ stop ∧ (read_exact file s.pos (stop - s.start)).isSome ∧ stop ≤ stop2 → P) →
      may .assert ∨ P := fun hP => hfree.imp_right fun hc => hP hc.2
  refine ⟨fun hle => ⟨fun bytes hbytes => ⟨fun hle2 => ?_, fun hno => ?_⟩, fun hno => ?_⟩,
    fun hno => ?_⟩
  rotate_left
  · exact (hcheck fun hc => absurd hc.2.2 (of_decide_eq_false hno)).elim id False.elim
  · exact (hcheck fun hc => by simp [hno] at hc).elim id False.elim
  · exact (hcheck fun hc => absurd hc.1 (of_decide_eq_false hno)).elim id False.elim
  have hle := of_decide_eq_true hle
  have hle2 := of_decide_eq_true hle2
  have hlen := read_exact_length hbytes
  obtain ⟨hdata, hzero⟩ := page_bytes φ₁.mem (frame_va p) stop2 hle hlen
  -- both writes stay inside the new frame
  have hw : ∀ q, q ≠ p →
    SameFrame φ₁.mem (writeBytes φ₁.mem (frame_va p + s.start) bytes) q := fun q hq =>
    SameFrame.of_ne (b := frame_va p + s.start + bytes.length) (Ne.symm hq)
      (Nat.le_add_right _ s.start)
      (by omega) (writeBytes_sameOn _ _ _)
  rw [Phys.set_mem_mem, Phys.set_mem_set_mem]
  generalize writeBytes φ₁.mem (frame_va p + s.start) bytes = m₁ at hw hdata hzero ⊢
  have hz : ∀ q, q ≠ p →
    SameFrame m₁ (zeroBytes m₁ (frame_va p + stop) (stop2 - stop)) q := fun q hq =>
    SameFrame.of_ne (b := frame_va p + stop + (stop2 - stop)) (Ne.symm hq) (Nat.le_add_right _ stop)
      (by omega) (zeroBytes_sameOn _ _ _)
  generalize zeroBytes m₁ (frame_va p + stop) (stop2 - stop) = m₂ at hz hdata hzero ⊢
  have hwz : ∀ q, q ≠ p → SameFrame φ₁.mem (φ₁.set_mem m₂).mem q :=
    fun q hq => (hw q hq).trans (hz q hq)
  have ho₂ : Owns cfg mine (φ₁.set_mem m₂) s.page_table (p :: (s.area.frames ++ others)) :=
    ho.write fun q hq _ => hwz q fun he => hq (he ▸ List.mem_cons_self)
  have hs₂ : ∀ q, q ≠ p → SameFrame φ.mem (φ₁.set_mem m₂).mem q :=
    fun q hq => (hs q hq).trans (hwz q hq)
  have hlook : lookup cfg (φ₁.set_mem m₂).mem s.page_table v = lookup cfg φ.mem s.page_table v :=
    h.sameMap (fun t ht => hs₂ t fun he => hp (he ▸ List.mem_append_left _ ht)) v hown
  refine wp_mono (ho₂.map_one hframes hown (hfree.imp_right fun hc => hlook.trans hc.1)) ?_
  rintro pt' φ₃ ⟨hnone, hm, hu⟩
  rw [← hperm] at hu
  have hkeys : ∀ x ∈ s.area.data_frames, x.1 ≠ v := by
    rintro x hx rfl
    have hne : ∀ t ∈ s.page_table.tables, t ≠ p :=
      fun t ht he => hp (he ▸ List.mem_append_left _ ht)
    have := (hmap x hx).2
    rw [← (h.sameMap fun t ht => hs₂ t (hne t ht)) x.1 hown, hnone] at this
    simp at this
  rw [wp_bind]
  refine wp_mono (insert_frame_spec hkeys) ?_
  rintro area' φ₄ ⟨rfl, hperm', hfr⟩
  rw [wp_pure]
  have hp₃ : SameFrame m₂ φ₄.mem p := hm.same p List.mem_cons_self
  refine ⟨p, hwritten rfl rfl (fun i hi hi' => ?_) (fun i hi hi' => ?_), ?_⟩
  · rw [hp₃ _ (by omega) (by omega), hdata i hi hi', read_exact_get hbytes (by omega)]
  · rw [hp₃ _ (by omega) (by omega), hzero i hi hi']
  exact filled_one hp hown hs₂ (hr.set_mem _) hnone h hm hu hm.owns (fun _ _ => SameFrame.refl _ _)
    (SameRange.refl _) hperm' hfr

end HectoOs.Mm
