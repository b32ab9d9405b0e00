import HectoOs.Lib.TwoRuns
import HectoOs.Mm.Changes

/-! # What is left in free frames

Two states that differ only in what is left in free frames stay alike, whatever is allocated and
mapped: the page tables and the free list are read where the states agree. A frame that becomes a
table is filled, a frame that becomes a page keeps the bytes that nobody writes.
-/

open HectoOs.Lib HectoOs.ForwardList

namespace HectoOs.Mm

open PageTableImpl PhyPageAllocator

/-- The bytes of a frame behind its link in the free list. -/
def body (p : Nat) : Set Nat := Set.Ico (frame_va p + 8) (frame_va p + 4096)

/-- The bytes of the tables. -/
def PageTableImpl.bytes (pt : PageTableImpl) : Set Nat :=
  {a | ∃ t ∈ pt.tables, frame_va t ≤ a ∧ a < frame_va t + 4096}

/-- The states differ in the bytes `D`, none of which is a link. -/
structure Differ (D : Set Nat) (φ ψ : Phys) : Prop where
  allocator : ψ.allocator = φ.allocator
  mem : DifferOn D φ.mem ψ.mem
  links : ∀ a ∈ D, ∃ p, a ∈ body p

variable {cfg : Config} {mine : Fin 512 → Prop} {D W : Set Nat} {φ ψ φ' ψ' : Phys} {live : List Nat}
  {pt pt' : PageTableImpl} {p q t v a b : Nat}

theorem body_apart {x : Nat} (h : x ∈ body p) (q : Nat) : x < frame_va q ∨ frame_va q + 8 ≤ x := by
  rw [body, Set.mem_Ico] at h
  by_cases hpq : p = q
  · subst hpq
    omega
  · rcases frame_va_apart hpq with h' | h' <;> omega

theorem body_frame {x : Nat} (h : x ∈ body p) (hq : frame_va q ≤ x)
    (hq' : x < frame_va q + 4096) : q = p := by
  rw [body, Set.mem_Ico] at h
  by_contra hne
  rcases frame_va_apart hne with h' | h' <;> omega

namespace Differ

theorem links_apart (h : Differ D φ ψ) (q : Nat) :
    ∀ x ∈ D, x < frame_va q ∨ frame_va q + 8 ≤ x := by
  intro x hx
  obtain ⟨p, hp⟩ := h.links x hx
  exact body_apart hp q

theorem inRange (h : Differ D φ ψ) (p : Nat) : ψ.InRange p ↔ φ.InRange p := by
  unfold Phys.InRange
  rw [h.allocator]

theorem ref_count (h : Differ D φ ψ) (p : Nat) : ψ.ref_count p = φ.ref_count p := by
  unfold Phys.ref_count
  rw [h.allocator]

theorem set_ref_count (h : Differ D φ ψ) (p n : Nat) :
    Differ D (φ.set_ref_count p n) (ψ.set_ref_count p n) :=
  ⟨by rw [Phys.set_ref_count, Phys.set_ref_count, h.allocator], h.mem, h.links⟩

theorem congr {D' : Set Nat} (h : Differ D φ ψ) (hD : D' = D) : Differ D' φ ψ := hD ▸ h

theorem store {m m' : Mem} (h : Differ D φ ψ) (hm : SameOff φ.mem m a b)
    (hm' : SameOff ψ.mem m' a b) (hs : SameOn m m' a b) :
    Differ (D \ Set.Ico a b) (φ.set_mem m) (ψ.set_mem m') :=
  ⟨h.allocator, h.mem.store hm hm' hs, fun x hx => h.links x hx.1⟩

theorem store_apart {m m' : Mem} (h : Differ D φ ψ) (hm : SameOff φ.mem m a b)
    (hm' : SameOff ψ.mem m' a b) (hs : SameOn m m' a b) (hD : ∀ x ∈ D, x < a ∨ b ≤ x) :
    Differ D (φ.set_mem m) (ψ.set_mem m') :=
  ⟨h.allocator, h.mem.store_apart hm hm' hs hD, h.links⟩

end Differ

/-! ## The allocator -/

section Allocator

theorem usage_differ (h : Differ D φ ψ) :
    wp2 (usage p) (usage p) (fun _ φ' ψ' => φ' = φ ∧ ψ' = ψ) φ ψ := by
  refine wp2_get ?_
  rw [decide_eq_decide.mpr (h.inRange p), h.ref_count p]
  exact wp2_call (wp2_require fun _ => ⟨rfl, rfl⟩) fun _ _ _ hs => wp2_pure hs

theorem Differ.push (h : Differ D φ ψ) (p : Nat) :
    Differ D (φ.set_list (push_front φ.mem φ.allocator.free_list (frame_va p)))
      (ψ.set_list (push_front ψ.mem ψ.allocator.free_list (frame_va p))) := by
  refine ⟨by rw [Phys.set_list, Phys.set_list, h.allocator]; rfl, ?_, h.links⟩
  rw [h.allocator]
  exact h.mem.store_apart (store64_sameOff _ _ _) (store64_sameOff _ _ _)
    (store64_sameOn_self _ _ _ _) (h.links_apart p)

theorem dealloc_differ (h : Differ D φ ψ) :
    wp2 (dealloc p) (dealloc p) (fun _ => Differ D) φ ψ := by
  refine wp2_call (usage_differ h) ?_
  rintro count _ _ ⟨rfl, rfl⟩
  refine wp2_bind (wp2_require fun _ => wp2_bind (wp2_modify ?_))
  have h' := h.set_ref_count p (count - 1)
  refine wp2_ite (fun _ => ?_) fun _ => wp2_pure h'
  exact wp2_bind (wp2_require fun _ => wp2_modify (h'.push p))

theorem drop_frames_differ {l : List Nat} (h : Differ D φ ψ) :
    wp2 (drop_frames l) (drop_frames l) (fun _ => Differ D) φ ψ :=
  wp2_foldlM (fun _ _ => Differ D) h fun _ _ _ _ _ _ _ h => dealloc_differ h

theorem Differ.pop (h : Differ D φ ψ) (p : Nat) :
    Differ D (φ.set_list (pop_front φ.mem (frame_va p)))
    (ψ.set_list (pop_front ψ.mem (frame_va p))) := by
  have hlink : load64 ψ.mem (frame_va p) = load64 φ.mem (frame_va p) :=
    load64_same (h.mem.sameOn (h.links_apart p))
  refine ⟨by rw [Phys.set_list, Phys.set_list, h.allocator, pop_front,
    pop_front, hlink], ?_, h.links⟩
  exact h.mem.store_apart (store64_sameOff _ _ _) (store64_sameOff _ _ _)
    (store64_sameOn_self _ _ _ _) (h.links_apart p)

theorem frame_alloc_differ (h : Differ D φ ψ) (ha : AllocInv φ live) :
    wp2 frame_alloc frame_alloc (fun _ => Differ D) φ ψ := by
  refine wp2_bind (wp2_get ?_)
  obtain ⟨l, hl, _⟩ := ha.free
  rw [h.allocator]
  refine wp2_ite (fun _ => wp2_pure (wp2_unwrap fun _ _ => h)) fun hne => ?_
  -- the list is not empty, so that its head is the address of a frame
  obtain ⟨p, hp⟩ : ∃ p, φ.allocator.free_list = frame_va p := by
    cases l with
    | nil => exact absurd hl hne
    | cons p l => exact ⟨p, hl.1⟩
  rw [hp]
  have h' := h.pop p
  refine wp2_bind (wp2_set (wp2_bind (wp2_require fun _ => wp2_call (usage_differ h') ?_)))
  rintro count _ _ ⟨rfl, rfl⟩
  exact wp2_bind (wp2_require fun _ => wp2_bind
    (wp2_modify (wp2_pure (wp2_unwrap fun _ _ => h'.set_ref_count _ 1))))

end Allocator

/-! ## Page tables -/

section Tables

theorem Differ.sameFrame (h : Differ (D \ pt.bytes) φ ψ) (ht : t ∈ pt.tables) :
    SameFrame φ.mem ψ.mem t := by
  refine h.mem.sameOn fun x hx => ?_
  by_contra hin
  exact hx.2 ⟨t, ht, by omega, by omega⟩

theorem bytes_append (pt : PageTableImpl) (n : Nat) :
    D \ PageTableImpl.bytes { pt with frames := pt.frames ++ [n] } =
      (D \ pt.bytes) \ Set.Ico (frame_va n) (frame_va n + 4096) := by
  ext x
  simp only [Set.mem_sdiff, PageTableImpl.bytes, Set.mem_ofPred_eq, Set.mem_Ico,
    PageTableImpl.tables, List.mem_cons,
    List.mem_append, List.not_mem_nil, or_false, not_exists]
  constructor
  · rintro ⟨hD, hno⟩
    exact ⟨⟨hD, fun t ht => hno t ⟨ht.1.imp_right .inl, ht.2⟩⟩,
      fun hx => hno n ⟨.inr (.inr rfl), hx⟩⟩
  · rintro ⟨⟨hD, hno⟩, hn⟩
    refine ⟨hD, fun t ht => ?_⟩
    obtain ⟨rfl | ht | rfl, hx⟩ := ht
    · exact hno _ ⟨.inl rfl, hx⟩
    · exact hno t ⟨.inr ht, hx⟩
    · exact hn hx

theorem Differ.write_pte {e : PTEImpl} {i : Fin 512} (h : Differ (D \ pt.bytes) φ ψ)
    (ht : t ∈ pt.tables) :
    Differ (D \ pt.bytes) (φ.set_mem (write_pte φ.mem t i e))
    (ψ.set_mem (write_pte ψ.mem t i e)) := by
  refine h.store_apart (store64_sameOff _ _ _) (store64_sameOff _ _ _)
    (store64_sameOn_self _ _ _ _) fun x hx => ?_
  by_contra hin
  have := pte_addr_le t i
  exact hx.2 ⟨t, ht, by omega, by omega⟩

theorem create_table_differ {pte : Slot} (h : Differ (D \ pt.bytes) φ ψ) (ha : AllocInv φ live)
    (ht : pte.table ∈ pt.tables) :
    wp2 (create_table pt pte) (create_table pt pte) (fun pt' => Differ (D \ pt'.bytes)) φ ψ := by
  refine wp2_call (frame_alloc_differ h ha) fun n φ₁ ψ₁ h₁ => ?_
  have h₂ := h₁.store (zeroBytes_sameOff _ _ _) (zeroBytes_sameOff _ _ _)
    (zeroBytes_sameOn_self φ₁.mem ψ₁.mem (frame_va n) 4096)
  refine wp2_bind (wp2_modify (wp2_bind (wp2_modify (wp2_pure ?_))))
  rw [bytes_append]
  refine h₂.store_apart (store64_sameOff _ _ _) (store64_sameOff _ _ _)
    (store64_sameOn_self _ _ _ _) fun x hx => ?_
  by_contra hin
  have := pte_addr_le pte.table pte.index
  exact hx.1.2 ⟨_, ht, by omega, by omega⟩

theorem find_pte_create_loop_differ {rest : List (Fin 512)} :
    ∀ {live : List Nat} {φ ψ : Phys} {pt : PageTableImpl} {pte : Slot} {is : List (Fin 512)},
    AllocInv φ live → Tree cfg φ.mem pt mine → (∀ t ∈ pt.tables, t ∈ live) →
    is.length + rest.length = 2 →
    Inside mine (is ++ [pte.index]) → walk (child cfg)
    (read_pte φ.mem) pt.root is = some pte.table →
    Differ (D \ pt.bytes) φ ψ →
    wp2 (find_pte_create_loop cfg pt pte rest) (find_pte_create_loop cfg pt pte rest)
      (fun r => Differ (D \ r.1.bytes)) φ ψ := by
  induction rest with
  | nil =>
    intro live φ ψ pt pte is _ _ _ _ _ _ h
    exact wp2_pure h
  | cons idx rest ih =>
    intro live φ ψ pt pte is ha ht hl hlen hin hreach h
    rw [List.length_cons] at hlen
    have hin' : Inside mine (is ++ [pte.index] ++ [idx]) := by
      cases is with
      | nil => exact hin
      | cons i is => exact hin
    have hmem : pte.table ∈ pt.tables := by
      obtain ⟨path, hr⟩ := ht
      exact (hr.walk_own (by omega) hin.of_append hreach).1
    refine wp2_get ?_
    rw [read_pte_same (h.sameFrame hmem)]
    refine wp2_ite (fun hvalid => ?_) fun hinvalid => ?_
    · have hnext : walk (child cfg) (read_pte φ.mem) pt.root (is ++ [pte.index]) =
          some ((read_pte φ.mem pte.table pte.index).ppn cfg) := by
        rw [walk_snoc, hreach, Option.bind_some, child_of_valid hvalid]
      exact ih ha ht hl (by simp; omega) hin' hnext h
    · have hspec : wp (fun _ => True) (create_table pt pte) _ φ :=
        create_table_spec trivial ha ht hl (by omega) hin hreach (by simpa using hinvalid)
      refine wp2_call (wp2_and hspec (create_table_differ h ha hmem)) ?_
      rintro pt₁ φ₁ ψ₁ ⟨⟨n, hc, hentry, hwalk⟩, h₁⟩
      have hppn : (read_pte φ₁.mem pte.table pte.index).ppn cfg = n := by
        unfold child at hentry
        split at hentry
        · exact Option.some.inj hentry
        · simp at hentry
      refine wp2_get ?_
      rw [read_pte_same (h₁.sameFrame (hc.mem_tables.mpr (.inl hmem)))]
      subst hppn
      exact ih hc.alloc hc.tree (hc.tables_live hl) (by simp; omega) hin' hwalk h₁

theorem map_one_differ {f : PTEImpl} (ha : AllocInv φ live) (ht : Tree cfg φ.mem pt mine)
    (hl : ∀ t ∈ pt.tables, t ∈ live) (hv : Own mine v) (h : Differ (D \ pt.bytes) φ ψ) :
    wp2 (map_one cfg pt v p f) (map_one cfg pt v p f) (fun pt' => Differ (D \ pt'.bytes)) φ ψ := by
  have hin : Inside mine ([] ++ [vpn_index v 18]) := hv
  have hspec : wp (fun _ => True) (find_pte_create cfg pt v) _ φ :=
    find_pte_create_spec trivial ha ht hl hv
  have hloop : wp2 (find_pte_create cfg pt v) (find_pte_create cfg pt v)
    (fun r => Differ (D \ r.1.bytes)) φ ψ :=
    find_pte_create_loop_differ ha ht hl rfl hin rfl h
  refine wp2_call (wp2_and hspec hloop) ?_
  rintro ⟨pt', pte⟩ φ₁ ψ₁ ⟨⟨new, hc, _, hwalk⟩, h₁⟩
  have hmem : pte.table ∈ pt'.tables := by
    obtain ⟨path, hr⟩ := hc.tree
    have hin : Inside mine (inner v) := hv
    exact (hr.walk_own (le_refl 2) hin hwalk).1
  refine wp2_get ?_
  rw [read_pte_same (h₁.sameFrame hmem)]
  exact wp2_bind (wp2_require fun _ => wp2_bind (wp2_modify (wp2_pure (h₁.write_pte hmem))))

end Tables

/-! ## Pages -/

section Pages

variable {others : List Nat} {area area' : MapArea}

theorem insert_frame_differ (h : Differ D φ ψ) : wp2 (area.insert_frame v p) (area.insert_frame v p)
    (fun area' φ' ψ' => (v, p) ∈ area'.data_frames ∧ Differ D φ' ψ') φ ψ := by
  have hmem : (v, p) ∈ (SearchTree.insert compare v p (SearchTree.spine area.data_frames)).1 := by
    rcases SearchTree.insert_spec compare v p
      (SearchTree.spine area.data_frames) with ⟨l₁, l₂, _, hi⟩ | ⟨l₁, k, u, l₂, _, hi, hk⟩
    · simp [hi]
    · obtain rfl := Std.LawfulEqCmp.eq_of_compare hk
      simp [hi]
  exact wp2_call (drop_frames_differ h) fun _ _ _ h' => wp2_pure ⟨hmem, h'⟩

/-- The bytes that the pages of `l` get, by what each page gets. -/
def given (fill : Nat × Nat → Set Nat) (l : List (Nat × Nat)) : Set Nat := {a | ∃ x ∈ l, a ∈ fill x}

theorem map_frame_differ (ho : Owns cfg mine φ pt others) (hv : Own mine v)
    (h : Differ (D \ pt.bytes) φ ψ) :
    wp2 (map_frame cfg false (pt, area) v) (map_frame cfg false (pt, area) v) (fun s φ' ψ' =>
      ∃ p, (v, p) ∈ s.2.data_frames ∧ Differ (D \ s.1.bytes) φ' ψ') φ ψ := by
  have hspec : wp anyPanic frame_alloc _ φ := ho.frame_alloc fun _ => trivial
  refine wp2_call (wp2_and hspec (frame_alloc_differ h ho.alloc)) ?_
  rintro p φ₁ ψ₁ ⟨⟨_, ho₁, _⟩, h₁⟩
  refine wp2_call
    (map_one_differ ho₁.alloc ho₁.tree (fun _ ht => List.mem_append_left _ ht) hv h₁) ?_
  intro pt' φ₂ ψ₂ h₂
  refine wp2_call (insert_frame_differ h₂) ?_
  rintro area' φ₃ ψ₃ ⟨hmem, h₃⟩
  exact wp2_pure ⟨p, hmem, h₃⟩

theorem Filled.frame_eq (h : Filled cfg mine others φ pt area φ' pt' area' [(v, p)])
    (hm : Mapped cfg mine φ.mem pt area) (hq : (v, q) ∈ area'.data_frames) : q = p := by
  rcases List.mem_cons.mp (h.frames.mem_iff.mp hq) with he | hold
  · exact (Prod.mk.inj he).2
  · have hsome := (hm _ hold).2
    have hnone := h.maps.unmapped (v, _) (List.mem_singleton.mpr rfl)
    rw [hnone] at hsome
    simp at hsome

theorem given_append (fill : Nat × Nat → Set Nat) (l : List (Nat × Nat)) (x : Nat × Nat) :
    D \ given fill (l ++ [x]) = (D \ given fill l) \ fill x := by
  ext a
  simp only [given, Set.mem_sdiff, Set.mem_ofPred_eq, List.mem_append,
    List.mem_singleton, not_exists]
  constructor
  · rintro ⟨hD, hno⟩
    exact ⟨⟨hD, fun y hy => hno y ⟨.inl hy.1, hy.2⟩⟩, fun hx => hno x ⟨.inr rfl, hx⟩⟩
  · rintro ⟨⟨hD, hno⟩, hx⟩
    refine ⟨hD, ?_⟩
    rintro y ⟨hy | rfl, ha⟩
    · exact hno y ⟨hy, ha⟩
    · exact hx ha

theorem fill_loop_differ {σ : Type} (view : σ → PageTableImpl × MapArea)
    (J : List Nat → σ → Prop) (fill : Nat × Nat → Set Nat) {step : σ → Nat → Kernel σ}
    {l : List Nat} {s : σ} (ho : Owns cfg mine φ (view s).1 ((view s).2.frames ++ others))
    (hm : Mapped cfg mine φ.mem (view s).1 (view s).2) (hJ : J [] s)
    (h : Differ (D \ (view s).1.bytes) φ ψ) (hstep : ∀ done v rest s₁ φ, l = done ++ v :: rest →
    J done s₁ → (view s₁).2.map_perm = (view s).2.map_perm →
      Owns cfg mine φ (view s₁).1 ((view s₁).2.frames ++ others) →
      Mapped cfg mine φ.mem (view s₁).1 (view s₁).2 →
      wp anyPanic (step s₁ v) (fun s' φ' => ∃ p,
        Filled cfg mine others φ (view s₁).1 (view s₁).2 φ' (view s').1 (view s').2 [(v, p)]) φ ∧
      ∀ D ψ, Differ (D \ (view s₁).1.bytes) φ ψ → wp2 (step s₁ v) (step s₁ v)
      (fun s' φ' ψ' => J (done ++ [v]) s' ∧
        ∃ p, (v, p) ∈ (view s').2.data_frames ∧
          Differ ((D \ fill (v, p)) \ (view s').1.bytes) φ' ψ') φ ψ) :
    wp2 (l.foldlM step s) (l.foldlM step s) (fun s' φ' ψ' => ∃ new, new.map (·.1) = l ∧
      Filled cfg mine others φ (view s).1 (view s).2 φ' (view s').1 (view s').2 new ∧
      Differ ((D \ given fill new) \ (view s').1.bytes) φ' ψ') φ ψ := by
  refine wp2_mono (wp2_foldlM (fun done s' φ' ψ' => J done s' ∧ ∃ new, new.map (·.1) = done ∧
    Filled cfg mine others φ (view s).1 (view s).2 φ' (view s').1 (view s').2 new ∧
    Differ ((D \ given fill new) \ (view s').1.bytes) φ' ψ') ?_ ?_) fun _ _ _ h => h.2
  · refine ⟨hJ, [], rfl, Filled.refl ho, h.congr ?_⟩
    simp [given]
  · rintro done v rest s₁ φ₁ ψ₁ hl ⟨hJ₁, new, hnew, hf, h₁⟩
    obtain ⟨hspec, hdiff⟩ := hstep done v rest s₁ φ₁ hl hJ₁ hf.map_perm hf.owns (hf.mapped hm)
    refine wp2_mono (wp2_and hspec (hdiff _ _ h₁)) ?_
    rintro s₂ φ₂ ψ₂ ⟨⟨p, hf'⟩, hJ₂, q, hq, h₂⟩
    obtain rfl := hf'.frame_eq (hf.mapped hm) hq
    refine ⟨hJ₂, new ++ [(v, q)], by simp [hnew], hf.trans hf', h₂.congr ?_⟩
    rw [given_append]

theorem map_frames_differ {l : List Nat} (ho : Owns cfg mine φ pt (area.frames ++ others))
    (hown : ∀ v ∈ l, Own mine v) (hm : Mapped cfg mine φ.mem pt area)
    (h : Differ (D \ pt.bytes) φ ψ) :
    wp2 (l.foldlM (map_frame cfg false) (pt, area)) (l.foldlM (map_frame cfg false) (pt, area))
    (fun s φ' ψ' =>
      ∃ new, new.map (·.1) = l ∧ Filled cfg mine others φ pt area φ' s.1 s.2 new ∧
        Differ (D \ s.1.bytes) φ' ψ') φ ψ := by
  refine wp2_mono (fill_loop_differ (fun s => s) (fun _ _ => True) (fun _ => ∅)
    (s := (pt, area)) ho hm trivial h ?_) ?_
  · rintro done v rest s₁ φ₁ rfl _ _ ho₁ hm₁
    refine ⟨map_frame_spec false trivial ho₁ (hown v (by simp)) hm₁ (.inl trivial),
      fun D ψ₁ h₁ => ?_⟩
    refine wp2_mono (map_frame_differ ho₁ (hown v (by simp)) h₁) ?_
    rintro s₂ φ₂ ψ₂ ⟨p, hp, h₂⟩
    exact ⟨trivial, p, hp, h₂.congr (by rw [Set.sdiff_empty])⟩
  · rintro s' φ' ψ' ⟨new, hnew, hf, h'⟩
    refine ⟨new, hnew, hf, h'.congr ?_⟩
    simp [given]

end Pages

/-! ## Segments -/

section Segments

variable {others : List Nat} {ph : ProgramHeader}

/-- Where a segment starts to fill the page `v`. -/
def ProgramHeader.page_start (ph : ProgramHeader) (v : Nat) : Nat :=
  if v = floor ph.virtual_addr then page_offset ph.virtual_addr else 0

/-- The bytes that a segment gives to a page. -/
def ProgramHeader.fill (ph : ProgramHeader) (x : Nat × Nat) : Set Nat :=
  Set.Ico (frame_va x.2 + ph.page_start x.1)
    (frame_va x.2 + AddressSpace.bss_end ph.va_range.stop x.1)

theorem diff_diff_Ico {T : Set Nat} {a b c : Nat} (hab : a ≤ b) (hbc : b ≤ c) :
    (D \ Set.Ico a c) \ T = ((D \ T) \ Set.Ico a b) \ Set.Ico b c := by
  ext x
  simp only [Set.mem_sdiff, Set.mem_Ico]
  constructor
  · rintro ⟨⟨hD, hx⟩, hT⟩
    exact ⟨⟨⟨hD, hT⟩, by omega⟩, by omega⟩
  · rintro ⟨⟨⟨hD, hT⟩, hx⟩, hx'⟩
    exact ⟨⟨hD, by omega⟩, hT⟩

theorem load_page_differ (file : List Byte) {s : AddressSpace.Loading}
    (ho : Owns cfg mine φ s.page_table others) (hv : Own mine v)
    (h : Differ (D \ s.page_table.bytes) φ ψ) :
    wp2 (AddressSpace.load_page cfg file ph s v) (AddressSpace.load_page cfg file ph s v)
    (fun s' φ' ψ' =>
      s'.start = 0 ∧ ∃ p, (v, p) ∈ s'.area.data_frames ∧ Differ ((D \ Set.Ico (frame_va p + s.start)
        (frame_va p + AddressSpace.bss_end ph.va_range.stop v)) \ s'.page_table.bytes)
          φ' ψ') φ ψ := by
  have hspec : wp anyPanic frame_alloc _ φ := ho.frame_alloc fun _ => trivial
  refine wp2_call (wp2_and hspec (frame_alloc_differ h ho.alloc)) ?_
  rintro p φ₁ ψ₁ ⟨⟨hp, ho₁, _⟩, h₁⟩
  have hstop := data_end_le (ph.virtual_addr + ph.file_size) v
  have hstop2 := bss_end_le ph.va_range.stop v
  generalize AddressSpace.data_end (ph.virtual_addr + ph.file_size) v = stop at hstop ⊢
  generalize AddressSpace.bss_end ph.va_range.stop v = stop2 at hstop2 ⊢
  refine wp2_bind
    (wp2_require fun hle => wp2_bind (wp2_unwrap fun bytes hbytes => wp2_bind (wp2_modify ?_)))
  refine wp2_bind (wp2_require fun hle2 => wp2_bind (wp2_modify ?_))
  have hle := of_decide_eq_true hle
  have hle2 := of_decide_eq_true hle2
  have hlen := read_exact_length hbytes
  have hend : frame_va p + s.start + bytes.length = frame_va p + stop := by omega
  have hend2 : frame_va p + stop + (stop2 - stop) = frame_va p + stop2 := by omega
  have h₂ := h₁.store (writeBytes_sameOff _ _ _) (writeBytes_sameOff _ _ _)
    (writeBytes_sameOn_self φ₁.mem ψ₁.mem (frame_va p + s.start) bytes)
  have h₃ := h₂.store (zeroBytes_sameOff _ _ _) (zeroBytes_sameOff _ _ _)
    (zeroBytes_sameOn_self _ _ (frame_va p + stop) (stop2 - stop))
  rw [hend, hend2, ← diff_diff_Ico (by omega) (by omega)] at h₃
  simp only [Phys.set_mem_mem, Phys.set_mem_set_mem] at h₃ ⊢
  have hw : ∀ q, q ≠ p →
    SameFrame φ₁.mem (zeroBytes (writeBytes φ₁.mem (frame_va p + s.start) bytes) (frame_va p + stop)
      (stop2 - stop)) q := fun q hq =>
    (SameFrame.of_ne (b := frame_va p + s.start + bytes.length) (Ne.symm hq)
      (Nat.le_add_right _ s.start)
      (by omega) (writeBytes_sameOn _ _ _)).trans
    (SameFrame.of_ne (b := frame_va p + stop + (stop2 - stop)) (Ne.symm hq)
      (Nat.le_add_right _ stop)
      (by omega) (zeroBytes_sameOn _ _ _))
  generalize zeroBytes (writeBytes φ₁.mem (frame_va p + s.start) bytes)
    (frame_va p + stop) (stop2 - stop) = m at h₃ hw ⊢
  generalize zeroBytes (writeBytes ψ₁.mem (frame_va p + s.start) bytes)
    (frame_va p + stop) (stop2 - stop) = m' at h₃ ⊢
  have ho₂ := ho₁.write fun q hq _ => hw q fun he => hq (he ▸ List.mem_cons_self)
  refine wp2_call
    (map_one_differ ho₂.alloc ho₂.tree (fun _ ht => List.mem_append_left _ ht) hv h₃) ?_
  intro pt' φ₄ ψ₄ h₄
  refine wp2_call (insert_frame_differ h₄) ?_
  rintro area' φ₅ ψ₅ ⟨hmem, h₅⟩
  exact wp2_pure ⟨rfl, p, hmem, h₅⟩

theorem vpns_first {lo hi : Nat} {done rest : List Nat} (h : vpns lo hi = done ++ v :: rest) :
    v = lo ↔ done = [] := by
  rw [vpns_at h, ← List.length_eq_zero_iff]
  omega

theorem insert_area_differ {as : AddressSpace} {k : VARange} {area : MapArea} (h : Differ D φ ψ) :
    wp2 (AddressSpace.insert_area cfg as k area) (AddressSpace.insert_area cfg as k area)
    (fun as' φ' ψ' =>
      as'.page_table = as.page_table ∧ Differ D φ' ψ') φ ψ :=
  wp2_call (drop_frames_differ h) fun _ _ _ h' => wp2_pure ⟨rfl, h'⟩

theorem load_segment_differ (file : List Byte) {as : AddressSpace} {rest : List Nat}
    (hload : ph.load = true) (ho : Owns cfg mine φ as.page_table (as.frames ++ rest))
    (hown : ∀ v ∈ ph.pages, Own mine v) (h : Differ (D \ as.page_table.bytes) φ ψ) :
    wp2 (AddressSpace.load_segment cfg file as ph) (AddressSpace.load_segment cfg file as ph)
    (fun as' φ' ψ' =>
      ∃ φ₁ area' new, new.map (·.1) = ph.pages ∧
        Inserted cfg mine rest φ as ph.va_range ⟨[], .Framed, ph.map_perm⟩ φ₁ area' new φ' as' ∧
        Differ ((D \ given ph.fill new) \ as'.page_table.bytes) φ' ψ') φ ψ := by
  rw [ProgramHeader.pages, if_pos hload] at hown ⊢
  rw [AddressSpace.load_segment, if_pos hload]
  refine wp2_bind
    (wp2_require fun _ => wp2_bind (wp2_require fun _ => wp2_bind (wp2_unwrap fun l hl => ?_)))
  obtain rfl := vpn_range_eq hl
  generalize hstart :
    (⟨as.page_table, ⟨[], .Framed, ph.map_perm⟩, ph.offset, page_offset ph.virtual_addr⟩ :
    AddressSpace.Loading) = start
  have hpt : start.page_table = as.page_table := by rw [← hstart]
  have harea : start.area = ⟨[], .Framed, ph.map_perm⟩ := by rw [← hstart]
  have ho' : Owns cfg mine φ start.page_table (start.area.frames ++ (as.frames ++ rest)) := by
    rw [hpt, harea]
    exact ho
  have h' : Differ (D \ start.page_table.bytes) φ ψ := by
    rw [hpt]
    exact h
  refine wp2_call (fill_loop_differ (fun s : AddressSpace.Loading => (s.page_table, s.area))
    (fun done s => s.start = if done = [] then page_offset ph.virtual_addr else 0) ph.fill ho'
    (mapped_empty (by rw [harea])) (by rw [← hstart]; rfl) h' ?_) ?_
  · intro done v later s₁ φ₁ hl hs₁ hperm ho₁ hm₁
    have hv : Own mine v := hown v (by rw [hl]; simp)
    refine ⟨?_, fun D ψ₁ h₁ => ?_⟩
    · refine wp_mono
        (load_page_spec file trivial ho₁ (by rw [hperm, harea]) hv hm₁ (.inl trivial)) ?_
      rintro s₂ φ₂ ⟨p, _, hf⟩
      exact ⟨p, hf⟩
    refine wp2_mono (load_page_differ file ho₁ hv h₁) ?_
    rintro s₂ φ₂ ψ₂ ⟨hs₂, p, hp, h₂⟩
    refine ⟨by simp [hs₂], p, hp, h₂.congr ?_⟩
    have hfirst : v = floor ph.virtual_addr ↔ done = [] := vpns_first hl
    simp only [ProgramHeader.fill, ProgramHeader.page_start, hs₁, hfirst]
  dsimp only
  rw [hpt, harea]
  rintro s φ₁ ψ₁ ⟨new, hnew, hf, h₁⟩
  have hins : wp anyPanic _ _ φ₁ := insert_filled (k := ph.va_range) hf ph.va_range.stop
  refine wp2_mono (wp2_and hins (insert_area_differ h₁)) ?_
  rintro as' φ' ψ' ⟨⟨has, hi⟩, hpt', h₂⟩
  exact ⟨φ₁, s.area, new, hnew, hi, h₂.congr (by rw [hpt'])⟩

theorem map_and_insert_differ {as : AddressSpace} {r : VARange} {f : PTEImpl}
    {rest : List Nat} (ho : Owns cfg mine φ as.page_table (as.frames ++ rest))
    (hown : ∀ v ∈ vpns (floor r.start) (ceil r.stop), Own mine v)
    (h : Differ (D \ as.page_table.bytes) φ ψ) :
    wp2 (AddressSpace.map_and_insert cfg as r ⟨[], .Framed, f⟩ none)
      (AddressSpace.map_and_insert cfg as r ⟨[], .Framed, f⟩ none) (fun as' φ' ψ' =>
      ∃ φ₁ area' new, new.map (·.1) = vpns (floor r.start) (ceil r.stop) ∧
        Inserted cfg mine rest φ as r ⟨[], .Framed, f⟩ φ₁ area' new φ' as' ∧
        Differ (D \ as'.page_table.bytes) φ' ψ') φ ψ := by
  have ho' : Owns cfg mine φ as.page_table
    ((⟨[], .Framed, f⟩ : MapArea).frames ++ (as.frames ++ rest)) := by
    simpa [MapArea.frames] using ho
  refine wp2_bind (wp2_bind (wp2_unwrap fun l hl => ?_))
  obtain rfl := vpn_range_eq hl
  refine wp2_mono (map_frames_differ ho' hown (mapped_empty rfl) h) ?_
  rintro ⟨pt', area'⟩ φ₁ ψ₁ ⟨new, hnew, hf, h₁⟩
  have hins : wp anyPanic _ _ φ₁ := insert_filled (k := r) hf as.data_segment_end
  refine wp2_mono (wp2_and hins (insert_area_differ h₁)) ?_
  rintro as' φ' ψ' ⟨⟨has, hi⟩, hpt', h₂⟩
  exact ⟨φ₁, area', new, hnew, hi, h₂.congr (by rw [hpt'])⟩

end Segments

/-! ## New address spaces -/

section NewSpace

/-- The page table is a tree of live frames, and the states differ outside of it. -/
structure Alike (cfg : Config) (D : Set Nat) (pt : PageTableImpl) (φ ψ : Phys) : Prop where
  tree : Tree cfg φ.mem pt userHalf
  live : ∃ live, AllocInv φ live ∧ ∀ t ∈ pt.tables, t ∈ live
  differ : Differ (D \ pt.bytes) φ ψ

theorem map_one_alike {f : PTEImpl} (h : Alike cfg D pt φ ψ) (hv : Own userHalf v) :
    wp2 (map_one cfg pt v p f) (map_one cfg pt v p f) (Alike cfg D) φ ψ := by
  obtain ⟨live, ha, hl⟩ := h.live
  have hspec : wp anyPanic (map_one cfg pt v p f) _ φ :=
    map_one_spec ha h.tree hl hv trivial (.inl trivial)
  refine wp2_mono (wp2_and hspec (map_one_differ ha h.tree hl hv h.differ)) ?_
  rintro pt' φ' ψ' ⟨⟨_, new, hs, _⟩, h'⟩
  exact ⟨hs.tree, ⟨_, hs.alloc, hs.tables_live hl⟩, h'⟩

theorem map_devices_alike {l : List VARange} (h : Alike cfg D pt φ ψ)
    (hown : ∀ r ∈ l, ∀ v ∈ vpns (floor r.start) (ceil r.stop), Own userHalf v) :
    wp2 (l.foldlM (map_device cfg) pt) (l.foldlM (map_device cfg) pt) (Alike cfg D) φ ψ := by
  refine wp2_foldlM (fun _ => Alike cfg D) h ?_
  rintro done r later pt₁ φ₁ ψ₁ rfl h₁
  refine wp2_bind (wp2_bind (wp2_unwrap fun pages hpages => ?_))
  obtain rfl := vpn_range_eq hpages
  refine wp2_call (wp2_foldlM (fun _ => Alike cfg D) h₁ ?_) fun _ _ _ h' => wp2_pure (wp2_pure h')
  intro done v later pt₂ φ₂ ψ₂ hl h₂
  exact map_one_alike h₂ (hown r (by simp) v (by rw [hl]; simp))

theorem bytes_root (n : Nat) :
    D \ PageTableImpl.bytes ⟨n, []⟩ = (D \ Set.Ico (frame_va n) (frame_va n + 2048)) \
    Set.Ico (frame_va n + 2048) (frame_va n + 2048 + 2048) := by
  ext x
  simp only [Set.mem_sdiff, PageTableImpl.bytes, Set.mem_ofPred_eq, Set.mem_Ico,
    PageTableImpl.tables,
    List.mem_singleton, exists_eq_left]
  constructor
  · rintro ⟨hD, hx⟩
    exact ⟨⟨hD, by omega⟩, by omega⟩
  · rintro ⟨⟨hD, hx⟩, hx'⟩
    exact ⟨hD, by omega⟩

theorem new_kernel_alike {k : Nat} (h : Differ D φ ψ) (ha : AllocInv φ live) (hk : k ∈ live)
    (hD : ∀ x ∈ D, x < frame_va k ∨ frame_va k + 4096 ≤ x) :
    wp2 (PageTableImpl.new_kernel k) (PageTableImpl.new_kernel k) (Alike cfg D) φ ψ := by
  have hspec : wp anyPanic (PageTableImpl.new_kernel k)
    (fun pt φ' => NewRoot cfg userHalf live φ φ' pt ∧ _ ∧ _) φ :=
    new_kernel_spec trivial ha hk
  have hboth : wp2 (PageTableImpl.new_kernel k) (PageTableImpl.new_kernel k)
    (fun pt => Differ (D \ pt.bytes)) φ ψ := by
    refine wp2_call (frame_alloc_differ h ha) fun n φ₁ ψ₁ h₁ =>
      wp2_bind (wp2_modify (wp2_bind (wp2_modify ?_)))
    have h₂ := h₁.store (zeroBytes_sameOff _ _ _) (zeroBytes_sameOff _ _ _)
      (zeroBytes_sameOn_self φ₁.mem ψ₁.mem (frame_va n) 2048)
    have hroot :=
      h₂.mem.sameOn (a := frame_va k + 2048) (b := frame_va k + 2048 + 2048) fun x hx => by
      have := hD x hx.1
      omega
    refine wp2_pure ?_
    rw [bytes_root]
    exact h₂.store (copyBytes_sameOff _ _ _ _) (copyBytes_sameOff _ _ _ _)
      (copyBytes_sameOn_self hroot)
  refine wp2_mono (wp2_and hspec hboth) ?_
  rintro pt φ' ψ' ⟨⟨hroot, _⟩, h'⟩
  exact ⟨hroot.tree, ⟨_, hroot.alloc, fun t ht => List.mem_append_left _ ht⟩, h'⟩

theorem new_space_differ {k : Nat} (h : Differ D φ ψ) (ha : AllocInv φ live) (hk : k ∈ live)
    (hD : ∀ x ∈ D, x < frame_va k ∨ frame_va k + 4096 ≤ x) :
    wp2 (AddressSpace.new_kernel cfg k) (AddressSpace.new_kernel cfg k) (fun as φ' ψ' =>
      (NewSpace cfg live k φ φ' as.page_table ∧ as = ⟨as.page_table, [], .nil, 1, 1⟩) ∧
      Differ (D \ as.page_table.bytes) φ' ψ') φ ψ := by
  have hspec : wp anyPanic (AddressSpace.new_kernel cfg k) _ φ := new_space_spec trivial ha hk
  have hroot : wp2 (PageTableImpl.new_kernel k) (PageTableImpl.new_kernel k) (Alike cfg D) φ ψ :=
    new_kernel_alike h ha hk hD
  refine wp2_and hspec (wp2_call hroot fun pt φ₁ ψ₁ h₁ => ?_)
  refine wp2_call (map_devices_alike h₁ fun r hr v hv => ?_) fun pt' φ₂ ψ₂ h₂ => wp2_pure h₂.differ
  exact own_of_lt ((device_page_lt hr (List.mem_map.mpr ⟨v, hv, rfl⟩)).trans (by decide))

end NewSpace

end HectoOs.Mm
