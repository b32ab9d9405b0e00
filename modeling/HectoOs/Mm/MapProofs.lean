import HectoOs.Mm.PageTableProofs

/-! # Mapping many pages

`Maps` says which pages a loop of `map_one` has mapped. The kernel's page table and the page tables
that are made from it are built by such loops.
-/

open HectoOs.Lib

namespace HectoOs.Mm.PageTableImpl

variable {cfg : Config} {mine : Fin 512 → Prop} {m m' m'' : Mem}
  {pt pt' pt'' : PageTableImpl} {v w : Nat}

theorem lookup_mod (h : key v = key w) : lookup cfg m pt v = lookup cfg m pt w := by
  obtain ⟨h1, h2⟩ := indexes_inj.mpr h
  rw [lookup_eq, lookup_eq, h1, h2]

theorem own_mod (h : key v = key w) : Own mine v ↔ Own mine w := by
  have h1 : vpn_index v 18 = vpn_index w 18 := by
    have := (indexes_inj.mpr h).1
    simp only [inner, List.cons.injEq] at this
    exact this.1
  rw [Own, Own, h1]

/-- The pages of `l` were not mapped and are different; now they have the entries of `l`. -/
structure Maps (cfg : Config) (mine : Fin 512 → Prop) (m : Mem) (pt : PageTableImpl) (m' : Mem)
    (pt' : PageTableImpl) (l : List (Nat × PTEImpl)) : Prop where
  found : ∀ w e, Own mine w → (lookup cfg m' pt' w = some e ↔
    lookup cfg m pt w = some e ∨ ∃ x ∈ l, key x.1 = key w ∧ x.2 = e)
  unmapped : ∀ x ∈ l, lookup cfg m pt x.1 = none
  distinct : l.Pairwise fun x y => key x.1 ≠ key y.1

namespace Maps

variable {l l' : List (Nat × PTEImpl)}

theorem nil : Maps cfg mine m pt m pt [] where
  found := by simp
  unmapped := by simp
  distinct := List.Pairwise.nil

theorem trans (h : Maps cfg mine m pt m' pt' l) (h' : Maps cfg mine m' pt' m'' pt'' l')
    (hl : ∀ x ∈ l ++ l', Own mine x.1) : Maps cfg mine m pt m'' pt'' (l ++ l') where
  found w e hw := by
    rw [h'.found w e hw, h.found w e hw, or_assoc]
    simp only [List.mem_append, or_and_right, exists_or]
  unmapped x hx := by
    rcases List.mem_append.mp hx with hx' | hx'
    · exact h.unmapped x hx'
    · cases he : lookup cfg m pt x.1 with
      | none => rfl
      | some e =>
        have := (h.found x.1 e (hl x hx)).mpr (.inl he)
        rw [h'.unmapped x hx'] at this
        simp at this
  distinct := by
    refine List.pairwise_append.mpr ⟨h.distinct, h'.distinct, fun x hx y hy he => ?_⟩
    have := (h.found y.1 x.2 (hl y (List.mem_append_right _ hy))).mpr (.inr ⟨x, hx, he, rfl⟩)
    rw [h'.unmapped y hy] at this
    simp at this

theorem single {e : PTEImpl} (hnone : lookup cfg m pt v = none)
    (hu : Updates cfg mine m pt m' pt' v (some e)) : Maps cfg mine m pt m' pt' [(v, e)] where
  found w e' hw := by
    rw [hu w hw]
    by_cases h : key w = key v
    · rw [if_pos h, lookup_mod h, hnone]
      simp [h.symm]
    · have h' : ¬ key v = key w := Ne.symm h
      rw [if_neg h]
      simp [h']
  unmapped := by simpa using hnone
  distinct := List.pairwise_singleton _ _

theorem other (h : Maps cfg mine m pt m' pt' l) (hw : Own mine w)
    (hne : ∀ x ∈ l, key x.1 ≠ key w) : lookup cfg m' pt' w = lookup cfg m pt w := by
  refine Option.ext fun e => ?_
  rw [h.found w e hw]
  constructor
  · rintro (h' | ⟨x, hx, hxw, _⟩)
    · exact h'
    · exact absurd hxw (hne x hx)
  · exact .inl

theorem of_mem (h : Maps cfg mine m pt m' pt' l) {x : Nat × PTEImpl} (hx : x ∈ l)
    (ho : Own mine x.1) :
    lookup cfg m' pt' x.1 = some x.2 := (h.found x.1 x.2 ho).mpr (.inr ⟨x, hx, rfl, rfl⟩)

end Maps

section Loop

variable {may : Panic → Prop} {live : List Nat} {φ : Phys}

/-- What a page-mapping step does to the page `v`: afterwards its entry is `g v`. -/
def MapsOne (may : Panic → Prop) (cfg : Config) (mine : Fin 512 → Prop) (g : Nat → PTEImpl)
    (body : PageTableImpl → Nat → Kernel PageTableImpl) (v : Nat) : Prop :=
  ∀ {live : List Nat} {φ : Phys} {pt : PageTableImpl}, AllocInv φ live → Tree cfg φ.mem pt mine →
    (∀ t ∈ pt.tables, t ∈ live) → Own mine v → (may .assert ∨ lookup cfg φ.mem pt v = none) →
    wp may (body pt v) (fun pt' φ' => lookup cfg φ.mem pt v = none ∧
      ∃ new, Step cfg mine live φ pt φ' pt' new [] ∧
        Updates cfg mine φ.mem pt φ'.mem pt' v (some (g v))) φ

theorem map_loop_spec {body : PageTableImpl → Nat → Kernel PageTableImpl}
    {g : Nat → PTEImpl} {l : List Nat} (hbody : ∀ v ∈ l, MapsOne may cfg mine g body v)
    (ha : AllocInv φ live) (ht : Tree cfg φ.mem pt mine) (hl : ∀ t ∈ pt.tables, t ∈ live)
    (hown : ∀ v ∈ l, Own mine v) (hnone : may .assert ∨ (∀ v ∈ l, lookup cfg φ.mem pt v = none) ∧
      l.Pairwise fun v w => key v ≠ key w) :
    wp may (l.foldlM body pt) (fun pt' φ' => ∃ new, Step cfg mine live φ pt φ' pt' new [] ∧
      Maps cfg mine φ.mem pt φ'.mem pt' (l.map fun v => (v, g v))) φ := by
  refine wp_foldlM (fun done pt' φ' => ∃ new, Step cfg mine live φ pt φ' pt' new [] ∧
      Maps cfg mine φ.mem pt φ'.mem pt' (done.map fun v => (v, g v))) ?_ ?_
  · exact ⟨[], Step.refl ha ht, Maps.nil⟩
  · rintro done v rest pt₁ φ₁ rfl ⟨new, hs, hmaps⟩
    have hv : Own mine v := hown v (by simp)
    have hnone' : may .assert ∨ lookup cfg φ₁.mem pt₁ v = none := by
      refine hnone.imp_right fun ⟨hn, hp⟩ => ?_
      rw [hmaps.other hv, hn v (by simp)]
      intro x hx
      obtain ⟨u, hu, rfl⟩ := List.mem_map.mp hx
      exact (List.pairwise_append.mp hp).2.2 u hu v List.mem_cons_self
    refine wp_mono (hbody v (by simp) hs.alloc hs.tree (hs.tables_live hl) hv hnone') ?_
    rintro pt₂ φ₂ ⟨hn, new', hs', hu⟩
    refine ⟨new ++ new', hs.trans hs', ?_⟩
    rw [List.map_append]
    refine hmaps.trans (Maps.single hn hu) ?_
    intro x hx
    rcases List.mem_append.mp hx with hx | hx
    · obtain ⟨u, hu, rfl⟩ := List.mem_map.mp hx
      exact hown u (by simp [hu])
    · obtain rfl := List.mem_singleton.mp hx
      exact hv

end Loop

/-! ## Devices and linear areas -/

section Areas

variable {may : Panic → Prop} {live : List Nat} {φ : Phys}

/-- The pages of a device, with their entries. -/
def device_entries (r : VARange) : List (Nat × PTEImpl) :=
  (vpns (floor r.start) (ceil r.stop)).map fun v => (v, .new v (.READABLE ||| .WRITABLE ||| .VALID))

theorem mapsOne_map_one (hm : may .out_of_frames) (g : Nat → Nat) (perm : PTEImpl) :
    MapsOne may cfg mine (fun v => .new (g v) (perm ||| .VALID))
    (fun pt v => map_one cfg pt v (g v) perm) v :=
  fun ha ht hl hv hnone => map_one_spec ha ht hl hv hm hnone

theorem map_device_spec (hm : may .out_of_frames) (ha : AllocInv φ live)
    (ht : Tree cfg φ.mem pt mine) (hl : ∀ t ∈ pt.tables, t ∈ live) {r : VARange}
    (hceil : may .assert ∨ ceil_checks r.stop = true) (hown : ∀ x ∈ device_entries r, Own mine x.1)
    (hnone : may .assert ∨ (∀ x ∈ device_entries r, lookup cfg φ.mem pt x.1 = none) ∧
      (device_entries r).Pairwise fun x y => key x.1 ≠ key y.1) :
    wp may (map_device cfg pt r) (fun pt' φ' => ∃ new, Step cfg mine live φ pt φ' pt' new [] ∧
      Maps cfg mine φ.mem pt φ'.mem pt' (device_entries r)) φ := by
  rw [map_device, map_area, wp_bind, PageTableImpl.map, wp_bind, wp_unwrap]
  refine ⟨fun l hr => ?_, fun hr => ?_⟩
  · obtain rfl := vpn_range_eq hr
    simp only [wp_bind]
    refine map_loop_spec (fun v _ => mapsOne_map_one hm (fun v => v) _) ha ht hl ?_ ?_
    · intro v hv
      exact hown (v, _) (List.mem_map.mpr ⟨v, hv, rfl⟩)
    · refine hnone.imp_right fun ⟨h1, h2⟩ => ⟨fun v hv => ?_, ?_⟩
      · exact h1 (v, _) (List.mem_map.mpr ⟨v, hv, rfl⟩)
      · rw [device_entries, List.pairwise_map] at h2
        exact h2
  · unfold VARange.vpn_range at hr
    rcases hceil with h | h
    · exact h
    · rw [if_pos h] at hr
      simp at hr

/-- The pages of an area of the linear mapping, with their entries. -/
def linear_entries (r : VARange) (perm : PTEImpl) : List (Nat × PTEImpl) :=
  (vpns (floor r.start) (ceil r.stop)).map fun v => (v, .new (vpn_ppn v) (perm ||| .VALID))

theorem map_linear_spec (hm : may .out_of_frames) (hassert : may .assert) (ha : AllocInv φ live)
    (ht : Tree cfg φ.mem pt mine) (hl : ∀ t ∈ pt.tables, t ∈ live) {r : VARange} {perm : PTEImpl}
    (hown : ∀ x ∈ linear_entries r perm, Own mine x.1) :
    wp may (map_area cfg .Linear pt r perm)
    (fun pt' φ' => ∃ new, Step cfg mine live φ pt φ' pt' new [] ∧
      Maps cfg mine φ.mem pt φ'.mem pt' (linear_entries r perm)) φ := by
  rw [map_area, wp_bind, PageTableImpl.map, wp_bind, wp_unwrap]
  refine ⟨fun l hr => ?_, fun _ => hassert⟩
  obtain rfl := vpn_range_eq hr
  simp only [wp_bind]
  refine map_loop_spec (fun v _ => ?_) ha ht hl
    (fun v hv => hown (v, _) (List.mem_map.mpr ⟨v, hv, rfl⟩)) (.inl hassert)
  intro live φ pt ha ht hl hv hnone
  rw [map_linear, wp_bind, wp_assert]
  exact ⟨fun _ => map_one_spec ha ht hl hv hm hnone, fun _ => hassert⟩

end Areas

/-! ## A loop of areas -/

section AreaLoop

variable {may : Panic → Prop} {live : List Nat} {φ : Phys} {α : Type}

theorem area_loop_spec {body : PageTableImpl → α → Kernel PageTableImpl}
    {g : α → List (Nat × PTEImpl)} {l : List α} (ha : AllocInv φ live) (ht : Tree cfg φ.mem pt mine)
    (hl : ∀ t ∈ pt.tables, t ∈ live) (hown : ∀ x ∈ l.flatMap g, Own mine x.1)
    (hnone : may .assert ∨ (∀ x ∈ l.flatMap g, lookup cfg φ.mem pt x.1 = none) ∧
      (l.flatMap g).Pairwise fun x y => key x.1 ≠ key y.1)
    (hbody : ∀ a ∈ l, ∀ {live : List Nat} {φ : Phys} {pt : PageTableImpl}, AllocInv φ live →
      Tree cfg φ.mem pt mine → (∀ t ∈ pt.tables, t ∈ live) →
      (may .assert ∨ (∀ x ∈ g a, lookup cfg φ.mem pt x.1 = none) ∧
        (g a).Pairwise fun x y => key x.1 ≠ key y.1) →
      wp may (body pt a) (fun pt' φ' => ∃ new, Step cfg mine live φ pt φ' pt' new [] ∧
        Maps cfg mine φ.mem pt φ'.mem pt' (g a)) φ) :
    wp may (l.foldlM body pt) (fun pt' φ' => ∃ new, Step cfg mine live φ pt φ' pt' new [] ∧
      Maps cfg mine φ.mem pt φ'.mem pt' (l.flatMap g)) φ := by
  refine wp_foldlM (fun done pt' φ' => ∃ new, Step cfg mine live φ pt φ' pt' new [] ∧
      Maps cfg mine φ.mem pt φ'.mem pt' (done.flatMap g)) ?_ ?_
  · exact ⟨[], Step.refl ha ht, Maps.nil⟩
  · rintro done a rest pt₁ φ₁ rfl ⟨new, hs, hmaps⟩
    have hown' : ∀ x ∈ done.flatMap g ++ g a, Own mine x.1 := fun x hx => hown x (by
      simp only [List.flatMap_append, List.flatMap_cons, List.mem_append] at hx ⊢
      tauto)
    have hnone' : may .assert ∨ (∀ x ∈ g a, lookup cfg φ₁.mem pt₁ x.1 = none) ∧
        (g a).Pairwise fun x y => key x.1 ≠ key y.1 := by
      refine hnone.imp_right fun ⟨hn, hp⟩ => ?_
      rw [List.flatMap_append, List.flatMap_cons] at hp hn
      obtain ⟨_, hp', hcross⟩ := List.pairwise_append.mp hp
      refine ⟨fun x hx => ?_, (List.pairwise_append.mp hp').1⟩
      rw [hmaps.other (hown' x (List.mem_append_right _ hx)), hn x (by simp [hx])]
      exact fun y hy => hcross y hy x (List.mem_append_left _ hx)
    refine wp_mono (hbody a (by simp) hs.alloc hs.tree (hs.tables_live hl) hnone') ?_
    rintro pt₂ φ₂ ⟨new', hs', hmaps'⟩
    refine ⟨new ++ new', hs.trans hs', ?_⟩
    rw [List.flatMap_append, List.flatMap_singleton]
    exact hmaps.trans hmaps' hown'

end AreaLoop

/-! ## New roots -/

theorem tree_of_root {r : Nat} (h : ∀ i, mine i → read_pte m r i = .EMPTY) :
    Tree cfg m ⟨r, []⟩ mine := by
  refine ⟨fun _ => [], by simp [tables], rfl, fun t ht _ => by simpa [tables] using ht, ?_⟩
  intro t i t' ht _ hmine hchild
  obtain rfl : t = r := by simpa [tables] using ht
  rw [h i (hmine rfl)] at hchild
  exact absurd hchild (by simp [child, PTEImpl.is_valid_eq, PTEImpl.EMPTY])

theorem lookup_of_root {i : Fin 512} (hi : vpn_index v 18 = i) (h : read_pte m pt.root i = .EMPTY) :
    lookup cfg m pt v = none := by
  have hchild : child cfg (read_pte m pt.root (vpn_index v 18)) = none := by
    rw [hi, h]
    simp [child, PTEImpl.is_valid_eq, PTEImpl.EMPTY]
  rw [lookup_eq, find, inner, walk, hchild]
  rfl

theorem lookup_of_root_eq
    (h : read_pte m pt'.root (vpn_index v 18) = read_pte m pt.root (vpn_index v 18)) :
    lookup cfg m pt' v = lookup cfg m pt v := by
  rw [lookup_eq, lookup_eq, find, find, inner, walk, walk, h]

theorem tree_extend {k : Fin 512} (h : Tree cfg m pt (· ≠ k)) (hk : read_pte m pt.root k = .EMPTY) :
    Tree cfg m pt (fun _ => True) := by
  obtain ⟨path, h⟩ := h
  refine ⟨path, h.root_own, h.root_path, h.root_unique, ?_⟩
  intro t i t' ht hlen _ hchild
  refine h.down t i t' ht hlen (fun hnil hik => ?_) hchild
  rw [h.root_unique t ht hnil, hik, hk] at hchild
  exact absurd hchild (by simp [child, PTEImpl.is_valid_eq, PTEImpl.EMPTY])

/-! ## The kernel's page table, and page tables made from it -/

section New

variable {may : Panic → Prop} {live : List Nat} {φ : Phys}

/-- A page table with fresh frames, besides everything that was alive. -/
structure NewRoot (cfg : Config) (mine : Fin 512 → Prop) (live : List Nat)
    (φ φ' : Phys) (pt : PageTableImpl) :
    Prop where
  alloc : AllocInv φ' (pt.tables ++ live)
  fresh : ∀ t ∈ pt.tables, t ∉ live
  nodup : pt.tables.Nodup
  tree : Tree cfg φ'.mem pt mine
  same : ∀ q ∈ live, SameFrame φ.mem φ'.mem q
  range : SameRange φ φ'

theorem NewRoot.step {φ₁ φ₂ : Phys} {new : List Nat} (h : NewRoot cfg mine live φ φ₁ pt)
    (hs : Step cfg mine (pt.tables ++ live) φ₁ pt φ₂ pt' new []) :
    NewRoot cfg mine live φ φ₂ pt' := by
  have htab : pt'.tables = pt.tables ++ new := by
    rw [tables, hs.root, hs.frames, tables, List.cons_append]
  refine ⟨hs.alloc.congr fun p => ?_, fun t ht => ?_, ?_, hs.tree, fun q hq => ?_,
    h.range.trans hs.range⟩
  · simp only [htab, List.count_append, List.count_nil]
    omega
  · rcases hs.mem_tables.mp ht with ht | ht
    · exact h.fresh t ht
    · exact fun hl => hs.fresh t (by simpa using ht) (List.mem_append_right _ hl)
  · rw [htab]
    refine List.nodup_append.mpr ⟨h.nodup, by simpa using hs.nodup, fun a ha b hb he => ?_⟩
    exact hs.fresh b (by simpa using hb) (List.mem_append_left _ (he ▸ ha))
  · exact (h.same q hq).trans
      (hs.same q (List.mem_append_right _ hq) fun ht => h.fresh q ht hq)

theorem newRoot_of_fill {φ₁ : Phys} {n : Nat} (hn : PhyPageAllocator.Fresh φ φ₁ live n)
    (hs : ∀ q, q ≠ n → SameFrame φ₁.mem m q) (hz : ∀ i, mine i → read_pte m n i = .EMPTY) :
    NewRoot cfg mine live φ (φ₁.set_mem m) ⟨n, []⟩ where
  alloc := hn.inv.write fun q _ hq => hs q fun he => hq (he ▸ List.mem_cons_self)
  fresh := by simpa [tables] using hn.notMem
  nodup := List.nodup_singleton n
  tree := tree_of_root hz
  same q hq := by
    have hqn : q ≠ n := fun he => hn.notMem (he ▸ hq)
    exact (hn.same q hqn).trans (hs q hqn)
  range := hn.range.set_mem m

/-- The lower half of the address space. -/
def userHalf (i : Fin 512) : Prop := i.val < 256

instance : DecidablePred userHalf := fun i => inferInstanceAs (Decidable (i.val < 256))

theorem read_half {k n : Nat} (hk : k ≠ n) {i : Fin 512} :
    read_pte (copyBytes (zeroBytes m (frame_va n) 2048) (frame_va n + 2048)
      (frame_va k + 2048) 2048) n i =
      if i.val < 256 then .EMPTY else read_pte m k i := by
  by_cases hi : i.val < 256
  · have hlow : pte_addr n i + 8 ≤ frame_va n + 2048 := by
      unfold pte_addr
      omega
    rw [if_pos hi, read_pte, load64_same (copyBytes_sameOn _ _ _ _ _ _ (.inl hlow)),
      load64_zeroBytes _ _ _ _ (pte_addr_le n i).1 hlow]
    rfl
  · have hlt := i.isLt
    have haddr : frame_va k + 2048 + (pte_addr n i - (frame_va n + 2048)) = pte_addr k i := by
      unfold pte_addr
      omega
    have hsame : SameOn m (zeroBytes m (frame_va n) 2048) (pte_addr k i) (pte_addr k i + 8) := by
      refine zeroBytes_sameOn _ _ _ _ _ ?_
      have := pte_addr_le k i
      rcases frame_va_apart hk with h | h <;> omega
    rw [if_neg hi, read_pte, load64_copyBytes _ _ _ _ _ (by unfold pte_addr; omega)
      (by unfold pte_addr; omega), haddr, load64_same hsame, read_pte]

theorem new_kernel_spec (hm : may .out_of_frames) (ha : AllocInv φ live) {k : Nat} (hk : k ∈ live) :
    wp may (new_kernel k) (fun pt φ' => NewRoot cfg userHalf live φ φ' pt ∧
      (∀ v, Own userHalf v → lookup cfg φ'.mem pt v = none) ∧
      ∀ i, ¬ userHalf i → read_pte φ'.mem pt.root i = read_pte φ'.mem k i) φ := by
  rw [new_kernel, wp_bind]
  refine wp_mono (frame_alloc_spec (fun _ => hm) ha) ?_
  intro n φ₁ hn
  have hkn : k ≠ n := fun he => hn.notMem (he ▸ hk)
  rw [wp_bind, wp_modify, wp_bind, wp_modify, wp_pure, Phys.set_mem_mem, Phys.set_mem_set_mem]
  have hsame : ∀ q, q ≠ n → SameFrame φ₁.mem
      (copyBytes (zeroBytes φ₁.mem (frame_va n) 2048) (frame_va n + 2048)
        (frame_va k + 2048) 2048) q := by
    intro q hq
    refine (zeroBytes_sameFrame (n := 2048) (Ne.symm hq) (by omega)).trans ?_
    exact SameFrame.of_ne (a := frame_va n + 2048) (b := frame_va n + 2048 + 2048)
      (Ne.symm hq) (by omega)
      (by omega) (copyBytes_sameOn _ _ _ _)
  have hlow : ∀ i : Fin 512, userHalf i → read_pte
      (copyBytes (zeroBytes φ₁.mem (frame_va n) 2048) (frame_va n + 2048) (frame_va k + 2048) 2048)
        n i = .EMPTY :=
    fun i hi => (read_half hkn).trans (if_pos hi)
  refine ⟨newRoot_of_fill hn hsame hlow, fun v hv => ?_, fun i hi => ?_⟩
  · exact lookup_of_root rfl (hlow _ hv)
  · rw [Phys.set_mem_mem, read_pte_same (hsame k hkn)]
    exact (read_half hkn).trans (if_neg hi)

theorem index_ne_last {v : Nat} (h : v < 2 ^ 26 ∨ KERNEL_VPN_OFFSET ≤ v ∧ v < 0xFFFF_FFFF_C0000) :
    vpn_index v 18 ≠ 511 := by
  intro he
  have := congrArg Fin.val he
  rw [vpn_index_val] at this
  simp only [KERNEL_VPN_OFFSET] at h
  have h511 : (511 : Fin 512).val = 511 := rfl
  rw [h511] at this
  omega

theorem linear_index {sym : Layout} {a : VARange × PTEImpl} (ha : a ∈ sym.areas) {x : Nat × PTEImpl}
    (hx : x ∈ linear_entries a.1 a.2) : vpn_index x.1 18 ≠ 511 := by
  obtain ⟨v, hv, rfl⟩ := List.mem_map.mp hx
  have hv := mem_vpns.mp hv
  refine index_ne_last (.inr ⟨?_, ?_⟩)
  · have hstart : MEMORY_START ≤ a.1.start := by
      refine sym.above _ ?_
      simp only [Layout.areas, List.mem_cons, List.not_mem_nil, or_false] at ha
      rcases ha with rfl | rfl | rfl | rfl | rfl <;> simp
    have : KERNEL_VPN_OFFSET ≤ floor a.1.start := by
      simp only [floor, PAGE_SIZE, MEMORY_START, KERNEL_VPN_OFFSET] at *
      omega
    exact this.trans hv.1
  · have hstop : a.1.stop ≤ 0xFFFF_FFFF_C000_0000 := by
      refine sym.below _ ?_
      simp only [Layout.areas, List.mem_cons, List.not_mem_nil, or_false] at ha
      rcases ha with rfl | rfl | rfl | rfl | rfl <;> simp
    have : ceil a.1.stop ≤ 0xFFFF_FFFF_C0000 := by
      simp only [ceil, PAGE_SIZE] at *
      omega
    exact lt_of_lt_of_le hv.2 this

theorem device_page_lt {r : VARange} (hr : r ∈ cfg.devices) {x : Nat × PTEImpl}
    (hx : x ∈ device_entries r) :
    x.1 < FIRST_PPN := by
  obtain ⟨v, hv, rfl⟩ := List.mem_map.mp hx
  obtain ⟨d, hd, rfl⟩ := List.mem_map.mp hr
  have hv := mem_vpns.mp hv
  have := (cfg.mmio_low d hd).2
  simp only [ceil, PAGE_SIZE, FIRST_PPN] at *
  omega

/-- The kernel maps none of its pages for the user. -/
def NoUser (cfg : Config) (m : Mem) (pt : PageTableImpl) : Prop :=
  ∀ v e, lookup cfg m pt v = some e → e.getLsbD 4 = false

theorem noUser_device {r : VARange} : ∀ x ∈ device_entries r, x.2.getLsbD 4 = false := by
  intro x hx
  obtain ⟨v, _, rfl⟩ := List.mem_map.mp hx
  rw [PTEImpl.getLsbD_new _ _ (by omega)]
  decide

theorem noUser_linear {sym : Layout} {a : VARange × PTEImpl} (ha : a ∈ sym.areas) :
    ∀ x ∈ linear_entries a.1 a.2, x.2.getLsbD 4 = false := by
  intro x hx
  obtain ⟨v, _, rfl⟩ := List.mem_map.mp hx
  rw [PTEImpl.getLsbD_new _ _ (by omega)]
  simp only [Layout.areas, List.mem_cons, List.not_mem_nil, or_false] at ha
  rcases ha with rfl | rfl | rfl | rfl | rfl <;> (dsimp only; decide)

/-- There is a table for the kernel stacks, without pages. -/
structure StackTable (cfg : Config) (m : Mem) (pt : PageTableImpl) : Prop where
  valid : (read_pte m pt.root 511).is_valid = true
  empty : ∀ v, vpn_index v 18 = 511 → lookup cfg m pt v = none

theorem kernel_page_table_spec (sym : Layout) (ha : AllocInv φ live) :
    wp (fun _ => True) (kernel_page_table cfg sym) (fun pt φ' =>
      NewRoot cfg (fun _ => True) live φ φ' pt ∧ NoUser cfg φ'.mem pt ∧
        StackTable cfg φ'.mem pt) φ := by
  rw [kernel_page_table, wp_bind]
  refine wp_mono (frame_alloc_spec (fun _ => trivial) ha) ?_
  intro n φ₁ hn
  rw [wp_bind, wp_modify, wp_bind]
  generalize hφ₂ : φ₁.set_mem (zeroBytes φ₁.mem (frame_va n) 4096) = φ₂
  have hempty : ∀ i, read_pte φ₂.mem n i = .EMPTY := fun i => by
    rw [← hφ₂, Phys.set_mem_mem, read_pte_zero]
  have hroot : NewRoot cfg (· ≠ 511) live φ φ₂ ⟨n, []⟩ := by
    rw [← hφ₂]
    refine newRoot_of_fill hn
      (fun q hq => zeroBytes_sameFrame (Ne.symm hq) (le_refl _)) fun i _ => ?_
    exact read_pte_zero
  have hlin : ∀ x ∈ sym.areas.flatMap fun a => linear_entries a.1 a.2, vpn_index x.1 18 ≠ 511 := by
    intro x hx
    obtain ⟨a, ha, hx⟩ := List.mem_flatMap.mp hx
    exact linear_index ha hx
  have hdev : ∀ x ∈ cfg.devices.flatMap device_entries, vpn_index x.1 18 ≠ 511 := by
    intro x hx
    obtain ⟨r, hr, hx⟩ := List.mem_flatMap.mp hx
    exact index_ne_last (.inl ((device_page_lt hr hx).trans (by decide)))
  refine wp_mono (area_loop_spec (g := fun a => linear_entries a.1 a.2) hroot.alloc hroot.tree
    (fun t ht => List.mem_append_left _ ht) hlin (.inl trivial) ?_) ?_
  · intro a ha' live φ pt ha ht hl _
    exact map_linear_spec trivial trivial ha ht hl fun x hx => linear_index ha' hx
  rintro pt₁ φ₃ ⟨new₁, hs₁, hmaps₁⟩
  have hroot₁ := hroot.step hs₁
  rw [wp_bind]
  refine wp_mono (area_loop_spec (g := device_entries) hroot₁.alloc hroot₁.tree
    (fun t ht => List.mem_append_left _ ht) hdev (.inl trivial) ?_) ?_
  · intro r hr live φ pt ha ht hl _
    exact map_device_spec trivial ha ht hl (.inl trivial)
      (fun x hx => index_ne_last (.inl ((device_page_lt hr hx).trans (by decide)))) (.inl trivial)
  rintro pt₂ φ₄ ⟨new₂, hs₂, hmaps₂⟩
  have hroot₂ := hroot₁.step hs₂
  have hlast : read_pte φ₄.mem pt₂.root 511 = .EMPTY := by
    rw [hs₂.root, hs₂.keep 511 (fun h => h rfl), hs₁.root, hs₁.keep 511 (fun h => h rfl)]
    exact hempty 511
  have htree := tree_extend hroot₂.tree hlast
  have hindex : vpn_index (floor KERNEL_STACK_TOP) 18 = 511 := by decide +kernel
  rw [hindex]
  have hwalk : walk (child cfg) (read_pte φ₄.mem) pt₂.root [] = some pt₂.root := rfl
  have hin : Inside (fun _ => True) ([] ++ [(511 : Fin 512)]) := trivial
  refine wp_mono
    (create_table_spec trivial hroot₂.alloc htree (fun t ht => List.mem_append_left _ ht)
    (by simp) hin hwalk (by rw [hlast]; decide)) ?_
  rintro pt₃ φ₅ ⟨n', hc, hchild, _⟩
  have hsame : ∀ v, lookup cfg φ₅.mem pt₃ v = lookup cfg φ₄.mem pt₂ v := fun v => by
    rw [lookup_eq, hc.found (inner v) _ rfl trivial, ← lookup_eq]
  have hnone : ∀ v, vpn_index v 18 = 511 → lookup cfg φ₅.mem pt₃ v = none := fun v hv => by
    rw [hsame, lookup_of_root hv hlast]
  refine ⟨(NewRoot.mk hroot₂.alloc hroot₂.fresh hroot₂.nodup htree hroot₂.same hroot₂.range).step
    hc.toStep, ?_,
    ?_, hnone⟩
  · intro v e he
    by_cases hv : vpn_index v 18 = 511
    · rw [hnone v hv] at he
      simp at he
    · rw [hsame] at he
      rcases (hmaps₂.found v e hv).mp he with he | ⟨x, hx, _, rfl⟩
      · rcases (hmaps₁.found v e hv).mp he with he | ⟨x, hx, _, rfl⟩
        · rw [lookup_of_root rfl (hempty _)] at he
          simp at he
        · obtain ⟨a, ha, hx⟩ := List.mem_flatMap.mp hx
          exact noUser_linear ha x hx
      · obtain ⟨r, _, hx⟩ := List.mem_flatMap.mp hx
        exact noUser_device x hx
  · rw [hc.root]
    unfold child at hchild
    split at hchild
    · assumption
    · simp at hchild

end New

end HectoOs.Mm.PageTableImpl
