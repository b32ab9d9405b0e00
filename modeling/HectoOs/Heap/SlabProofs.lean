import HectoOs.Heap.SlabView

/-! # `malloc` and `free` keep the view

One spec for each function of `slab.rs`. Nothing panics but a request that is too large to be
rounded up to pages.
-/

open HectoOs.Lib HectoOs.Heap

namespace HectoOs.Slab

/-- The state of a run, seen as `v`. -/
structure Inv (c : Statics) (s : SlabState) (live : List Block) (v : View) : Prop where
  runs : RunsOk c s.runs
  view : v.Ok c s.runs live
  rep : Rep c s s.runs v

/-! ## What the page layer promises

`I` is what the layer keeps about the pages that nobody has.
-/

/-- Only pages that somebody has are written, and none changes hands. -/
structure Kept (c : Statics) (s s' : SlabState) : Prop where
  runs : s'.runs = s.runs
  list : s'.FREE_PAGE_LIST = s.FREE_PAGE_LIST
  mem : ∀ a, (∀ r ∈ c.usage_run :: s.runs, Outside r a) → s'.mem a = s.mem a

/-- What `page_alloc` leaves when it returns `a`. -/
def Handed (c : Statics) (I : SlabState → Prop) (s : SlabState) (npages a : Nat)
    (s' : SlabState) : Prop :=
  ∃ m l, s' = { s with
    mem := m, FREE_PAGE_LIST := l, runs := if a = 0 then s.runs else ⟨a, npages⟩ :: s.runs } ∧
    (∀ q ∈ c.usage_run :: s.runs, SameOn s.mem m q.start q.stop) ∧
    (a ≠ 0 → Fresh c (c.usage_run :: s.runs) ⟨a, npages⟩) ∧ I s'

/-- What `page_free` leaves. -/
def Returned (c : Statics) (I : SlabState → Prop) (s : SlabState) (addr npages : Nat)
    (s' : SlabState) : Prop :=
  ∃ m l, s' = { s with mem := m, FREE_PAGE_LIST := l, runs := without s.runs addr npages } ∧
    (∀ q ∈ c.usage_run :: without s.runs addr npages, SameOn s.mem m q.start q.stop) ∧ I s'

section Kept

variable {c : Statics} {s s' s'' : SlabState} {r : PageRun} {m : Mem} {lo hi : Nat}

theorem Kept.refl (c : Statics) (s : SlabState) : Kept c s s := ⟨rfl, rfl, fun _ _ => rfl⟩

theorem Kept.trans (h : Kept c s s') (h' : Kept c s' s'') : Kept c s s'' := by
  refine ⟨h'.runs.trans h.runs, h'.list.trans h.list, fun a ha => ?_⟩
  rw [← h.mem a ha]
  rw [← h.runs] at ha
  exact h'.mem a ha

theorem kept_of_sameOff (hruns : s'.runs = s.runs) (hlist : s'.FREE_PAGE_LIST = s.FREE_PAGE_LIST)
    (hr : r ∈ c.usage_run :: s.runs) (hlo : r.start ≤ lo) (hhi : hi ≤ r.stop)
    (hoff : SameOff s.mem s'.mem lo hi) :
    Kept c s s' := by
  refine ⟨hruns, hlist, fun a ha => hoff a ?_⟩
  have := ha r hr
  unfold Outside at this
  omega

end Kept

section Links

variable {c : Statics} {s : SlabState} {live : List Block} {v : View}

theorem Inv.listed_zone (h : Inv c s live v) {i z : Nat} (hz : z ∈ v.lists i) :
    ∃ Z, v.zones z = some Z := by
  obtain ⟨Z, hZ, -⟩ := (h.view.listed i z).mp hz
  exact ⟨Z, hZ⟩

theorem Inv.cached_zone (h : Inv c s live v) {z : Nat} (hz : z ∈ v.cache) :
    ∃ Z, v.zones z = some Z := by
  obtain ⟨Z, hZ, -⟩ := h.view.cached z hz
  exact ⟨Z, hZ⟩

theorem Inv.node_lt (hc : c.Ok) (h : Inv c s live v) {z : Nat} (hz : ∃ Z, v.zones z = some Z) :
    z < 2 ^ 64 := by
  obtain ⟨Z, hZ⟩ := hz
  have hb := h.view.zone_bounds hc h.runs hZ
  have := hc.top
  omega

theorem Inv.node_apart (hc : c.Ok) (h : Inv c s live v) {z z' : Nat}
    (hz : ∃ Z, v.zones z = some Z) (hz' : ∃ Z, v.zones z' = some Z) (hne : z ≠ z') :
    z + c.ZONE_SIZE ≤ z' ∨ z' + c.ZONE_SIZE ≤ z := by
  obtain ⟨Z, hZ⟩ := hz
  obtain ⟨Z', hZ'⟩ := hz'
  exact h.view.zone_apart hc h.runs hZ hZ' hne

theorem Inv.off_zone (hc : c.Ok) (h : Inv c s live v) {z a : Nat} (hz : ∃ Z, v.zones z = some Z)
    (ha : ∀ r ∈ c.usage_run :: s.runs, Outside r a) : a < z ∨ z + c.ZONE_SIZE ≤ a := by
  obtain ⟨Z, hZ⟩ := hz
  rw [← zone_stop hc]
  exact ha _ (List.mem_cons_of_mem _ (h.view.zone_run z Z hZ))

theorem Inv.notMem_list (h : Inv c s live v) {z i : Nat} {Z : Zone} (hZ : v.zones z = some Z)
    (hi : i ≠ Z.zi) :
    z ∉ v.lists i := by
  intro hz
  obtain ⟨Z', hZ', hzi, -⟩ := (h.view.listed i z).mp hz
  obtain rfl := Option.some.inj (hZ.symm.trans hZ')
  exact hi hzi.symm

theorem Inv.isList_behind (hc : c.Ok) (h : Inv c s live v) {m m' : Mem}
    {z head : Nat} {l : List Nat} (hl : ForwardList.IsList m head l) (hz : ∃ Z, v.zones z = some Z)
    (hmem : ∀ a ∈ l, ∃ Z, v.zones a = some Z) (hoff : SameOff m m' (z + 8) (z + c.ZONE_SIZE)) :
    ForwardList.IsList m' head l := by
  have hsize := hc.size
  refine ForwardList.isList_same hl fun a ha => ?_
  by_cases he : a = z
  · exact hoff.sameOn (by omega)
  · have hap := h.node_apart hc (hmem a ha) hz he
    exact hoff.sameOn (by omega)

theorem Inv.isList_off (hc : c.Ok) (h : Inv c s live v) {m' : Mem}
    {z head : Nat} {l : List Nat} (hl : ForwardList.IsList s.mem head l)
    (hz : ∃ Z, v.zones z = some Z) (hmem : ∀ a ∈ l, ∃ Z, v.zones a = some Z)
    (hne : z ∉ l) (hoff : SameOff s.mem m' z (z + c.ZONE_SIZE)) : ForwardList.IsList m' head l := by
  have hsize := hc.size
  refine ForwardList.isList_same hl fun a ha => ?_
  have hap := h.node_apart hc (hmem a ha) hz (fun he => hne (he ▸ ha))
  exact hoff.sameOn (by omega)

end Links

/-! ## `malloc` from a zone -/

section Take

variable {c : Statics} {s : SlabState} {live : List Block} {v : View} {zn zi n : Nat}
  {Z : Zone} {l : List Nat}
variable {may : Panic → Prop}

theorem Zone.Ok.free_behind (hc : c.Ok) (hZ : Z.Ok c zn) :
    ∀ a ∈ Z.free, zn + 48 ≤ a ∧ a + Z.size ≤ zn + c.ZONE_SIZE :=
  fun a ha => Zone.Chunk.bounds hc hZ.index hZ.limit hZ.uindex_le (hZ.free_chunk a ha)

/-- What `count_out` leaves: the zone is as before, but for its `z_nfree` and its place in the
list. -/
structure CountedOut (c : Statics) (s s' : SlabState) (v : View) (zn zi : Nat)
    (Z : Zone) (l : List Nat) : Prop where
  off : SameOff s.mem s'.mem zn (zn + 16)
  magic : z_magic s'.mem zn = z_magic s.mem zn
  stored : Stored c s'.mem zn Z (Z.nfree c - 1)
  runs : s'.runs = s.runs
  list : s'.FREE_PAGE_LIST = s.FREE_PAGE_LIST
  lists : ∀ i, ForwardList.IsList s'.mem (s'.ZONE_ARRAY i)
    (if Z.nfree c = 1 then relist v.lists zi l i else v.lists i)
  cached : s'.ZONE_FREE = s.ZONE_FREE
  count : s'.ZONE_FREE_CNT = s.ZONE_FREE_CNT

theorem count_out_spec (hc : c.Ok) (h : Inv c s live v) (hl : v.lists zi = zn :: l)
    (hZ : v.zones zn = some Z) :
    wp may (count_out zn zi) (fun _ s' => CountedOut c s s' v zn zi Z l) s := by
  have hmem : zn ∈ v.lists zi := by
    rw [hl]
    exact List.mem_cons_self
  obtain ⟨Z', hZ', hzi, hpos, -⟩ := (h.view.listed zi zn).mp hmem
  obtain rfl : Z = Z' := Option.some.inj (hZ.symm.trans hZ')
  have hsize := hc.size
  have hok := h.view.zone_ok zn Z hZ
  have hst := h.rep.stored zn Z hZ
  have hn := hst.nfree
  have hmax := (Zone.layout hc hok.index hok.limit).2.2
  have hst' : Stored c (set_nfree s.mem zn (Z.nfree c - 1)) zn Z (Z.nfree c - 1) :=
    hst.set_nfree (fun a ha => (hok.free_behind hc a ha).1) (by unfold Zone.nfree; omega)
  have hoff : SameOff s.mem (set_nfree s.mem zn (Z.nfree c - 1)) (zn + 12) (zn + 16) :=
    store32_sameOff _ _ _
  have hhead : s.ZONE_ARRAY zi = zn := by
    have := h.rep.lists zi
    rw [hl] at this
    exact this.1
  have hchain : ForwardList.IsList s.mem zn (zn :: l) := by
    have := h.rep.lists zi
    rwa [hl, hhead] at this
  have hz : ∃ Z, v.zones zn = some Z := ⟨Z, hZ⟩
  have hzones : ∀ i, ∀ a ∈ v.lists i, ∃ Z, v.zones a = some Z := fun i a ha => h.listed_zone ha
  simp only [count_out, wp_bind, wp_get, wp_require, set_mem, wp_modify, wp_ite, set_zone_list, hn]
  refine ⟨fun _ => ⟨fun h1 => ?_, fun h1 => ?_⟩, fun h0 => ?_⟩
  · -- The last free chunk: the zone leaves its list.
    have h1 : Z.nfree c = 1 := by omega
    have hpop := store64_sameOff (set_nfree s.mem zn (Z.nfree c - 1)) zn 0
    have hoff' := (hoff.mono (by omega) (by omega)).trans
      (hpop.mono (by omega : zn ≤ zn) (by omega : zn + 8 ≤ zn + 16))
    have hzn : zn ∉ l := (List.nodup_cons.mp hchain.nodup).1
    simp only [hhead, ForwardList.pop_front]
    refine ⟨hoff', ?_, hst'.same (hpop.sameOn (by omega)) (fun a ha => ?_),
      rfl, rfl, fun i => ?_, rfl, rfl⟩
    · exact (load32_store64_ne _ _ _ _ (by omega)).trans (load32_store32_ne _ _ _ _ (by omega))
    · have := (hok.free_behind hc a ha).1
      exact hpop.sameOn (by omega)
    · rw [if_pos h1]
      by_cases hi : i = zi
      · simp only [relist, if_pos hi]
        have hnext : load64 (set_nfree s.mem zn (Z.nfree c - 1)) zn = load64 s.mem zn :=
          load64_store32_ne _ _ _ _ (by omega)
        rw [hnext]
        exact h.isList_off hc hchain.2.2 hz (fun a ha => hzones zi a (by simp [hl, ha])) hzn
          (hoff'.mono (by omega) (by omega))
      · simp only [relist, if_neg hi]
        exact h.isList_off hc (h.rep.lists i) hz (hzones i) (h.notMem_list hZ (hzi ▸ hi))
          (hoff'.mono (by omega) (by omega))
  · have h1 : Z.nfree c ≠ 1 := by omega
    refine ⟨hoff.mono (by omega) (by omega), load32_store32_ne _ _ _ _ (by omega),
      hst', rfl, rfl, fun i => ?_, rfl, rfl⟩
    rw [if_neg h1]
    exact h.isList_behind hc (h.rep.lists i) hz (hzones i) (hoff.mono (by omega) (by omega))
  · simp [hpos] at h0

/-- The zone `Z` gives the chunk `p` to a block of `n` bytes and becomes `Z'`. -/
structure Picked (c : Statics) (m m' : Mem) (zn : Nat) (Z : Zone) (k n p : Nat)
    (Z' : Zone) : Prop where
  off : SameOff m m' (zn + 20) (zn + c.ZONE_SIZE)
  stored : Stored c m' zn Z' k
  ok : Z'.Ok c zn
  zi : Z'.zi = Z.zi
  held : Z'.held = ⟨p, n⟩ :: Z.held
  new : ∀ b ∈ Z.held, b.ptr ≠ p

theorem Picked.nfree {m m' : Mem} {k p : Nat} {Z' : Zone} (h : Picked c m m' zn Z k n p Z') :
    Z'.nfree c = Z.nfree c - 1 := by
  simp only [Zone.nfree, Zone.nmax, Zone.size, h.zi, h.held, List.length_cons]
  omega

theorem Picked.in_zone {m m' : Mem} {k p : Nat} {Z' : Zone} (hc : c.Ok)
    (h : Picked c m m' zn Z k n p Z') :
    in_zone c zn ⟨p, n⟩ = true := by
  have hb := (h.ok.held_chunk ⟨p, n⟩ (by simp [h.held])).1
  have := Zone.Chunk.bounds hc h.ok.index h.ok.limit h.ok.uindex_le hb
  have h8 := (Zone.size_facts h.ok.index).1
  simp only at this
  exact in_zone_iff.mpr (by simp only; omega)

theorem pick_chunk_spec {k : Nat} (hc : c.Ok) (hok : Z.Ok c zn) (hst : Stored c s.mem zn Z k)
    (hpos : 0 < Z.nfree c) (hn : n ≤ Z.size) (hz : zn + c.ZONE_SIZE < 2 ^ 64) :
    wp may (pick_chunk zn Z.size)
      (fun p s' => ∃ m' Z', s' = { s with mem := m' } ∧ Picked c s.mem m' zn Z k n p Z') s := by
  have hsize := hc.size
  have h8 := (Zone.size_facts hok.index).1
  have hmax := (Zone.layout hc hok.index hok.limit).2.2
  have hbehind := hok.free_behind hc
  simp only [pick_chunk, wp_bind, wp_get, wp_ite, set_mem, wp_modify, wp_pure,
    wp_require, hst.uindex, hst.nmax,
    hst.baseptr]
  refine ⟨fun hu => ?_, fun hu => ?_⟩
  · have hlt : Z.uindex < Z.nmax c := Nat.lt_of_le_of_ne hok.uindex_le hu
    refine ⟨_, Z.use_fresh zn n, rfl, ?_, ?_, hok.use_fresh hlt hn, rfl, rfl, ?_⟩
    · exact (store32_sameOff _ (zn + 20) _).mono (by omega) (by omega)
    · exact (hst.set_uindex (fun a ha => (hbehind a ha).1) (by omega)).with_held _
    · intro b hb
      exact hok.fresh_ne b.ptr (hok.held_chunk b hb).1
  · -- All chunks have been used, so one of them is free.
    obtain ⟨a, l, hl⟩ : ∃ a l, Z.free = a :: l := by
      refine List.exists_cons_of_ne_nil fun hnil => ?_
      have hcount := hok.count
      rw [hnil, List.length_nil] at hcount
      unfold Zone.nfree at hpos
      omega
    have hchain := hst.chain
    rw [hl] at hchain
    have hhead : z_freechunk s.mem zn = a := hchain.1
    have ha := hbehind a (by simp [hl])
    have hnew : a ∉ l := (List.nodup_cons.mp hchain.nodup).1
    rw [hhead]
    refine ⟨fun _ => ⟨_, Z.use_free a l n, rfl, ?_, ?_, hok.use_free hl hnew hn,
      rfl, rfl, ?_⟩, fun h0 => ?_⟩
    · exact ((store64_sameOff _ a _).mono (by omega) (by omega)).trans
        ((store64_sameOff _ (zn + 40) _).mono (by omega) (by omega))
    · exact (hst.pop hc hok hl hz).with_held _
    · rintro b hb rfl
      exact hok.apart b hb (by simp [hl])
    · have : a ≠ 0 := by omega
      simp [this] at h0

theorem Inv.mem_lists_take (h : Inv c s live v) (hl : v.lists zi = zn :: l)
    (hZ : v.zones zn = some Z) (hnd : zn ∉ l) (i x : Nat) :
    x ∈ (if Z.nfree c = 1 then relist v.lists zi l i else v.lists i) ↔
      if x = zn then i = zi ∧ 0 < Z.nfree c - 1 else x ∈ v.lists i := by
  obtain ⟨Z', hZ', hzi, hpos, hnc⟩ := (h.view.listed zi zn).mp (by simp [hl])
  obtain rfl : Z = Z' := Option.some.inj (hZ.symm.trans hZ')
  have hself : zn ∈ v.lists i ↔ i = zi := by
    rw [h.view.listed i zn]
    constructor
    · rintro ⟨X, hX, hXi, -⟩
      obtain rfl := Option.some.inj (hZ.symm.trans hX)
      exact hXi.symm.trans hzi
    · rintro rfl
      exact ⟨Z, hZ, hzi, hpos, hnc⟩
  by_cases h1 : Z.nfree c = 1
  · by_cases hx : x = zn
    · subst hx
      by_cases hi : i = zi <;> simp_all [relist]
    · by_cases hi : i = zi <;> simp_all [relist]
  · by_cases hx : x = zn
    · subst hx
      simp only [if_neg h1, ↓reduceIte, hself]
      omega
    · simp [h1, hx]

theorem take_spec (hc : c.Ok) (h : Inv c s live v) (hl : v.lists zi = zn :: l)
    (hn : n ≤ class_size zi) :
    wp may (do count_out zn zi; pick_chunk zn (class_size zi))
      (fun p s' => p ≠ 0 ∧ Kept c s s' ∧ ∃ v', Inv c s' (⟨p, n⟩ :: live) v') s := by
  obtain ⟨Z, hZ, hzi, hpos, hnc⟩ := (h.view.listed zi zn).mp (by simp [hl])
  have hsize := hc.size
  have htop := hc.top
  have hok := h.view.zone_ok zn Z hZ
  have hb := h.view.zone_bounds hc h.runs hZ
  have hz : ∃ Z, v.zones zn = some Z := ⟨Z, hZ⟩
  have hsz : class_size zi = Z.size := by rw [← hzi, Zone.size]
  refine wp_call (count_out_spec hc h hl hZ) fun _ s₁ h₁ => ?_
  rw [hsz]
  refine wp_mono (pick_chunk_spec hc hok h₁.stored hpos (hsz ▸ hn) (by omega)) ?_
  rintro p s' ⟨m', Z', rfl, hp⟩
  have hin := hp.in_zone hc
  have hin' := in_zone_iff.mp hin
  simp only at hin'
  have hnd : zn ∉ l := by
    have := (h.rep.lists zi).nodup
    rw [hl] at this
    exact (List.nodup_cons.mp this).1
  have hoff : SameOff s.mem m' zn (zn + c.ZONE_SIZE) :=
    (h₁.off.mono (by omega) (by omega)).trans (hp.off.mono (by omega) (by omega))
  have hcache : ∀ x, x ∈ v.cache ↔ x ∈ v.cache ∧ x ≠ zn := by
    intro x
    refine ⟨fun hx => ⟨hx, ?_⟩, fun hx => hx.1⟩
    rintro rfl
    exact hnc hx
  have hrun := h.view.zone_run zn Z hZ
  have hkept : Kept c s { s₁ with mem := m' } :=
    kept_of_sameOff h₁.runs h₁.list (List.mem_cons_of_mem _ hrun) (le_refl _) (zone_stop hc).ge hoff
  refine ⟨by omega, hkept,
    v.put zn Z' (fun i => if Z.nfree c = 1 then relist v.lists zi l i else v.lists i) v.cache, ?_⟩
  constructor
  case runs =>
    rw [h₁.runs]
    exact h.runs
  case view =>
    simp only [h₁.runs]
    refine h.view.put hc h.runs (fun r hr => hr)
      (fun r hr => .inl hr) hrun hp.ok ?_ ?_ ?_ ?_ hcache h.view.few
    · simp [hin]
    · simp [hin, hp.held, h.view.held zn Z hZ]
    · refine List.nodup_cons.mpr ⟨fun hmem => ?_, h.view.nodup⟩
      obtain ⟨b, hb, hbp⟩ := List.mem_map.mp hmem
      have hbin : in_zone c zn b = true := in_zone_iff.mpr (by rw [hbp]; exact hin')
      exact hp.new b (h.view.block_chunk hZ hb hbin).1 hbp
    · intro i x
      rw [hp.zi, hp.nfree, hzi]
      exact h.mem_lists_take hl hZ hnd i x
  case rep =>
    simp only [h₁.runs]
    refine h.rep.put hc h.runs h.view (fun r hr => hr)
      (fun r hr => .inl hr) hrun hoff ?_ ?_ (h.rep.marks zn Z hZ)
      hcache ?_ ?_ ?_
    · rw [hp.nfree]
      exact hp.stored
    · refine (load32_same (hp.off.sameOn (by omega))).trans
        (h₁.magic.trans (h.rep.magic zn Z hZ hnc))
    · intro i
      refine h.isList_behind hc (h₁.lists i) hz (fun a ha => ?_) (hp.off.mono (by omega) (by omega))
      have := (h.mem_lists_take hl hZ hnd i a).mp ha
      split at this
      · rename_i he
        exact he ▸ hz
      · exact h.listed_zone this
    · simp only [h₁.cached]
      exact h.isList_off hc h.rep.cached hz (fun a ha => h.cached_zone ha) hnc hoff
    · simp only [h₁.count]
      exact h.rep.count

end Take

/-! ## The page layer -/

section Pages

variable {c : Statics} {s : SlabState} {live : List Block} {v : View} {ans : PageAnswer}
  {r : PageRun} {pages : PageLayer}
variable {I : SlabState → Prop} {may : Panic → Prop} {m m' : Mem} {l : Nat}

theorem PageAnswer.apply_sameOn {a b : Nat} (m : Mem) (h : ∀ x ∈ ans.writes, x.1 < a ∨ b ≤ x.1) :
    SameOn m (ans.apply m) a b := by
  unfold PageAnswer.apply
  generalize ans.writes = ws at h
  induction ws generalizing m with
  | nil => exact SameOn.refl _ _ _
  | cons w ws ih =>
    have hw := h w List.mem_cons_self
    rw [List.foldl_cons]
    exact (storeByte_sameOn m w.1 w.2 a b (by omega)).trans
      (ih _ fun x hx => h x (List.mem_cons_of_mem _ hx))

theorem entry_off (hc : c.Ok) {q : PageRun} (hr : Fresh c [] r) (hq : Fresh c [] q)
    (hap : q.stop ≤ r.start ∨ r.stop ≤ q.start) {k : Nat} (hk : k < q.npages) :
    btokup c (q.start + k * PAGE) + 16 ≤ btokup c r.start ∨
      btokup c r.start + r.npages * 16 ≤ btokup c (q.start + k * PAGE) := by
  have h1 := hr.aligned
  have h2 := hr.above
  have h3 := hq.aligned
  have h4 := hq.above
  have h5 := hc.aligned
  simp only [btokup, PageRun.stop, PAGE, USAGE_SIZE] at h1 h2 h3 h4 h5 hap ⊢
  omega

theorem Rep.entries (hc : c.Ok) {runs : List PageRun} (hr : RunsOk c runs)
    (hv : v.Ok c runs live) (h : Rep c s runs v) (hf : Fresh c [] r)
    (hap : Apart r runs) {m' : Mem} (hmem : ∀ q ∈ runs, SameOn s.mem m' q.start q.stop)
    (htab : ∀ x, c.usage_run.start ≤ x → x < c.usage_run.stop →
      x < btokup c r.start ∨ btokup c r.start + r.npages * 16 ≤ x → m' x = s.mem x)
      (runs' : List PageRun) :
    Rep c { s with mem := m', FREE_PAGE_LIST := l, runs := runs' } runs v := by
  refine h.same hc hv hmem (fun q hq k hk => ?_) hr rfl rfl rfl
  have hq' := (hr.fresh q hq).alone
  have hoff := entry_off hc hf hq' (hap q hq) hk
  have hin := run_entries hc hq'
  have hpage := btokup_page (k := k) hq'.above
  have hle : (k + 1) * 16 ≤ q.npages * 16 := Nat.mul_le_mul_right _ hk
  exact usage_same fun x hx hx' => htab x (by omega) (by omega) (by omega)

theorem Inv.fresh_run (hc : c.Ok) (h : Inv c s live v) (hf : Fresh c (c.usage_run :: s.runs) r)
    (hsame : ∀ q ∈ c.usage_run :: s.runs, SameOn s.mem m q.start q.stop)
    (hent : SameOff m m' (btokup c r.start) (btokup c r.start + r.npages * 16)) :
    Rep c { s with mem := m', FREE_PAGE_LIST := l, runs := r :: s.runs } s.runs v := by
  have hr := hf.alone
  have htab := run_entries hc hr
  refine h.rep.entries hc h.runs h.view hr (fun q hq => hf.apart q (List.mem_cons_of_mem _ hq))
    (fun q hq => ?_)
    (fun x h1 h2 hx => ?_) _
  · have hap := (h.runs.fresh q hq).apart c.usage_run List.mem_cons_self
    exact (hsame q (List.mem_cons_of_mem _ hq)).trans (hent.sameOn (by omega))
  · exact (hent x hx).trans (hsame c.usage_run List.mem_cons_self x h1 h2)

theorem Inv.page_writes (hc : c.Ok) (h : Inv c s live v)
    (hsame : ∀ q ∈ c.usage_run :: s.runs, SameOn s.mem m q.start q.stop) :
    Inv c { s with mem := m, FREE_PAGE_LIST := l } live v := by
  refine ⟨h.runs, h.view, h.rep.same hc h.view (fun q hq => ?_)
    (fun q hq k hk => ?_) h.runs rfl rfl rfl⟩
  · exact hsame q (List.mem_cons_of_mem _ hq)
  · exact usage_run_same hc h.runs (hsame _ List.mem_cons_self) hq hk

theorem le_round_up_page (n : Nat) : n ≤ round_up n PAGE / PAGE * PAGE := by
  rw [round_up_page]
  simp only [PAGE]
  omega

theorem Fresh.npages_lt (hc : c.Ok) {runs : List PageRun} (hf : Fresh c runs r) :
    r.npages < 2 ^ 32 := by
  have h1 := hf.above
  have h2 := hf.below
  have h3 := hc.small
  simp only [PageRun.stop, PAGE] at h2
  omega

theorem malloc_pages_spec {size : Nat} (hc : c.Ok)
    (h : Inv c s live v) (hI : ∀ {s s'}, I s → Kept c s s' → I s')
    (hmay : round_up_checks size = false → may .request_overflow) (halloc : wp may
    (pages.page_alloc (round_up size PAGE / PAGE)) (Handed c I s (round_up size PAGE / PAGE)) s) :
    wp may (malloc_pages c size pages)
      (fun p s' => I s' ∧ ∃ v', Inv c s' (if p = 0 then live else ⟨p, size⟩ :: live) v') s := by
  rw [malloc_pages, wp_bind, wp_require]
  refine ⟨fun _ => wp_call halloc ?_, hmay⟩
  rintro p _ ⟨m, l, rfl, hsame, hf, hown⟩
  simp only [wp_bind, wp_require, wp_modify, wp_pure, wp_ite, set_mem]
  refine ⟨fun h0 => ?_, fun h0 => ?_⟩
  · simp only [h0, ↓reduceIte] at hown ⊢
    exact ⟨hown, v, h.page_writes hc hsame⟩
  · have hf := hf h0
    simp only [if_neg h0] at hown ⊢
    refine ⟨fun _ => ⟨?_, v, ?_, ?_, ?_⟩, fun hlt => ?_⟩
    · have hentry :=
        btokup_bounds hc hf.above (PageRun.start_lt_stop hf.nonempty |>.trans_le hf.below)
      have hoff : SameOff m
        (set_usage m (btokup c p) (.Page (round_up size PAGE / PAGE))) (btokup c p)
        (btokup c p + 16) := set_usage_sameOff _
      exact hI hown (kept_of_sameOff rfl rfl List.mem_cons_self hentry.1 hentry.2 hoff)
    · exact h.runs.cons hf h0
    · exact h.view.add_page hc h.runs hf (le_round_up_page size)
    · have hoff :
        SameOff m (set_usage m (btokup c p) (.Page (round_up size PAGE / PAGE))) (btokup c p)
          (btokup c p + round_up size PAGE / PAGE * 16) := by
        have := hf.nonempty
        exact (set_usage_sameOff _).mono (by omega) (by simp only at this; omega)
      have hsmall : (PageUsage.Page (round_up size PAGE / PAGE)).Small := hf.npages_lt hc
      have hrep := h.fresh_run (l := l) hc hf hsame hoff
      refine { hrep with pages := fun r hr hnone => ?_ }
      rcases List.mem_cons.mp hr with rfl | hr
      · exact usage_set_usage hsmall
      · exact hrep.pages r hr hnone
    · have := hf.above
      simp only [decide_eq_false_iff_not] at hlt
      exact absurd this hlt

end Pages

/-! ## `malloc` from a new zone -/

section NewZone

variable {c : Statics} {s : SlabState} {live : List Block} {v : View} {pages : PageLayer}
  {zn zi n : Nat} {m : Mem} {l : Nat}
variable {I : SlabState → Prop} {may : Panic → Prop}

/-- What `new_zone` returns: the run of pages at `zn` is marked as a zone, and neither a list nor a
block has it. `m` is the memory before the run was touched. -/
structure Opened (c : Statics) (s s' : SlabState) (live : List Block) (v : View)
    (m : Mem) (zn : Nat) (cache' : List Nat) : Prop where
  runs : RunsOk c s'.runs
  old : ∀ r ∈ s.runs, r ∈ s'.runs
  new : ∀ r ∈ s'.runs, r ∈ s.runs ∨ r.start = zn
  run : ⟨zn, c.ZONE_PAGE_CNT⟩ ∈ s'.runs
  rep : Rep c { s' with
    mem := m, ZONE_FREE := s.ZONE_FREE, ZONE_FREE_CNT := s.ZONE_FREE_CNT } s.runs v
  off : SameOff m s'.mem zn (zn + c.ZONE_SIZE)
  marks : ∀ k < c.ZONE_PAGE_CNT, usage m (btokup c (zn + k * PAGE)) = some (.Zone k)
  mem_cache : ∀ x, x ∈ cache' ↔ x ∈ v.cache ∧ x ≠ zn
  cached : ForwardList.IsList s'.mem s'.ZONE_FREE cache'
  count : s'.ZONE_FREE_CNT = cache'.length
  few : cache'.length ≤ ZONE_FREE_CNT_LIMIT
  unlisted : ∀ i, zn ∉ v.lists i
  unused : ∀ b ∈ live, in_zone c zn b = false
  apart : ∀ z Z, v.zones z = some Z → z ≠ zn → z + c.ZONE_SIZE ≤ zn ∨ zn + c.ZONE_SIZE ≤ z

theorem Inv.open_cached (hc : c.Ok) (h : Inv c s live v) {l : List Nat} (hl : v.cache = zn :: l) :
    Opened c s { s with mem := store64 s.mem zn 0, ZONE_FREE := load64 s.mem zn, ZONE_FREE_CNT := s.ZONE_FREE_CNT - 1 }
      live v s.mem zn l := by
  have hsize := hc.size
  have hmem : zn ∈ v.cache := by simp [hl]
  obtain ⟨Z, hZ, hheld⟩ := h.view.cached zn hmem
  have hz : ∃ Z, v.zones zn = some Z := ⟨Z, hZ⟩
  have hchain := h.rep.cached
  rw [hl] at hchain
  have hnd := (List.nodup_cons.mp hchain.nodup).1
  have hhead : s.ZONE_FREE = zn := hchain.1
  rw [hhead] at hchain
  have hoff : SameOff s.mem (store64 s.mem zn 0) zn (zn + c.ZONE_SIZE) :=
    (store64_sameOff _ _ _).mono (by omega) (by omega)
  have hcnt := h.rep.count
  have hfew := h.view.few
  rw [hl, List.length_cons] at hcnt hfew
  constructor
  case runs => exact h.runs
  case old => exact fun r hr => hr
  case new => exact fun r hr => .inl hr
  case run => exact h.view.zone_run zn Z hZ
  case rep => exact h.rep
  case off => exact hoff
  case marks => exact h.rep.marks zn Z hZ
  case mem_cache =>
    intro x
    rw [hl, List.mem_cons]
    constructor
    · intro hx
      refine ⟨.inr hx, ?_⟩
      rintro rfl
      exact hnd hx
    · rintro ⟨rfl | hx, hne⟩
      · exact absurd rfl hne
      · exact hx
  case cached =>
    exact h.isList_off hc hchain.2.2 hz (fun a ha => h.cached_zone (by simp [hl, ha])) hnd hoff
  case count =>
    simp only
    omega
  case few => omega
  case unlisted =>
    intro i hi
    obtain ⟨-, -, -, -, hnc⟩ := (h.view.listed i zn).mp hi
    exact hnc hmem
  case unused => exact h.view.no_block hZ hheld
  case apart => exact fun z X hX hne => h.node_apart hc ⟨X, hX⟩ hz hne

theorem Inv.open_fresh (hc : c.Ok) (h : Inv c s live v)
    (hsame : ∀ q ∈ c.usage_run :: s.runs, SameOn s.mem m q.start q.stop)
    (hf : Fresh c (c.usage_run :: s.runs) ⟨zn, c.ZONE_PAGE_CNT⟩) (h0 : zn ≠ 0) :
    Opened c s { s with
      mem := set_usages m (btokup c zn) .Zone c.ZONE_PAGE_CNT
      FREE_PAGE_LIST := l
      runs := ⟨zn, c.ZONE_PAGE_CNT⟩ :: s.runs } live v
      (set_usages m (btokup c zn) .Zone c.ZONE_PAGE_CNT) zn v.cache := by
  have hrep := h.fresh_run (l := l) hc hf hsame (set_usages_sameOff PageUsage.Zone)
  have hap : ∀ z Z, v.zones z = some Z → z + c.ZONE_SIZE ≤ zn ∨ zn + c.ZONE_SIZE ≤ z := by
    intro z Z hz
    have := h.view.zone_off_fresh hc hf hz
    rw [zone_stop hc] at this
    exact this
  have hnone : ∀ z, (∃ Z, v.zones z = some Z) → z ≠ zn := by
    rintro z ⟨Z, hz⟩ rfl
    have := hap z Z hz
    have := hc.size
    omega
  constructor
  case runs => exact h.runs.cons hf h0
  case old => exact fun r hr => List.mem_cons_of_mem _ hr
  case new =>
    intro r hr
    rcases List.mem_cons.mp hr with rfl | hr
    · exact .inr rfl
    · exact .inl hr
  case run => exact List.mem_cons_self
  case rep => exact hrep
  case off => exact SameOff.refl _ _ _
  case marks =>
    intro k hk
    rw [btokup_page hf.above]
    refine usage_set_usages (fun i hi => ?_) k hk
    have := hf.npages_lt hc
    exact Nat.lt_trans hi this
  case mem_cache => exact fun x => ⟨fun hx => ⟨hx, hnone x (h.cached_zone hx)⟩, fun hx => hx.1⟩
  case cached => exact hrep.cached
  case count => exact hrep.count
  case few => exact h.view.few
  case unlisted => exact fun i hi => hnone zn (h.listed_zone hi) rfl
  case unused =>
    intro b hb
    have := h.view.block_off_fresh hc h.runs hf hb
    rw [zone_stop hc] at this
    rw [← Bool.not_eq_true, in_zone_iff]
    simp only at this
    omega
  case apart => exact fun z Z hz _ => hap z Z hz

theorem new_zone_spec (hc : c.Ok) (h : Inv c s live v) (hI : ∀ {s s'}, I s → Kept c s s' → I s')
    (hown : I s) (halloc : wp may (pages.page_alloc (c.ZONE_SIZE / PAGE))
    (Handed c I s (c.ZONE_SIZE / PAGE)) s) :
    wp may (new_zone c pages) (fun zn s' => I s' ∧
      if zn = 0 then Inv c s' live v else ∃ m cache', Opened c s s' live v m zn cache') s := by
  have hchain := h.rep.cached
  rw [new_zone, wp_bind, wp_get, wp_ite]
  refine ⟨fun h0 => ?_, fun h0 => wp_call halloc ?_⟩
  · obtain ⟨l, hl, -⟩ := hchain.exists_cons h0
    have hcnt := h.rep.count
    rw [hl, List.length_cons] at hcnt
    simp only [wp_bind, wp_require, wp_set, wp_pure]
    refine ⟨fun _ => ?_, fun hcnt' => ?_⟩
    · rw [if_neg h0]
      obtain ⟨Z, hZ, -⟩ := h.view.cached s.ZONE_FREE (by simp [hl])
      have hrun := h.view.zone_run _ Z hZ
      have hsize := hc.size
      have hoff := store64_sameOff s.mem s.ZONE_FREE 0
      refine ⟨hI hown (kept_of_sameOff rfl rfl (List.mem_cons_of_mem _ hrun) (le_refl _) ?_ hoff),
        _, l, h.open_cached hc hl⟩
      rw [zone_stop hc]
      omega
    · simp [hcnt] at hcnt'
  · rintro zn _ ⟨m, l, rfl, hsame, hf, hown⟩
    simp only [wp_bind, wp_require, wp_modify, wp_pure, wp_ite, set_mem]
    refine ⟨fun h1 => ?_, fun h1 => ?_⟩
    · simp only [h1, ↓reduceIte] at hown ⊢
      exact ⟨hown, h.page_writes hc hsame⟩
    · have hf := hf h1
      rw [← hc.pages] at hf
      simp only [if_neg h1, ← hc.pages] at hown ⊢
      refine ⟨fun _ => ⟨?_, _, v.cache, h.open_fresh hc hsame hf h1⟩, fun hlt => ?_⟩
      · have hin := run_entries hc hf.alone
        exact hI hown
          (kept_of_sameOff rfl rfl List.mem_cons_self hin.1 hin.2 (set_usages_sameOff _))
      · have := hf.above
        simp only [decide_eq_false_iff_not] at hlt
        exact absurd this hlt

theorem set_up_zone_spec {s₁ : SlabState} {m : Mem} {cache' : List Nat} (hc : c.Ok)
    (hv : v.Ok c s.runs live) (ho : Opened c s s₁ live v m zn cache') (hl : v.lists zi = [])
    (hi : zi < NZONES) (hlim : class_size zi ≤ c.CHUNK_LIMIT) (hn : n ≤ class_size zi) :
    wp may (set_up_zone c zn zi (class_size zi)) (fun p s' => p ≠ 0 ∧ Kept c s₁ s' ∧
      ∃ v', Inv c s' (⟨p, n⟩ :: live) v') s₁ := by
  have hsize := hc.size
  have htop := hc.top
  have hrun := ho.runs.fresh _ ho.run
  have hbelow := hrun.below
  rw [zone_stop hc] at hbelow
  have hpos : 0 < zn := ho.runs.nonnull _ ho.run
  obtain ⟨h3, hend, -⟩ := Zone.layout (Z := Zone.fresh zi zn n) hc hi hlim
  have hnf : (Zone.fresh zi zn n).nfree c = (Zone.fresh zi zn n).nmax c - 1 := rfl
  have hok : (Zone.fresh zi zn n).Ok c zn := Zone.fresh_ok hc hi hlim hn
  have hin : in_zone c zn ⟨zn + first_chunk (class_size zi), n⟩ = true := by
    have := Zone.Chunk.bounds hc hok.index hok.limit hok.uindex_le
      (hok.held_chunk _ List.mem_cons_self).1
    have h8 := (Zone.size_facts hok.index).1
    simp only at this
    exact in_zone_iff.mpr (by simp only; omega)
  have hhead : SameOff s₁.mem (new_header c s₁.mem zn zi (class_size zi)) zn (zn + c.ZONE_SIZE) :=
    new_header_sameOff.mono (by omega) (by omega)
  have hoff := ho.off.trans hhead
  have hlists : ∀ i x, x ∈ relist v.lists zi [zn] i ↔
      if x = zn then i = zi ∧ 0 < (Zone.fresh zi zn n).nfree c else x ∈ v.lists i := by
    intro i x
    by_cases hx : x = zn
    · subst hx
      by_cases hi : i = zi
      · simp [relist, hi]
        omega
      · simp [relist, hi, ho.unlisted i]
    · by_cases hi : i = zi
      · simp [relist, hi, hx, hl]
      · simp [relist, hi, hx]
  simp only [set_up_zone, wp_bind, wp_get, wp_require, set_mem, set_zone_list, wp_modify, wp_pure]
  refine ⟨fun _ => ⟨by omega, ?_, v.put zn (Zone.fresh zi zn n) (relist v.lists zi [zn]) cache',
    ho.runs, ?_, ?_⟩,
    fun hchk => ?_⟩
  · exact kept_of_sameOff rfl rfl (List.mem_cons_of_mem _ ho.run) (le_refl _)
      (zone_stop hc).ge hhead
  · refine hv.put hc ho.runs ho.old ho.new ho.run hok ?_ ?_ ?_ hlists ho.mem_cache ho.few
    · simp [hin]
    · have : live.filter (in_zone c zn) = [] :=
        List.filter_eq_nil_iff.mpr fun b hb => by simp [ho.unused b hb]
      rw [List.filter_cons_of_pos hin, this]
      rfl
    · refine List.nodup_cons.mpr ⟨fun hmem => ?_, hv.nodup⟩
      obtain ⟨b, hb, hbp⟩ := List.mem_map.mp hmem
      have hb' : in_zone c zn b = true := in_zone_iff.mpr (hbp ▸ in_zone_iff.mp hin)
      rw [ho.unused b hb] at hb'
      simp at hb'
  · refine ho.rep.put hc ho.runs hv ho.old ho.new ho.run hoff
      (stored_fresh hc hi hlim (by omega)) new_header_magic
      ho.marks ho.mem_cache (fun i => ?_) ?_ ho.count
    · by_cases hi : i = zi
      · simp only [relist, if_pos hi]
        exact ⟨rfl, by omega, new_header_next⟩
      · simp only [relist, if_neg hi]
        refine ForwardList.isList_same (ho.rep.lists i) fun a ha => ?_
        obtain ⟨Z, hZ, -⟩ := (hv.listed i a).mp ha
        have := ho.apart a Z hZ (fun he => ho.unlisted i (he ▸ ha))
        exact hoff.sameOn (by omega)
    · refine ForwardList.isList_same ho.cached fun a ha => ?_
      obtain ⟨hmem, hne⟩ := (ho.mem_cache a).mp ha
      obtain ⟨Z, hZ, -⟩ := hv.cached a hmem
      have := ho.apart a Z hZ hne
      exact hhead.sameOn (by omega)
  · have h1 : first_chunk (class_size zi) ≤ c.ZONE_SIZE := Nat.le_trans (Nat.le_add_right _ _) hend
    have h2 : 0 < (c.ZONE_SIZE - first_chunk (class_size zi)) / class_size zi :=
      Nat.lt_of_lt_of_le (by omega) h3
    simp [h1, h2] at hchk

theorem malloc_spec {size : Nat} (hc : c.Ok) (h : Inv c s live v) (hI : ∀ {s s'}, I s →
    Kept c s s' → I s') (hown : I s) (hmay : round_up_checks size = false → may .request_overflow)
    (halloc : wp may (pages.page_alloc (pages_for c size)) (Handed c I s (pages_for c size)) s) :
    wp may (malloc c size pages)
      (fun p s' => I s' ∧ ∃ v', Inv c s' (if p = 0 then live else ⟨p, size⟩ :: live) v') s := by
  rw [malloc, wp_ite]
  refine ⟨fun _ => ⟨hown, v, h⟩, fun h0 => wp_ite.mpr ⟨fun hlt => ?_, fun hle => ?_⟩⟩
  · rw [pages_for, if_pos hlt] at halloc
    exact malloc_pages_spec hc h hI hmay halloc
  · rw [pages_for, if_neg hle] at halloc
    have hpos : 1 ≤ size := by omega
    have hclass := zone_index_class hpos
    have hn := le_zone_index hpos
    obtain ⟨k, hk, hlim⟩ := hc.limit_pow
    have hsize := zone_index_le_pow hpos hk (by omega)
    rw [← hlim] at hsize
    have hzi := zone_index_lt hpos (Nat.le_trans (by omega) hc.limit_le.2)
    rw [hclass] at hn hsize ⊢
    simp only [wp_bind, wp_require, wp_get, wp_ite]
    refine ⟨fun _ => ⟨fun hzn => ?_, fun hzn => ?_⟩, fun hchk => ?_⟩
    · obtain ⟨l, hl, -⟩ := (h.rep.lists _).exists_cons hzn
      refine wp_bind.mp (wp_mono (take_spec hc h hl hn) ?_)
      rintro p s' ⟨hp, hkept, v', hv'⟩
      rw [if_neg hp]
      exact ⟨hI hown hkept, v', hv'⟩
    · have hl : v.lists (zone_index size).2 = [] := by
        have := h.rep.lists (zone_index size).2
        rw [not_not.mp hzn] at this
        exact this.eq_nil
      refine wp_mono (new_zone_spec hc h hI hown halloc) fun zn s₁ h₁ =>
        wp_ite.mpr ⟨fun hz => ?_, fun hz => ?_⟩
      · rw [if_pos hz] at h₁
        exact ⟨h₁.1, v, h₁.2⟩
      · rw [if_neg hz] at h₁
        obtain ⟨hown₁, m, cache', ho⟩ := h₁
        refine wp_mono (set_up_zone_spec hc h.view ho hl hzi hsize hn) ?_
        rintro p s' ⟨hp, hkept, v', hv'⟩
        rw [if_neg hp]
        exact ⟨hI hown₁ hkept, v', hv'⟩
    · simp only [decide_eq_false_iff_not] at hchk
      exact absurd hzi hchk

end NewZone

/-! ## `free` of a chunk -/

section Give

variable {c : Statics} {s : SlabState} {live : List Block} {v : View} {pages : PageLayer}
  {zn : Nat} {Z : Zone} {b : Block}
variable {I : SlabState → Prop} {may : Panic → Prop}

theorem give_back_nfree (hok : Z.Ok c zn) (hnd : (Z.held.map Block.ptr).Nodup) (hb : b ∈ Z.held) :
    (Z.give_back b.ptr).nfree c = Z.nfree c + 1 := by
  have h1 := Zone.length_filter_ptr hnd hb
  have h2 := hok.count
  have h3 := hok.uindex_le
  have h4 : (Z.give_back b.ptr).nfree c =
    Z.nmax c - (Z.held.filter fun x => x.ptr != b.ptr).length := rfl
  rw [h4, Zone.nfree]
  omega

theorem put_chunk_spec (hc : c.Ok) (hok : Z.Ok c zn) (hst : Stored c s.mem zn Z (Z.nfree c))
    (hb : b ∈ Z.held) (hz : zn + c.ZONE_SIZE < 2 ^ 64) :
    wp may (put_chunk zn b.ptr) (fun n s' => n = Z.nfree c + 1 ∧ ∃ m', s' = { s with mem := m' } ∧
      SameOff s.mem m' (zn + 12) (zn + c.ZONE_SIZE) ∧
        Stored c m' zn (Z.give_back b.ptr) (Z.nfree c + 1)) s := by
  have hsize := hc.size
  have hmax := (Zone.layout hc hok.index hok.limit).2.2
  have h8 := (Zone.size_facts hok.index).1
  have hchunk := (hok.held_chunk b hb).1
  have hbounds := Zone.Chunk.bounds hc hok.index hok.limit hok.uindex_le hchunk
  have hpush := hst.push hc hok hchunk (hok.apart b hb) hz
  have hbehind : ∀ a ∈ b.ptr :: Z.free, zn + 48 ≤ a := by
    intro a ha
    rcases List.mem_cons.mp ha with rfl | ha
    · exact hbounds.1
    · exact (hok.free_behind hc a ha).1
  have hlt : Z.nfree c + 1 < 2 ^ 32 := by
    have := List.length_pos_of_mem hb
    unfold Zone.nfree
    omega
  have hset := hpush.set_nfree (v := Z.nfree c + 1) hbehind hlt
  simp only [put_chunk, wp_bind, wp_get, wp_require, set_mem, wp_modify, wp_pure, hpush.nfree]
  refine ⟨fun _ => ⟨trivial, _, rfl, ?_, hset.with_held _⟩, fun hchk => ?_⟩
  · refine SameOff.trans ?_ ((store32_sameOff _ (zn + 12) _).mono (by omega) (by omega))
    refine SameOff.trans ?_ ((store64_sameOff _ (zn + 40) _).mono (by omega) (by omega))
    exact (store64_sameOff _ b.ptr _).mono (by omega) (by omega)
  · simp only [decide_eq_false_iff_not] at hchk
    exact absurd hlt hchk

theorem Inv.held_nodup (h : Inv c s live v) (hZ : v.zones zn = some Z) :
    (Z.held.map Block.ptr).Nodup := by
  rw [h.view.held zn Z hZ]
  exact h.view.nodup.sublist (List.filter_sublist.map _)

theorem Inv.not_cached (h : Inv c s live v) (hZ : v.zones zn = some Z) (hb : b ∈ Z.held) :
    zn ∉ v.cache := by
  intro hmem
  obtain ⟨X, hX, hXh⟩ := h.view.cached zn hmem
  obtain rfl := Option.some.inj (hZ.symm.trans hX)
  rw [hXh] at hb
  simp at hb

theorem Inv.mem_lists_iff (h : Inv c s live v) (hZ : v.zones zn = some Z)
    (hnc : zn ∉ v.cache) (i : Nat) :
    zn ∈ v.lists i ↔ i = Z.zi ∧ 0 < Z.nfree c := by
  rw [h.view.listed i zn]
  constructor
  · rintro ⟨X, hX, hXi, hpos, -⟩
    obtain rfl := Option.some.inj (hZ.symm.trans hX)
    exact ⟨hXi.symm, hpos⟩
  · rintro ⟨hi, hpos⟩
    exact ⟨Z, hZ, hi.symm, hpos, hnc⟩

theorem Inv.give_back (hc : c.Ok) (h : Inv c s live v) (hZ : v.zones zn = some Z)
    (hb : b ∈ Z.held) {s' : SlabState} {lists' : Nat → List Nat}
    (hruns : s'.runs = s.runs) (hoff : SameOff s.mem s'.mem zn (zn + c.ZONE_SIZE))
    (hmagic : z_magic s'.mem zn = z_magic s.mem zn)
    (hst : Stored c s'.mem zn (Z.give_back b.ptr) (Z.nfree c + 1))
    (hmem : ∀ i x, x ∈ lists' i ↔ if x = zn then i = Z.zi else x ∈ v.lists i)
    (hlists : ∀ i, ForwardList.IsList s'.mem (s'.ZONE_ARRAY i) (lists' i))
    (hfree : s'.ZONE_FREE = s.ZONE_FREE) (hcnt : s'.ZONE_FREE_CNT = s.ZONE_FREE_CNT) :
    Inv c s' (live.filter fun x => x.ptr != b.ptr)
    (v.put zn (Z.give_back b.ptr) lists' v.cache) := by
  have hok := h.view.zone_ok zn Z hZ
  have hz : ∃ Z, v.zones zn = some Z := ⟨Z, hZ⟩
  have hheld := h.view.held zn Z hZ
  have hnd := h.held_nodup hZ
  have hnc := h.not_cached hZ hb
  have hin : in_zone c zn b = true := by
    rw [hheld] at hb
    exact (List.mem_filter.mp hb).2
  have hnf := give_back_nfree hok hnd hb
  have hcache : ∀ x, x ∈ v.cache ↔ x ∈ v.cache ∧ x ≠ zn := by
    intro x
    refine ⟨fun hx => ⟨hx, ?_⟩, fun hx => hx.1⟩
    rintro rfl
    exact hnc hx
  have hrun := h.view.zone_run zn Z hZ
  constructor
  case runs =>
    rw [hruns]
    exact h.runs
  case view =>
    rw [hruns]
    refine h.view.put hc h.runs (fun r hr => hr)
      (fun r hr => .inl hr) hrun (hok.give_back hnd hb) ?_ ?_ ?_ ?_ hcache
      h.view.few
    · rw [List.filter_filter]
      refine List.filter_congr fun x _ => ?_
      cases hx : in_zone c zn x with
      | true => rfl
      | false =>
        have : x.ptr ≠ b.ptr := by
          intro he
          have : in_zone c zn x = true := in_zone_iff.mpr (he ▸ in_zone_iff.mp hin)
          simp [hx] at this
        simp [this]
    · simp only [Zone.give_back, hheld, List.filter_filter, Bool.and_comm]
    · exact h.view.nodup.sublist (List.filter_sublist.map _)
    · intro i x
      rw [hnf]
      refine (hmem i x).trans ?_
      have : (Z.give_back b.ptr).zi = Z.zi := rfl
      simp [this]
  case rep =>
    rw [hruns]
    refine h.rep.put hc h.runs h.view (fun r hr => hr)
      (fun r hr => .inl hr) hrun hoff ?_ ?_ (h.rep.marks zn Z hZ)
      hcache hlists ?_ ?_
    · rw [hnf]
      exact hst
    · exact hmagic.trans (h.rep.magic zn Z hZ hnc)
    · rw [hfree]
      exact h.isList_off hc h.rep.cached hz (fun a ha => h.cached_zone ha) hnc hoff
    · rw [hcnt]
      exact h.rep.count

/-- The zone has lost its magic and its place in the list; the other zones have at most another
`next`. -/
structure Unlinked (c : Statics) (s s' : SlabState) (v : View) (zn : Nat) (Z : Zone) : Prop where
  body : ∀ z X, v.zones z = some X → SameOn s.mem s'.mem (z + 12) (z + c.ZONE_SIZE)
  magic : ∀ z X, v.zones z = some X → z ≠ zn → z_magic s'.mem z = z_magic s.mem z
  table : SameOn s.mem s'.mem c.usage_run.start c.usage_run.stop
  lists : ∀ i, ForwardList.IsList s'.mem (s'.ZONE_ARRAY i) (v.unlist zn Z i)
  cached : ForwardList.IsList s'.mem s'.ZONE_FREE v.cache
  count : s'.ZONE_FREE_CNT = s.ZONE_FREE_CNT
  kept : Kept c s s'

theorem Inv.unlinked (hc : c.Ok) (h : Inv c s live v) (hZ : v.zones zn = some Z)
    {m' : Mem} {head : Nat} (hl : ForwardList.IsList m' head ((v.lists Z.zi).erase zn)) (hoff : ∀ x,
    (∀ a ∈ v.lists Z.zi, a ≠ zn → x < a ∨ a + 8 ≤ x) → x < zn + 8 ∨ zn + 12 ≤ x → m' x = s.mem x) :
    Unlinked c s { s with
      mem := m', ZONE_ARRAY := fun i => if i = Z.zi then head else s.ZONE_ARRAY i } v zn Z := by
  have hsize := hc.size
  have hz : ∃ Z, v.zones zn = some Z := ⟨Z, hZ⟩
  have hnode : ∀ a ∈ v.lists Z.zi, ∃ Z, v.zones a = some Z := fun a ha => h.listed_zone ha
  have hbz := h.view.zone_bounds hc h.runs hZ
  -- A zone that is not on the list keeps its `next`.
  have hnext : ∀ z, (∃ Z, v.zones z = some Z) → z ∉ v.lists Z.zi → SameOn s.mem m' z (z + 8) := by
    intro z hzz hnot x hx hx'
    refine hoff x (fun a ha hne => ?_) ?_
    · have := h.node_apart hc (hnode a ha) hzz (fun he => hnot (he ▸ ha))
      omega
    · by_cases he : z = zn
      · omega
      · have := h.node_apart hc hzz hz he
        omega
  constructor
  case body =>
    intro z X hX x hx hx'
    refine hoff x (fun a ha hne => ?_) ?_
    · by_cases he : a = z
      · omega
      · have := h.node_apart hc (hnode a ha) ⟨X, hX⟩ he
        omega
    · by_cases he : z = zn
      · omega
      · have := h.node_apart hc ⟨X, hX⟩ hz he
        omega
  case magic =>
    intro z X hX hne
    refine load32_same fun x hx hx' => hoff x (fun a ha hane => ?_) ?_
    · by_cases he : a = z
      · omega
      · have := h.node_apart hc (hnode a ha) ⟨X, hX⟩ he
        omega
    · have := h.node_apart hc ⟨X, hX⟩ hz hne
      omega
  case table =>
    intro x hx hx'
    refine hoff x (fun a ha _ => ?_) (by omega)
    obtain ⟨X, hX⟩ := hnode a ha
    have := h.view.zone_bounds hc h.runs hX
    omega
  case lists =>
    intro i
    by_cases hi : i = Z.zi
    · simp only [View.unlist, relist, if_pos hi]
      exact hl
    · simp only [View.unlist, relist, if_neg hi]
      refine ForwardList.isList_same (h.rep.lists i) fun a ha =>
        hnext a (h.listed_zone ha) fun hmem => ?_
      obtain ⟨X, hX, hXi, -⟩ := (h.view.listed i a).mp ha
      obtain ⟨Y, hY, hYi, -⟩ := (h.view.listed Z.zi a).mp hmem
      obtain rfl := Option.some.inj (hX.symm.trans hY)
      exact hi (hXi.symm.trans hYi)
  case cached =>
    refine ForwardList.isList_same h.rep.cached fun a ha =>
      hnext a (h.cached_zone ha) fun hmem => ?_
    obtain ⟨-, -, -, -, hn⟩ := (h.view.listed Z.zi a).mp hmem
    exact hn ha
  case count => rfl
  case kept =>
    refine ⟨rfl, rfl, fun x hx => hoff x (fun a ha _ => ?_) ?_⟩
    · have := h.off_zone hc (hnode a ha) hx
      omega
    · have := h.off_zone hc hz hx
      omega

section Unlinked

variable {s₁ : SlabState} (hc : c.Ok) (h : Inv c s live v) (hu : Unlinked c s s₁ v zn Z)
  (hZ : v.zones zn = some Z)
variable (hheld : Z.held = []) (hnc : zn ∉ v.cache)

include hc h hu hZ hheld

theorem Unlinked.cache (hlt : s.ZONE_FREE_CNT < ZONE_FREE_CNT_LIMIT) (hnc : zn ∉ v.cache) :
    Inv c { s₁ with mem := store64 s₁.mem zn s₁.ZONE_FREE, ZONE_FREE := zn, ZONE_FREE_CNT := s₁.ZONE_FREE_CNT + 1 }
      live ⟨v.zones, v.unlist zn Z, zn :: v.cache⟩ := by
  have hsize := hc.size
  have hz : ∃ Z, v.zones zn = some Z := ⟨Z, hZ⟩
  have hbz := h.view.zone_bounds hc h.runs hZ
  have hnd := (h.rep.lists Z.zi).nodup
  have hoff := store64_sameOff s₁.mem zn s₁.ZONE_FREE
  have hother : ∀ z, (∃ X, v.zones z = some X) → z ≠ zn →
      SameOn s₁.mem (store64 s₁.mem zn s₁.ZONE_FREE) z (z + c.ZONE_SIZE) := by
    intro z hzz hne
    have := h.node_apart hc hzz hz hne
    exact hoff.sameOn (by omega)
  have htab := hu.table.trans (hoff.sameOn (by omega))
  have hcnt := h.rep.count
  constructor
  case runs =>
    rw [hu.kept.runs]
    exact h.runs
  case view =>
    rw [hu.kept.runs]
    exact h.view.cache_zone hZ hheld hnd (by omega)
  case rep =>
    rw [hu.kept.runs]
    constructor
    case stored =>
      intro z X hX
      refine (h.rep.stored z X hX).same_zone hc (h.view.zone_ok z X hX) ((hu.body z X hX).trans ?_)
      by_cases he : z = zn
      · exact hoff.sameOn (by omega)
      · exact (hother z ⟨X, hX⟩ he).mono (by omega) (by omega)
    case magic =>
      intro z X hX hn
      rw [List.mem_cons, not_or] at hn
      refine (load32_same ((hother z ⟨X, hX⟩ hn.1).mono (by omega) (by omega))).trans ?_
      exact (hu.magic z X hX hn.1).trans (h.rep.magic z X hX hn.2)
    case marks =>
      intro z X hX k hk
      exact (usage_run_same hc h.runs htab (h.view.zone_run z X hX) hk).trans
        (h.rep.marks z X hX k hk)
    case pages =>
      intro r hr hnone
      have := usage_run_same hc h.runs htab hr (h.runs.fresh r hr).nonempty
      rw [Nat.zero_mul, Nat.add_zero] at this
      exact this.trans (h.rep.pages r hr hnone)
    case lists =>
      intro i
      refine ForwardList.isList_same (hu.lists i) fun a ha => ?_
      obtain ⟨ha, hne⟩ := (h.view.mem_unlist hZ hnd i a).mp ha
      exact (hother a (h.listed_zone ha) hne).mono (by omega) (by omega)
    case cached =>
      refine ForwardList.push_front_spec hu.cached (by omega)
        (fun a ha => h.node_lt hc (h.cached_zone ha)) ?_
      intro a ha
      have := h.node_apart hc (h.cached_zone ha) hz (fun he => hnc (he ▸ ha))
      omega
    case count =>
      simp only [hu.count, List.length_cons, hcnt]

theorem Unlinked.drop (hnc : zn ∉ v.cache) {m : Mem} {l : Nat}
    (hsame : ∀ q ∈ c.usage_run :: without s.runs zn c.ZONE_PAGE_CNT,
      SameOn (set_usages s₁.mem (btokup c zn) (fun _ => .Free) c.ZONE_PAGE_CNT) m q.start q.stop) :
    Inv c { s₁ with mem := m, FREE_PAGE_LIST := l, runs := without s.runs zn c.ZONE_PAGE_CNT } live
      ⟨fun x => if x = zn then none else v.zones x, v.unlist zn Z, v.cache⟩ := by
  have hnd := (h.rep.lists Z.zi).nodup
  have hrun := h.view.zone_run zn Z hZ
  have hruns : RunsOk c (without s.runs zn c.ZONE_PAGE_CNT) := h.runs.filter _
  have hview := h.view.drop_zone h.runs hZ hheld hnd hnc
  have hfr := (h.runs.fresh _ hrun).alone
  have hin := run_entries hc hfr
  have hrep : Rep c s₁ (without s.runs zn c.ZONE_PAGE_CNT)
      ⟨fun x => if x = zn then none else v.zones x, v.unlist zn Z, v.cache⟩ := by
    have hzones : ∀ x X, (if x = zn then none else v.zones x) = some X → x ≠ zn ∧
      v.zones x = some X := by
      intro x X hx
      split at hx
      · simp at hx
      · exact ⟨‹_›, hx⟩
    constructor
    case stored =>
      intro z X hX
      obtain ⟨-, hX⟩ := hzones z X hX
      exact (h.rep.stored z X hX).same_zone hc (h.view.zone_ok z X hX) (hu.body z X hX)
    case magic =>
      intro z X hX hn
      obtain ⟨hne, hX⟩ := hzones z X hX
      exact (hu.magic z X hX hne).trans (h.rep.magic z X hX hn)
    case marks =>
      intro z X hX k hk
      obtain ⟨-, hX⟩ := hzones z X hX
      exact (usage_run_same hc h.runs hu.table (h.view.zone_run z X hX) hk).trans
        (h.rep.marks z X hX k hk)
    case pages =>
      intro r hr hnone
      obtain ⟨hr, hne⟩ := mem_without.mp hr
      have hstart : r.start ≠ zn := fun he => hne (h.runs.eq_of_start hr hrun he)
      simp only [if_neg hstart] at hnone
      have := usage_run_same hc h.runs hu.table hr (h.runs.fresh r hr).nonempty
      rw [Nat.zero_mul, Nat.add_zero] at this
      exact this.trans (h.rep.pages r hr hnone)
    case lists => exact hu.lists
    case cached => exact hu.cached
    case count => exact hu.count.trans h.rep.count
  have hfree :
    SameOff s₁.mem (set_usages s₁.mem (btokup c zn) (fun _ => .Free) c.ZONE_PAGE_CNT) (btokup c zn)
    (btokup c zn + c.ZONE_PAGE_CNT * 16) := set_usages_sameOff _
  refine ⟨hruns, hview, hrep.entries hc hruns hview hfr ?_ (fun q hq => ?_)
    (fun x h1 h2 hx => ?_) _⟩
  · intro q hq
    obtain ⟨hq, hne⟩ := mem_without.mp hq
    exact (h.runs.apart q hq _ hrun).resolve_left hne |>.symm
  · have hap := (hruns.fresh q hq).apart c.usage_run List.mem_cons_self
    refine SameOn.trans (hfree.sameOn (by simp only at hin; omega)) ?_
    exact hsame q (List.mem_cons_of_mem _ hq)
  · exact (hsame c.usage_run List.mem_cons_self x h1 h2).trans (hfree x hx)

end Unlinked

theorem release_zone_spec (hc : c.Ok) (h : Inv c s live v) (hZ : v.zones zn = some Z)
    (hpos : 0 < Z.nfree c) (hheld : Z.held = []) (hnc : zn ∉ v.cache)
    (hI : ∀ {s s'}, I s → Kept c s s' → I s') (hown : I s) (hfree : ∀ s₁, Kept c s s₁ → I s₁ →
      wp may (pages.page_free zn (c.ZONE_SIZE / PAGE))
        (fun _ => Returned c I s₁ zn (c.ZONE_SIZE / PAGE)) s₁) :
    wp may (release_zone c zn pages) (fun _ s' => I s' ∧ ∃ v', Inv c s' live v') s := by
  have hsize := hc.size
  have hmem : zn ∈ v.lists Z.zi := (h.view.listed Z.zi zn).mpr ⟨Z, hZ, rfl, hpos, hnc⟩
  have hz : ∃ Z, v.zones zn = some Z := ⟨Z, hZ⟩
  have hnode : ∀ a ∈ v.lists Z.zi, ∃ Z, v.zones a = some Z := fun a ha => h.listed_zone ha
  have hbz := h.view.zone_bounds hc h.runs hZ
  have hrun := h.view.zone_run zn Z hZ
  have hoff := store32_sameOff s.mem (zn + 8) 0
  have hzi : z_zoneindex (set_magic s.mem zn 0) zn = Z.zi :=
    (load32_store32_ne _ _ _ _ (by omega)).trans (h.rep.stored zn Z hZ).zoneindex
  have hlist : ForwardList.IsList (set_magic s.mem zn 0) (s.ZONE_ARRAY Z.zi) (v.lists Z.zi) :=
    h.isList_behind hc (h.rep.lists Z.zi) hz hnode (hoff.mono (by omega) (by omega))
  obtain ⟨m', head, hrem, hl', hsame⟩ :=
    ForwardList.remove_spec hlist hmem (fun a ha => h.node_lt hc (hnode a ha))
      fun a ha b hb hne => by
        have := h.node_apart hc (hnode a ha) (hnode b hb) hne
        omega
  have hu := h.unlinked hc hZ hl' fun x hx hx' => (hsame x hx).trans (hoff x (by omega))
  have hcnt := hu.count
  simp only [release_zone, set_mem, set_zone_list, wp_bind, wp_modify,
    wp_get, wp_unwrap, hzi, hrem, Option.some.injEq,
    forall_eq', reduceCtorEq, IsEmpty.forall_iff, and_true, wp_ite, wp_set, wp_require]
  refine ⟨fun hlt => ⟨?_, _, hu.cache hc h hZ hheld hlt hnc⟩,
    fun _ => ⟨fun _ => ?_, fun hchk => ?_⟩⟩
  · have hlink := store64_sameOff m' zn s.ZONE_FREE
    refine hI hown
      (hu.kept.trans (kept_of_sameOff rfl rfl (List.mem_cons_of_mem _ hrun) (le_refl _) ?_ hlink))
    rw [zone_stop hc]
    omega
  · have hent := run_entries hc (h.runs.fresh _ hrun).alone
    have hmarks :
      SameOff m' (set_usages m' (btokup c zn) (fun _ => .Free) c.ZONE_PAGE_CNT) (btokup c zn)
      (btokup c zn + c.ZONE_PAGE_CNT * 16) := set_usages_sameOff _
    have hkept : Kept c s { s with
        mem := set_usages m' (btokup c zn) (fun _ => .Free) c.ZONE_PAGE_CNT
        ZONE_ARRAY := fun i => if i = Z.zi then head else s.ZONE_ARRAY i } :=
      hu.kept.trans (kept_of_sameOff rfl rfl List.mem_cons_self hent.1 hent.2 hmarks)
    refine wp_mono (hfree _ hkept (hI hown hkept)) ?_
    rintro _ _ ⟨m, l, rfl, hsame, hown⟩
    rw [← hc.pages] at hsame hown ⊢
    exact ⟨hown, _, hu.drop hc h hZ hheld hnc hsame⟩
  · simp only [decide_eq_false_iff_not] at hchk
    omega

theorem Inv.back_in_list (hc : c.Ok) (h : Inv c s live v)
    (hZ : v.zones zn = some Z) (hb : b ∈ Z.held) (hfull : Z.nfree c = 0)
    {m' : Mem} (hoff : SameOff s.mem m' (zn + 12) (zn + c.ZONE_SIZE))
    (hst : Stored c m' zn (Z.give_back b.ptr) (Z.nfree c + 1)) :
    Inv c { s with
      mem := store64 m' zn (s.ZONE_ARRAY Z.zi)
      ZONE_ARRAY := fun i => if i = Z.zi then zn else s.ZONE_ARRAY i }
        (live.filter fun x => x.ptr != b.ptr)
      (v.put zn (Z.give_back b.ptr) (relist v.lists Z.zi (zn :: v.lists Z.zi)) v.cache) := by
  have hsize := hc.size
  have hok := h.view.zone_ok zn Z hZ
  have hz : ∃ Z, v.zones zn = some Z := ⟨Z, hZ⟩
  have hbz := h.view.zone_bounds hc h.runs hZ
  have hnode : ∀ i, ∀ a ∈ v.lists i, ∃ Z, v.zones a = some Z := fun i a ha => h.listed_zone ha
  have hnot : ∀ i, zn ∉ v.lists i := fun i hi => by
    have := (h.mem_lists_iff hZ (h.not_cached hZ hb) i).mp hi
    omega
  have hkeep : ∀ i, ForwardList.IsList m' (s.ZONE_ARRAY i) (v.lists i) := fun i =>
    h.isList_behind hc (h.rep.lists i) hz (hnode i) (hoff.mono (by omega) (by omega))
  have hpush := store64_sameOff m' zn (s.ZONE_ARRAY Z.zi)
  have hmagic : z_magic m' zn = z_magic s.mem zn := load32_same (hoff.sameOn (by omega))
  refine h.give_back hc hZ hb rfl
    ((hoff.mono (by omega) (by omega)).trans (hpush.mono (by omega) (by omega))) ?_ ?_ ?_ ?_ rfl rfl
  · exact (load32_store64_ne _ _ _ _ (by omega)).trans hmagic
  · exact hst.same_zone hc (hok.give_back (h.held_nodup hZ) hb) (hpush.sameOn (by omega))
  · intro i x
    by_cases hi : i = Z.zi
    · by_cases hx : x = zn <;> simp [relist, hi, hx]
    · by_cases hx : x = zn
      · simp [relist, hi, hx, hnot i]
      · simp [relist, hi, hx]
  · intro i
    by_cases hi : i = Z.zi
    · simp only [relist, if_pos hi]
      refine ForwardList.push_front_spec (hkeep Z.zi) (by omega)
        (fun a ha => h.node_lt hc (hnode _ a ha)) ?_
      intro a ha
      have := h.node_apart hc (hnode _ a ha) hz (fun he => hnot _ (he ▸ ha))
      omega
    · simp only [relist, if_neg hi]
      refine ForwardList.isList_same (hkeep i) fun a ha => ?_
      have := h.node_apart hc (hnode _ a ha) hz (fun he => hnot _ (he ▸ ha))
      exact hpush.sameOn (by omega)

theorem Inv.back_in_place (hc : c.Ok) (h : Inv c s live v)
    (hZ : v.zones zn = some Z) (hb : b ∈ Z.held) (hpos : 0 < Z.nfree c)
    {m' : Mem} (hoff : SameOff s.mem m' (zn + 12) (zn + c.ZONE_SIZE))
    (hst : Stored c m' zn (Z.give_back b.ptr) (Z.nfree c + 1)) :
    Inv c { s with mem := m' } (live.filter fun x => x.ptr != b.ptr)
      (v.put zn (Z.give_back b.ptr) v.lists v.cache) := by
  have hz : ∃ Z, v.zones zn = some Z := ⟨Z, hZ⟩
  have hself := h.mem_lists_iff hZ (h.not_cached hZ hb)
  refine h.give_back hc hZ hb rfl (hoff.mono (by omega) (by omega))
    (load32_same (hoff.sameOn (by omega))) hst ?_ ?_
    rfl rfl
  · intro i x
    by_cases hx : x = zn
    · rw [if_pos hx, hx, hself i]
      omega
    · rw [if_neg hx]
  · exact fun i => h.isList_behind hc (h.rep.lists i) hz (fun a ha => h.listed_zone ha)
      (hoff.mono (by omega) (by omega))

theorem free_chunk_spec (hc : c.Ok) (h : Inv c s live v) (hZ : v.zones zn = some Z)
    (hb : b ∈ Z.held) (hI : ∀ {s s'}, I s → Kept c s s' → I s') (hown : I s)
    (hfree : ∀ s₁, Kept c s s₁ → I s₁ →
      wp may (pages.page_free zn (c.ZONE_SIZE / PAGE))
        (fun _ => Returned c I s₁ zn (c.ZONE_SIZE / PAGE)) s₁) :
    wp may (free_chunk c zn b.ptr pages)
      (fun _ s' => I s' ∧ ∃ v', Inv c s' (live.filter fun x => x.ptr != b.ptr) v') s := by
  have hsize := hc.size
  have htop := hc.top
  have hok := h.view.zone_ok zn Z hZ
  have hnd := h.held_nodup hZ
  have hrun := h.view.zone_run zn Z hZ
  have hmagic := h.rep.magic zn Z hZ (h.not_cached hZ hb)
  have hbz := h.view.zone_bounds hc h.runs hZ
  have hindex := hok.index
  simp only [free_chunk, wp_bind, wp_get, wp_require, hmagic]
  refine ⟨fun _ => wp_mono (put_chunk_spec hc hok (h.rep.stored zn Z hZ) hb (by omega)) ?_, by simp⟩
  rintro n s₁ ⟨rfl, m', rfl, hoff, hst⟩
  have hzi : z_zoneindex m' zn = Z.zi := hst.zoneindex
  have hnmax : z_nmax m' zn = Z.nmax c := hst.nmax
  have hkept : Kept c s { s with mem := m' } :=
    kept_of_sameOff rfl rfl (List.mem_cons_of_mem _ hrun) (Nat.le_add_right _ 12)
      (zone_stop hc).ge hoff
  rw [place_zone, wp_bind, wp_get]
  simp only [hzi, hnmax, wp_ite, wp_bind, wp_require, set_zone_list, wp_modify]
  refine ⟨fun h1 => ⟨fun _ => ⟨?_, _, h.back_in_list hc hZ hb (by omega) hoff hst⟩,
    fun hchk => ?_⟩, fun h1 => ?_⟩
  · have hlink := store64_sameOff m' zn (s.ZONE_ARRAY Z.zi)
    refine hI hown
      (hkept.trans (kept_of_sameOff rfl rfl (List.mem_cons_of_mem _ hrun) (le_refl _) ?_ hlink))
    rw [zone_stop hc]
    omega
  · simp only [decide_eq_false_iff_not] at hchk
    exact absurd hindex hchk
  · have hput := h.back_in_place hc hZ hb (by omega) hoff hst
    have hown' := hI hown hkept
    refine ⟨fun h2 => ⟨fun _ => ⟨fun _ => ?_, fun _ => ⟨hown', _, hput⟩⟩, fun hchk => ?_⟩,
      fun _ => ⟨hown', _, hput⟩⟩
    · -- All chunks of the zone are free.
      have hnf := give_back_nfree hok hnd hb
      have hnone : (Z.give_back b.ptr).held = [] := by
        have h3 := (Zone.layout hc hok.index hok.limit).1
        have h4 : (Z.give_back b.ptr).nfree c = Z.nmax c - (Z.give_back b.ptr).held.length := rfl
        exact List.length_eq_zero_iff.mp (by omega)
      exact release_zone_spec hc hput View.put_self (by omega) hnone (h.not_cached hZ hb) hI hown'
        fun s₁ hs hi => hfree s₁ (hkept.trans hs) hi
    · simp only [decide_eq_false_iff_not] at hchk
      exact absurd hindex hchk

end Give

end HectoOs.Slab
