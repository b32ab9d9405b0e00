import HectoOs.Heap.SlabProofs

/-! # Runs of `malloc` and `free`

The views give the counts of every zone, the lists it is in, and where the live blocks are.
-/

open HectoOs.Lib HectoOs.Heap

namespace HectoOs.Slab

/-! ## What `free` finds -/

section Free

variable {c : Statics} {s : SlabState} {live : List Block} {v : View} {pages : PageLayer}
  {z : Nat} {Z : Zone} {b : Block}
variable {I : SlabState → Prop} {may : Panic → Prop}

theorem Inv.find_zone (hc : c.Ok) (h : Inv c s live v) (hZ : v.zones z = some Z)
    (hin : in_zone c z b = true) :
    ∃ off, usage s.mem (btokup c b.ptr) = some (.Zone off) ∧ off * PAGE ≤ round_down b.ptr PAGE ∧
      round_down b.ptr PAGE - off * PAGE = z := by
  have hb := h.view.zone_bounds hc h.runs hZ
  have hcnt := hc.page_cnt
  have hal := hc.aligned
  rw [in_zone_iff] at hin
  obtain ⟨k, hk⟩ : ∃ k, k = (b.ptr - z) / PAGE := ⟨_, rfl⟩
  have hlt : k < c.ZONE_PAGE_CNT := by
    simp only [PAGE] at hk hcnt
    omega
  have hkup : btokup c b.ptr = btokup c (z + k * PAGE) := by
    have : (b.ptr - c.HEAP_START) / PAGE = (z + k * PAGE - c.HEAP_START) / PAGE := by
      simp only [PAGE] at hk hb hal ⊢
      omega
    simp only [btokup, this]
  have hround := round_down_from hb.2.1 hin.1 hk
  refine ⟨k, ?_, by omega, by omega⟩
  rw [hkup]
  exact h.rep.marks z Z hZ k hlt

theorem Inv.block_bounds (hc : c.Ok) (h : Inv c s live v) (hb : b ∈ live) :
    b.ptr ≠ 0 ∧ c.HEAP_START ≤ b.ptr := by
  obtain ⟨r, hr, hin⟩ := h.view.block_in_run hc h.runs hb
  have h1 := h.runs.nonnull r hr
  have h2 := (h.runs.fresh r hr).above
  omega

theorem Inv.free_page (hc : c.Ok) (h : Inv c s live v) {p n l : Nat}
    {m : Mem} (hrun : ⟨p, n⟩ ∈ s.runs) (hnone : v.zones p = none)
    (hsame : ∀ q ∈ c.usage_run :: without s.runs p n, SameOn s.mem m q.start q.stop) :
    Inv c { s with
      mem := set_usage m (btokup c p) .Free, FREE_PAGE_LIST := l, runs := without s.runs p n }
      (live.filter fun x => x.ptr != p) v := by
  have hruns : RunsOk c (without s.runs p n) := h.runs.filter _
  have hview := h.view.remove_page hc h.runs hrun hnone
  have hrep : Rep c s (without s.runs p n) v :=
    { h.rep with pages := fun r hr => h.rep.pages r (mem_without.mp hr).1 }
  have hf := (h.runs.fresh _ hrun).alone
  have hin := run_entries hc hf
  have hpos : 0 < n := hf.nonempty
  have hoff : SameOff m (set_usage m (btokup c p) .Free) (btokup c p) (btokup c p + n * 16) :=
    (set_usage_sameOff _).mono (by omega) (by omega)
  refine ⟨hruns, hview, hrep.entries hc hruns hview hf ?_ (fun q hq => ?_) (fun x h1 h2 hx => ?_) _⟩
  · intro q hq
    obtain ⟨hq, hne⟩ := mem_without.mp hq
    exact ((h.runs.apart q hq _ hrun).resolve_left hne).symm
  · have hap := (hruns.fresh q hq).apart c.usage_run List.mem_cons_self
    exact (hsame q (List.mem_cons_of_mem _ hq)).trans (hoff.sameOn (by simp only at hin; omega))
  · exact (hoff x hx).trans (hsame c.usage_run List.mem_cons_self x h1 h2)

theorem free_spec {p : Nat} (hc : c.Ok) (h : Inv c s live v) (hlive : p = 0 ∨ ∃ b ∈ live, b.ptr = p)
    (hI : ∀ {s s'}, I s → Kept c s s' → I s') (hown : I s)
    (hfree : ∀ s₁ r, Kept c s s₁ → I s₁ → r ∈ s₁.runs → r.start ≤ p → p < r.stop →
      wp may (pages.page_free r.start r.npages) (fun _ => Returned c I s₁ r.start r.npages) s₁) :
    wp may (free c p pages)
    (fun _ s' => I s' ∧ ∃ v', Inv c s' (live.filter fun x => x.ptr != p) v') s := by
  rw [free, wp_ite]
  refine ⟨fun h0 => ⟨hown, v, ?_⟩, fun h0 => ?_⟩
  · have : live.filter (fun x => x.ptr != p) = live := by
      refine List.filter_eq_self.mpr fun b hb => ?_
      simpa [h0] using (h.block_bounds hc hb).1
    rw [this]
    exact h
  · obtain ⟨b, hb, rfl⟩ := hlive.resolve_left h0
    have hbounds := h.block_bounds hc hb
    rw [wp_bind, wp_require]
    refine ⟨fun _ => ?_, fun hchk => ?_⟩
    · rw [wp_bind, wp_get]
      rcases h.view.block b hb with ⟨z, Z, hZ, hin⟩ | ⟨n, hn, hnone, hle⟩
      · obtain ⟨off, hu, hoff, hz⟩ := h.find_zone hc hZ hin
        have hin' := in_zone_iff.mp hin
        have hrun := h.view.zone_run z Z hZ
        simp only [hu, wp_bind, wp_require]
        refine ⟨fun _ => ?_, fun hchk => ?_⟩
        · rw [hz]
          refine free_chunk_spec hc h hZ (h.view.block_chunk hZ hb hin).1 hI hown fun s₁ hs hi => ?_
          rw [← hc.pages]
          exact hfree s₁ ⟨z, c.ZONE_PAGE_CNT⟩ hs hi (hs.runs ▸ hrun) hin'.1
            (by rw [zone_stop hc]; exact hin'.2)
        · simp only [decide_eq_false_iff_not] at hchk
          exact absurd hoff hchk
      · have hfresh := (h.runs.fresh _ hn).alone
        have hfirst := PageRun.start_lt_stop hfresh.nonempty
        simp only [h.rep.pages _ hn hnone]
        refine wp_call (hfree s ⟨b.ptr, n⟩ (Kept.refl c s) hown hn (Nat.le_refl _) hfirst) ?_
        rintro _ _ ⟨m, l, rfl, hsame, hown'⟩
        have hentry := btokup_bounds hc hfresh.above (hfirst.trans_le hfresh.below)
        have hoff : SameOff m (set_usage m (btokup c b.ptr) .Free) (btokup c b.ptr)
          (btokup c b.ptr + 16) :=
          set_usage_sameOff _
        rw [set_mem, wp_modify]
        exact ⟨hI hown' (kept_of_sameOff rfl rfl List.mem_cons_self hentry.1 hentry.2 hoff), v,
          h.free_page hc hn hnone hsame⟩
    · simp only [decide_eq_false_iff_not] at hchk
      exact absurd hbounds.2 hchk

/-! ### A page layer of which only the answer is known -/

section Answer

variable {ans : PageAnswer}

theorem PageAnswer.handed {n : Nat}
    (hw : ∀ x ∈ ans.writes, ∀ r ∈ c.usage_run :: s.runs, Outside r x.1)
    (hf : ans.addr ≠ 0 → Fresh c (c.usage_run :: s.runs) ⟨ans.addr, n⟩) :
    wp may (ans.layer.page_alloc n) (Handed c (fun _ => True) s n) s := by
  simp only [PageAnswer.layer, wp_bind, wp_modify, wp_pure]
  exact ⟨_, _, rfl, fun q hq => PageAnswer.apply_sameOn s.mem fun x hx => hw x hx q hq, hf, trivial⟩

theorem PageAnswer.returned {r : PageRun} {p : Nat} (hruns : RunsOk c s.runs) (hr : r ∈ s.runs)
    (hlo : r.start ≤ p) (hhi : p < r.stop) (hw : ∀ x ∈ ans.writes, Outside c.usage_run x.1 ∧
    ∀ r ∈ s.runs, Outside r x.1 ∨ r.start ≤ p ∧ p < r.stop) :
    wp may (ans.layer.page_free r.start r.npages)
      (fun _ => Returned c (fun _ => True) s r.start r.npages) s := by
  simp only [PageAnswer.layer, wp_modify]
  refine ⟨_, _, rfl, fun q hq => PageAnswer.apply_sameOn s.mem fun x hx => ?_, trivial⟩
  rcases List.mem_cons.mp hq with rfl | hq
  · exact (hw x hx).1
  · obtain ⟨hq, hne⟩ := mem_without.mp hq
    exact ((hw x hx).2 q hq).resolve_right fun hin => hne (hruns.eq_of_mem hq hr hin ⟨hlo, hhi⟩)

theorem free_answer_spec {p : Nat} (hc : c.Ok) (h : Inv c s live v)
    (hfit : (Event.free p ans).Fits c ⟨s, live⟩) :
    wp (fun _ => False) (free c p ans.layer)
      (fun _ s' => True ∧ ∃ v', Inv c s' (live.filter fun x => x.ptr != p) v') s :=
  free_spec hc h hfit.1 (fun hi _ => hi) trivial fun _ _ hs _ hr hlo hhi =>
    PageAnswer.returned (hs.runs ▸ h.runs) hr hlo hhi (hs.runs ▸ hfit.2)

end Answer

end Free

/-! ## The owner of a block writes to it -/

section Write

variable {c : Statics} {s : SlabState} {live : List Block} {v : View} {b : Block}

theorem Inv.block_extent (hc : c.Ok) (h : Inv c s live v) (hb : b ∈ live) :
    ∃ r ∈ s.runs, r.start ≤ b.ptr ∧ b.stop ≤ r.stop ∧
      ((∃ Z, v.zones r.start = some Z ∧ in_zone c r.start b = true) ∨ v.zones r.start = none ∧
        b.ptr = r.start) := by
  rcases h.view.block b hb with ⟨z, Z, hZ, hin⟩ | ⟨n, hn, hnone, hle⟩
  · obtain ⟨-, hchunk, hsize⟩ := h.view.block_chunk hZ hb hin
    have hok := h.view.zone_ok z Z hZ
    have hbounds := Zone.Chunk.bounds hc hok.index hok.limit hok.uindex_le hchunk
    refine ⟨_, h.view.zone_run z Z hZ, (in_zone_iff.mp hin).1, ?_, .inl ⟨Z, hZ, hin⟩⟩
    rw [zone_stop hc, Block.stop]
    omega
  · exact ⟨_, hn, Nat.le_refl _, Nat.add_le_add_left hle b.ptr, .inr ⟨hnone, rfl⟩⟩

theorem Inv.block_off_zone (hc : c.Ok) (h : Inv c s live v) (hb : b ∈ live)
    {z : Nat} {Z : Zone} (hZ : v.zones z = some Z) (hin : in_zone c z b = false) :
    b.stop ≤ z ∨ z + c.ZONE_SIZE ≤ b.ptr := by
  obtain ⟨r, hr, h1, h2, hhome⟩ := h.block_extent hc hb
  have hap := h.runs.apart r hr _ (h.view.zone_run z Z hZ)
  simp only [zone_stop hc] at hap
  rcases hap with rfl | hap
  · rcases hhome with ⟨-, -, hin'⟩ | ⟨hnone, -⟩
    · simp [hin] at hin'
    · simp [hZ] at hnone
  · omega

theorem Inv.byte_off_zone (hc : c.Ok) (h : Inv c s live v) (hb : b ∈ live) {a z : Nat} {Z : Zone}
    (ha : b.ptr ≤ a ∧ a < b.stop) (hZ : v.zones z = some Z) :
    (a < z ∨ z + 48 ≤ a) ∧ ∀ f ∈ Z.free, a < f ∨ f + 8 ≤ a := by
  have hsize := hc.size
  have hok := h.view.zone_ok z Z hZ
  have h8 := (Zone.size_facts hok.index).1
  have hfree : ∀ f ∈ Z.free, z + 48 ≤ f ∧ f + Z.size ≤ z + c.ZONE_SIZE := hok.free_behind hc
  rcases Bool.eq_false_or_eq_true (in_zone c z b) with hin | hin
  · obtain ⟨hheld, ⟨k, hk, hptr⟩, hle⟩ := h.view.block_chunk hZ hb hin
    have hbounds := Zone.Chunk.bounds hc hok.index hok.limit hok.uindex_le ⟨k, hk, hptr⟩
    simp only [Block.stop] at ha
    refine ⟨by omega, fun f hf => ?_⟩
    obtain ⟨j, -, hj⟩ := hok.free_chunk f hf
    have hne : b.ptr ≠ f := fun he => hok.apart b hheld (he ▸ hf)
    have := Zone.Chunk.apart ⟨k, hptr⟩ ⟨j, hj⟩ hne
    omega
  · have hout := h.block_off_zone hc hb hZ hin
    refine ⟨by omega, fun f hf => ?_⟩
    have := hfree f hf
    omega

theorem Inv.write (hc : c.Ok) (h : Inv c s live v) (hb : b ∈ live) {a : Nat}
    (ha : b.ptr ≤ a ∧ a < b.stop) (x : Byte) :
    Inv c { s with mem := storeByte s.mem a x } live v := by
  have hsize := hc.size
  have hoff : SameOff s.mem (storeByte s.mem a x) a (a + 1) :=
    fun y hy => storeByte_sameOn s.mem a x y (y + 1) (by omega) y (by omega) (by omega)
  obtain ⟨r, hr, h1, h2, -⟩ := h.block_extent hc hb
  have hap := (h.runs.fresh r hr).apart c.usage_run List.mem_cons_self
  have htab : SameOn s.mem (storeByte s.mem a x) c.usage_run.start c.usage_run.stop :=
    hoff.sameOn (by omega)
  have hhead : ∀ z Z, v.zones z = some Z → SameOn s.mem (storeByte s.mem a x) z (z + 48) := by
    intro z Z hZ
    have := (h.byte_off_zone hc hb ha hZ).1
    exact hoff.sameOn (by omega)
  refine ⟨h.runs, h.view, ?_⟩
  constructor
  case stored =>
    intro z Z hZ
    refine (h.rep.stored z Z hZ).same ((hhead z Z hZ).mono (by omega) (by omega)) fun f hf => ?_
    have := (h.byte_off_zone hc hb ha hZ).2 f hf
    exact hoff.sameOn (by omega)
  case magic =>
    intro z Z hZ hn
    exact (load32_same ((hhead z Z hZ).mono (by omega) (by omega))).trans (h.rep.magic z Z hZ hn)
  case marks =>
    intro z Z hZ k hk
    exact (usage_run_same hc h.runs htab (h.view.zone_run z Z hZ) hk).trans
      (h.rep.marks z Z hZ k hk)
  case pages =>
    intro q hq hnone
    have := usage_run_same hc h.runs htab hq (h.runs.fresh q hq).nonempty
    rw [Nat.zero_mul, Nat.add_zero] at this
    exact this.trans (h.rep.pages q hq hnone)
  case lists =>
    intro i
    refine ForwardList.isList_same (h.rep.lists i) fun z hz => ?_
    obtain ⟨Z, hZ⟩ := h.listed_zone hz
    exact (hhead z Z hZ).mono (by omega) (by omega)
  case cached =>
    refine ForwardList.isList_same h.rep.cached fun z hz => ?_
    obtain ⟨Z, hZ⟩ := h.cached_zone hz
    exact (hhead z Z hZ).mono (by omega) (by omega)
  case count => exact h.rep.count

end Write

/-! ## What holds in every state -/

/-- A zone: a run of pages that `PAGE_USAGE_ARRAY` marks as one. -/
def IsZone (c : Statics) (s : SlabState) (z : Nat) : Prop :=
  ⟨z, c.ZONE_PAGE_CNT⟩ ∈ s.runs ∧ usage s.mem (btokup c z) = some (.Zone 0)

/-- The counts of the zone `z` and its place: `l` are the members of its `ZONE_ARRAY` list, `cache`
those of `ZONE_FREE`. -/
structure Counted (c : Statics) (w : World) (l cache : List Nat) (z : Nat) : Prop where
  index : z_zoneindex w.slab.mem z < NZONES
  uindex : z_uindex w.slab.mem z ≤ z_nmax w.slab.mem z
  free : ∃ free, ForwardList.IsList w.slab.mem (z_freechunk w.slab.mem z) free ∧
    z_nfree w.slab.mem z = z_nmax w.slab.mem z - z_uindex w.slab.mem z + free.length
  live_le : w.live.countP (in_zone c z) ≤ z_nmax w.slab.mem z
  live : z_nfree w.slab.mem z = z_nmax w.slab.mem z - w.live.countP (in_zone c z)
  listed : l.count z = if 0 < z_nfree w.slab.mem z ∧ z ∉ cache then 1 else 0

/-- What `free` reads for the block `b`: the header of the zone `r` that it is a chunk of, or the
length of the run `r` that it is. -/
def Finds (c : Statics) (s : SlabState) (b : Block) (r : PageRun) : Prop :=
  (∃ off k, usage s.mem (btokup c b.ptr) = some (.Zone off) ∧ off * PAGE ≤ round_down b.ptr PAGE ∧
    round_down b.ptr PAGE - off * PAGE = r.start ∧ IsZone c s r.start ∧ r.npages = c.ZONE_PAGE_CNT ∧
    k < z_uindex s.mem r.start ∧
      b.ptr = z_baseptr s.mem r.start + k * class_size (z_zoneindex s.mem r.start)) ∨
  usage s.mem (btokup c b.ptr) = some (.Page r.npages) ∧ b.ptr = r.start

structure Consistent (c : Statics) (w : World) : Prop where
  zones : ∃ (lists : Nat → List Nat) (cache : List Nat),
    (∀ i, ForwardList.IsList w.slab.mem (w.slab.ZONE_ARRAY i) (lists i)) ∧
    ForwardList.IsList w.slab.mem w.slab.ZONE_FREE cache ∧ w.slab.ZONE_FREE_CNT = cache.length ∧
    w.slab.ZONE_FREE_CNT ≤ ZONE_FREE_CNT_LIMIT ∧
    ∀ z, IsZone c w.slab z → Counted c w (lists (z_zoneindex w.slab.mem z)) cache z
  blocks : w.live.Pairwise fun a b => a.stop ≤ b.ptr ∨ b.stop ≤ a.ptr
  headers : ∀ b ∈ w.live, ∀ z, IsZone c w.slab z → b.stop ≤ z ∨ z + HEADER_SIZE ≤ b.ptr
  found : ∀ b ∈ w.live, ∃ r ∈ w.slab.runs, r.start ≤ b.ptr ∧ b.stop ≤ r.stop ∧ Finds c w.slab b r
  runs : ∀ r ∈ w.slab.runs, IsZone c w.slab r.start ∧ r.npages = c.ZONE_PAGE_CNT ∨
    ∃ b ∈ w.live, b.ptr = r.start

section Consistent

variable {c : Statics} {w : World} {v : View} {z : Nat}
variable (hc : c.Ok) (h : Inv c w.slab w.live v)

include h

theorem Inv.isZone_iff : IsZone c w.slab z ↔ ∃ Z, v.zones z = some Z := by
  constructor
  · rintro ⟨hrun, hu⟩
    cases hz : v.zones z with
    | some Z => exact ⟨Z, rfl⟩
    | none =>
      rw [h.rep.pages _ hrun hz] at hu
      simp at hu
  · rintro ⟨Z, hZ⟩
    have hpos : 0 < c.ZONE_PAGE_CNT := (h.runs.fresh _ (h.view.zone_run z Z hZ)).nonempty
    have := h.rep.marks z Z hZ 0 hpos
    rw [Nat.zero_mul, Nat.add_zero] at this
    exact ⟨h.view.zone_run z Z hZ, this⟩

theorem Inv.counted {Z : Zone} (hZ : v.zones z = some Z) :
    Counted c w (v.lists (z_zoneindex w.slab.mem z)) v.cache z := by
  have hst := h.rep.stored z Z hZ
  have hok := h.view.zone_ok z Z hZ
  have hcount := hok.count
  have hle := hok.uindex_le
  have hlive : w.live.countP (in_zone c z) = Z.held.length := by
    rw [h.view.held z Z hZ, List.countP_eq_length_filter]
  constructor
  case index =>
    rw [hst.zoneindex]
    exact hok.index
  case uindex =>
    rw [hst.uindex, hst.nmax]
    exact hle
  case free =>
    refine ⟨Z.free, hst.chain, ?_⟩
    rw [hst.nfree, hst.nmax, hst.uindex, Zone.nfree]
    omega
  case live_le =>
    rw [hst.nmax, hlive]
    omega
  case live => rw [hst.nfree, hst.nmax, hlive, Zone.nfree]
  case listed =>
    rw [hst.nfree, hst.zoneindex]
    split
    · rename_i hin
      exact List.count_eq_one_of_mem (h.rep.lists Z.zi).nodup
        ((h.view.listed Z.zi z).mpr ⟨Z, hZ, rfl, hin.1, hin.2⟩)
    · rename_i hin
      refine List.count_eq_zero_of_not_mem fun hmem => hin ?_
      obtain ⟨X, hX, -, hpos, hnc⟩ := (h.view.listed Z.zi z).mp hmem
      obtain rfl := Option.some.inj (hZ.symm.trans hX)
      exact ⟨hpos, hnc⟩

include hc

theorem Inv.blocks_apart {a b : Block} (ha : a ∈ w.live) (hb : b ∈ w.live) (hne : a.ptr ≠ b.ptr) :
    a.stop ≤ b.ptr ∨ b.stop ≤ a.ptr := by
  obtain ⟨r, hr, hr1, hr2, hra⟩ := h.block_extent hc ha
  obtain ⟨q, hq, hq1, hq2, hqb⟩ := h.block_extent hc hb
  rcases h.runs.apart r hr q hq with rfl | hap
  · rcases hra with ⟨Z, hZ, hina⟩ | ⟨hnone, hptr⟩
    · rcases hqb with ⟨-, -, hinb⟩ | ⟨hnone, -⟩
      · -- Two chunks of one zone.
        obtain ⟨-, ⟨j, -, hj⟩, hsa⟩ := h.view.block_chunk hZ ha hina
        obtain ⟨-, ⟨k, -, hk⟩, hsb⟩ := h.view.block_chunk hZ hb hinb
        have := Zone.Chunk.apart ⟨j, hj⟩ ⟨k, hk⟩ hne
        simp only [Block.stop]
        omega
      · simp [hZ] at hnone
    · rcases hqb with ⟨Z, hZ, -⟩ | ⟨-, hptr'⟩
      · simp [hZ] at hnone
      · exact absurd (hptr.trans hptr'.symm) hne
  · omega

theorem Inv.finds {b : Block} (hb : b ∈ w.live) :
    ∃ r ∈ w.slab.runs, r.start ≤ b.ptr ∧ b.stop ≤ r.stop ∧ Finds c w.slab b r := by
  obtain ⟨r, hr, h1, h2, hhome⟩ := h.block_extent hc hb
  refine ⟨r, hr, h1, h2, ?_⟩
  rcases hhome with ⟨Z, hZ, hin⟩ | ⟨hnone, hptr⟩
  · obtain ⟨off, hu, hle, hz⟩ := h.find_zone hc hZ hin
    obtain ⟨-, ⟨k, hk, hptr⟩, -⟩ := h.view.block_chunk hZ hb hin
    have hst := h.rep.stored _ Z hZ
    have heq := h.runs.eq_of_start hr (h.view.zone_run _ Z hZ) rfl
    refine .inl ⟨off, k, hu, hle, hz, h.isZone_iff.mpr ⟨Z, hZ⟩, by rw [heq], ?_, ?_⟩
    · rw [hst.uindex]
      exact hk
    · rw [hst.baseptr, hst.zoneindex]
      exact hptr
  · refine .inr ⟨?_, hptr⟩
    rw [hptr]
    exact h.rep.pages r hr hnone

theorem Inv.consistent : Consistent c w := by
  constructor
  case zones =>
    refine ⟨v.lists, v.cache, h.rep.lists, h.rep.cached, h.rep.count, ?_, fun z hz => ?_⟩
    · rw [h.rep.count]
      exact h.view.few
    · obtain ⟨Z, hZ⟩ := h.isZone_iff.mp hz
      exact h.counted hZ
  case blocks =>
    refine List.Pairwise.imp_of_mem ?_ (List.pairwise_map.mp h.view.nodup)
    exact fun ha hb hne => h.blocks_apart hc ha hb hne
  case headers =>
    intro b hb z hz
    obtain ⟨Z, hZ⟩ := h.isZone_iff.mp hz
    have hsize := hc.size
    rcases Bool.eq_false_or_eq_true (in_zone c z b) with hin | hin
    · have hok := h.view.zone_ok z Z hZ
      have := Zone.Chunk.bounds hc hok.index hok.limit hok.uindex_le
        (h.view.block_chunk hZ hb hin).2.1
      exact .inr this.1
    · have hout := h.block_off_zone hc hb hZ hin
      have : HEADER_SIZE = 48 := rfl
      omega
  case found => exact fun b hb => h.finds hc hb
  case runs =>
    intro r hr
    rcases h.view.run r hr with ⟨Z, hZ⟩ | hb
    · have heq := h.runs.eq_of_start hr (h.view.zone_run _ Z hZ) rfl
      exact .inl ⟨h.isZone_iff.mpr ⟨Z, hZ⟩, by rw [heq]⟩
    · exact .inr hb

end Consistent

/-! ## Runs -/

theorem zone_size_cases (limsize : Nat) : zone_size limsize 2 (32 * 1024) = 32 * 1024 ∨
    zone_size limsize 2 (32 * 1024) = 64 * 1024 ∨ zone_size limsize 2 (32 * 1024) = 128 * 1024 := by
  simp only [zone_size]
  split
  · split
    · exact .inr (.inr rfl)
    · exact .inr (.inl rfl)
  · exact .inl rfl

/-- The heap that `init` sets up is below 16 TiB, as every heap in the kernel's address space is,
and the page layer has pages for `PAGE_USAGE_ARRAY`. -/
structure Started (start stop answer : Nat) (c : Statics) : Prop where
  init : init start stop answer = .ok c
  top : stop < 2 ^ 64
  small : stop < start + 2 ^ 44
  table : Fresh c [] c.usage_run

theorem Started.ok {start stop answer : Nat} {c : Statics}
    (h : Started start stop answer c) : c.Ok := by
  have hi := h.init
  have htop := h.top
  have hsmall := h.small
  have htab := h.table
  simp only [Slab.init] at hi
  split at hi
  · simp at hi
  split at hi
  · simp at hi
  have hcases := zone_size_cases (round_down stop PAGE - round_up start PAGE)
  have hup := round_up_page start
  have hdown := round_down_page stop
  simp only [PAGE] at hup hdown hi
  rw [hup, hdown] at hi hcases
  obtain rfl := Except.ok.inj hi
  constructor
  case size => exact hcases
  case pages => rfl
  case limit => rfl
  case aligned => exact Nat.mul_mod_left _ _
  case end_aligned => exact Nat.mul_mod_left _ _
  case small =>
    simp only
    omega
  case top =>
    simp only
    omega
  case table => exact htab
  case entries => exact le_round_up_page _

section Steps

variable {c : Statics} {w w' : World} {e : Event} {p : Nat}

theorem step_inv (hc : c.Ok) (h : ∃ v, Inv c w.slab w.live v) (hfit : e.Fits c w)
    (hs : step c w e = .ok (w', p)) :
    ∃ v, Inv c w'.slab w'.live v := by
  obtain ⟨v, h⟩ := h
  cases e with
  | malloc size ans =>
    have hspec : wp (fun _ => True) (malloc c size ans.layer)
        (fun p s' => True ∧
          ∃ v', Inv c s' (if p = 0 then w.live else ⟨p, size⟩ :: w.live) v') w.slab :=
      malloc_spec hc h (fun hi _ => hi) trivial (fun _ => trivial) (PageAnswer.handed hfit.1 hfit.2)
    obtain ⟨q, s', ⟨-, hinv⟩, heq⟩ := wp_map_ok hspec hs
    rw [Prod.mk.injEq] at heq
    rw [← heq.1]
    exact hinv
  | free ptr ans =>
    obtain ⟨q, s', ⟨-, hinv⟩, heq⟩ := wp_map_ok (free_answer_spec hc h hfit) hs
    rw [Prod.mk.injEq] at heq
    rw [← heq.1]
    exact hinv
  | write addr b =>
    obtain ⟨x, hx, ha⟩ := hfit
    simp only [step, Except.ok.injEq, Prod.mk.injEq] at hs
    rw [← hs.1]
    exact ⟨v, h.write hc hx ha b⟩

theorem step_error {q : Panic} (hc : c.Ok) (h : ∃ v, Inv c w.slab w.live v) (hfit : e.Fits c w)
    (hs : step c w e = .error q) :
    q = .request_overflow ∧ ∃ size ans, e = .malloc size ans ∧ 2 ^ 64 ≤ size + PAGE := by
  obtain ⟨v, h⟩ := h
  cases e with
  | malloc size ans =>
    have hspec : wp (fun q => q = .request_overflow ∧ round_up_checks size = false)
      (malloc c size ans.layer)
        (fun p s' => True ∧
          ∃ v', Inv c s' (if p = 0 then w.live else ⟨p, size⟩ :: w.live) v') w.slab :=
      malloc_spec hc h (fun hi _ => hi) trivial (fun hchk => ⟨rfl, hchk⟩)
        (PageAnswer.handed hfit.1 hfit.2)
    obtain ⟨hq, hchk⟩ := wp_map_error hspec hs
    refine ⟨hq, size, ans, rfl, ?_⟩
    unfold round_up_checks at hchk
    simpa using hchk
  | free ptr ans => exact (wp_map_error (free_answer_spec hc h hfit) hs).elim
  | write addr b => simp [step] at hs

end Steps

theorem start_inv (c : Statics) (m : Mem) (l : Nat) :
    ∃ v, Inv c ⟨m, l, fun _ => 0, 0, 0, []⟩ [] v := by
  refine ⟨⟨fun _ => none, fun _ => [], []⟩, ?_, ?_, ?_⟩
  · constructor <;> simp
  · constructor <;> simp
  · constructor <;> simp [ForwardList.IsList, Chain.nil_iff]

theorem run_inv {c : Statics} (hc : c.Ok) {m : Mem} {es : List Event} {w : World}
    {ps : List Nat} (hfit : Meets (step c) (fun w e => e.Fits c w) (start m) es)
    (hrun : run (step c) (start m) es = .ok (w, ps)) :
    ∃ v, Inv c w.slab w.live v :=
  run_invariant_of_meets (fun w => ∃ v, Inv c w.slab w.live v)
    (fun _ _ _ _ h hf hs => step_inv hc h hf hs)
    (start_inv c m 0) hfit hrun

/-- What `malloc` returns is the start of `size` bytes that overlap no live block and no header. -/
structure Placed (c : Statics) (w w' : World) (p size : Nat) : Prop where
  inside : ∃ r ∈ w'.slab.runs, r.start ≤ p ∧ p + size ≤ r.stop
  blocks : ∀ b ∈ w.live, b.stop ≤ p ∨ p + size ≤ b.ptr
  headers : ∀ z, IsZone c w'.slab z → z + HEADER_SIZE ≤ p ∨ p + size ≤ z

theorem malloc_live {c : Statics} {w w' : World} {size p : Nat} {ans : PageAnswer}
    (hs : step c w (.malloc size ans) = .ok (w', p)) (hp : p ≠ 0) :
    w'.live = ⟨p, size⟩ :: w.live := by
  simp only [step] at hs
  cases hm : malloc c size ans.layer w.slab with
  | error q => simp [hm, Except.map] at hs
  | ok r =>
    simp only [hm, Except.map, Except.ok.injEq, Prod.mk.injEq] at hs
    rw [← hs.1]
    simp only
    rw [hs.2, if_neg hp]

theorem Consistent.placed {c : Statics} {w w' : World} {size p : Nat} (h : Consistent c w')
    (hlive : w'.live = ⟨p, size⟩ :: w.live) : Placed c w w' p size := by
  have hmem : ⟨p, size⟩ ∈ w'.live := by
    rw [hlive]
    exact List.mem_cons_self
  constructor
  case inside =>
    obtain ⟨r, hr, h1, h2, -⟩ := h.found _ hmem
    exact ⟨r, hr, h1, h2⟩
  case blocks =>
    intro b hb
    have := h.blocks
    rw [hlive] at this
    exact ((List.pairwise_cons.mp this).1 b hb).symm
  case headers => exact fun z hz => (h.headers _ hmem z hz).symm

/-- For every run of `malloc` and `free` over a page layer that keeps its runs apart: the run goes
to its end, or to a request that cannot be rounded up to pages, and every state on the way is
consistent, as is every block that `malloc` returns. -/
theorem slab_consistent {lo hi answer : Nat} {c : Statics} (hstart : Started lo hi answer c)
    (m : Mem) (es : List Event) (hfit : Meets (step c) (fun w e => e.Fits c w) (start m) es) :
    (∃ w ps, run (step c) (start m) es = .ok (w, ps) ∧ Consistent c w ∧
      ∀ size ans w' p, (Event.malloc size ans).Fits c w →
      step c w (.malloc size ans) = .ok (w', p) → p ≠ 0 →
        Placed c w w' p size) ∨
    (run (step c) (start m) es = .error .request_overflow ∧
      ∃ size ans, .malloc size ans ∈ es ∧ 2 ^ 64 ≤ size + PAGE) := by
  have hc := hstart.ok
  cases hrun : run (step c) (start m) es with
  | ok r =>
    obtain ⟨w, ps⟩ := r
    obtain ⟨v, hv⟩ := run_inv hc hfit hrun
    refine .inl ⟨w, ps, rfl, hv.consistent hc, fun size ans w' p hf hs hp => ?_⟩
    obtain ⟨v', hv'⟩ := step_inv hc ⟨v, hv⟩ hf hs
    exact (hv'.consistent hc).placed (malloc_live hs hp)
  | error q =>
    obtain ⟨w, e, he, hinv, hf, hs⟩ := run_error_step (fun w => ∃ v, Inv c w.slab w.live v)
      (fun w e w' p h hf hs => step_inv hc h hf hs) (start_inv c m 0) hfit hrun
    obtain ⟨rfl, size, ans, rfl, hlarge⟩ := step_error hc hinv hf hs
    exact .inr ⟨rfl, size, ans, he, hlarge⟩

/-- A heap of one MiB, its table in the first page. -/
def smallHeap : Statics := ⟨0x10000, 0x110000, 0x10000, 0x2000, 0x8000, 8⟩

/-- A chunk, a run of pages, and both are freed. -/
def smallRun : List Event :=
  [.malloc 100 ⟨0x11000, []⟩, .malloc 20000 ⟨0x19000, [(0x1e000, 1)]⟩,
    .write 0x11030 7, .free 0x11030 ⟨0, []⟩,
    .free 0x19000 ⟨0, [(0x19000, 1)]⟩]

theorem smallHeap_init : init 0x10000 0x110000 0x10000 = .ok smallHeap := by
  have h1 : round_up_checks 0x10000 = true := by decide +kernel
  have h2 : round_up 0x10000 PAGE = 0x10000 := by decide +kernel
  have h3 : round_down 0x110000 PAGE = 0x110000 := by decide +kernel
  have h4 : zone_size (0x110000 - 0x10000) 2 (32 * 1024) = 0x8000 := by decide +kernel
  have h5 : 32768 / PAGE = 8 := by decide +kernel
  simp [init, h1, h2, h3, h4, h5, smallHeap]

theorem slab_consistent_two_blocks : Started 0x10000 0x110000 0x10000 smallHeap ∧
    Meets (step smallHeap) (fun w e => e.Fits smallHeap w) (start fun _ => 0) smallRun ∧
    ∃ w ps, run (step smallHeap) (start fun _ => 0) smallRun = .ok (w, ps) ∧
    Consistent smallHeap w := by
  have hstart : Started 0x10000 0x110000 0x10000 smallHeap :=
    ⟨smallHeap_init, by decide, by decide, by decide +kernel⟩
  have hfit : Meets (step smallHeap) (fun w e => e.Fits smallHeap w)
    (start fun _ => 0) smallRun := by decide +kernel
  refine ⟨hstart, hfit, ?_⟩
  obtain ⟨w, ps, hrun, hcons, -⟩ | ⟨-, size, ans, hmem, hlarge⟩ :=
    slab_consistent hstart (fun _ => 0) smallRun hfit
  · exact ⟨w, ps, hrun, hcons⟩
  · simp only [smallRun, List.mem_cons, Event.malloc.injEq, reduceCtorEq,
      List.not_mem_nil, or_false] at hmem
    simp only [PAGE] at hlarge
    omega

end HectoOs.Slab
