import HectoOs.Heap.SlabBoot

/-! # `GlobalAlloc` and the alignment of what it returns

The alignment of a request only makes it larger. A pointer is then as aligned as the pages under it,
the offset of the first chunk, and the size of the chunks happen to be.
-/

open HectoOs.Lib HectoOs.Heap

namespace HectoOs.Slab

/-! ## What is asked of the code -/

/-- In every state that a run from `s₀` reaches, a pointer that `alloc` returns is aligned, and is
the start of bytes that nobody else has. -/
def Honoured (c : Statics) (s₀ : SlabState) (layout : Layout) : Prop :=
  ∀ rs w ps p s', Meets (turn c) (Request.Fits c) ⟨s₀, []⟩ rs →
  run (turn c) ⟨s₀, []⟩ rs = .ok (w, ps) →
    alloc c layout (paging c) w.slab = .ok (p, s') → p ≠ 0 →
      layout.align ∣ p ∧ Placed c w ⟨s', w.live⟩ p layout.size

/-- Wherever in the heap the pages for the request can be, their start is aligned, or the chunks in
them are. -/
def AlignFits (c : Statics) (layout : Layout) : Prop :=
  ∀ z, z ≠ 0 → Fresh c [c.usage_run] ⟨z, pages_for c layout.bytes⟩ →
    if c.CHUNK_LIMIT < layout.bytes then layout.align ∣ z
    else layout.align ∣ z + first_chunk (zone_index layout.bytes).1 ∧
      layout.align ∣ (zone_index layout.bytes).1

/-! ## Where a pointer lies -/

/-- The pointer `p` for `n` bytes is the start of its run, or a chunk of the size class of `n`. -/
def Lies (c : Statics) (runs : List PageRun) (n p : Nat) : Prop :=
  if c.CHUNK_LIMIT < n then ⟨p, pages_for c n⟩ ∈ runs
  else ∃ z k, ⟨z, pages_for c n⟩ ∈ runs ∧
    p = z + first_chunk (zone_index n).1 + k * (zone_index n).1

section Place

variable {c : Statics} {s : SlabState} {live : List Block} {v : View} {pages : PageLayer}
  {zn zi n : Nat} {l : List Nat}
variable {I : SlabState → Prop} {may : Panic → Prop}

theorem take_lies (hc : c.Ok) (h : Inv c s live v) (hl : v.lists zi = zn :: l)
    (hn : n ≤ class_size zi) :
    wp may (do count_out zn zi; pick_chunk zn (class_size zi))
      (fun p s' => ⟨zn, c.ZONE_PAGE_CNT⟩ ∈ s'.runs ∧
        ∃ k, p = zn + first_chunk (class_size zi) + k * class_size zi) s := by
  obtain ⟨Z, hZ, hzi, hpos, -⟩ := (h.view.listed zi zn).mp (by simp [hl])
  have hb := h.view.zone_bounds hc h.runs hZ
  have htop := hc.top
  have hsz : class_size zi = Z.size := by rw [← hzi, Zone.size]
  refine wp_call (count_out_spec hc h hl hZ) fun _ s₁ h₁ => ?_
  rw [hsz]
  refine wp_mono
    (pick_chunk_spec hc (h.view.zone_ok zn Z hZ) h₁.stored hpos (hsz ▸ hn) (by omega)) ?_
  rintro p s' ⟨m', Z', rfl, hp⟩
  obtain ⟨⟨k, -, hk⟩, -⟩ := hp.ok.held_chunk ⟨p, n⟩ (by simp [hp.held])
  refine ⟨?_, k, ?_⟩
  · rw [h₁.runs]
    exact h.view.zone_run zn Z hZ
  · rw [Zone.base, Zone.size, hp.zi] at hk
    exact hk

theorem malloc_lies {size : Nat} (hc : c.Ok) (h : Inv c s live v)
    (hI : ∀ {s s'}, I s → Kept c s s' → I s') (hown : I s) (halloc : wp (fun _ => True)
    (pages.page_alloc (pages_for c size)) (Handed c I s (pages_for c size)) s) :
    wp (fun _ => True) (malloc c size pages) (fun p s' => p = 0 ∨ Lies c s'.runs size p) s := by
  rw [malloc, wp_ite]
  refine ⟨fun _ => .inl rfl, fun h0 => wp_ite.mpr ⟨fun hlt => ?_, fun hle => ?_⟩⟩
  · simp only [Lies, pages_for, if_pos hlt] at halloc ⊢
    rw [malloc_pages, wp_bind, wp_require]
    refine ⟨fun _ => wp_call halloc ?_, fun _ => trivial⟩
    rintro p _ ⟨m, l, rfl, -, -, -⟩
    simp only [wp_bind, wp_require, wp_modify, wp_pure, wp_ite, set_mem]
    refine ⟨fun _ => .inl trivial, fun hne => ⟨fun _ => .inr ?_, fun _ => trivial⟩⟩
    rw [if_neg hne]
    exact List.mem_cons_self
  · have hpos : 1 ≤ size := by omega
    have hclass := zone_index_class hpos
    simp only [Lies, pages_for, if_neg hle] at halloc ⊢
    rw [hclass]
    simp only [wp_bind, wp_require, wp_get, wp_ite, ← hc.pages]
    refine ⟨fun _ => ⟨fun hzn => ?_, fun hzn => ?_⟩, fun _ => trivial⟩
    · obtain ⟨l, hl, -⟩ := (h.rep.lists _).exists_cons hzn
      refine wp_bind.mp (wp_mono (take_lies hc h hl (hclass ▸ le_zone_index hpos)) ?_)
      rintro p s' ⟨hmem, k, hk⟩
      exact .inr ⟨_, k, hmem, hk⟩
    · refine wp_mono (new_zone_spec hc h hI hown halloc) fun zn s₁ h₁ =>
        wp_ite.mpr ⟨fun hz => .inl rfl, fun hz => ?_⟩
      obtain ⟨-, h₁⟩ := h₁
      rw [if_neg hz] at h₁
      obtain ⟨m, cache', ho⟩ := h₁
      simp only [set_up_zone, wp_bind, wp_get, wp_require, set_mem, set_zone_list,
        wp_modify, wp_pure]
      exact ⟨fun _ => .inr ⟨zn, 0, ho.run, by omega⟩, fun _ => trivial⟩

end Place

/-! ## The first two requests of a run -/

section First

variable {c : Statics} {s : SlabState} {lo hi z n : Nat} {pages : PageLayer}

theorem AfterInit.room (h : AfterInit c s lo hi) (hc : c.Ok) (hf : Fresh c [c.usage_run] ⟨z, n⟩) :
    wp (fun _ => False) ((paging c).page_alloc n)
    (fun a s' => Handed c (Paged c) s n a s' ∧ a ≠ 0) s := by
  have hpool := h.pool
  have hpos : 0 < n := hf.nonempty
  have hroom : ∃ q ∈ allocRuns c.usage_pages [c.heap_run], n ≤ q.npages := by
    have habove := hf.above
    have hbelow := hf.below
    have hap := hf.apart _ List.mem_cons_self
    have htable := h.table
    have htab := hc.table.below
    have hsize := hc.table.nonempty
    simp only [Statics.usage_run, PageRun.stop, htable] at hap htab hsize habove hbelow
    refine ⟨⟨c.HEAP_START + c.usage_pages * PAGE, c.heap_run.npages - c.usage_pages⟩, ?_, ?_⟩
    · rw [allocRuns, if_pos (by simp only [Statics.heap_run, PAGE] at *; omega)]
      exact List.mem_cons_self
    · simp only [Statics.heap_run, PAGE] at *
      omega
  obtain ⟨t, a, hcall, hfit⟩ :=
    page_alloc_first_fit s.pages _ n c.fuel hpool.sorted hpool.holds (hpool.fuel hc)
  refine wp_and (paging_alloc_spec hc hpos ⟨?_, _, hpool⟩) ?_
  · obtain ⟨m, l, rfl⟩ := h.state
    constructor <;> simp
  · obtain ⟨r, hr, -, -, rfl, -⟩ := hfit.lowest hpos.ne' hroom
    simp only [paging, wp_bind, wp_get, wp_unwrap, hcall, Option.some.injEq,
      forall_eq', reduceCtorEq,
      IsEmpty.forall_iff, and_true, wp_set, wp_pure]
    exact (hpool.sorted.ok r hr).nonnull.ne'

/-- The state in which the zone at `z` has one chunk of the size class of `n` in use. -/
structure OneChunk (c : Statics) (s : SlabState) (z n : Nat) : Prop where
  listed : s.ZONE_ARRAY (zone_index n).2 = z
  stored : Stored c s.mem z (Zone.fresh (zone_index n).2 z n)
    ((Zone.fresh (zone_index n).2 z n).nfree c)

variable (hc : c.Ok) (hn : 1 ≤ n) (hle : n ≤ c.CHUNK_LIMIT)

include hc hn hle

theorem class_limit : class_size (zone_index n).2 ≤ c.CHUNK_LIMIT ∧ (zone_index n).2 < NZONES := by
  obtain ⟨k, hk, hlim⟩ := hc.limit_pow
  rw [← zone_index_class hn]
  refine ⟨?_, zone_index_lt hn (Nat.le_trans hle hc.limit_le.2)⟩
  rw [hlim]
  exact zone_index_le_pow hn hk (hlim ▸ hle)

theorem first_chunk_spec (h : AfterInit c s lo hi) (hf : Fresh c [c.usage_run] ⟨z, pages_for c n⟩) :
    ∃ a s', a % PAGE = 0 ∧ a ≠ 0 ∧
    malloc c n (paging c) s = .ok (a + first_chunk (zone_index n).1, s') ∧
      OneChunk c s' a n := by
  obtain ⟨hlim, hzi⟩ := class_limit hc hn hle
  obtain ⟨h3, hend, -⟩ := Zone.layout (Z := Zone.fresh (zone_index n).2 z n) hc hzi hlim
  have htop := hc.top
  have hoff : first_chunk (class_size (zone_index n).2) ≤ c.ZONE_SIZE :=
    Nat.le_trans (Nat.le_add_right _ _) hend
  have hmax : 0 < (c.ZONE_SIZE - first_chunk (class_size (zone_index n).2)) / class_size
    (zone_index n).2 :=
    Nat.lt_of_lt_of_le (by omega) h3
  rw [pages_for, if_neg (by omega)] at hf
  have hroom := h.room hc hf
  obtain ⟨m, l, rfl⟩ := h.state
  have hspec : wp (fun _ => False) (malloc c n (paging c))
      (fun p s => ∃ a, p = a + first_chunk (zone_index n).1 ∧ a % PAGE = 0 ∧
        a ≠ 0 ∧ OneChunk c s a n)
      ⟨m, l, fun _ => 0, 0, 0, []⟩ := by
    rw [malloc, if_neg (by omega), if_neg (by omega), zone_index_class hn]
    simp only [new_zone, wp_bind, wp_require, wp_get, wp_ite]
    refine ⟨fun _ => ⟨fun h0 => absurd rfl h0,
      fun _ => ⟨fun h0 => absurd rfl h0, fun _ => wp_mono hroom ?_⟩⟩, ?_⟩
    · rintro a _ ⟨⟨m', l', rfl, -, hfresh, -⟩, ha⟩
      have hfresh := hfresh ha
      have hbelow := hfresh.below
      rw [← hc.pages, zone_stop hc] at hbelow
      simp only [set_up_zone, set_mem, set_zone_list, wp_bind, wp_require,
        wp_get, wp_modify, wp_pure, wp_ite]
      refine ⟨fun h0 => absurd h0 ha,
        fun _ => ⟨fun _ => ⟨fun h0 => absurd h0 ha, fun _ => ⟨fun _ => ⟨a, rfl,
        hfresh.aligned, ha, if_pos rfl, ?_⟩, ?_⟩⟩, ?_⟩⟩
      · exact stored_fresh hc hzi hlim (by omega)
      · simp [hoff, hmax]
      · have habove : c.HEAP_START ≤ a := hfresh.above
        simp [habove]
    · simp [hzi]
  obtain ⟨p, s', hs, a, rfl, hal, ha, hone⟩ := wp_total hspec
  exact ⟨a, s', hal, ha, hs, hone⟩

theorem second_chunk_spec (h : OneChunk c s z n) (hz : z ≠ 0) :
    ∃ s', malloc c n pages s = .ok (z + first_chunk (zone_index n).1 + (zone_index n).1, s') := by
  obtain ⟨hlim, hzi⟩ := class_limit hc hn hle
  have hst := h.stored
  have hlisted := h.listed
  obtain ⟨h3, -, -⟩ := Zone.layout (Z := Zone.fresh (zone_index n).2 z n) hc hzi hlim
  have hfree : (Zone.fresh (zone_index n).2 z n).nfree c =
    (Zone.fresh (zone_index n).2 z n).nmax c - 1 := rfl
  have hmax := (Zone.layout (Z := Zone.fresh (zone_index n).2 z n) hc hzi hlim).2.2
  have hst' := hst.set_nfree (v := (Zone.fresh (zone_index n).2 z n).nfree c - 1)
    (by simp [Zone.fresh]) (by omega)
  have hone : (Zone.fresh (zone_index n).2 z n).uindex = 1 := rfl
  have hspec : wp (fun _ => False) (malloc c n pages)
      (fun p _ => p = z + first_chunk (zone_index n).1 + (zone_index n).1) s := by
    rw [malloc, if_neg (by omega), if_neg (by omega), zone_index_class hn]
    simp only [count_out, pick_chunk, wp_bind, wp_require, wp_get, wp_modify,
      wp_pure, wp_ite, set_mem, hlisted,
      set_zone_list, hst.nfree, hst'.uindex, hst'.nmax, hst'.baseptr, hone]
    refine ⟨fun _ => ⟨fun _ => ⟨fun _ => ⟨fun h1 => by omega,
      fun _ => ⟨fun _ => ?_, fun h1 => by omega⟩⟩, fun h0 => ?_⟩,
      fun h0 => absurd hz h0⟩, fun h0 => ?_⟩
    · rw [Nat.one_mul]
      rfl
    · simp only [decide_eq_false_iff_not] at h0
      omega
    · simp [hzi] at h0
  obtain ⟨p, s', hs, rfl⟩ := wp_total hspec
  exact ⟨s', hs⟩

end First

/-! ## The result -/

theorem Placed.mono {c : Statics} {w w' : World} {p n k : Nat} (h : Placed c w w' p n)
    (hk : k ≤ n) :
    Placed c w w' p k where
  inside := by
    obtain ⟨r, hr, h1, h2⟩ := h.inside
    exact ⟨r, hr, h1, by omega⟩
  blocks b hb := by
    have := h.blocks b hb
    omega
  headers z hz := by
    have := h.headers z hz
    omega

section Honour

variable {c : Statics} {layout : Layout} {m : Mem} {lo hi : Nat} {s₀ : SlabState}

theorem Layout.bytes_pos (layout : Layout) : 1 ≤ layout.bytes := by
  obtain ⟨k, hk⟩ := layout.pow
  have := Nat.two_pow_pos k
  unfold Layout.bytes
  omega

theorem AlignFits.dvd {runs : List PageRun} {p : Nat} (h : AlignFits c layout) (hr : RunsOk c runs)
    (hp : Lies c runs layout.bytes p) : layout.align ∣ p := by
  unfold Lies at hp
  split at hp
  · rename_i hlt
    have := h p (hr.nonnull _ hp).ne' (hr.fresh _ hp)
    rwa [if_pos hlt] at this
  · rename_i hle
    obtain ⟨z, k, hz, rfl⟩ := hp
    have := h z (hr.nonnull _ hz).ne' (hr.fresh _ hz)
    rw [if_neg hle] at this
    exact Nat.dvd_add this.1 (Dvd.dvd.mul_left this.2 k)

theorem AlignFits.honoured (hb : Booted m lo hi c s₀) (h : AlignFits c layout) :
    Honoured c s₀ layout := by
  intro rs w ps p s' hfit hrun hp hne
  have hc := hb.spec.started.ok
  obtain ⟨⟨v, hv⟩, hpaged⟩ := run_served hc hb.spec.served hfit hrun
  obtain ⟨-, v', hv'⟩ := wp_ok (malloc_served hc hv hpaged) hp
  rw [if_neg hne] at hv'
  have hplaced : Placed c w ⟨s', ⟨p, layout.bytes⟩ :: w.live⟩ p layout.bytes :=
    (Inv.consistent hc hv').placed rfl
  have hmono := hplaced.mono (Nat.le_max_left layout.size layout.align)
  refine ⟨?_, hmono.inside, hmono.blocks, hmono.headers⟩
  have hlies := wp_ok (malloc_lies hc hv (fun hi hk => hi.kept hc hk) hpaged
    (paging_alloc_spec hc (pages_for_pos hc _) hpaged)) hp
  exact h.dvd hv'.runs (hlies.resolve_left hne)

theorem Honoured.alignFits (hb : Booted m lo hi c s₀) (hpage : layout.align ∣ PAGE)
    (h : Honoured c s₀ layout) :
    AlignFits c layout := by
  have hc := hb.spec.started.ok
  have hpos := layout.bytes_pos
  intro z hz hf
  have hdvd : ∀ a, a % PAGE = 0 → layout.align ∣ a :=
    fun a ha => hpage.trans (Nat.dvd_of_mod_eq_zero ha)
  split
  · exact hdvd z hf.aligned
  · rename_i hle
    obtain ⟨a, s, hal, ha, hs, hone⟩ := first_chunk_spec hc hpos (Nat.le_of_not_lt hle) hb.spec hf
    obtain ⟨s', hs'⟩ : ∃ s', malloc c layout.bytes (paging c) s = .ok _ :=
      second_chunk_spec hc hpos (Nat.le_of_not_lt hle) hone ha
    generalize hp : a + first_chunk (zone_index layout.bytes).1 = p at hs hs'
    have hne : p ≠ 0 := by omega
    have h1 := (h [] ⟨s₀, []⟩ [] p s trivial rfl hs hne).1
    have hturn : turn c ⟨s₀, []⟩ (.alloc layout) = .ok (⟨s, [⟨p, layout.bytes⟩]⟩, p) := by
      simp only [turn, alloc, hs, Except.map, if_neg hne]
    -- The second request takes the next chunk of the same zone.
    have hrun : run (turn c) ⟨s₀, []⟩ [.alloc layout] = .ok (⟨s, [⟨p, layout.bytes⟩]⟩, [p]) := by
      simp only [run, hturn]
    have h2 := (h [.alloc layout] _ _ _ s' ⟨trivial, fun _ _ _ => trivial⟩ hrun hs' (by omega)).1
    rw [← hp] at h1
    exact ⟨Nat.dvd_add (hdvd z hf.aligned) ((Nat.dvd_add_right (hdvd a hal)).mp h1),
      (Nat.dvd_add_right (hp ▸ h1)).mp h2⟩

/-- In every run of requests in which no free is misled, `alloc` honours a layout that fits the
heap. For an alignment up to a page there are no others. -/
theorem alloc_honoured_iff (hb : Booted m lo hi c s₀) (layout : Layout) :
    (AlignFits c layout → Honoured c s₀ layout) ∧
      (layout.align ∣ PAGE → Honoured c s₀ layout → AlignFits c layout) :=
  ⟨fun h => h.honoured hb, fun hpage h => h.alignFits hb hpage⟩

theorem alignFits_iff_of_page (hpage : layout.align ∣ PAGE) :
    AlignFits c layout ↔ (∀ z, z ≠ 0 → ¬ Fresh c [c.usage_run] ⟨z, pages_for c layout.bytes⟩) ∨
      c.CHUNK_LIMIT < layout.bytes ∨
      layout.align ∣ first_chunk (zone_index layout.bytes).1 ∧
      layout.align ∣ (zone_index layout.bytes).1 := by
  have hz : ∀ z, Fresh c [c.usage_run] ⟨z, pages_for c layout.bytes⟩ → layout.align ∣ z :=
    fun z hf => hpage.trans (Nat.dvd_of_mod_eq_zero hf.aligned)
  constructor
  · intro h
    by_cases hno : ∀ z, z ≠ 0 → ¬ Fresh c [c.usage_run] ⟨z, pages_for c layout.bytes⟩
    · exact .inl hno
    by_cases hlt : c.CHUNK_LIMIT < layout.bytes
    · exact .inr (.inl hlt)
    push Not at hno
    obtain ⟨z, h0, hf⟩ := hno
    have := h z h0 hf
    rw [if_neg hlt] at this
    exact .inr (.inr ⟨(Nat.dvd_add_right (hz z hf)).mp this.1, this.2⟩)
  · rintro (hno | hlt | ⟨hoff, hsize⟩) z h0 hf
    · exact absurd hf (hno z h0)
    · rw [if_pos hlt]
      exact hz z hf
    · split
      · exact hz z hf
      · exact ⟨Nat.dvd_add (hz z hf) hoff, hsize⟩

end Honour

theorem smallHeap_boot : ∃ s, Booted (fun _ => 0) 0x10000 0x110000 smallHeap s := by
  have hsome : (boot (fun _ => 0) 0x10000 0x110000).toOption.map Prod.fst = some smallHeap := by
    decide +kernel
  obtain ⟨⟨c, s⟩, hboot, rfl⟩ := Option.map_eq_some_iff.mp hsome
  exact ⟨s, toOption_eq_some.mp hboot, by decide, by decide, by decide⟩

/-- A class of 64 bytes keeps an alignment of 32. -/
theorem alloc_honours_64_32 : ∃ s, Booted (fun _ => 0) 0x10000 0x110000 smallHeap s ∧
    Honoured smallHeap s ⟨64, 32, 5, rfl⟩ := by
  obtain ⟨s, hb⟩ := smallHeap_boot
  refine ⟨s, hb, (alloc_honoured_iff hb ⟨64, 32, 5, rfl⟩).1 ?_⟩
  exact (alignFits_iff_of_page (by decide)).mpr (.inr (.inr (by decide +kernel)))

/-- Two runs of five pages, and the first is freed with a 10 in its second word. -/
def misledRun : List Request :=
  [.alloc ⟨20480, 8, 3, rfl⟩, .alloc ⟨20480, 8, 3, rfl⟩, .write 0x11008 10,
    .dealloc 0x11000 ⟨20480, 8, 3, rfl⟩]

/-- The pointer that `alloc` returns after a run, and the blocks that are live. -/
def after (rs : List Request) (layout : Layout) : Option (Nat × List Block) := do
  let (c, s) ← (boot (fun _ => 0) 0x10000 0x110000).toOption
  let (w, _) ← (run (turn c) ⟨s, []⟩ rs).toOption
  let (p, _) ← (alloc c layout (paging c) w.slab).toOption
  some (p, w.live)

theorem after_eq_some {rs : List Request} {layout : Layout} {p : Nat} {live : List Block}
    {s : SlabState} (hb : Booted (fun _ => 0) 0x10000 0x110000 smallHeap s)
    (h : after rs layout = some (p, live)) :
    ∃ w ps t, run (turn smallHeap) ⟨s, []⟩ rs = .ok (w, ps) ∧ w.live = live ∧
      alloc smallHeap layout (paging smallHeap) w.slab = .ok (p, t) := by
  simp only [after, hb.boot, Except.toOption, Option.bind_eq_bind, Option.bind_some,
    Option.bind_eq_some_iff,
    Option.some.injEq, Prod.mk.injEq] at h
  obtain ⟨⟨w, ps⟩, hrun, ⟨q, t⟩, halloc, rfl, hlive⟩ := h
  exact ⟨w, ps, t, toOption_eq_some.mp hrun, hlive, toOption_eq_some.mp halloc⟩

/-- The chunks for 48 bytes follow a header of 48 bytes, so the first one is at an odd multiple of
16. And after a free that is misled, `alloc` returns pages over a live block. -/
theorem alloc_breaks_48_32 : ∃ s, Booted (fun _ => 0) 0x10000 0x110000 smallHeap s ∧
    ¬ Honoured smallHeap s ⟨48, 32, 5, rfl⟩ ∧
    ∃ w ps t, run (turn smallHeap) ⟨s, []⟩ misledRun = .ok (w, ps) ∧
      alloc smallHeap ⟨40960, 8, 3, rfl⟩ (paging smallHeap) w.slab = .ok (0x11000, t) ∧
      ¬ Placed smallHeap w ⟨t, w.live⟩ 0x11000 40960 := by
  obtain ⟨s, hb⟩ := smallHeap_boot
  have hfirst : after [] ⟨48, 32, 5, rfl⟩ = some (0x11030, []) := by decide +kernel
  have hover : after misledRun ⟨40960, 8, 3, rfl⟩ = some (0x11000, [⟨0x16000, 20480⟩]) := by
    decide +kernel
  refine ⟨s, hb, fun h => ?_, ?_⟩
  · obtain ⟨w, ps, t, hrun, -, hp⟩ := after_eq_some hb hfirst
    cases hrun
    exact absurd (h [] _ _ _ t trivial rfl hp (by decide)).1 (by decide)
  · obtain ⟨w, ps, t, hrun, hlive, hp⟩ := after_eq_some hb hover
    refine ⟨w, ps, t, hrun, hp, fun hplaced => ?_⟩
    have := hplaced.blocks ⟨0x16000, 20480⟩ (by simp [hlive])
    simp only [Block.stop] at this
    omega

end HectoOs.Slab
