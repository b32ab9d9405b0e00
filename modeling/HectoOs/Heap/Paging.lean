import HectoOs.Heap.SlabProofs

/-! # The zones over the page layer of `page.rs`

The free list stays apart from the runs that are handed out, as long as no call of `page_free` is
misled by what the freed pages hold.
-/

open HectoOs.Lib

namespace HectoOs.Heap

open PageState

/-! ## What the loops write -/

/-- The headers that differ lie in the runs. -/
def Framed (runs : List PageRun) (s s' : PageState) : Prop :=
  ∀ a, (∀ r ∈ runs, a < r.start ∨ r.stop ≤ a) → s'.mem a = s.mem a

def HeaderIn (runs : List PageRun) (p : Nat) : Prop := ∃ r ∈ runs, r.start ≤ p ∧ p + 16 ≤ r.stop

section Framed

variable {runs runs' : List PageRun} {s s' s'' : PageState} {p v : Nat}

theorem Framed.refl (runs : List PageRun) (s : PageState) : Framed runs s s := fun _ _ => rfl

theorem Framed.trans (h : Framed runs s s') (h' : Framed runs s' s'') : Framed runs s s'' :=
  fun a ha => (h' a ha).trans (h a ha)

theorem framed_of_sameOff (h : SameOff s.mem s'.mem p (p + 16)) (hp : HeaderIn runs p) :
    Framed runs s s' := by
  obtain ⟨r, hr, hlo, hhi⟩ := hp
  intro a ha
  have := ha r hr
  exact h a (by omega)

theorem HeaderIn.set_next (s : PageState) (v : Nat) (hp : HeaderIn runs p) :
    Framed runs s (s.set_next p v) :=
  framed_of_sameOff ((store64_sameOff _ _ _).mono (by omega) (by omega)) hp

theorem HeaderIn.set_npages (s : PageState) (v : Nat) (hp : HeaderIn runs p) :
    Framed runs s (s.set_npages p v) :=
  framed_of_sameOff ((store64_sameOff _ _ _).mono (by omega) (by omega)) hp

theorem framed_set {l : Link} (s : PageState) (v : Nat) (hl : ∀ a, l = .node a → HeaderIn runs a) :
    Framed runs s (s.set l v) := by
  cases l with
  | head => exact Framed.refl _ _
  | node a => exact (hl a rfl).set_next s v

theorem PageRun.Ok.headerIn {r : PageRun} (h : r.Ok) (hr : r ∈ runs) : HeaderIn runs r.start := by
  have := h.nonempty
  refine ⟨r, hr, le_rfl, ?_⟩
  simp only [PageRun.stop, PAGE]
  omega

theorem link_headerIn {pre : List PageRun} (hok : ∀ r ∈ pre, r.Ok) (hsub : ∀ r ∈ pre, r ∈ runs)
    (a : Nat) (ha : linkAfter (starts pre) = .node a) : HeaderIn runs a := by
  obtain ⟨r, hr, rfl⟩ := List.mem_map.mp (mem_of_linkAfter ha)
  exact (hok r hr).headerIn (hsub r hr)

end Framed

theorem page_alloc_loop_framed {npages : Nat} (hpos : 0 < npages) (s : PageState)
    (pre runs : List PageRun) (fuel : Nat) (hok : SortedRuns (pre ++ runs))
    (h : Holds s (pre ++ runs)) {s' : PageState} {a : Nat}
    (hs : page_alloc_loop npages fuel s (linkAfter (starts pre)) = some (s', a)) :
    Framed (pre ++ runs) s s' := by
  induction fuel generalizing pre runs with
  | zero => simp [page_alloc_loop] at hs
  | succ fuel ih =>
    have hlink : ∀ a, linkAfter (starts pre) = .node a → HeaderIn (pre ++ runs) a :=
      link_headerIn (fun r hr => hok.ok r (by simp [hr])) (by simp +contextual)
    cases runs with
    | nil =>
      rw [page_alloc_loop, get_link_nil h, if_pos rfl] at hs
      cases hs
      exact Framed.refl _ _
    | cons q qs =>
      have hq : q.Ok := hok.ok q (by simp)
      simp only [page_alloc_loop, get_link_cons h, h.counts q (by simp)] at hs
      rw [if_neg (by have := hq.nonnull; omega)] at hs
      split_ifs at hs with hlt heq
      · cases hs
        -- The new header lies behind the pages that are taken.
        have hn : HeaderIn (pre ++ q :: qs) ((q.start + npages * PAGE) % 2 ^ 64) := by
          refine ⟨q, by simp, ?_⟩
          rw [Nat.mod_eq_of_lt (cut_bounded hq hlt)]
          simp only [PageRun.stop, PAGE]
          omega
        exact ((hn.set_next s _).trans (hn.set_npages _ _)).trans (framed_set _ _ hlink)
      · cases hs
        exact framed_set _ _ hlink
      · have happ : pre ++ q :: qs = (pre ++ [q]) ++ qs := by simp
        rw [happ] at hok h ⊢
        refine ih (pre ++ [q]) qs hok h ?_
        rw [starts, List.map_append, List.map_singleton, linkAfter_concat]
        exact hs

theorem page_alloc_framed {npages fuel : Nat} {s s' : PageState} {runs : List PageRun} {a : Nat}
    (hok : SortedRuns runs) (h : Holds s runs) (hs : page_alloc fuel s npages = some (s', a)) :
    Framed runs s s' := by
  unfold page_alloc at hs
  split at hs
  · cases hs
    exact Framed.refl _ _
  · exact page_alloc_loop_framed (by omega) s [] runs fuel hok h hs

theorem page_free_loop_framed (r : PageRun) (hr : r.Ok) (s : PageState) (pre runs : List PageRun)
    (fuel : Nat) (hok : SortedRuns (pre ++ runs)) (h : Holds s (pre ++ runs)) {s' : PageState}
    (hs : page_free_loop r.start r.npages fuel s (linkAfter (starts pre)) = some s') :
    Framed (r :: (pre ++ runs)) s s' := by
  induction fuel generalizing pre runs with
  | zero => simp [page_free_loop] at hs
  | succ fuel ih =>
    have hlink : ∀ a, linkAfter (starts pre) = .node a → HeaderIn (r :: (pre ++ runs)) a :=
      link_headerIn (fun r hr => hok.ok r (by simp [hr])) (by simp +contextual)
    cases runs with
    | nil =>
      rw [page_free_loop, get_link_nil h, if_pos rfl] at hs
      cases hs
      exact Framed.refl _ _
    | cons q qs =>
      have hq : q.Ok := hok.ok q (by simp)
      have hheader : HeaderIn (r :: (pre ++ q :: qs)) q.start := hq.headerIn (by simp)
      have hcur : HeaderIn (r :: (pre ++ q :: qs)) r.start := hr.headerIn (by simp)
      simp only [page_free_loop, get_link_cons h] at hs
      rw [if_neg (by have := hq.nonnull; omega)] at hs
      split_ifs at hs with hl hmerge hc hp
      · cases hs
        exact ((hheader.set_npages s _).trans (hheader.set_npages _ _)).trans (hheader.set_next _ _)
      · cases hs
        exact hheader.set_npages s _
      · cases hs
        exact ((hcur.set_npages s _).trans (hcur.set_next _ _)).trans (framed_set _ _ hlink)
      · cases hs
        exact ((hcur.set_npages s _).trans (hcur.set_next _ _)).trans (framed_set _ _ hlink)
      · have happ : pre ++ q :: qs = (pre ++ [q]) ++ qs := by simp
        rw [happ] at hok h ⊢
        refine ih (pre ++ [q]) qs hok h ?_
        rw [starts, List.map_append, List.map_singleton, linkAfter_concat]
        exact hs

/-! ## Which frees are sound -/

theorem Holds.same {s s' : PageState} {runs : List PageRun} (h : Holds s runs)
    (hok : ∀ r ∈ runs, r.Ok) (hlist : s'.FREE_PAGE_LIST = s.FREE_PAGE_LIST)
    (hmem : ∀ r ∈ runs, SameOn s.mem s'.mem r.start r.stop) : Holds s' runs := by
  have hhead : ∀ r ∈ runs, SameOn s.mem s'.mem r.start (r.start + 16) := by
    intro r hr
    refine (hmem r hr).mono le_rfl ?_
    have := (hok r hr).nonempty
    simp only [PageRun.stop, PAGE]
    omega
  constructor
  · rw [hlist]
    refine h.chain.congr fun a ha => ?_
    obtain ⟨r, hr, rfl⟩ := List.mem_map.mp ha
    exact load64_same ((hhead r hr).mono le_rfl (by omega))
  · intro r hr
    exact (load64_same ((hhead r hr).mono (by omega) le_rfl)).trans (h.counts r hr)

/-- The list from `p` on. -/
def free_runs (s : PageState) : Nat → Nat → List PageRun
  | 0, _ => []
  | fuel + 1, p => if p = 0 then [] else ⟨p, s.npages p⟩ :: free_runs s fuel (s.next p)

theorem free_runs_eq {s : PageState} {runs : List PageRun} {p fuel : Nat}
    (h : Chain s.next p (starts runs)) (hn : ∀ r ∈ runs, s.npages r.start = r.npages)
    (hf : runs.length < fuel) : free_runs s fuel p = runs := by
  induction runs generalizing p fuel with
  | nil =>
    obtain ⟨fuel, rfl⟩ : ∃ k, fuel = k + 1 := ⟨fuel - 1, by simp at hf; omega⟩
    rw [free_runs, if_pos (Chain.nil_iff.mp h)]
  | cons q qs ih =>
    obtain ⟨fuel, rfl⟩ : ∃ k, fuel = k + 1 := ⟨fuel - 1, by simp at hf; omega⟩
    obtain ⟨rfl, h0, hrest⟩ := h
    rw [free_runs, if_neg h0, hn q List.mem_cons_self,
      ih hrest (fun r hr => hn r (List.mem_cons_of_mem _ hr)) (by simp at hf; omega)]

/-- The loop runs past the last free run, and the freed pages are lost. -/
def Lost (runs : List PageRun) (r : PageRun) (ptr : Nat) : Prop :=
  ∀ q ∈ runs, q.stop ≠ r.start ∧ q.start < ptr

/-- The free is not misled: its pages join the list, or they are lost. -/
def Sound (runs : List PageRun) (r : PageRun) (ptr : Nat) : Prop :=
  HeaderFits runs r ptr ∨ Lost runs r ptr

instance (runs : List PageRun) (r : PageRun) (ptr : Nat) : Decidable (Sound runs r ptr) :=
  inferInstanceAs (Decidable ((_ ∧ (_ ∨ _)) ∨ ∀ _ ∈ _, _))

theorem Lost.freeRuns {runs : List PageRun} {r : PageRun} {ptr : Nat} (h : Lost runs r ptr) :
    freeRuns r ptr runs = runs := by
  induction runs with
  | nil => rfl
  | cons q qs ih =>
    obtain ⟨hadj, hlt⟩ := h q List.mem_cons_self
    rw [Heap.freeRuns, if_neg hadj, if_neg (by omega), if_neg (by omega),
      ih fun x hx => h x (List.mem_cons_of_mem _ hx)]

theorem Sound.freeRuns {runs : List PageRun} {r : PageRun} {ptr : Nat}
    (h : Sound runs r ptr) (hok : SortedRuns runs) (hr : r.Ok) (hap : Apart r runs) :
    SortedRuns (freeRuns r ptr runs) ∧ ∀ p, inRuns (freeRuns r ptr runs) p →
    inRuns runs p ∨ r.Has p := by
  rcases h with hfits | hlost
  · obtain ⟨hs, hset⟩ := (freeRuns_adds_iff r ptr runs hok hr hap).mpr hfits
    exact ⟨hs, fun p => (hset p).mp⟩
  · rw [hlost.freeRuns]
    exact ⟨hok, fun _ hp => .inl hp⟩

/-! ## Pages and addresses -/

theorem apart_of_pages {r q : PageRun} (hr : r.start % PAGE = 0) (hq : q.start % PAGE = 0)
    (hrn : 0 < r.npages) (hqn : 0 < q.npages) (h : ∀ p, r.Has p → ¬ q.Has p) :
    q.stop ≤ r.start ∨ r.stop ≤ q.start := by
  have h1 := h (r.start / PAGE)
  have h2 := h (q.start / PAGE)
  simp only [PageRun.Has, PageRun.stop, PAGE] at *
  omega

theorem SortedRuns.length_le {runs : List PageRun} {lo hi : Nat} (h : SortedRuns runs)
    (hlo : ∀ r ∈ runs, lo ≤ r.start) (hhi : ∀ r ∈ runs, r.stop ≤ hi) (hle : lo ≤ hi) :
    runs.length * PAGE ≤ hi - lo := by
  induction runs generalizing lo with
  | nil => simp
  | cons q qs ih =>
    obtain ⟨hq, hlt, hqs⟩ := sortedRuns_cons.mp h
    have hstop := hhi q List.mem_cons_self
    have hstart := hlo q List.mem_cons_self
    have hlen :=
      ih hqs (fun r hr => (hlt r hr).le) (fun r hr => hhi r (List.mem_cons_of_mem _ hr)) hstop
    have hone : q.start + PAGE ≤ q.stop :=
      Nat.add_le_add_left (Nat.le_mul_of_pos_left _ hq.nonempty) _
    rw [List.length_cons, Nat.add_mul, Nat.one_mul]
    generalize qs.length * PAGE = n at hlen ⊢
    generalize PAGE = k at hone ⊢
    omega

end HectoOs.Heap

open HectoOs.Heap

namespace HectoOs.Slab

/-! ## The list of the page layer -/

/-- A page of the heap that nobody has. -/
structure Unclaimed (c : Statics) (runs : List PageRun) (p : Nat) : Prop where
  above : c.HEAP_START ≤ p * PAGE
  below : (p + 1) * PAGE ≤ c.HEAP_END
  free : ∀ q ∈ c.usage_run :: runs, ¬ q.Has p

abbrev SlabState.pages (s : SlabState) : PageState := ⟨s.mem, s.FREE_PAGE_LIST⟩

/-- The list holds pages that nobody has. -/
structure Pool (c : Statics) (s : SlabState) (free : List PageRun) : Prop where
  holds : Holds s.pages free
  sorted : SortedRuns free
  unclaimed : ∀ p, inRuns free p → Unclaimed c s.runs p

/-- What the page layer keeps. -/
structure Paged (c : Statics) (s : SlabState) : Prop where
  runs : RunsOk c s.runs
  pool : ∃ free, Pool c s free

section Pool

variable {c : Statics} {s s' : SlabState} {free : List PageRun} {r q : PageRun}

theorem RunsOk.member (hc : c.Ok) (h : RunsOk c s.runs) (hq : q ∈ c.usage_run :: s.runs) :
    q.start % PAGE = 0 ∧ 0 < q.npages := by
  rcases List.mem_cons.mp hq with rfl | hq
  · exact ⟨hc.table.aligned, hc.table.nonempty⟩
  · exact ⟨(h.fresh q hq).aligned, (h.fresh q hq).nonempty⟩

theorem RunsOk.page_ok (hc : c.Ok) (h : RunsOk c s.runs) (hr : r ∈ s.runs) : r.Ok := by
  have hf := h.fresh r hr
  exact ⟨hf.aligned, h.nonnull r hr, hf.nonempty, Nat.lt_of_le_of_lt hf.below hc.top⟩

theorem Pool.has (h : Pool c s free) (hr : r ∈ free) {p : Nat} (hp : r.Has p) :
    Unclaimed c s.runs p :=
  h.unclaimed p ⟨r, hr, hp⟩

theorem Pool.apart (hc : c.Ok) (h : Pool c s free) (hruns : RunsOk c s.runs) (hr : r ∈ free)
    (hq : q ∈ c.usage_run :: s.runs) : q.stop ≤ r.start ∨ r.stop ≤ q.start := by
  have hok := h.sorted.ok r hr
  have hmem := hruns.member hc hq
  exact apart_of_pages hok.aligned hmem.1 hok.nonempty hmem.2 fun p hp => (h.has hr hp).free q hq

theorem Pool.inside (h : Pool c s free) (hr : r ∈ free) :
    c.HEAP_START ≤ r.start ∧ r.stop ≤ c.HEAP_END := by
  have hok := h.sorted.ok r hr
  have hal := hok.aligned
  have hpos := hok.nonempty
  have hfirst := (h.has hr (has_first hok)).above
  have hhas : r.Has (r.start / PAGE + r.npages - 1) := by
    simp only [PageRun.Has, PAGE]
    omega
  have hlast := (h.has hr hhas).below
  simp only [PageRun.stop, PAGE] at *
  omega

theorem Pool.fuel (hc : c.Ok) (h : Pool c s free) : free.length < c.fuel := by
  have := hc.table.above
  have := hc.table.below
  have hle : c.HEAP_START ≤ c.HEAP_END := by
    have := Nat.le_add_right c.usage_run.start (c.usage_run.npages * PAGE)
    simp only [PageRun.stop] at *
    omega
  have := h.sorted.length_le (fun r hr => (h.inside hr).1) (fun r hr => (h.inside hr).2) hle
  simp only [Statics.fuel, PAGE] at *
  omega

theorem Pool.frame (hc : c.Ok) (h : Pool c s free) (hruns : RunsOk c s.runs) {l : List PageRun}
    {t : PageState} (hframe : Framed l s.pages t) (hq : q ∈ c.usage_run :: s.runs)
    (hl : ∀ x ∈ l, x ∈ free ∨ x ∈ s.runs ∧ x ≠ q) :
    SameOn s.mem t.mem q.start q.stop := by
  intro a hlo hhi
  refine hframe a fun x hx => ?_
  rcases hl x hx with hx | ⟨hx, hne⟩
  · have := h.apart hc hruns hx hq
    omega
  · rcases List.mem_cons.mp hq with rfl | hq
    · have := (hruns.fresh x hx).apart _ List.mem_cons_self
      omega
    · have := (hruns.apart x hx q hq).resolve_left hne
      omega

theorem Paged.kept (hc : c.Ok) (h : Paged c s) (hk : Kept c s s') : Paged c s' := by
  obtain ⟨hruns, free, hpool⟩ := h
  refine ⟨hk.runs ▸ hruns, free, ?_, hpool.sorted, hk.runs ▸ hpool.unclaimed⟩
  refine hpool.holds.same hpool.sorted.ok hk.list fun r hr a hlo hhi => hk.mem a fun q hq => ?_
  have := hpool.apart hc hruns hr hq
  unfold Outside
  omega

end Pool

/-! ## The page layer keeps its runs apart -/

/-- The page layer of `page.rs`, except that a free that is misled is a panic. -/
def checked (c : Statics) : PageLayer where
  page_alloc := (paging c).page_alloc
  page_free addr npages := do
    let s ← get
    let t : PageState := ⟨s.mem, s.FREE_PAGE_LIST⟩
    let runs := free_runs t c.fuel t.FREE_PAGE_LIST
    Exec.require .assert (Sound runs ⟨addr, npages⟩ (t.get_right_ptr addr))
    (paging c).page_free addr npages

section Paging

variable {c : Statics} {s : SlabState} {r : PageRun} {n : Nat} {may : Panic → Prop}

theorem Pool.fresh (hc : c.Ok) {free : List PageRun} (h : Pool c s free)
    (hruns : RunsOk c s.runs) (hr : r ∈ free) (hn : 0 < n) (hle : n ≤ r.npages) :
    Fresh c (c.usage_run :: s.runs) ⟨r.start, n⟩ := by
  have hin := h.inside hr
  have hstop : PageRun.stop ⟨r.start, n⟩ ≤ r.stop :=
    Nat.add_le_add_left (Nat.mul_le_mul_right _ hle) _
  refine ⟨(h.sorted.ok r hr).aligned, hn, hin.1, hstop.trans hin.2, fun q hq => ?_⟩
  have := h.apart hc hruns hr hq
  simp only
  omega

theorem paging_alloc_spec (hc : c.Ok) (hn : 0 < n) (h : Paged c s) :
    wp may ((paging c).page_alloc n) (Handed c (Paged c) s n) s := by
  obtain ⟨hruns, free, hpool⟩ := h
  obtain ⟨t, a, hcall, hfit⟩ :=
    page_alloc_first_fit s.pages free n c.fuel hpool.sorted hpool.holds (hpool.fuel hc)
  have hframe := page_alloc_framed hpool.sorted hpool.holds hcall
  simp only [paging, wp_bind, wp_get, wp_unwrap, hcall, Option.some.injEq, forall_eq', reduceCtorEq,
    IsEmpty.forall_iff, and_true, wp_set, wp_pure]
  refine ⟨t.mem, t.FREE_PAGE_LIST, rfl,
    fun q hq => hpool.frame hc hruns hframe hq fun x hx => .inl hx, ?_⟩
  by_cases hany : ∃ q ∈ free, n ≤ q.npages
  · obtain ⟨r, hr, hle, -, rfl, runs', hholds, hsorted, hset⟩ := hfit.lowest (by omega) hany
    have hne : r.start ≠ 0 := (hpool.sorted.ok r hr).nonnull.ne'
    have hfresh := hpool.fresh hc hruns hr hn hle
    simp only [if_neg hne]
    refine ⟨fun _ => hfresh, hruns.cons hfresh hne, runs', hholds, hsorted, fun p hp => ?_⟩
    obtain ⟨hin, hout⟩ := (hset p).mp hp
    have hp := hpool.unclaimed p hin
    refine ⟨hp.above, hp.below, fun q hq => ?_⟩
    rcases List.mem_cons.mp hq with rfl | hq
    · exact hp.free _ List.mem_cons_self
    · rcases List.mem_cons.mp hq with rfl | hq
      · exact hout
      · exact hp.free q (List.mem_cons_of_mem _ hq)
  · push Not at hany
    obtain ⟨rfl, rfl⟩ := hfit.none.mpr (.inr hany)
    exact ⟨fun h0 => absurd rfl h0, hruns, free, hpool⟩

theorem Unclaimed.mono {runs runs' : List PageRun} {p : Nat} (h : Unclaimed c runs p)
    (hsub : ∀ q ∈ runs', q ∈ runs) :
    Unclaimed c runs' p := by
  refine ⟨h.above, h.below, fun q hq => h.free q ?_⟩
  rcases List.mem_cons.mp hq with rfl | hq
  · exact List.mem_cons_self
  · exact List.mem_cons_of_mem _ (hsub q hq)

theorem RunsOk.given_back (hc : c.Ok) (h : RunsOk c s.runs) (hr : r ∈ s.runs)
    {p : Nat} (hp : r.Has p) :
    Unclaimed c (without s.runs r.start r.npages) p := by
  have hf := h.fresh r hr
  have hal := hf.aligned
  have hpage := (has_iff hal p).mp hp
  have hend : (p + 1) * PAGE ≤ r.stop := by
    have := hp.2
    simp only [PageRun.stop, PAGE] at *
    omega
  refine ⟨hf.above.trans hpage.1, hend.trans hf.below, fun q hq hin => ?_⟩
  have hmem : q ∈ c.usage_run :: s.runs := by
    rcases List.mem_cons.mp hq with rfl | hq
    · exact List.mem_cons_self
    · exact List.mem_cons_of_mem _ (mem_without.mp hq).1
  have hqpage := (has_iff (h.member hc hmem).1 p).mp hin
  rcases List.mem_cons.mp hq with rfl | hq
  · have := hf.apart _ List.mem_cons_self
    omega
  · obtain ⟨hq, hne⟩ := mem_without.mp hq
    exact hne (h.eq_of_mem hq hr hqpage hpage)

theorem checked_free_spec (hc : c.Ok) (h : Paged c s) (hr : r ∈ s.runs) :
    wp (fun _ => True) ((checked c).page_free r.start r.npages)
      (fun _ => Returned c (Paged c) s r.start r.npages) s := by
  obtain ⟨hruns, free, hpool⟩ := h
  have hok := hruns.page_ok hc hr
  have hap : Apart r free := fun q hq => (hpool.apart hc hruns hq (List.mem_cons_of_mem _ hr)).symm
  have hlist := free_runs_eq hpool.holds.chain hpool.holds.counts (hpool.fuel hc)
  obtain ⟨t, hcall, hholds⟩ :=
    page_free_loop_spec r s.pages [] free c.fuel (hpool.fuel hc) hpool.sorted hpool.holds hok hap
  have hframe := page_free_loop_framed r hok s.pages [] free c.fuel hpool.sorted hpool.holds hcall
  have hcall' : page_free c.fuel s.pages r.start r.npages = some t := hcall
  simp only [checked, paging, wp_bind, wp_get, wp_require, wp_unwrap, hlist,
    hcall', Option.some.injEq, forall_eq',
    reduceCtorEq, IsEmpty.forall_iff, and_true, wp_set, implies_true, decide_eq_true_eq]
  intro hsound
  obtain ⟨hsorted, hset⟩ := hsound.freeRuns hpool.sorted hok hap
  refine ⟨t.mem, t.FREE_PAGE_LIST, rfl, fun q hq => ?_, hruns.filter _,
    _, hholds, hsorted, fun p hp => ?_⟩
  · rcases List.mem_cons.mp hq with rfl | hq
    · refine hpool.frame hc hruns hframe List.mem_cons_self fun x hx => ?_
      rcases List.mem_cons.mp hx with rfl | hx
      · refine .inr ⟨hr, ?_⟩
        rintro rfl
        have := (hruns.fresh _ hr).apart _ List.mem_cons_self
        have := PageRun.start_lt_stop hok.nonempty
        omega
      · exact .inl hx
    · obtain ⟨hq, hne⟩ := mem_without.mp hq
      refine hpool.frame hc hruns hframe (List.mem_cons_of_mem _ hq) fun x hx => ?_
      rcases List.mem_cons.mp hx with rfl | hx
      · exact .inr ⟨hr, hne.symm⟩
      · exact .inl hx
  · rcases hset p hp with hp | hp
    · exact (hpool.unclaimed p hp).mono fun q hq => (mem_without.mp hq).1
    · exact hruns.given_back hc hr hp

end Paging

/-! ## A free that is not misled is the one of the code -/

section Refines

variable {A B : PageLayer}
  (h : ∀ addr npages, Refines (A.page_free addr npages) (B.page_free addr npages))

include h

theorem release_zone_refines (c : Statics) (zn : Nat) :
    Refines (release_zone c zn A) (release_zone c zn B) := by
  unfold release_zone
  refine refines_after fun _ => refines_after fun s => refines_after fun r =>
    refines_after fun _ => refines_after fun s => ?_
  refine (Refines.refl _).ite (refines_after fun _ => refines_after fun _ => ?_)
  exact h zn _

theorem free_refines (c : Statics) (p : Nat) : Refines (free c p A) (free c p B) := by
  unfold free
  refine (Refines.refl _).ite (refines_after fun _ => refines_after fun s => ?_)
  split
  · exact Refines.refl _
  · exact Refines.refl _
  · refine refines_after fun _ => ?_
    unfold free_chunk
    refine refines_after fun s => refines_after fun _ => refines_after fun nfree => ?_
    unfold place_zone
    refine refines_after fun s => (Refines.refl _).ite (Refines.ite ?_ (Refines.refl _))
    exact refines_after fun _ => (release_zone_refines h c _).ite (Refines.refl _)
  · exact (h p _).bind fun _ => Refines.refl _

end Refines

theorem checked_refines (c : Statics) (addr npages : Nat) :
    Refines ((checked c).page_free addr npages) ((paging c).page_free addr npages) := by
  intro s r hr
  simp only [checked, exec_bind] at hr
  obtain ⟨⟨s', s''⟩, hget, hr⟩ := bind_eq_ok hr
  cases hget
  obtain ⟨⟨u, t⟩, hcheck, hr⟩ := bind_eq_ok hr
  unfold Exec.require at hcheck
  split at hcheck
  · cases hcheck
    exact hr
  · cases hcheck

end HectoOs.Slab
