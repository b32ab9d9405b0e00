import HectoOs.Heap.Page
import Mathlib.Tactic.SplitIfs

/-! # `page_free` computes `freeRuns`, and when that is right -/

open HectoOs.Lib

namespace HectoOs.Heap

open PageState

/-! ## Headers of different pages do not overlap -/

section Fields

variable (s : PageState) {a b v : Nat}

theorem next_lt (p : Nat) : s.next p < 2 ^ 64 := load64_lt _ _

theorem next_set_next_same (hv : v < 2 ^ 64) : (s.set_next a v).next a = v :=
  load64_store64_same _ _ _ hv

theorem next_set_next_ne (ha : a % PAGE = 0) (hb : b % PAGE = 0) (h : a ≠ b) :
    (s.set_next a v).next b = s.next b := by
  simp only [PAGE] at ha hb
  exact load64_store64_ne _ _ _ _ (by omega)

theorem npages_set_next (ha : a % PAGE = 0) (hb : b % PAGE = 0) :
    (s.set_next a v).npages b = s.npages b := by
  simp only [PAGE] at ha hb
  exact load64_store64_ne _ _ _ _ (by omega)

theorem next_set_npages (ha : a % PAGE = 0) (hb : b % PAGE = 0) :
    (s.set_npages a v).next b = s.next b := by
  simp only [PAGE] at ha hb
  exact load64_store64_ne _ _ _ _ (by omega)

theorem npages_set_npages_same (hv : v < 2 ^ 64) : (s.set_npages a v).npages a = v :=
  load64_store64_same _ _ _ hv

theorem npages_set_npages_ne (ha : a % PAGE = 0) (hb : b % PAGE = 0) (h : a ≠ b) :
    (s.set_npages a v).npages b = s.npages b := by
  simp only [PAGE] at ha hb
  exact load64_store64_ne _ _ _ _ (by omega)

end Fields

/-- The state `s'` is `s` with another header at `c`. -/
structure OnlyHeader (s s' : PageState) (c : Nat) : Prop where
  head : s'.FREE_PAGE_LIST = s.FREE_PAGE_LIST
  next : ∀ b, b % PAGE = 0 → b ≠ c → s'.next b = s.next b
  npages : ∀ b, b % PAGE = 0 → b ≠ c → s'.npages b = s.npages b

theorem onlyHeader_set_next (s : PageState) (c v : Nat) (hc : c % PAGE = 0) :
    OnlyHeader s (s.set_next c v) c where
  head := rfl
  next _ hb hne := next_set_next_ne s hc hb (Ne.symm hne)
  npages _ hb _ := npages_set_next s hc hb

theorem onlyHeader_set_npages (s : PageState) (c v : Nat) (hc : c % PAGE = 0) :
    OnlyHeader s (s.set_npages c v) c where
  head := rfl
  next _ hb _ := next_set_npages s hc hb
  npages _ hb hne := npages_set_npages_ne s hc hb (Ne.symm hne)

theorem OnlyHeader.trans {s s' s'' : PageState} {c : Nat} (h : OnlyHeader s s' c)
    (h' : OnlyHeader s' s'' c) :
    OnlyHeader s s'' c where
  head := h'.head.trans h.head
  next b hb hne := (h'.next b hb hne).trans (h.next b hb hne)
  npages b hb hne := (h'.npages b hb hne).trans (h.npages b hb hne)

theorem set_get_same (s : PageState) (l : Link) (c : Nat) (hc : c < 2 ^ 64) :
    (s.set l c).get l = c := by
  cases l with
  | head => rfl
  | node a => exact next_set_next_same s hc

theorem get_eq_linkValue (s : PageState) (l : Link) :
    s.get l = linkValue s.FREE_PAGE_LIST s.next l := by
  cases l <;> rfl

/-! ## Two ways to change the list -/

abbrev starts (runs : List PageRun) : List Nat := runs.map PageRun.start

theorem starts_aligned {runs : List PageRun} (h : ∀ r ∈ runs, r.Ok) :
    ∀ a ∈ starts runs, a % PAGE = 0 := by
  intro a ha
  obtain ⟨r, hr, rfl⟩ := List.mem_map.mp ha
  exact (h r hr).aligned

theorem sorted_starts_ne {q : PageRun} {pre qs : List PageRun} (h : SortedRuns (pre ++ q :: qs)) :
    ∀ r ∈ pre ++ qs, r.start ≠ q.start := by
  intro r hr
  have hs := h.sorted
  rw [List.pairwise_append] at hs
  rcases List.mem_append.mp hr with hr | hr
  · have := hs.2.2 r hr q List.mem_cons_self
    simp only [PageRun.stop] at this
    omega
  · have := (List.pairwise_cons.mp hs.2.1).1 r hr
    simp only [PageRun.stop] at this
    omega

theorem holds_change {s s' : PageState} {q : PageRun} {pre qs tail : List PageRun}
    {n : Nat} (hok : SortedRuns (pre ++ q :: qs)) (h : Holds s (pre ++ q :: qs))
    (hoff : OnlyHeader s s' q.start) (hn : s'.npages q.start = n)
    (htail : ∀ r ∈ tail, r ∈ qs) (hc : Chain s.next (s'.next q.start) (starts tail)) :
    Holds s' (pre ++ ⟨q.start, n⟩ :: tail) := by
  have hal := starts_aligned hok.ok
  have hne := sorted_starts_ne hok
  have hpre : ∀ r ∈ pre ++ tail, r.start % PAGE = 0 ∧ r.start ≠ q.start := by
    intro r hr
    have hr' : r ∈ pre ++ qs := by
      rcases List.mem_append.mp hr with hr | hr
      · exact List.mem_append_left _ hr
      · exact List.mem_append_right _ (htail r hr)
    refine ⟨(hok.ok r ?_).aligned, hne r hr'⟩
    rcases List.mem_append.mp hr' with hr' | hr' <;> simp [hr']
  have hsame : ∀ r ∈ pre ++ tail, s'.next r.start = s.next r.start :=
    fun r hr => hoff.next _ (hpre r hr).1 (hpre r hr).2
  constructor
  · have hch := h.chain
    rw [List.map_append, List.map_cons] at hch ⊢
    obtain ⟨r, h1, hr, h0, _⟩ := segment_append.mp hch
    rw [hoff.head]
    refine segment_append.mpr ⟨r, ?_, hr, h0, ?_⟩
    · refine h1.congr fun a ha => ?_
      obtain ⟨x, hx, rfl⟩ := List.mem_map.mp ha
      exact hsame x (List.mem_append_left _ hx)
    · refine Segment.congr hc fun a ha => ?_
      obtain ⟨x, hx, rfl⟩ := List.mem_map.mp ha
      exact hsame x (List.mem_append_right _ hx)
  · intro r hr
    rcases List.mem_append.mp hr with hr | hr
    · rw [hoff.npages _ (hpre r (List.mem_append_left _ hr)).1
        (hpre r (List.mem_append_left _ hr)).2]
      exact h.counts r (List.mem_append_left _ hr)
    · rcases List.mem_cons.mp hr with rfl | hr
      · exact hn
      · rw [hoff.npages _ (hpre r (List.mem_append_right _ hr)).1
          (hpre r (List.mem_append_right _ hr)).2]
        exact h.counts r (by simp [htail r hr])

/-! ### Redirecting a link -/

section Redirect

variable {s : PageState} {l : Link} {v b : Nat}

theorem next_set_ne (hl : ∀ a, l = .node a → a % PAGE = 0) (hb : b % PAGE = 0) (hne : l ≠ .node b) :
    (s.set l v).next b = s.next b := by
  cases l with
  | head => rfl
  | node a => exact next_set_next_ne s (hl a rfl) hb (fun he => hne (by rw [he]))

theorem npages_set (hl : ∀ a, l = .node a → a % PAGE = 0) (hb : b % PAGE = 0) :
    (s.set l v).npages b = s.npages b := by
  cases l with
  | head => rfl
  | node a => exact npages_set_next s (hl a rfl) hb

theorem head_set (hne : l ≠ .head) : (s.set l v).FREE_PAGE_LIST = s.FREE_PAGE_LIST := by
  cases l with
  | head => exact absurd rfl hne
  | node a => rfl

theorem linkAfter_aligned {pre : List PageRun} (h : ∀ r ∈ pre, r.Ok) (a : Nat)
    (ha : linkAfter (starts pre) = .node a) : a % PAGE = 0 :=
  starts_aligned h a (mem_of_linkAfter ha)

theorem segment_set {pre qs : List PageRun} (hok : ∀ r ∈ pre, r.Ok) (h : Holds s (pre ++ qs))
    (hv : v < 2 ^ 64) :
    Segment (s.set (linkAfter (starts pre)) v).next
      (s.set (linkAfter (starts pre)) v).FREE_PAGE_LIST
      (starts pre) v := by
  have hchain := h.chain
  rw [List.map_append] at hchain
  have hnd := (List.nodup_append.mp hchain.nodup).1
  obtain ⟨m, h1, _⟩ := segment_append.mp hchain
  refine h1.redirect hnd ?_ head_set ?_
  · rw [← get_eq_linkValue]
    exact set_get_same s _ v hv
  · intro b hb hne
    obtain ⟨r, hr, rfl⟩ := List.mem_map.mp hb
    exact next_set_ne (linkAfter_aligned hok) (hok r hr).aligned hne

theorem linkAfter_ne {pre qs : List PageRun} (h : Holds s (pre ++ qs)) {r : PageRun} (hr : r ∈ qs) :
    linkAfter (starts pre) ≠ .node r.start := by
  intro hl
  have hnd := h.chain.nodup
  rw [List.map_append] at hnd
  exact (List.nodup_append.mp hnd).2.2 r.start (mem_of_linkAfter hl) r.start
    (List.mem_map_of_mem hr) rfl

end Redirect

theorem Holds.off {s s' : PageState} {c : Nat} {runs : List PageRun} (h : Holds s runs)
    (hok : ∀ r ∈ runs, r.Ok) (hc : ∀ r ∈ runs, r.start ≠ c) (hoff : OnlyHeader s s' c) :
    Holds s' runs where
  chain := by
    rw [hoff.head]
    refine h.chain.congr fun a ha => ?_
    obtain ⟨r, hr, rfl⟩ := List.mem_map.mp ha
    exact hoff.next _ (hok r hr).aligned (hc r hr)
  counts r hr := by
    rw [hoff.npages _ (hok r hr).aligned (hc r hr)]
    exact h.counts r hr

theorem holds_insert {s s' : PageState} {c n : Nat} {pre qs tail : List PageRun}
    (hok : ∀ r ∈ pre ++ qs, r.Ok) (h : Holds s (pre ++ qs)) (hc0 : c ≠ 0) (hcal : c % PAGE = 0)
    (hlt : c < 2 ^ 64) (hc : ∀ r ∈ pre ++ qs, r.start ≠ c) (hoff : OnlyHeader s s' c)
    (hn : s'.npages c = n) (htail : ∀ r ∈ tail, r ∈ qs)
    (hch : Chain s.next (s'.next c) (starts tail)) :
    Holds (s'.set (linkAfter (starts pre)) c) (pre ++ ⟨c, n⟩ :: tail) := by
  have hpre : ∀ r ∈ pre, r.Ok := fun r hr => hok r (List.mem_append_left _ hr)
  have hqs : ∀ r ∈ tail, r ∈ pre ++ qs := fun r hr => List.mem_append_right _ (htail r hr)
  have h' : Holds s' (pre ++ qs) := h.off hok hc hoff
  have hal := linkAfter_aligned hpre
  have hclink : linkAfter (starts pre) ≠ .node c := by
    intro hl
    obtain ⟨r, hr, hrc⟩ := List.mem_map.mp (mem_of_linkAfter hl)
    exact hc r (List.mem_append_left _ hr) hrc
  constructor
  · rw [List.map_append, List.map_cons]
    refine segment_append.mpr ⟨c, segment_set hpre h' hlt, rfl, hc0, ?_⟩
    rw [next_set_ne hal hcal hclink]
    refine Segment.congr hch fun b hb => ?_
    obtain ⟨r, hr, rfl⟩ := List.mem_map.mp hb
    rw [next_set_ne hal (hok r (hqs r hr)).aligned (linkAfter_ne h' (htail r hr))]
    exact hoff.next _ (hok r (hqs r hr)).aligned (hc r (hqs r hr))
  · intro r hr
    rcases List.mem_append.mp hr with hr | hr
    · rw [npages_set hal (hpre r hr).aligned]
      exact h'.counts r (List.mem_append_left _ hr)
    · rcases List.mem_cons.mp hr with rfl | hr
      · exact (npages_set hal hcal).trans hn
      · rw [npages_set hal (hok r (hqs r hr)).aligned]
        exact h'.counts r (hqs r hr)

theorem holds_unlink {s : PageState} {q : PageRun} {pre qs : List PageRun}
    (hok : ∀ r ∈ pre ++ q :: qs, r.Ok) (h : Holds s (pre ++ q :: qs)) :
    Holds (s.set (linkAfter (starts pre)) (s.next q.start)) (pre ++ qs) := by
  have hpre : ∀ r ∈ pre, r.Ok := fun r hr => hok r (List.mem_append_left _ hr)
  have hal := linkAfter_aligned hpre
  constructor
  · have hch := h.chain
    rw [List.map_append] at hch
    obtain ⟨m, _, _, _, hrest⟩ := segment_append.mp hch
    rw [List.map_append]
    refine segment_append.mpr ⟨s.next q.start, segment_set hpre h (next_lt s _),
      hrest.congr fun b hb => ?_⟩
    obtain ⟨r, hr, rfl⟩ := List.mem_map.mp hb
    have hr' : r ∈ q :: qs := List.mem_cons_of_mem _ hr
    exact next_set_ne hal (hok r (List.mem_append_right _ hr')).aligned (linkAfter_ne h hr')
  · intro r hr
    have hr' : r ∈ pre ++ q :: qs := by
      rcases List.mem_append.mp hr with hr | hr <;> simp [hr]
    rw [npages_set hal (hok r hr').aligned]
    exact h.counts r hr'

/-! ## The loop -/

theorem right_ptr_of_run {s : PageState} {q : PageRun} (hq : q.Ok)
    (hn : s.npages q.start = q.npages) :
    s.get_right_ptr q.start = q.stop := by
  rw [get_right_ptr, hn]
  exact Nat.mod_eq_of_lt hq.bounded

theorem next_of_run {s : PageState} {q : PageRun} {pre qs : List PageRun}
    (h : Holds s (pre ++ q :: qs)) :
    Chain s.next (s.next q.start) (starts qs) := by
  have hch := h.chain
  rw [List.map_append] at hch
  obtain ⟨_, _, _, _, h3⟩ := segment_append.mp hch
  exact h3

theorem merge_left {s s1 s2 : PageState} {r q : PageRun} {pre qs : List PageRun}
    (hok : SortedRuns (pre ++ q :: qs)) (h : Holds s (pre ++ q :: qs)) (hr : r.Ok)
    (hadj : q.stop = r.start) (hs1 : s1 = s.set_npages q.start (s.npages q.start + r.npages))
    (hs2 : s2 = s1.set_npages q.start (s1.npages q.start + s1.npages (s1.next q.start))) :
    Holds (if s1.is_right_free q.start then s2.set_next q.start (s2.next (s2.next q.start)) else s1)
      (pre ++ joinLeft r q qs) := by
  have hq : q.Ok := hok.ok q (by simp)
  have hnq := h.counts q (by simp)
  have hnext := next_of_run h
  have hrb := hr.bounded
  simp only [PageRun.stop, PAGE] at hadj hrb
  have hoff1 : OnlyHeader s s1 q.start := hs1 ▸ onlyHeader_set_npages s q.start _ hq.aligned
  have hn1 : s1.npages q.start = q.npages + r.npages := by
    rw [hs1, npages_set_npages_same s (by omega), hnq]
  have hx1 : s1.next q.start = s.next q.start := by
    rw [hs1, next_set_npages s hq.aligned hq.aligned]
  have hptr : s1.get_right_ptr q.start = r.stop := by
    rw [get_right_ptr, hn1, PageRun.stop]
    simp only [PAGE]
    omega
  have hiff : s1.is_right_free q.start = true ↔ r.stop = s.next q.start := by
    rw [is_right_free, hptr, hx1, beq_iff_eq]
  cases qs with
  | nil =>
    rw [starts, List.map_nil, Chain.nil_iff] at hnext
    have hfalse : ¬ s1.is_right_free q.start = true := by
      rw [hiff, hnext, PageRun.stop]
      have := hr.nonnull
      omega
    rw [if_neg hfalse, joinLeft]
    exact holds_change hok h hoff1 hn1 (by simp) (by rw [hx1, hnext]; rfl)
  | cons q' qs' =>
    have hq' : q'.Ok := hok.ok q' (by simp)
    rw [starts, List.map_cons, Chain.cons_iff] at hnext
    obtain ⟨hx, h0', hnext'⟩ := hnext
    rw [joinLeft]
    by_cases hmerge : r.stop = q'.start
    · rw [if_pos (by rw [hiff, hx]; exact hmerge), if_pos hmerge]
      have hb' := hq'.bounded
      have hnq' := h.counts q' (by simp)
      simp only [PageRun.stop, PAGE] at hb' hmerge
      have hne : q'.start ≠ q.start := by
        have := hq.nonempty
        omega
      have hn1' : s1.npages q'.start = q'.npages := (hoff1.npages _ hq'.aligned hne).trans hnq'
      have hoff2 : OnlyHeader s1 s2 q.start := hs2 ▸ onlyHeader_set_npages s1 q.start _ hq.aligned
      have hn2 : s2.npages q.start = q.npages + r.npages + q'.npages := by
        rw [hs2, hn1, hx1, hx, hn1', npages_set_npages_same s1 (by omega)]
      have hx2 : s2.next q.start = q'.start := by
        rw [hs2, next_set_npages s1 hq.aligned hq.aligned, hx1, hx]
      have hx2' : s2.next q'.start = s.next q'.start :=
        (hoff2.next _ hq'.aligned hne).trans (hoff1.next _ hq'.aligned hne)
      rw [hx2, hx2']
      refine holds_change hok h
        (hoff1.trans (hoff2.trans (onlyHeader_set_next s2 q.start _ hq.aligned))) ?_
        (fun r hr => List.mem_cons_of_mem _ hr) ?_
      · rw [npages_set_next s2 hq.aligned hq.aligned]
        exact hn2
      · rw [next_set_next_same s2 (next_lt s _)]
        exact hnext'
    · rw [if_neg (by rw [hiff, hx]; exact hmerge), if_neg hmerge]
      refine holds_change hok h hoff1 hn1 (fun r hr => hr) ?_
      rw [hx1]
      exact ⟨hx, h0', hnext'⟩

theorem get_link_nil {s : PageState} {pre : List PageRun} (h : Holds s (pre ++ [])) :
    s.get (linkAfter (starts pre)) = 0 := by
  rw [get_eq_linkValue]
  rw [List.append_nil] at h
  exact linkValue_linkAfter h.chain

theorem get_link_cons {s : PageState} {q : PageRun} {pre qs : List PageRun}
    (h : Holds s (pre ++ q :: qs)) :
    s.get (linkAfter (starts pre)) = q.start := by
  have hch := h.chain
  rw [List.map_append] at hch
  obtain ⟨m, h1, hm, _, _⟩ := segment_append.mp hch
  rw [get_eq_linkValue, linkValue_linkAfter h1]
  exact hm

theorem page_free_loop_spec (r : PageRun) (s : PageState) (pre runs : List PageRun)
    (fuel : Nat) (hf : runs.length < fuel) (hok : SortedRuns (pre ++ runs))
    (h : Holds s (pre ++ runs)) (hr : r.Ok) (hap : Apart r (pre ++ runs)) :
    ∃ s', page_free_loop r.start r.npages fuel s (linkAfter (starts pre)) = some s' ∧
      Holds s' (pre ++ freeRuns r (s.get_right_ptr r.start) runs) := by
  induction runs generalizing pre fuel with
  | nil =>
    obtain ⟨fuel, rfl⟩ : ∃ k, fuel = k + 1 := ⟨fuel - 1, by simp at hf; omega⟩
    refine ⟨s, ?_, h⟩
    rw [page_free_loop, get_link_nil h, if_pos rfl]
  | cons q qs ih =>
    obtain ⟨fuel, rfl⟩ : ∃ k, fuel = k + 1 := ⟨fuel - 1, by simp at hf; omega⟩
    have hq : q.Ok := hok.ok q (by simp)
    have hnq := h.counts q (by simp)
    have hget := get_link_cons h
    have hleft : s.is_right q.start r.start = true ↔ q.stop = r.start := by
      rw [is_right, right_ptr_of_run hq hnq, beq_iff_eq]
    have hright : s.is_right r.start q.start = true ↔ s.get_right_ptr r.start = q.start := by
      rw [is_right, beq_iff_eq]
    have hne : ∀ x ∈ pre ++ q :: qs, x.start ≠ r.start := by
      intro x hx
      have h1 := hap x hx
      have h2 := hr.nonempty
      have h3 := (hok.ok x hx).nonempty
      simp only [PageRun.stop, PAGE] at h1
      omega
    have hlt : r.start < 2 ^ 64 := by
      have := hr.bounded
      simp only [PageRun.stop] at this
      omega
    have hrb := hr.bounded
    have hqb := hq.bounded
    simp only [PageRun.stop, PAGE] at hrb hqb
    have hnn := hr.nonnull
    have hnext := next_of_run h
    simp only [page_free_loop, hget]
    rw [if_neg (by have := hq.nonnull; omega)]
    by_cases hl : q.stop = r.start
    · rw [if_pos (hleft.mpr hl)]
      rw [freeRuns, if_pos hl, ← apply_ite some]
      exact ⟨_, rfl, merge_left hok h hr hl rfl rfl⟩
    rw [if_neg (fun hc => hl (hleft.mp hc)), freeRuns, if_neg hl]
    -- The remaining branches look at the header of the freed run.
    by_cases hc : s.get_right_ptr r.start = q.start
    · rw [if_pos (hright.mpr hc), if_pos hc]
      have ho := (onlyHeader_set_npages s r.start (s.npages q.start + r.npages) hr.aligned).trans
        (onlyHeader_set_next _ r.start
          ((s.set_npages r.start (s.npages q.start + r.npages)).next q.start) hr.aligned)
      have hx : (s.set_npages r.start (s.npages q.start + r.npages)).next q.start =
        s.next q.start :=
        next_set_npages s hr.aligned hq.aligned
      refine ⟨_, rfl, holds_insert hok.ok h (by omega) hr.aligned hlt hne ho ?_
        (fun x hx => by simp [hx]) ?_⟩
      · rw [npages_set_next _ hr.aligned hr.aligned, ← hnq]
        exact npages_set_npages_same s (by omega)
      · rw [next_set_next_same _ (next_lt _ _), hx]
        exact hnext
    rw [if_neg (fun he => hc (hright.mp he)), if_neg hc]
    by_cases hp : s.get_right_ptr r.start < q.start
    · rw [if_pos hp, if_pos hp]
      have ho := (onlyHeader_set_npages s r.start r.npages hr.aligned).trans
        (onlyHeader_set_next _ r.start q.start hr.aligned)
      refine ⟨_, rfl, holds_insert hok.ok h (by omega) hr.aligned hlt hne ho ?_ (fun x hx => hx) ?_⟩
      · rw [npages_set_next _ hr.aligned hr.aligned]
        exact npages_set_npages_same s (by omega)
      · rw [next_set_next_same _ (by omega)]
        exact ⟨rfl, by have := hq.nonnull; omega, hnext⟩
    · rw [if_neg hp, if_neg hp]
      have happ : pre ++ q :: qs = (pre ++ [q]) ++ qs := by simp
      rw [happ] at hok h hap
      obtain ⟨s', hs', hh⟩ := ih (pre ++ [q]) fuel (by simp at hf; omega) hok h hap
      rw [starts, List.map_append, List.map_singleton, linkAfter_concat] at hs'
      refine ⟨s', hs', ?_⟩
      rw [List.append_assoc] at hh
      exact hh

/-! ## When the resulting list is right -/

/-- The list `runs'` is a free list that holds the pages of `runs` and of `r`. -/
def AddsExactly (runs : List PageRun) (r : PageRun) (runs' : List PageRun) : Prop :=
  SortedRuns runs' ∧ ∀ p, inRuns runs' p ↔ inRuns runs p ∨ r.Has p

/-- What the stale header of the freed run has to say: every free run further to the left starts
below `ptr`, and, unless the run joins its left neighbour, there is a free run to the right and
`ptr` is its start if it is adjacent and lies below its start if it is not. -/
def HeaderFits (runs : List PageRun) (r : PageRun) (ptr : Nat) : Prop :=
  (∀ q ∈ runs, q.stop < r.start → q.start < ptr) ∧
  ((∃ q ∈ runs, q.stop = r.start) ∨
    ∃ a ∈ runs, r.start < a.start ∧ (∀ q ∈ runs, r.start < q.start → a.start ≤ q.start) ∧
      (r.stop = a.start → ptr = a.start) ∧ (r.stop ≠ a.start → ptr < a.start))

theorem inRuns_cons (q : PageRun) (qs : List PageRun) (p : Nat) :
    inRuns (q :: qs) p ↔ q.Has p ∨ inRuns qs p := by
  simp [inRuns]

theorem not_inRuns_nil (p : Nat) : ¬ inRuns [] p := by
  simp [inRuns]

theorem has_first {q : PageRun} (h : q.Ok) : q.Has (q.start / PAGE) := by
  have := h.nonempty
  unfold PageRun.Has
  omega

theorem sortedRuns_cons {q : PageRun} {qs : List PageRun} :
    SortedRuns (q :: qs) ↔ q.Ok ∧ (∀ x ∈ qs, q.stop < x.start) ∧ SortedRuns qs := by
  constructor
  · rintro ⟨h1, h2⟩
    rw [List.pairwise_cons] at h2
    exact ⟨h1 q List.mem_cons_self, h2.1, fun x hx => h1 x (List.mem_cons_of_mem _ hx), h2.2⟩
  · rintro ⟨h1, h2, h3⟩
    refine ⟨?_, List.pairwise_cons.mpr ⟨h2, h3.sorted⟩⟩
    intro x hx
    rcases List.mem_cons.mp hx with rfl | hx
    · exact h1
    · exact h3.ok x hx

theorem not_inRuns_of_le {qs : List PageRun} {b p : Nat} (h : SortedRuns qs)
    (hb : ∀ x ∈ qs, b < x.start) (hp : p * PAGE ≤ b) : ¬ inRuns qs p := by
  rintro ⟨x, hx, hlo, _⟩
  have h1 := hb x hx
  have h2 := (h.ok x hx).aligned
  simp only [PAGE] at *
  omega

theorem has_join {q r : PageRun} (hq : q.start % PAGE = 0) (hadj : q.stop = r.start) (p : Nat) :
    PageRun.Has ⟨q.start, q.npages + r.npages⟩ p ↔ q.Has p ∨ r.Has p := by
  simp only [PageRun.Has, PageRun.stop, PAGE] at *
  omega

theorem joined_ok {q r : PageRun} (hq : q.Ok) (hr : r.Ok) (hadj : q.stop = r.start) :
    PageRun.Ok ⟨q.start, q.npages + r.npages⟩ ∧
    PageRun.stop ⟨q.start, q.npages + r.npages⟩ = r.stop := by
  have hstop : PageRun.stop ⟨q.start, q.npages + r.npages⟩ = r.stop := by
    rw [PageRun.stop] at hadj
    rw [PageRun.stop, PageRun.stop, Nat.add_mul, ← Nat.add_assoc, hadj]
  have := hq.nonempty
  exact ⟨⟨hq.aligned,
    hq.nonnull, by show 0 < q.npages + r.npages; omega, by rw [hstop]; exact hr.bounded⟩, hstop⟩

theorem joinLeft_adds {r q : PageRun} {qs : List PageRun} (hok : SortedRuns (q :: qs)) (hr : r.Ok)
    (hadj : q.stop = r.start) (hap : Apart r qs) : AddsExactly (q :: qs) r (joinLeft r q qs) := by
  obtain ⟨hq, hlt, hqs⟩ := sortedRuns_cons.mp hok
  obtain ⟨hj, hstop⟩ := joined_ok hq hr hadj
  have hset : ∀ p, PageRun.Has ⟨q.start, q.npages + r.npages⟩ p ↔ q.Has p ∨ r.Has p :=
    fun p => has_join hq.aligned hadj p
  -- Everything after `q` also starts after the freed run.
  have hafter : ∀ x ∈ qs, r.stop ≤ x.start := by
    intro x hx
    have h1 := hap x hx
    have h2 := hlt x hx
    have h3 := (hqs.ok x hx).nonempty
    simp only [PageRun.stop, PAGE] at *
    omega
  cases qs with
  | nil =>
    refine ⟨sortedRuns_cons.mpr ⟨hj, by simp, hqs⟩, fun p => ?_⟩
    rw [joinLeft, inRuns_cons, hset, inRuns_cons]
    tauto
  | cons q' qs' =>
    obtain ⟨hq', hlt', hqs'⟩ := sortedRuns_cons.mp hqs
    rw [joinLeft]
    split
    · rename_i hmerge
      obtain ⟨hj', hstop'⟩ := joined_ok hj hq' (hstop.trans hmerge)
      refine ⟨sortedRuns_cons.mpr ⟨hj', by rw [hstop']; exact hlt', hqs'⟩, fun p => ?_⟩
      rw [inRuns_cons, has_join hj.aligned (hstop.trans hmerge), hset,
        inRuns_cons q, inRuns_cons q']
      tauto
    · rename_i hgap
      refine ⟨sortedRuns_cons.mpr ⟨hj, ?_, hqs⟩, fun p => ?_⟩
      · intro x hx
        rw [hstop]
        rcases List.mem_cons.mp hx with rfl | hx
        · have := hafter x List.mem_cons_self
          omega
        · have h1 := hafter q' List.mem_cons_self
          have h2 := hlt' x hx
          simp only [PageRun.stop, PAGE] at *
          omega
      · rw [inRuns_cons, hset, inRuns_cons q]
        tauto

theorem has_iff {q : PageRun} (h : q.start % PAGE = 0) (p : Nat) :
    q.Has p ↔ q.start ≤ p * PAGE ∧ p * PAGE < q.stop := by
  simp only [PageRun.Has, PageRun.stop, PAGE] at *
  omega

theorem freeRuns_start (r : PageRun) (ptr : Nat) (runs : List PageRun) :
    ∀ x ∈ freeRuns r ptr runs, x.start = r.start ∨ ∃ y ∈ runs, x.start = y.start := by
  induction runs with
  | nil => simp [freeRuns]
  | cons q qs ih =>
    intro x hx
    have hkeep : ∀ l : List PageRun, (∀ y ∈ l, y ∈ qs) → ∀ n, x ∈ ⟨q.start, n⟩ :: l →
        ∃ y ∈ q :: qs, x.start = y.start := by
      intro l hl n hx
      rcases List.mem_cons.mp hx with rfl | hx
      · exact ⟨q, List.mem_cons_self, rfl⟩
      · exact ⟨x, List.mem_cons_of_mem _ (hl x hx), rfl⟩
    rw [freeRuns] at hx
    split_ifs at hx
    · right
      cases qs with
      | nil => exact hkeep [] (by simp) _ hx
      | cons q' qs' =>
        rw [joinLeft] at hx
        split_ifs at hx
        · exact hkeep qs' (fun y hy => List.mem_cons_of_mem _ hy) _ hx
        · exact hkeep (q' :: qs') (fun y hy => hy) _ hx
    · rcases List.mem_cons.mp hx with rfl | hx
      · exact Or.inl rfl
      · exact Or.inr ⟨x, List.mem_cons_of_mem _ hx, rfl⟩
    · rcases List.mem_cons.mp hx with rfl | hx
      · exact Or.inl rfl
      · exact Or.inr ⟨x, hx, rfl⟩
    · rcases List.mem_cons.mp hx with rfl | hx
      · exact Or.inr ⟨x, List.mem_cons_self, rfl⟩
      · rcases ih x hx with h | ⟨y, hy, h⟩
        · exact Or.inl h
        · exact Or.inr ⟨y, List.mem_cons_of_mem _ hy, h⟩

theorem adds_cons_iff {q r : PageRun} {qs l : List PageRun} (hok : SortedRuns (q :: qs)) (hr : r.Ok)
    (hqr : q.stop < r.start) (hl : ∀ x ∈ l, q.stop < x.start) :
    AddsExactly (q :: qs) r (q :: l) ↔ AddsExactly qs r l := by
  obtain ⟨hq, hlt, hqs⟩ := sortedRuns_cons.mp hok
  have hnot : ∀ p, q.Has p → ¬ inRuns qs p ∧ ¬ r.Has p := by
    intro p hp
    have hp' := ((has_iff hq.aligned p).mp hp).2
    refine ⟨not_inRuns_of_le hqs hlt (by omega), ?_⟩
    rw [has_iff hr.aligned]
    omega
  constructor
  · rintro ⟨hs, hset⟩
    obtain ⟨_, _, hsl⟩ := sortedRuns_cons.mp hs
    refine ⟨hsl, fun p => ?_⟩
    have h := hset p
    rw [inRuns_cons, inRuns_cons] at h
    by_cases hp : q.Has p
    · have h1 := hnot p hp
      have h2 : ¬ inRuns l p :=
        not_inRuns_of_le hsl hl (by have := ((has_iff hq.aligned p).mp hp).2; omega)
      tauto
    · tauto
  · rintro ⟨hs, hset⟩
    refine ⟨sortedRuns_cons.mpr ⟨hq, hl, hs⟩, fun p => ?_⟩
    rw [inRuns_cons, inRuns_cons, hset p]
    tauto

theorem headerFits_cons_iff {q r : PageRun} {qs : List PageRun} {ptr : Nat}
    (hqr : q.stop < r.start) :
    HeaderFits (q :: qs) r ptr ↔ q.start < ptr ∧ HeaderFits qs r ptr := by
  have hstart : q.start < r.start := by
    simp only [PageRun.stop] at hqr
    omega
  unfold HeaderFits
  simp only [List.forall_mem_cons, List.exists_mem_cons_iff, hqr, true_implies]
  have h1 : ¬ q.stop = r.start := by omega
  have h2 : ¬ r.start < q.start := by omega
  simp only [h1, h2, false_or, false_and, false_implies, true_and]
  exact and_assoc

section Before

variable {q r : PageRun} {qs : List PageRun} {ptr : Nat} (hok : SortedRuns (q :: qs))
  (hr : r.Ok) (hrq : r.stop ≤ q.start)
include hok hr hrq

theorem headerFits_before_iff : HeaderFits (q :: qs) r ptr ↔
    (r.stop = q.start → ptr = q.start) ∧ (r.stop ≠ q.start → ptr < q.start) := by
  obtain ⟨hq, hlt, hqs⟩ := sortedRuns_cons.mp hok
  have hr1 := PageRun.start_lt_stop hr.nonempty
  have hq1 := PageRun.start_lt_stop hq.nonempty
  have hall : ∀ x ∈ q :: qs, q.start ≤ x.start ∧ r.start < x.start ∧ r.start < x.stop := by
    intro x hx
    have hxs : x.start ≤ x.stop := Nat.le_add_right _ _
    rcases List.mem_cons.mp hx with rfl | hx
    · omega
    · have := hlt x hx
      omega
  constructor
  · rintro ⟨_, ⟨x, hx, hadj⟩ | ⟨a, ha, _, hmin, h⟩⟩
    · have := hall x hx
      omega
    · have h1 := hmin q List.mem_cons_self (by omega)
      have h2 := (hall a ha).1
      rwa [show a.start = q.start by omega] at h
  · intro h
    refine ⟨fun x hx hlt => ?_,
      Or.inr ⟨q, List.mem_cons_self, by omega, fun x hx _ => (hall x hx).1, h⟩⟩
    have := hall x hx
    omega

theorem adds_merged_iff : AddsExactly (q :: qs) r (⟨r.start, q.npages + r.npages⟩ :: qs) ↔
    r.stop = q.start := by
  obtain ⟨hq, hlt, hqs⟩ := sortedRuns_cons.mp hok
  have hr1 := PageRun.start_lt_stop hr.nonempty
  have hq1 := PageRun.start_lt_stop hq.nonempty
  constructor
  · rintro ⟨_, hset⟩
    by_contra hgap
    -- the page behind `r` would be in the merged run
    have hp := (hset (r.stop / PAGE)).mp ((inRuns_cons _ _ _).mpr (Or.inl ?_))
    · have hpage : r.stop / PAGE * PAGE = r.stop := by
        have := hr.aligned
        simp only [PageRun.stop, PAGE] at *
        omega
      rcases hp with hp | hp
      · rw [inRuns_cons, has_iff hq.aligned, hpage] at hp
        rcases hp with hp | hp
        · omega
        · exact not_inRuns_of_le hqs hlt (by rw [hpage]; omega) hp
      · rw [has_iff hr.aligned, hpage] at hp
        omega
    · have h2 := hq.nonempty
      have h3 := hr.aligned
      simp only [PageRun.Has, PageRun.stop, PAGE] at *
      omega
  · intro hadj
    obtain ⟨hj, hstop⟩ := joined_ok hr hq hadj
    rw [Nat.add_comm q.npages]
    refine ⟨sortedRuns_cons.mpr ⟨hj, by rw [hstop]; exact hlt, hqs⟩, fun p => ?_⟩
    rw [inRuns_cons, has_join hr.aligned hadj, inRuns_cons, or_assoc, or_comm]

theorem adds_own_iff : AddsExactly (q :: qs) r (r :: q :: qs) ↔ r.stop ≠ q.start := by
  obtain ⟨hq, hlt, hqs⟩ := sortedRuns_cons.mp hok
  have hq1 := PageRun.start_lt_stop hq.nonempty
  constructor
  · rintro ⟨hs, _⟩
    have := (sortedRuns_cons.mp hs).2.1 q List.mem_cons_self
    omega
  · intro hgap
    refine ⟨sortedRuns_cons.mpr ⟨hr, ?_, hok⟩, fun p => ?_⟩
    · intro x hx
      rcases List.mem_cons.mp hx with rfl | hx
      · omega
      · have := hlt x hx
        omega
    · rw [inRuns_cons, or_comm]

theorem not_adds_after {l : List PageRun} : ¬ AddsExactly (q :: qs) r (q :: l) := by
  have hq := (sortedRuns_cons.mp hok).1
  have hr1 := PageRun.start_lt_stop hr.nonempty
  have hq1 := PageRun.start_lt_stop hq.nonempty
  rintro ⟨hs, hset⟩
  obtain ⟨_, hlt, hl⟩ := sortedRuns_cons.mp hs
  have hpage : r.start / PAGE * PAGE = r.start := by
    have := hr.aligned
    simp only [PAGE] at *
    omega
  have hp := (hset (r.start / PAGE)).mpr (Or.inr (has_first hr))
  rw [inRuns_cons, has_iff hq.aligned, hpage] at hp
  rcases hp with hp | hp
  · omega
  · exact not_inRuns_of_le hl hlt (by rw [hpage]; omega) hp

theorem adds_before_iff : AddsExactly (q :: qs) r (freeRuns r ptr (q :: qs)) ↔
    HeaderFits (q :: qs) r ptr := by
  have hr1 := PageRun.start_lt_stop hr.nonempty
  have hq1 := PageRun.start_lt_stop (sortedRuns_cons.mp hok).1.nonempty
  rw [headerFits_before_iff hok hr hrq, freeRuns, if_neg (by omega)]
  by_cases h1 : ptr = q.start
  · rw [if_pos h1, adds_merged_iff hok hr hrq]
    omega
  rw [if_neg h1]
  by_cases h2 : ptr < q.start
  · rw [if_pos h2, adds_own_iff hok hr hrq]
    omega
  · rw [if_neg h2]
    exact iff_of_false (not_adds_after hok hr hrq) (by omega)

end Before

theorem freeRuns_adds_iff (r : PageRun) (ptr : Nat) (runs : List PageRun)
    (hok : SortedRuns runs) (hr : r.Ok) (hap : Apart r runs) :
    AddsExactly runs r (freeRuns r ptr runs) ↔ HeaderFits runs r ptr := by
  induction runs with
  | nil =>
    refine iff_of_false ?_ (by simp [HeaderFits])
    rintro ⟨_, hset⟩
    exact not_inRuns_nil _ ((hset _).mpr (Or.inr (has_first hr)))
  | cons q qs ih =>
    obtain ⟨hq, hlt, hqs⟩ := sortedRuns_cons.mp hok
    have hapq := hap q List.mem_cons_self
    have hapqs : Apart r qs := fun x hx => hap x (List.mem_cons_of_mem _ hx)
    rcases hapq with hle | hge
    · by_cases hadj : q.stop = r.start
      · refine iff_of_true ?_ ⟨?_, Or.inl ⟨q, List.mem_cons_self, hadj⟩⟩
        · rw [freeRuns, if_pos hadj]
          exact joinLeft_adds hok hr hadj hapqs
        · intro x hx hxr
          rcases List.mem_cons.mp hx with rfl | hx
          · omega
          · have h1 := hlt x hx
            have h2 : x.start ≤ x.stop := Nat.le_add_right _ _
            omega
      · have hqr : q.stop < r.start := by omega
        rw [headerFits_cons_iff hqr, freeRuns, if_neg hadj]
        have hq1 : q.start < q.stop := by
          have := hq.nonempty
          simp only [PageRun.stop, PAGE]
          omega
        by_cases h1 : ptr = q.start
        · -- `q` is dropped from the list.
          rw [if_pos h1]
          refine iff_of_false ?_ (by omega)
          rintro ⟨hs, hset⟩
          obtain ⟨_, hlt', hs'⟩ := sortedRuns_cons.mp hs
          have hp := (hset (q.start / PAGE)).mpr
            (Or.inl ((inRuns_cons _ _ _).mpr (Or.inl (has_first hq))))
          have hpage : q.start / PAGE * PAGE = q.start := by
            have := hq.aligned
            simp only [PAGE] at *
            omega
          rw [inRuns_cons] at hp
          rcases hp with hp | hp
          · have h2 := hr.aligned
            have h3 := hq.aligned
            simp only [PageRun.Has, PAGE] at *
            omega
          · exact not_inRuns_of_le hqs hlt (by rw [hpage]; omega) hp
        rw [if_neg h1]
        by_cases h2 : ptr < q.start
        · rw [if_pos h2]
          refine iff_of_false ?_ (by omega)
          rintro ⟨hs, _⟩
          have := (sortedRuns_cons.mp hs).2.1 q List.mem_cons_self
          have h3 : r.start ≤ r.stop := Nat.le_add_right _ _
          omega
        · rw [if_neg h2, adds_cons_iff hok hr hqr, ih hqs hapqs]
          · exact ⟨fun h => ⟨by omega, h⟩, fun h => h.2⟩
          · intro x hx
            rcases freeRuns_start r ptr qs x hx with h | ⟨y, hy, h⟩
            · omega
            · rw [h]
              exact hlt y hy
    · exact adds_before_iff hok hr hge

theorem page_free_spec (r : PageRun) (s : PageState) (runs : List PageRun) (hok : SortedRuns runs)
    (h : Holds s runs) (hr : r.Ok) (hap : Apart r runs) :
    ∃ s', page_free (runs.length + 1) s r.start r.npages = some s' ∧
      Holds s' (freeRuns r (s.get_right_ptr r.start) runs) :=
  page_free_loop_spec r s [] runs (runs.length + 1) (by omega) hok h hr hap

theorem Holds.unique {s : PageState} {l l' : List PageRun} (h : Holds s l)
    (h' : Holds s l') : l = l' := by
  have hst := h.chain.unique h'.chain
  apply List.ext_getElem
  · simpa using congrArg List.length hst
  · intro i hi hi'
    have hstart : l[i].start = l'[i].start := by
      simpa [hi, hi'] using congrArg (fun m => m[i]?) hst
    have hn := h.counts l[i] (List.getElem_mem hi)
    rw [hstart, h'.counts l'[i] (List.getElem_mem hi')] at hn
    cases hl : l[i]
    cases hl' : l'[i]
    simp_all

/-- `page_free` keeps its promise exactly when the stale header of the freed run fits. -/
theorem page_free_contract_iff (s : PageState) (runs : List PageRun) (r : PageRun)
    (hok : SortedRuns runs) (h : Holds s runs) (hr : r.Ok) (hap : Apart r runs) :
    PageFreeContract s runs r ↔ HeaderFits runs r (s.get_right_ptr r.start) := by
  obtain ⟨s₀, hs₀, hh⟩ := page_free_spec r s runs hok h hr hap
  rw [← freeRuns_adds_iff r _ runs hok hr hap]
  constructor
  · rintro ⟨fuel, s', runs', hs', hh', hok', hset⟩
    have hs : s' = s₀ := page_free_loop_unique _ _ _ _ s s' s₀ .head hs' hs₀
    rw [hs] at hh'
    rw [hh.unique hh']
    exact ⟨hok', hset⟩
  · rintro ⟨hok', hset⟩
    exact ⟨_, s₀, _, hs₀, hh, hok', hset⟩

/-- One free page at 4096, and the page after it is freed. -/
theorem page_free_joins_left :
    PageFreeContract ⟨store64 (fun _ => 0) 4104 1, 4096⟩ [⟨4096, 1⟩] ⟨8192, 1⟩ := by
  refine (page_free_contract_iff ⟨store64 (fun _ => 0) 4104 1,
    4096⟩ [⟨4096, 1⟩] ⟨8192, 1⟩ ⟨?_, by simp⟩
    ⟨⟨rfl, by decide, show next _ 4096 = 0 by decide +kernel⟩,
      ?_⟩ ⟨by decide, by decide, by decide, by decide⟩ ?_).mpr ⟨?_, Or.inl ?_⟩
  · intro q hq
    obtain rfl := List.mem_singleton.mp hq
    exact ⟨by decide, by decide, by decide, by decide⟩
  · intro q hq
    obtain rfl := List.mem_singleton.mp hq
    decide +kernel
  · intro q hq
    obtain rfl := List.mem_singleton.mp hq
    decide
  · intro q hq hlt
    obtain rfl := List.mem_singleton.mp hq
    exact absurd hlt (by decide)
  · exact ⟨⟨4096, 1⟩, by simp, by decide⟩

/-- With no free page left, a freed page is lost. -/
theorem page_free_empty_list_leaks :
    SortedRuns [] ∧ Holds ⟨fun _ => 0, 0⟩ [] ∧ PageRun.Ok ⟨4096, 1⟩ ∧ Apart ⟨4096, 1⟩ [] ∧
    ¬ PageFreeContract ⟨fun _ => 0, 0⟩ [] ⟨4096, 1⟩ := by
  refine ⟨⟨by simp, by simp⟩, ⟨rfl, by simp⟩,
    ⟨by decide, by decide, by decide, by decide⟩, by simp [Apart], ?_⟩
  rintro ⟨fuel, s', runs', hs', hh', _, hset⟩
  have hs : s' = ⟨fun _ => 0, 0⟩ :=
    page_free_loop_unique _ _ _ _ _ s' _ .head hs' (show page_free 1 _ 4096 1 = _ from rfl)
  have hnil : runs' = [] := hh'.unique (hs ▸ ⟨rfl, by simp⟩)
  rw [hnil] at hset
  exact not_inRuns_nil 1 ((hset 1).mpr (Or.inr ⟨by decide, by decide⟩))

end HectoOs.Heap
