import HectoOs.Heap.PageProofs

/-! # `page_alloc` is first fit

The lowest run that is long enough loses its first pages. A run that is cut gets its new header
from the loop, inside pages that are still free.
-/

open HectoOs.Lib

namespace HectoOs.Heap

open PageState

/-! ## The code -/

/-- The loop of `page_alloc`, started at the link `prev`: the state and `iter_ptr` at its end. -/
def page_alloc_loop (npages : Nat) : Nat → PageState → Link → Option (PageState × Nat)
  | 0, _, _ => none
  | fuel + 1, s, prev =>
    let iter := s.get prev
    if iter = 0 then some (s, iter)
    else if npages < s.npages iter then
      let n := (iter + npages * PAGE) % 2 ^ 64
      let s := s.set_next n (s.next iter)
      let s := s.set_npages n (s.npages iter - npages)
      some (s.set prev n, iter)
    else if s.npages iter = npages then some (s.set prev (s.next iter), iter)
    else page_alloc_loop npages fuel s (.node iter)

def page_alloc (fuel : Nat) (s : PageState) (npages : Nat) : Option (PageState × Nat) :=
  if npages = 0 then some (s, 0) else page_alloc_loop npages fuel s .head

/-! ## First fit on the list of runs -/

/-- The run that `page_alloc` takes from. -/
def firstFit (npages : Nat) (runs : List PageRun) : Option PageRun :=
  runs.find? fun r => npages ≤ r.npages

def allocRuns (npages : Nat) : List PageRun → List PageRun
  | [] => []
  | q :: qs =>
    if npages < q.npages then ⟨q.start + npages * PAGE, q.npages - npages⟩ :: qs
    else if q.npages = npages then qs
    else q :: allocRuns npages qs

/-- What is promised of a call that starts in `s` and ends in `s'` with `a`. -/
structure PageAllocContract (s : PageState) (runs : List PageRun) (npages : Nat)
    (s' : PageState) (a : Nat) : Prop where
  none : a = 0 ∧ s' = s ↔ npages = 0 ∨ ∀ q ∈ runs, q.npages < npages
  lowest : npages ≠ 0 → (∃ q ∈ runs, npages ≤ q.npages) →
    ∃ r ∈ runs, npages ≤ r.npages ∧
    (∀ q ∈ runs, npages ≤ q.npages → r.start ≤ q.start) ∧ a = r.start ∧
      ∃ runs', Holds s' runs' ∧ SortedRuns runs' ∧
        ∀ p, inRuns runs' p ↔ inRuns runs p ∧ ¬ PageRun.Has ⟨r.start, npages⟩ p

/-! ## The loop -/

theorem start_ne_inside {pre qs : List PageRun} {q : PageRun} (hok : SortedRuns (pre ++ q :: qs))
    {a : Nat} (hlo : q.start < a) (hhi : a < q.stop) : ∀ r ∈ pre ++ q :: qs, r.start ≠ a := by
  intro r hr
  have hs := hok.sorted
  rw [List.pairwise_append] at hs
  have hle : r.start ≤ r.stop := Nat.le_add_right _ _
  rcases List.mem_append.mp hr with hr | hr
  · have := hs.2.2 r hr q List.mem_cons_self
    omega
  · rcases List.mem_cons.mp hr with rfl | hr
    · omega
    · have := (List.pairwise_cons.mp hs.2.1).1 r hr
      omega

theorem cut_bounded {q : PageRun} (hq : q.Ok) {npages : Nat} (hlt : npages < q.npages) :
    q.start + npages * PAGE < 2 ^ 64 := by
  have hle : npages * PAGE ≤ q.npages * PAGE := Nat.mul_le_mul_right _ hlt.le
  exact lt_of_le_of_lt (Nat.add_le_add_left hle q.start) hq.bounded

theorem holds_split {s : PageState} {q : PageRun} {pre qs : List PageRun}
    {npages n : Nat} (hok : SortedRuns (pre ++ q :: qs)) (h : Holds s (pre ++ q :: qs))
    (hpos : 0 < npages) (hlt : npages < q.npages) (hn : n = q.start + npages * PAGE)
    (hb : n < 2 ^ 64) {s' : PageState} (hs' : s' = (s.set_next n (s.next q.start)).set_npages n
    ((s.set_next n (s.next q.start)).npages q.start - npages)) :
    Holds (s'.set (linkAfter (starts pre)) n) (pre ++ ⟨n, q.npages - npages⟩ :: qs) := by
  have hq : q.Ok := hok.ok q (by simp)
  have hqb := hq.bounded
  have hcal : n % PAGE = 0 := by
    have := hq.aligned
    simp only [PAGE] at *
    omega
  have hne : ∀ r ∈ pre ++ q :: qs, r.start ≠ n := by
    refine start_ne_inside hok ?_ ?_ <;> simp only [PageRun.stop, PAGE] at * <;> omega
  have hcount : (s.set_next n (s.next q.start)).npages q.start = q.npages := by
    rw [npages_set_next s hcal hq.aligned]
    exact h.counts q (by simp)
  rw [hcount] at hs'
  have hfew : q.npages - npages < 2 ^ 64 := by
    simp only [PageRun.stop, PAGE] at hqb
    omega
  have hoff : OnlyHeader s s' n :=
    hs' ▸ (onlyHeader_set_next s n _ hcal).trans (onlyHeader_set_npages _ n _ hcal)
  have hpos' : n ≠ 0 := by
    have := hq.nonnull
    omega
  refine holds_insert hok.ok h hpos' hcal hb hne hoff ?_ (fun r hr => List.mem_cons_of_mem _ hr) ?_
  · rw [hs', npages_set_npages_same _ hfew]
  · rw [hs', next_set_npages _ hcal hcal, next_set_next_same s (next_lt s _)]
    exact next_of_run h

theorem page_alloc_loop_spec {npages : Nat} (hpos : 0 < npages) (s : PageState)
    (pre runs : List PageRun) (fuel : Nat) (hf : runs.length < fuel)
    (hok : SortedRuns (pre ++ runs)) (h : Holds s (pre ++ runs)) :
    ∃ s', page_alloc_loop npages fuel s (linkAfter (starts pre)) =
        some (s', (firstFit npages runs).elim 0 PageRun.start) ∧
      Holds s' (pre ++ allocRuns npages runs) ∧ (firstFit npages runs = none → s' = s) := by
  induction runs generalizing pre fuel with
  | nil =>
    obtain ⟨fuel, rfl⟩ : ∃ k, fuel = k + 1 := ⟨fuel - 1, by simp at hf; omega⟩
    refine ⟨s, ?_, h, fun _ => rfl⟩
    rw [page_alloc_loop, get_link_nil h, if_pos rfl]
    rfl
  | cons q qs ih =>
    obtain ⟨fuel, rfl⟩ : ∃ k, fuel = k + 1 := ⟨fuel - 1, by simp at hf; omega⟩
    have hq : q.Ok := hok.ok q (by simp)
    have hnq := h.counts q (by simp)
    simp only [page_alloc_loop, get_link_cons h, hnq]
    rw [if_neg (by have := hq.nonnull; omega), allocRuns]
    by_cases hlt : npages < q.npages
    · have hfit : firstFit npages (q :: qs) = some q := List.find?_cons_of_pos (by simp; omega)
      rw [if_pos hlt, if_pos hlt, hfit]
      refine ⟨_, rfl, ?_, nofun⟩
      rw [Nat.mod_eq_of_lt (cut_bounded hq hlt)]
      exact holds_split hok h hpos hlt rfl (cut_bounded hq hlt) rfl
    rw [if_neg hlt, if_neg hlt]
    by_cases heq : q.npages = npages
    · have hfit : firstFit npages (q :: qs) = some q := List.find?_cons_of_pos (by simp; omega)
      rw [if_pos heq, if_pos heq, hfit]
      exact ⟨_, rfl, holds_unlink hok.ok h, nofun⟩
    rw [if_neg heq, if_neg heq]
    have hfit : firstFit npages (q :: qs) = firstFit npages qs :=
      List.find?_cons_of_neg (by simp; omega)
    have happ : pre ++ q :: qs = (pre ++ [q]) ++ qs := by simp
    rw [happ] at hok h
    obtain ⟨s', hs', hh, hsame⟩ := ih (pre ++ [q]) fuel (by simp at hf; omega) hok h
    rw [starts, List.map_append, List.map_singleton, linkAfter_concat] at hs'
    rw [List.append_assoc] at hh
    rw [hfit]
    exact ⟨s', hs', hh, hsame⟩

/-! ## What is left of the list -/

theorem allocRuns_start (npages : Nat) (runs : List PageRun) :
    ∀ x ∈ allocRuns npages runs, ∃ y ∈ runs, y.start ≤ x.start := by
  induction runs with
  | nil => simp [allocRuns]
  | cons q qs ih =>
    intro x hx
    rw [allocRuns] at hx
    split_ifs at hx
    · rcases List.mem_cons.mp hx with rfl | hx
      · exact ⟨q, List.mem_cons_self, Nat.le_add_right _ _⟩
      · exact ⟨x, List.mem_cons_of_mem _ hx, le_rfl⟩
    · exact ⟨x, List.mem_cons_of_mem _ hx, le_rfl⟩
    · rcases List.mem_cons.mp hx with rfl | hx
      · exact ⟨x, List.mem_cons_self, le_rfl⟩
      · obtain ⟨y, hy, hle⟩ := ih x hx
        exact ⟨y, List.mem_cons_of_mem _ hy, hle⟩

theorem allocRuns_sorted {npages : Nat} (runs : List PageRun) (hok : SortedRuns runs) :
    SortedRuns (allocRuns npages runs) := by
  induction runs with
  | nil => exact hok
  | cons q qs ih =>
    obtain ⟨hq, hlt, hqs⟩ := sortedRuns_cons.mp hok
    rw [allocRuns]
    split_ifs with hcut
    · have h1 := hq.aligned
      have h2 := hq.nonnull
      have h3 := hq.bounded
      have hstop : PageRun.stop ⟨q.start + npages * PAGE, q.npages - npages⟩ = q.stop := by
        simp only [PageRun.stop, PAGE]
        omega
      refine sortedRuns_cons.mpr
        ⟨⟨?_, ?_, ?_, by rw [hstop]; exact h3⟩, by rw [hstop]; exact hlt, hqs⟩
      · simp only [PAGE] at *
        omega
      · simp only
        omega
      · simp only
        omega
    · exact hqs
    · refine sortedRuns_cons.mpr ⟨hq, fun x hx => ?_, ih hqs⟩
      obtain ⟨y, hy, hle⟩ := allocRuns_start npages qs x hx
      have := hlt y hy
      omega

theorem allocRuns_pages {npages : Nat} (runs : List PageRun) (hok : SortedRuns runs) {r : PageRun}
    (hr : firstFit npages runs = some r) (p : Nat) :
    inRuns (allocRuns npages runs) p ↔ inRuns runs p ∧ ¬ PageRun.Has ⟨r.start, npages⟩ p := by
  induction runs with
  | nil => simp [firstFit] at hr
  | cons q qs ih =>
    obtain ⟨hq, hlt, hqs⟩ := sortedRuns_cons.mp hok
    -- A page of `q` is in none of the runs after it.
    have hafter : q.Has p → ¬ inRuns qs p := fun hp =>
      not_inRuns_of_le hqs hlt (le_of_lt ((has_iff hq.aligned p).mp hp).2)
    have hal := hq.aligned
    by_cases hfit : npages ≤ q.npages
    · obtain rfl : q = r := by
        rw [firstFit, List.find?_cons_of_pos (by simpa using hfit)] at hr
        exact Option.some.inj hr
      have hsub : PageRun.Has ⟨q.start, npages⟩ p → q.Has p :=
        fun ⟨h1, h2⟩ => ⟨h1, by simp only at h2; omega⟩
      rw [allocRuns]
      split_ifs with hcut heq
      · have hrest : PageRun.Has ⟨q.start + npages * PAGE, q.npages - npages⟩ p ↔
            q.Has p ∧ ¬ PageRun.Has ⟨q.start, npages⟩ p := by
          simp only [PageRun.Has, PAGE] at *
          omega
        rw [inRuns_cons, inRuns_cons, hrest]
        tauto
      · rw [inRuns_cons, ← heq]
        tauto
      · omega
    · have hr' : firstFit npages qs = some r := by
        rwa [firstFit, List.find?_cons_of_neg (by simpa using hfit)] at hr
      have hmem : r ∈ qs := List.mem_of_find?_eq_some hr'
      have hfits : npages ≤ r.npages := by simpa using List.find?_some hr'
      have hother : q.Has p → ¬ PageRun.Has ⟨r.start, npages⟩ p := fun hp h2 =>
        hafter hp ⟨r, hmem, h2.1, by have := h2.2; simp only at this; omega⟩
      rw [allocRuns, if_neg (by omega), if_neg (by omega), inRuns_cons, inRuns_cons, ih hqs hr']
      tauto

theorem firstFit_lowest {npages : Nat} {runs : List PageRun} (hok : SortedRuns runs) {r : PageRun}
    (hr : firstFit npages runs = some r) : ∀ q ∈ runs, npages ≤ q.npages → r.start ≤ q.start := by
  obtain ⟨_, pre, qs, rfl, hpre⟩ := List.find?_eq_some_iff_append.mp hr
  intro q hq hfit
  rcases List.mem_append.mp hq with hq | hq
  · have := hpre q hq
    simp only [Bool.not_eq_true', decide_eq_false_iff_not] at this
    omega
  · rcases List.mem_cons.mp hq with rfl | hq
    · exact le_rfl
    · have hs := hok.sorted
      rw [List.pairwise_append, List.pairwise_cons] at hs
      have h1 := hs.2.1.1 q hq
      have h2 : r.start ≤ r.stop := Nat.le_add_right _ _
      omega

/-! ## The result -/

/-- `page_alloc` ends, and is exactly first fit. -/
theorem page_alloc_first_fit (s : PageState) (runs : List PageRun) (npages fuel : Nat)
    (hok : SortedRuns runs) (h : Holds s runs) (hf : runs.length < fuel) :
    ∃ s' a, page_alloc fuel s npages = some (s', a) ∧ PageAllocContract s runs npages s' a := by
  by_cases h0 : npages = 0
  · refine ⟨s, 0, by rw [page_alloc, if_pos h0], ⟨by simp [h0], fun hne => absurd h0 hne⟩⟩
  obtain ⟨s', hs', hh, hsame⟩ :=
    page_alloc_loop_spec (Nat.pos_of_ne_zero h0) s [] runs fuel hf hok h
  refine ⟨s', _, by rw [page_alloc, if_neg h0]; exact hs', ?_⟩
  cases hfit : firstFit npages runs with
  | none =>
    have hsmall : ∀ q ∈ runs, q.npages < npages := by
      simpa [firstFit] using hfit
    refine ⟨iff_of_true ⟨rfl, hsame hfit⟩ (Or.inr hsmall), fun _ ⟨q, hq, hle⟩ => ?_⟩
    have := hsmall q hq
    omega
  | some r =>
    have hmem : r ∈ runs := List.mem_of_find?_eq_some hfit
    have hle : npages ≤ r.npages := by simpa using List.find?_some hfit
    have hnn := (hok.ok r hmem).nonnull
    refine ⟨iff_of_false ?_ ?_, fun _ _ => ⟨r, hmem, hle, firstFit_lowest hok hfit, rfl, _, hh,
      allocRuns_sorted runs hok, allocRuns_pages runs hok hfit⟩⟩
    · rintro ⟨hz, _⟩
      simp only [Option.elim_some] at hz
      omega
    · rintro (hz | hsmall)
      · exact h0 hz
      · have := hsmall r hmem
        omega

/-- Two runs of one and of three pages; two pages are taken from the second. -/
theorem page_alloc_second_run :
    ∃ s' a, page_alloc 3 ⟨store64 (store64 (store64 (fun _ => 0) 4096 12288) 4104 1) 12296 3,
      4096⟩ 2 = some (s', a) ∧
      PageAllocContract ⟨store64 (store64 (store64 (fun _ => 0) 4096 12288) 4104 1) 12296 3, 4096⟩
        [⟨4096, 1⟩, ⟨12288, 3⟩] 2 s' a := by
  refine page_alloc_first_fit _ [⟨4096, 1⟩, ⟨12288, 3⟩] 2 3 ⟨?_, by simp [PageRun.stop, PAGE]⟩
    ⟨⟨rfl, by decide, ?_⟩, ?_⟩
    (by decide)
  · simp only [List.forall_mem_cons, List.not_mem_nil, false_implies, implies_true, and_true]
    exact ⟨⟨by decide, by decide, by decide, by decide⟩,
      ⟨by decide, by decide, by decide, by decide⟩⟩
  · exact ⟨show next _ 4096 = 12288 by decide +kernel, by decide,
      show next _ 12288 = 0 by decide +kernel⟩
  · simp only [List.forall_mem_cons, List.not_mem_nil, false_implies, implies_true, and_true]
    exact ⟨by decide +kernel, by decide +kernel⟩

end HectoOs.Heap
