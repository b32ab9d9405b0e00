import HectoOs.Heap.Paging
import HectoOs.Heap.SlabRun

/-! # The allocator of the kernel: `init`, and runs of requests over `page.rs` -/

open HectoOs.Lib

namespace HectoOs.Heap

open PageState

def page_init (m : Mem) (addr npages : Nat) : PageState :=
  { (PageState.mk m 0 |>.set_npages addr npages).set_next addr 0 with FREE_PAGE_LIST := addr }

theorem page_init_holds (m : Mem) {r : PageRun} (hr : r.Ok) :
    Holds (page_init m r.start r.npages) [r] := by
  have hn : r.npages < 2 ^ 64 := by
    have := hr.bounded
    simp only [PageRun.stop, PAGE] at this
    omega
  constructor
  · exact ⟨rfl, hr.nonnull.ne', next_set_next_same _ (by decide)⟩
  · intro q hq
    obtain rfl := List.mem_singleton.mp hq
    exact (npages_set_next _ hr.aligned hr.aligned).trans (npages_set_npages_same _ hn)

end HectoOs.Heap

open HectoOs.Heap

namespace HectoOs.Slab

/-! ## The code -/

/-- `SlabAllocator::init`. -/
def boot (m : Mem) (start stop : Nat) : Except Panic (Statics × SlabState) := do
  let c ← init start stop 0
  let s := page_init m c.HEAP_START ((c.HEAP_END - c.HEAP_START) / PAGE)
  let (t, table) ← orPanic .endless (page_alloc c.fuel s c.usage_pages)
  return ({ c with PAGE_USAGE_ARRAY := table }, ⟨t.mem, t.FREE_PAGE_LIST, fun _ => 0, 0, 0, []⟩)

/-- `core::alloc::Layout`. -/
structure Layout where
  size : Nat
  align : Nat
  pow : ∃ k, align = 2 ^ k

/-- What `alloc` asks `malloc` for. -/
def Layout.bytes (layout : Layout) : Nat := max layout.size layout.align

def alloc (c : Statics) (layout : Layout) (pages : PageLayer) : SlabM Nat :=
  malloc c layout.bytes pages

/-- The `layout` is not looked at. -/
def dealloc (c : Statics) (ptr : Nat) (_layout : Layout) (pages : PageLayer) :
    SlabM Unit := free c ptr pages

inductive Request where
  | alloc (layout : Layout)
  | dealloc (ptr : Nat) (layout : Layout)
  | write (addr : Nat) (b : Byte)

variable (c : Statics)

def turn (w : World) : Request → Except Panic (World × Nat)
  | .alloc layout => (alloc c layout (paging c) w.slab).map fun (p, s) =>
    (⟨s, if p = 0 then w.live else ⟨p, layout.bytes⟩ :: w.live⟩, p)
  | .dealloc ptr layout => (dealloc c ptr layout (paging c) w.slab).map fun (_, s) =>
    (⟨s, w.live.filter fun b => b.ptr != ptr⟩, 0)
  | .write addr b => .ok (⟨{ w.slab with mem := storeByte w.slab.mem addr b }, w.live⟩, 0)

/-- A block is freed once, and no call of `page_free` in it is misled by what the pages hold. Owners
write to their own blocks. -/
def Request.Fits (w : World) : Request → Prop
  | .alloc _ => True
  | .dealloc ptr layout =>
    (ptr = 0 ∨ ∃ b ∈ w.live, b.ptr = ptr) ∧
      (Slab.dealloc c ptr layout (checked c) w.slab).toOption.isSome
  | .write addr _ => ∃ b ∈ w.live, b.ptr ≤ addr ∧ addr < b.stop

instance (w : World) : ∀ r : Request, Decidable (r.Fits c w)
  | .alloc _ => inferInstanceAs (Decidable True)
  | .dealloc _ _ => inferInstanceAs (Decidable (_ ∧ _))
  | .write _ _ => inferInstanceAs (Decidable (∃ _ ∈ _, _))

/-! ## The state after `init` -/

/-- A heap below 16 TiB that is not at the null pointer, as every heap of the kernel is. -/
structure Booted (m : Mem) (lo hi : Nat) (c : Statics) (s : SlabState) : Prop where
  boot : boot m lo hi = .ok (c, s)
  nonnull : 0 < lo
  top : hi < 2 ^ 64
  small : hi < lo + 2 ^ 44

variable {c}

theorem init_heap {lo hi answer : Nat} (h : init lo hi answer = .ok c) :
    c.HEAP_START = round_up lo PAGE ∧ c.HEAP_END = round_down hi PAGE ∧ c.HEAP_START < c.HEAP_END ∧
      ∀ table, init lo hi table = .ok { c with PAGE_USAGE_ARRAY := table } := by
  simp only [init] at h ⊢
  split_ifs at h ⊢
  cases h
  exact ⟨rfl, rfl, by simp only; omega, fun _ => rfl⟩

theorem usage_pages_le (hal : c.HEAP_START % PAGE = 0) (hal' : c.HEAP_END % PAGE = 0)
    (hlt : c.HEAP_START < c.HEAP_END) :
    0 < c.usage_pages ∧ c.HEAP_START + c.usage_pages * PAGE ≤ c.HEAP_END := by
  rw [Statics.usage_pages, round_up_page]
  simp only [PAGE, USAGE_SIZE] at *
  omega

/-- All pages of the heap. -/
def Statics.heap_run (c : Statics) : PageRun := ⟨c.HEAP_START, (c.HEAP_END - c.HEAP_START) / PAGE⟩

/-- What `init` leaves: the table has the first pages, and the others are free. -/
structure AfterInit (c : Statics) (s : SlabState) (lo hi : Nat) : Prop where
  started : Started lo hi c.PAGE_USAGE_ARRAY c
  table : c.PAGE_USAGE_ARRAY = c.HEAP_START
  state : ∃ m l, s = ⟨m, l, fun _ => 0, 0, 0, []⟩
  pool : Pool c s (allocRuns c.usage_pages [c.heap_run])

theorem Booted.spec {m : Mem} {lo hi : Nat} {s : SlabState} (h : Booted m lo hi c s) :
    AfterInit c s lo hi := by
  obtain ⟨c₀, hinit, hb⟩ := bind_eq_ok h.boot
  obtain ⟨⟨t, a⟩, halloc, hb⟩ := bind_eq_ok hb
  obtain ⟨hstart, hend, hlt, htable⟩ := init_heap hinit
  have hal : c₀.HEAP_START % PAGE = 0 := by
    rw [hstart, round_up_page]
    exact Nat.mul_mod_left _ _
  have hal' : c₀.HEAP_END % PAGE = 0 := by
    rw [hend, round_down_page]
    exact Nat.mul_mod_left _ _
  obtain ⟨hpos, hle⟩ := usage_pages_le hal hal' hlt
  have hnn := h.nonnull
  have htop := h.top
  have hok : c₀.heap_run.Ok := by
    rw [round_up_page] at hstart
    rw [round_down_page] at hend
    refine ⟨hal, ?_, ?_, ?_⟩ <;> simp only [Statics.heap_run, PageRun.stop, PAGE] at * <;> omega
  have hsorted : SortedRuns [c₀.heap_run] := ⟨by simpa using hok, by simp⟩
  have hfits : c₀.usage_pages ≤ c₀.heap_run.npages := by
    simp only [Statics.heap_run, PAGE] at *
    omega
  have hfirst : firstFit c₀.usage_pages [c₀.heap_run] = some c₀.heap_run :=
    List.find?_cons_of_pos (by simpa using hfits)
  obtain ⟨t', hcall, hholds, -⟩ := page_alloc_loop_spec hpos _ [] [c₀.heap_run] c₀.fuel
    (Nat.lt_add_of_pos_left hok.nonempty) hsorted (page_init_holds m hok)
  rw [hfirst] at hcall
  have hsame := orPanic_eq_ok.mp halloc
  rw [page_alloc, if_neg hpos.ne'] at hsame
  cases hsame.symm.trans hcall
  cases hb
  refine ⟨⟨htable _, htop, h.small, hal, hpos, le_rfl, hle, by simp [Apart]⟩,
    rfl, ⟨_, _, rfl⟩, hholds,
    allocRuns_sorted _ hsorted, fun p hp => ?_⟩
  obtain ⟨⟨q, hq, hin⟩, hout⟩ := (allocRuns_pages _ hsorted hfirst p).mp hp
  obtain rfl := List.mem_singleton.mp hq
  have hpage := (has_iff hal p).mp hin
  refine ⟨hpage.1, ?_, fun q hq hin => ?_⟩
  · simp only [PageRun.stop, Statics.heap_run, PAGE] at *
    omega
  · obtain rfl := List.mem_singleton.mp hq
    exact hout hin

/-! ## Runs -/

/-- The state of a run. -/
structure Served (c : Statics) (w : World) : Prop where
  view : ∃ v, Inv c w.slab w.live v
  paged : Paged c w.slab

theorem AfterInit.served {s : SlabState} {lo hi : Nat} (h : AfterInit c s lo hi) :
    Served c ⟨s, []⟩ := by
  obtain ⟨m, l, rfl⟩ := h.state
  refine ⟨start_inv c m l, ?_, _, h.pool⟩
  constructor <;> simp

theorem pages_for_pos (hc : c.Ok) (size : Nat) : 0 < pages_for c size := by
  have hsize := hc.size
  unfold pages_for
  split
  · rw [round_up_page]
    simp only [PAGE]
    omega
  · simp only [PAGE]
    omega

section Turn

variable {w w' : World} {r : Request} {p : Nat}

theorem malloc_served {v : View} {size : Nat} (hc : c.Ok) (h : Inv c w.slab w.live v)
    (hp : Paged c w.slab) :
    wp (fun _ => True) (malloc c size (paging c)) (fun p s' => Paged c s' ∧
      ∃ v', Inv c s' (if p = 0 then w.live else ⟨p, size⟩ :: w.live) v') w.slab :=
  malloc_spec hc h (fun hi hk => hi.kept hc hk) hp (fun _ => trivial)
    (paging_alloc_spec hc (pages_for_pos hc size) hp)

theorem free_served {v : View} {ptr : Nat} (hc : c.Ok) (h : Inv c w.slab w.live v)
    (hlive : ptr = 0 ∨ ∃ b ∈ w.live, b.ptr = ptr) (hp : Paged c w.slab) :
    wp (fun _ => True) (free c ptr (checked c)) (fun _ s' => Paged c s' ∧
      ∃ v', Inv c s' (w.live.filter fun x => x.ptr != ptr) v') w.slab :=
  free_spec hc h hlive (fun hi hk => hi.kept hc hk) hp
    fun _ _ _ hp hr _ _ => checked_free_spec hc hp hr

theorem turn_served (hc : c.Ok) (h : Served c w) (hfit : r.Fits c w)
    (hs : turn c w r = .ok (w', p)) : Served c w' := by
  obtain ⟨⟨v, hv⟩, hpaged⟩ := h
  cases r with
  | alloc layout =>
    have hspec : wp (fun _ => True) (malloc c layout.bytes (paging c)) _ w.slab :=
      malloc_served hc hv hpaged
    obtain ⟨q, s', ⟨hp, hinv⟩, heq⟩ := wp_map_ok hspec hs
    rw [Prod.mk.injEq] at heq
    rw [← heq.1]
    exact ⟨hinv, hp⟩
  | dealloc ptr layout =>
    obtain ⟨hlive, hchecked⟩ := hfit
    obtain ⟨⟨u, t⟩, ht⟩ := ok_of_isSome hchecked
    obtain ⟨hp, hinv⟩ := wp_ok (free_served hc hv hlive hpaged) ht
    have hcode := free_refines (checked_refines c) c ptr _ _ ht
    simp only [turn, dealloc, hcode, Except.map, Except.ok.injEq, Prod.mk.injEq] at hs
    rw [← hs.1]
    exact ⟨hinv, hp⟩
  | write addr b =>
    obtain ⟨x, hx, ha⟩ := hfit
    simp only [turn, Except.ok.injEq, Prod.mk.injEq] at hs
    rw [← hs.1]
    obtain ⟨q, hq, hlo, hhi, -⟩ := hv.block_extent hc hx
    have hoff : SameOff w.slab.mem (storeByte w.slab.mem addr b) addr (addr + 1) :=
      fun y hy => storeByte_sameOn w.slab.mem addr b y (y + 1) (by omega) y (by omega) (by omega)
    exact ⟨⟨v, hv.write hc hx ha b⟩,
      hpaged.kept hc
        (kept_of_sameOff rfl rfl (List.mem_cons_of_mem _ hq) (by omega) (by omega) hoff)⟩

theorem run_served (hc : c.Ok) {w₀ : World} {rs : List Request} {ps : List Nat}
    (h : Served c w₀) (hfit : Meets (turn c) (Request.Fits c) w₀ rs)
    (hrun : run (turn c) w₀ rs = .ok (w, ps)) : Served c w :=
  run_invariant_of_meets (Served c) (fun _ _ _ _ h hf hs => turn_served hc h hf hs) h hfit hrun

end Turn

end HectoOs.Slab
