import HectoOs.Lib.Memory
import HectoOs.Lib.Chain

/-! # The page layer of the heap (`mm/heap/slab_allocator/page.rs`)

Free runs of pages form a list threaded through the runs themselves: the first page of a run
starts with a `PageHead`. A run that is being freed still holds whatever its last owner wrote
there.
-/

open HectoOs.Lib

namespace HectoOs.Heap

/-- `size_of::<PageHead>()`: the padding fills the page. -/
abbrev PAGE : Nat := 4096

/-- The memory of the heap and the static `FREE_PAGE_LIST`. -/
structure PageState where
  mem : Mem
  FREE_PAGE_LIST : Nat

namespace PageState

variable (s : PageState)

/-! ## Fields of the `PageHead` at `p` -/

def next (p : Nat) : Nat := load64 s.mem p
def npages (p : Nat) : Nat := load64 s.mem (p + 8)
def set_next (p v : Nat) : PageState := { s with mem := store64 s.mem p v }
def set_npages (p v : Nat) : PageState := { s with mem := store64 s.mem (p + 8) v }

/-- Pointer arithmetic on `*const PageHead` wraps at 64 bits. -/
def get_right_ptr (p : Nat) : Nat := (p + s.npages p * PAGE) % 2 ^ 64

def is_right (p other : Nat) : Bool := s.get_right_ptr p == other

def is_right_free (p : Nat) : Bool := s.get_right_ptr p == s.next p

/-- Reads `*prev`. -/
def get : Link → Nat
  | .head => s.FREE_PAGE_LIST
  | .node p => s.next p

/-- Writes `*prev`. -/
def set (l : Link) (v : Nat) : PageState :=
  match l with
  | .head => { s with FREE_PAGE_LIST := v }
  | .node p => s.set_next p v

end PageState

open PageState

/-- The loop of `page_free`, started at the link `prev`. Without fuel there is no result. -/
def page_free_loop (cur npages : Nat) : Nat → PageState → Link → Option PageState
  | 0, _, _ => none
  | fuel + 1, s, prev =>
    let iter := s.get prev
    if iter = 0 then some s
    else if s.is_right iter cur then
      let s := s.set_npages iter (s.npages iter + npages)
      if s.is_right_free iter then
        let s := s.set_npages iter (s.npages iter + s.npages (s.next iter))
        some (s.set_next iter (s.next (s.next iter)))
      else some s
    else if s.is_right cur iter then
      let s := s.set_npages cur (s.npages iter + npages)
      let s := s.set_next cur (s.next iter)
      some (s.set prev cur)
    else if s.get_right_ptr cur < iter then
      let s := s.set_npages cur npages
      let s := s.set_next cur iter
      some (s.set prev cur)
    else page_free_loop cur npages fuel s (.node iter)

def page_free (fuel : Nat) (s : PageState) (addr npages : Nat) : Option PageState :=
  page_free_loop addr npages fuel s .head

theorem page_free_loop_unique (cur npages : Nat) (f g : Nat) (s a b : PageState)
    (prev : Link) (ha : page_free_loop cur npages f s prev = some a)
    (hb : page_free_loop cur npages g s prev = some b) :
    a = b := by
  induction f generalizing g s prev with
  | zero => simp [page_free_loop] at ha
  | succ f ih =>
    cases g with
    | zero => simp [page_free_loop] at hb
    | succ g =>
      simp only [page_free_loop] at ha hb
      split_ifs at ha hb
      all_goals first
        | exact ih g s _ ha hb
        | exact Option.some.inj (ha.symm.trans hb)

/-! ## Runs of pages -/

/-- `npages` pages from address `start` on. -/
structure PageRun where
  start : Nat
  npages : Nat

def PageRun.stop (r : PageRun) : Nat := r.start + r.npages * PAGE

/-- Page number `p` is one of the pages of the run. -/
def PageRun.Has (r : PageRun) (p : Nat) : Prop := r.start / PAGE ≤ p ∧ p < r.start / PAGE + r.npages

def inRuns (runs : List PageRun) (p : Nat) : Prop := ∃ r ∈ runs, r.Has p

theorem PageRun.start_lt_stop {r : PageRun} (h : 0 < r.npages) : r.start < r.stop := by
  simp only [PageRun.stop, PAGE]
  omega

/-- Whole pages, at least one, that end below the top of the address space. -/
structure PageRun.Ok (r : PageRun) : Prop where
  aligned : r.start % PAGE = 0
  nonnull : 0 < r.start
  nonempty : 0 < r.npages
  bounded : r.stop < 2 ^ 64

/-- Sorted by address, disjoint and with a gap between neighbours. -/
structure SortedRuns (runs : List PageRun) : Prop where
  ok : ∀ r ∈ runs, r.Ok
  sorted : runs.Pairwise fun a b => a.stop < b.start

/-- The state holds exactly the list `runs`. -/
structure Holds (s : PageState) (runs : List PageRun) : Prop where
  chain : Chain s.next s.FREE_PAGE_LIST (runs.map PageRun.start)
  counts : ∀ r ∈ runs, s.npages r.start = r.npages

/-- `r` shares no page with the runs. -/
def Apart (r : PageRun) (runs : List PageRun) : Prop :=
  ∀ q ∈ runs, q.stop ≤ r.start ∨ r.stop ≤ q.start

/-- What `page_free` promises: a list with the same invariants that holds the old pages and the
freed ones, and no others. -/
def PageFreeContract (s : PageState) (runs : List PageRun) (r : PageRun) : Prop :=
  ∃ fuel s' runs', page_free fuel s r.start r.npages = some s' ∧ Holds s' runs' ∧ SortedRuns runs' ∧
    ∀ p, inRuns runs' p ↔ inRuns runs p ∨ r.Has p

/-! ## The list that `page_free` leaves

`ptr` is where `cur.get_right_ptr()` points, which the code reads from the header of the freed
run before it has written that header.
-/

/-- The freed run `r` joins the free run `q` on its left, and the first of `qs` if that is
adjacent. -/
def joinLeft (r q : PageRun) : List PageRun → List PageRun
  | [] => [⟨q.start, q.npages + r.npages⟩]
  | q' :: qs =>
    if r.stop = q'.start then ⟨q.start, q.npages + r.npages + q'.npages⟩ :: qs
    else ⟨q.start, q.npages + r.npages⟩ :: q' :: qs

def freeRuns (r : PageRun) (ptr : Nat) : List PageRun → List PageRun
  | [] => []
  | q :: qs =>
    if q.stop = r.start then joinLeft r q qs
    else if ptr = q.start then ⟨r.start, q.npages + r.npages⟩ :: qs
    else if ptr < q.start then r :: q :: qs
    else q :: freeRuns r ptr qs

end HectoOs.Heap
