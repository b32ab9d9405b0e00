import HectoOs.Lib.Exec
import HectoOs.Heap.ForwardList
import HectoOs.Heap.PageAlloc

/-! # The zones of the heap (`mm/heap/slab_allocator/slab.rs`)

A zone is a run of pages that starts with its header and is cut into chunks of one size. The page
layer is a parameter. It is either any layer whose answer comes with the call, the address it
returns and the bytes it writes to its own lists, or the one of `page.rs`.

Arithmetic is checked, as in the dev profile, and so are the `debug_assert`s.
-/

open HectoOs.Lib HectoOs.Heap

namespace HectoOs.Slab

inductive Panic where
  /-- `round_up!(size, PAGE_SIZE)` of a request overflows. -/
  | request_overflow
  | overflow
  | assert
  | index_out_of_bounds
  | null_deref
  /-- `ForwardList::remove` does not find its node. -/
  | not_found
  /-- "should not be PageUsage::Free". -/
  | page_is_free
  /-- "BUG!!". -/
  | bug
  /-- A loop of the page layer does not end. -/
  | endless
  deriving DecidableEq

inductive PageUsage where
  | Free
  | Zone (off : Nat)
  | Page (npages : Nat)
  deriving DecidableEq

/-! ## Constants and statics -/

abbrev NZONES : Nat := 72
abbrev ZONE_FREE_CNT_LIMIT : Nat := 4
abbrev ZALLOC_SLAB_MAGIC : Nat := 0x51ab51ab

/-- `size_of::<PageUsage>()`. -/
abbrev USAGE_SIZE : Nat := 16

/-- `size_of::<SlabZoneNode>()`. -/
abbrev HEADER_SIZE : Nat := 48

/-- The statics that only `init` writes. -/
structure Statics where
  HEAP_START : Nat
  HEAP_END : Nat
  PAGE_USAGE_ARRAY : Nat
  CHUNK_LIMIT : Nat
  ZONE_SIZE : Nat
  ZONE_PAGE_CNT : Nat
  deriving DecidableEq

/-- The memory of the heap and the other statics. Only the page layer uses `FREE_PAGE_LIST`. `runs`
are the runs of pages that it has handed out and not got back, apart from `PAGE_USAGE_ARRAY`. -/
structure SlabState where
  mem : Mem
  FREE_PAGE_LIST : Nat
  ZONE_ARRAY : Nat → Nat
  ZONE_FREE : Nat
  ZONE_FREE_CNT : Nat
  runs : List PageRun

/-! ## Rounding

`x & !y` is `x - (x & y)`.
-/

def round_down (value boundary : Nat) : Nat := value - (value &&& (boundary - 1))

/-- The caller checks the sum. -/
def round_up (value boundary : Nat) : Nat := round_down (value + boundary - 1) boundary

/-- The sum of `round_up!(value, PAGE_SIZE)` does not overflow. -/
@[irreducible] def round_up_checks (value : Nat) : Bool := value + PAGE < 2 ^ 64

/-! ## Fields of the `SlabZoneNode` at `zn`

`next` comes first. The compiler chooses the order of the others. It only matters to `page_free`,
which reads the second word of a page that it gets.
-/

section Fields

variable (m : Mem) (zn : Nat)

def next : Nat := load64 m zn
def z_magic : Nat := load32 m (zn + 8)
def z_nfree : Nat := load32 m (zn + 12)
def z_nmax : Nat := load32 m (zn + 16)
def z_uindex : Nat := load32 m (zn + 20)
def z_baseptr : Nat := load64 m (zn + 24)
def z_zoneindex : Nat := load32 m (zn + 32)
def z_freechunk : Nat := load64 m (zn + 40)

variable (v : Nat)

def set_magic : Mem := store32 m (zn + 8) v
def set_nfree : Mem := store32 m (zn + 12) v
def set_nmax : Mem := store32 m (zn + 16) v
def set_uindex : Mem := store32 m (zn + 20) v
def set_baseptr : Mem := store64 m (zn + 24) v
def set_zoneindex : Mem := store32 m (zn + 32) v
def set_freechunk : Mem := store64 m (zn + 40) v

end Fields

/-! ## `PAGE_USAGE_ARRAY` -/

/-- `PageUsage` is `repr(u64)`: a tag, and a `u32` behind it. -/
def usage (m : Mem) (kup : Nat) : Option PageUsage :=
  match load64 m kup with
  | 0 => some .Free
  | 1 => some (.Zone (load32 m (kup + 8)))
  | 2 => some (.Page (load32 m (kup + 8)))
  | _ => none

def set_usage (m : Mem) (kup : Nat) : PageUsage → Mem
  | .Free => store64 m kup 0
  | .Zone off => store32 (store64 m kup 1) (kup + 8) off
  | .Page npages => store32 (store64 m kup 2) (kup + 8) npages

/-- `btokup!`. The caller checks the subtraction. -/
def btokup (c : Statics) (addr : Nat) : Nat :=
  c.PAGE_USAGE_ARRAY + (addr - c.HEAP_START) / PAGE * USAGE_SIZE

/-- `for i in 0..n { *kup.add(i) = mark(i) }`. -/
def set_usages (m : Mem) (kup : Nat) (mark : Nat → PageUsage) (n : Nat) : Mem :=
  (List.range n).foldl (fun m i => set_usage m (kup + i * USAGE_SIZE) (mark i)) m

/-! ## The page layer -/

abbrev SlabM := Exec Panic SlabState

structure PageLayer where
  page_alloc : Nat → SlabM Nat
  page_free : Nat → Nat → SlabM Unit

/-- The runs without the one that is freed. -/
def without (runs : List PageRun) (start npages : Nat) : List PageRun :=
  runs.filter fun r => !(r.start == start && r.npages == npages)

/-- What one call of the page layer returns, and what it writes. -/
structure PageAnswer where
  addr : Nat
  writes : List (Nat × Byte)

def PageAnswer.apply (ans : PageAnswer) (m : Mem) : Mem :=
  ans.writes.foldl (fun m w => storeByte m w.1 w.2) m

/-- A page layer of which only the answer is known. -/
def PageAnswer.layer (ans : PageAnswer) : PageLayer where
  page_alloc npages := do
    modify fun s => { s with
      mem := ans.apply s.mem
      runs := if ans.addr = 0 then s.runs else ⟨ans.addr, npages⟩ :: s.runs }
    return ans.addr
  page_free addr npages :=
    modify fun s => { s with mem := ans.apply s.mem, runs := without s.runs addr npages }

/-- A list without a cycle has at most one run for each page. -/
def Statics.fuel (c : Statics) : Nat := (c.HEAP_END - c.HEAP_START) / PAGE + 1

/-- The page layer of `page.rs`. -/
def paging (c : Statics) : PageLayer where
  page_alloc npages := do
    let s ← get
    let (t, a) ← Exec.unwrap .endless (page_alloc c.fuel ⟨s.mem, s.FREE_PAGE_LIST⟩ npages)
    set { s with
      mem := t.mem
      FREE_PAGE_LIST := t.FREE_PAGE_LIST
      runs := if a = 0 then s.runs else ⟨a, npages⟩ :: s.runs }
    return a
  page_free addr npages := do
    let s ← get
    let t ← Exec.unwrap .endless (page_free c.fuel ⟨s.mem, s.FREE_PAGE_LIST⟩ addr npages)
    set { s with
      mem := t.mem, FREE_PAGE_LIST := t.FREE_PAGE_LIST, runs := without s.runs addr npages }

/-! ## `init` -/

/-- The loop for `ZONE_SIZE`. -/
def zone_size (limsize : Nat) : Nat → Nat → Nat
  | 0, size => size
  | fuel + 1, size =>
    if size < 128 * 1024 ∧ size <<< 1 < limsize / 1024 then zone_size limsize fuel
      (size <<< 1) else size

/-- `page_init` comes before; `answer` is what `page_alloc` returns for `PAGE_USAGE_ARRAY`. -/
def init (start stop answer : Nat) : Except Panic Statics :=
  let HEAP_START := round_up start PAGE
  let HEAP_END := round_down stop PAGE
  if !round_up_checks start then .error .overflow
  else if HEAP_END ≤ HEAP_START then .error .assert
  else
    let limsize := HEAP_END - HEAP_START
    -- The size doubles at most twice.
    let ZONE_SIZE := zone_size limsize 2 (32 * 1024)
    .ok {
      HEAP_START, HEAP_END, ZONE_SIZE
      ZONE_PAGE_CNT := ZONE_SIZE / PAGE
      CHUNK_LIMIT := min (ZONE_SIZE / 4) (16 * 1024)
      PAGE_USAGE_ARRAY := answer }

/-- How many pages `init` takes for `PAGE_USAGE_ARRAY`. -/
def Statics.usage_pages (c : Statics) : Nat :=
  round_up ((c.HEAP_END - c.HEAP_START) / PAGE * USAGE_SIZE) PAGE / PAGE

/-! ## `malloc` -/

/-- `0usize.leading_zeros() - n.leading_zeros()`. -/
def bit_length (n : Nat) : Nat := if n = 0 then 0 else n.log2 + 1

/-- The rounded size and the index. -/
def zone_index (bytes : Nat) : Nat × Nat :=
  let i := max 7 (bit_length bytes) - 1 - 3
  let n := round_up bytes (1 <<< i)
  (n, (n >>> i) + 8 * (i - 3) - 1)

/-- The offset of the first chunk: behind the header, and a multiple of `size` when that is a power
of two. -/
def first_chunk (size : Nat) : Nat :=
  if (size ||| (size - 1)) + 1 = size <<< 1 then round_up HEADER_SIZE size
  else round_up HEADER_SIZE 8

def set_mem (f : Mem → Mem) : SlabM Unit := modify fun s => { s with mem := f s.mem }

/-- A list operation on `ZONE_ARRAY[zi]`: the new memory and the new head. -/
def set_zone_list (zi : Nat) (r : Mem × Nat) : SlabM Unit :=
  modify fun s =>
    { s with mem := r.1, ZONE_ARRAY := fun i => if i = zi then r.2 else s.ZONE_ARRAY i }

/-- A request above `CHUNK_LIMIT`. -/
def malloc_pages (c : Statics) (size : Nat) (pages : PageLayer) : SlabM Nat := do
  Exec.require .request_overflow (round_up_checks size)
  let npages := round_up size PAGE / PAGE
  let chunk ← pages.page_alloc npages
  if chunk = 0 then return 0
  else
    Exec.require .overflow (c.HEAP_START ≤ chunk)
    set_mem (set_usage · (btokup c chunk) (.Page npages))
    return chunk

/-- One chunk of the zone `zn` less; a zone without free chunks leaves `ZONE_ARRAY[zi]`, where it is
the head. -/
def count_out (zn zi : Nat) : SlabM Unit := do
  let s ← get
  let nfree := z_nfree s.mem zn
  Exec.require .overflow (0 < nfree)
  set_mem (set_nfree · zn (nfree - 1))
  let s ← get
  if nfree - 1 = 0 then set_zone_list zi (ForwardList.pop_front s.mem (s.ZONE_ARRAY zi))
  else return ()

/-- A chunk that was never used, or the first one of `z_freechunk`. -/
def pick_chunk (zn size : Nat) : SlabM Nat := do
  let s ← get
  if z_uindex s.mem zn ≠ z_nmax s.mem zn then
    set_mem (set_uindex · zn (z_uindex s.mem zn + 1))
    return z_baseptr s.mem zn + z_uindex s.mem zn * size
  else
    let chunk := z_freechunk s.mem zn
    Exec.require .null_deref (chunk ≠ 0)
    let r := ForwardList.pop_front s.mem chunk
    set_mem fun _ => set_freechunk r.1 zn r.2
    return chunk

/-- A zone without chunks: from `ZONE_FREE`, or from the page layer. -/
def new_zone (c : Statics) (pages : PageLayer) : SlabM Nat := do
  let s ← get
  let zn := s.ZONE_FREE
  if zn ≠ 0 then
    let r := ForwardList.pop_front s.mem zn
    Exec.require .overflow (0 < s.ZONE_FREE_CNT)
    set { s with mem := r.1, ZONE_FREE := r.2, ZONE_FREE_CNT := s.ZONE_FREE_CNT - 1 }
    return zn
  else
    let zn ← pages.page_alloc (c.ZONE_SIZE / PAGE)
    if zn = 0 then return 0
    else
      Exec.require .overflow (c.HEAP_START ≤ zn)
      set_mem (set_usages · (btokup c zn) .Zone c.ZONE_PAGE_CNT)
      return zn

/-- The header of a new zone, whose first chunk is taken at once. -/
def new_header (c : Statics) (m : Mem) (zn zi size : Nat) : Mem :=
  let off := first_chunk size
  let nmax := (c.ZONE_SIZE - off) / size
  let m := zeroBytes m zn HEADER_SIZE
  let m := set_magic m zn ZALLOC_SLAB_MAGIC
  let m := set_zoneindex m zn zi
  let m := set_nmax m zn nmax
  let m := set_nfree m zn (nmax - 1)
  let m := set_baseptr m zn (zn + off)
  set_uindex m zn 1

def set_up_zone (c : Statics) (zn zi size : Nat) : SlabM Nat := do
  let off := first_chunk size
  Exec.require .overflow (off ≤ c.ZONE_SIZE && 0 < (c.ZONE_SIZE - off) / size)
  set_mem (new_header c · zn zi size)
  let s ← get
  set_zone_list zi (s.mem, zn)
  return zn + off

def malloc (c : Statics) (size : Nat) (pages : PageLayer) : SlabM Nat := do
  if size = 0 then return 0
  else if c.CHUNK_LIMIT < size then malloc_pages c size pages
  else
    let zi := (zone_index size).2
    let size := (zone_index size).1
    Exec.require .assert (zi < NZONES)
    let s ← get
    let zn := s.ZONE_ARRAY zi
    if zn ≠ 0 then
      count_out zn zi
      pick_chunk zn size
    else
      let zn ← new_zone c pages
      if zn = 0 then return 0
      else set_up_zone c zn zi size

/-! ## `free` -/

/-- The zone `zn` is all free, and another one is left for its size. -/
def release_zone (c : Statics) (zn : Nat) (pages : PageLayer) : SlabM Unit := do
  set_mem (set_magic · zn 0)
  let s ← get
  let zi := z_zoneindex s.mem zn
  let r ← Exec.unwrap .not_found (ForwardList.remove s.mem (s.ZONE_ARRAY zi) zn)
  set_zone_list zi r
  let s ← get
  if s.ZONE_FREE_CNT < ZONE_FREE_CNT_LIMIT then
    let r := ForwardList.push_front s.mem s.ZONE_FREE zn
    set { s with mem := r.1, ZONE_FREE := r.2, ZONE_FREE_CNT := s.ZONE_FREE_CNT + 1 }
  else
    Exec.require .overflow (c.HEAP_START ≤ zn)
    set_mem (set_usages · (btokup c zn) (fun _ => .Free) c.ZONE_PAGE_CNT)
    pages.page_free zn (c.ZONE_SIZE / PAGE)

/-- A chunk goes back to its zone `zn`: the new `z_nfree`. -/
def put_chunk (zn chunk : Nat) : SlabM Nat := do
  let s ← get
  let r := ForwardList.push_front s.mem (z_freechunk s.mem zn) chunk
  set_mem fun _ => set_freechunk r.1 zn r.2
  let s ← get
  let nfree := z_nfree s.mem zn + 1
  Exec.require .overflow (nfree < 2 ^ 32)
  set_mem (set_nfree · zn nfree)
  return nfree

/-- Where the zone goes once it has `nfree` free chunks. -/
def place_zone (c : Statics) (zn nfree : Nat) (pages : PageLayer) : SlabM Unit := do
  let s ← get
  let zi := z_zoneindex s.mem zn
  if nfree = 1 then
    Exec.require .index_out_of_bounds (zi < NZONES)
    set_zone_list zi (ForwardList.push_front s.mem (s.ZONE_ARRAY zi) zn)
  else if nfree = z_nmax s.mem zn then
    Exec.require .index_out_of_bounds (zi < NZONES)
    if next s.mem zn ≠ 0 ∨ s.ZONE_ARRAY zi ≠ zn then release_zone c zn pages else return ()
  else return ()

def free_chunk (c : Statics) (zn chunk : Nat) (pages : PageLayer) : SlabM Unit := do
  let s ← get
  Exec.require .assert (z_magic s.mem zn = ZALLOC_SLAB_MAGIC)
  let nfree ← put_chunk zn chunk
  place_zone c zn nfree pages

def free (c : Statics) (chunk : Nat) (pages : PageLayer) : SlabM Unit := do
  if chunk = 0 then return ()
  else
    Exec.require .overflow (c.HEAP_START ≤ chunk)
    let s ← get
    match usage s.mem (btokup c chunk) with
    | none => Exec.panic .bug
    | some .Free => Exec.panic .page_is_free
    | some (.Zone off) =>
      Exec.require .overflow (off * PAGE ≤ round_down chunk PAGE)
      free_chunk c (round_down chunk PAGE - off * PAGE) chunk pages
    | some (.Page npages) =>
      pages.page_free chunk npages
      set_mem (set_usage · (btokup c chunk) .Free)

/-! ## Runs

Between two calls the owner of a block writes to it.
-/

/-- What `malloc` has returned, and the size it was asked for. -/
structure Block where
  ptr : Nat
  size : Nat
  deriving DecidableEq

def Block.stop (b : Block) : Nat := b.ptr + b.size

/-- `live` are the blocks that have not been freed. -/
structure World where
  slab : SlabState
  live : List Block

inductive Event where
  | malloc (size : Nat) (ans : PageAnswer)
  | free (ptr : Nat) (ans : PageAnswer)
  | write (addr : Nat) (b : Byte)

variable (c : Statics)

/-- The block lies in the zone at `z`. -/
def in_zone (z : Nat) (b : Block) : Bool := z ≤ b.ptr && b.ptr < z + c.ZONE_SIZE

/-- Shows the pointer that `malloc` returns. -/
def step (w : World) : Event → Except Panic (World × Nat)
  | .malloc size ans => (malloc c size ans.layer w.slab).map fun (p, s) =>
    (⟨s, if p = 0 then w.live else ⟨p, size⟩ :: w.live⟩, p)
  | .free ptr ans =>
    (free c ptr ans.layer w.slab).map fun (_, s) => (⟨s, w.live.filter fun b => b.ptr != ptr⟩, 0)
  | .write addr b => .ok (⟨{ w.slab with mem := storeByte w.slab.mem addr b }, w.live⟩, 0)

/-- The state before the first call. -/
def start (m : Mem) : World := ⟨⟨m, 0, fun _ => 0, 0, 0, []⟩, []⟩

/-- The pages of `PAGE_USAGE_ARRAY`. -/
def Statics.usage_run : PageRun := ⟨c.PAGE_USAGE_ARRAY, c.usage_pages⟩

/-- Whole pages of the heap that nobody else has. -/
structure Fresh (runs : List PageRun) (r : PageRun) : Prop where
  aligned : r.start % PAGE = 0
  nonempty : 0 < r.npages
  above : c.HEAP_START ≤ r.start
  below : r.stop ≤ c.HEAP_END
  apart : Apart r runs

instance (runs : List PageRun) (r : PageRun) : Decidable (Fresh c runs r) :=
  decidable_of_iff (r.start % PAGE = 0 ∧ 0 < r.npages ∧ c.HEAP_START ≤ r.start ∧
    r.stop ≤ c.HEAP_END ∧
      ∀ q ∈ runs, q.stop ≤ r.start ∨ r.stop ≤ q.start)
    ⟨fun ⟨h1, h2, h3, h4, h5⟩ => ⟨h1, h2, h3, h4, h5⟩,
      fun h => ⟨h.aligned, h.nonempty, h.above, h.below, h.apart⟩⟩

def Outside (r : PageRun) (a : Nat) : Prop := a < r.start ∨ r.stop ≤ a

instance (r : PageRun) (a : Nat) : Decidable (Outside r a) := inferInstanceAs (Decidable (_ ∨ _))

/-- How many pages `malloc` asks for, if it does. -/
def pages_for (size : Nat) : Nat :=
  if c.CHUNK_LIMIT < size then round_up size PAGE / PAGE else c.ZONE_SIZE / PAGE

/-- What a call relies on. The page layer hands out runs that are disjoint while they are
outstanding, and writes only to pages that it has. A pointer is freed only while its block is
live. -/
def Event.Fits (w : World) : Event → Prop
  | .malloc size ans =>
    (∀ x ∈ ans.writes, ∀ r ∈ c.usage_run :: w.slab.runs, Outside r x.1) ∧
    (ans.addr ≠ 0 → Fresh c (c.usage_run :: w.slab.runs) ⟨ans.addr, pages_for c size⟩)
  | .free ptr ans =>
    (ptr = 0 ∨ ∃ b ∈ w.live, b.ptr = ptr) ∧
    ∀ x ∈ ans.writes, Outside c.usage_run x.1 ∧ ∀ r ∈ w.slab.runs, Outside r x.1 ∨
    r.start ≤ ptr ∧ ptr < r.stop
  | .write addr _ => ∃ b ∈ w.live, b.ptr ≤ addr ∧ addr < b.stop

instance (w : World) : ∀ e : Event, Decidable (e.Fits c w)
  | .malloc _ _ => inferInstanceAs (Decidable (_ ∧ (_ → _)))
  | .free _ _ => inferInstanceAs (Decidable (_ ∧ _))
  | .write _ _ => inferInstanceAs (Decidable (∃ _ ∈ _, _))

end HectoOs.Slab
