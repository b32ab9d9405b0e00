import HectoOs.Mm.Isolation

/-! # The number of a child in its memory (`process/thread.rs`)

`CLONE_CHILD_SETTID` asks `Thread::fork` to put the number of the child at an address of the child.
The store goes through the kernel's mapping to the frame of the page, which the child shares with
its parent at that time, and writes a `usize`.
-/

open HectoOs.Lib

namespace HectoOs.ChildTid

open Mm
open Mm.PageTableImpl (boot lookup lookup_congr smallLayout Tree userHalf)

structure CloneFlags where
  bits : Nat

namespace CloneFlags

def CLONE_THREAD (flags : CloneFlags) : Bool := flags.bits.testBit 16
def CLONE_CHILD_SETTID (flags : CloneFlags) : Bool := flags.bits.testBit 24

end CloneFlags

abbrev Op := Exec Panic Os

variable (cfg : Config)

def event (e : Event) : Op Unit := fun s => (s.step cfg e).map fun r => ((), r.1)

/-- The state after the store of `tid` to the address `a` of the kernel. -/
def stored (s : Os) (a tid : Nat) : Os :=
  { s with phys := s.phys.set_mem (store64 s.phys.mem a tid) }

/-- The store of `tid` to `child_tid`. -/
def set_child_tid (child : AddressSpace) (child_tid tid : Nat) : Op Unit := do
  let s ← get
  let pa ← Exec.unwrap .assert (child.page_table.translate_va cfg s.phys.mem child_tid)
  let va ← Exec.unwrap .assert (checked_add pa KERNEL_MAP_OFFSET)
  set (stored s va tid)

/-- What `Thread::fork` does to memory, without the contents of the kernel stack. -/
def fork (i tid : Nat) (flags : CloneFlags) (child_tid : Nat) : Op Unit := do
  let child := (← get).spaces.length
  event cfg (.fork i)
  event cfg (.insert_kernel_stack tid)
  if flags.CLONE_CHILD_SETTID then
    let as ← Exec.unwrap .assert ((← get).spaces[child]?).join
    set_child_tid cfg as child_tid tid
  Exec.require .assert !flags.CLONE_THREAD

/-! ## The memory of a user -/

/-- The address lies on a page of an area. -/
def Maps (as : AddressSpace) (va : Nat) : Prop := ∃ x ∈ as.pages, x.vpn = floor va

/-- The byte that a page table leads to. -/
def byte (m : Mem) (as : AddressSpace) (va : Nat) : Option Byte :=
  (lookup cfg m as.page_table (floor va)).map fun e => m (frame_va (e.ppn cfg) + page_offset va)

/-- One of the bytes of the number; a `pid_t` has four of them, and a `usize` eight. -/
def tid_byte (tid k : Nat) : Byte := BitVec.ofNat 8 (tid / 256 ^ k)

/-- From `s` to `s₂`, the process at `i` got a child with its own memory, but for the `pid_t` at
`va`. No frame of a process is different from `s₁`, which a `fork` without the store leaves. -/
structure OnlyTid (s s₁ s₂ : Os) (i tid va : Nat) (as : AddressSpace) : Prop where
  parent : s₂.spaces[i]? = some (some as) ∧ ∀ a, Maps as a →
    byte cfg s₂.phys.mem as a = byte cfg s.phys.mem as a
  child : ∃ c, s₂.spaces = s.spaces ++ [some c] ∧ ∀ a, Maps as a → byte cfg s₂.phys.mem c a =
    if va ≤ a ∧ a < va + 4 then some (tid_byte tid (a - va)) else byte cfg s.phys.mem as a
  others : ∀ j as', j ≠ i → s.spaces[j]? = some (some as') →
    ∀ q ∈ as'.frames, SameFrame s.phys.mem s₂.phys.mem q
  rest : ∀ q ∈ space_trackers s₁.spaces, SameFrame s₁.phys.mem s₂.phys.mem q

/-- The number is there already: in the bytes of the parent, and wherever in a frame of a process
the eight bytes come to lie from `a` on. -/
structure AlreadyThere (s s₁ : Os) (tid va a : Nat) (as : AddressSpace) : Prop where
  number : ∀ k, k < 4 → Maps as (va + k) → byte cfg s.phys.mem as (va + k) = some (tid_byte tid k)
  word : ∀ k, k < 8 → ∀ q ∈ space_trackers s₁.spaces, frame_va q ≤ a + k →
    a + k < frame_va q + 4096 → s₁.phys.mem (a + k) = tid_byte tid k

/-! ## Without the store -/

section Plain

variable {cfg} {s s' s₁ s₂ : Os} {i tid va : Nat} {as c : AddressSpace} {flags : CloneFlags}

/-- What `fork` leaves when it stores no number. -/
structure Plain (cfg : Config) (s s₁ : Os) (i : Nat) (as c : AddressSpace) : Prop where
  spaces : s₁.spaces = s.spaces ++ [some c]
  pages : c.pages = as.pages
  tree : Tree cfg s₁.phys.mem as.page_table userHalf
  child_tree : Tree cfg s₁.phys.mem c.page_table userHalf
  tracks : Tracks cfg s₁.phys.mem as.page_table as.pages
  child_tracks : Tracks cfg s₁.phys.mem c.page_table c.pages
  same : ∀ q ∈ as.frames, SameFrame s.phys.mem s₁.phys.mem q
  others : ∀ j as', j ≠ i → s.spaces[j]? = some (some as') →
    ∀ q ∈ as'.frames, SameFrame s.phys.mem s₁.phys.mem q

theorem event_eq_ok {e : Event} {u : Unit} (h : event cfg e s = .ok (u, s')) :
    Os.step cfg s e = .ok (s', ()) := by
  unfold event at h
  cases hs : Os.step cfg s e with
  | error p => simp [hs, Except.map] at h
  | ok r =>
    simp only [hs, Except.map, Except.ok.injEq, Prod.mk.injEq] at h
    rw [← h.2]

theorem event_of_ok {e : Event} (h : Os.step cfg s e = .ok (s', ())) :
    event cfg e s = .ok ((), s') := by
  rw [event, h]
  rfl

theorem fork_steps_of_ok (h : fork cfg i tid ⟨0⟩ va s = .ok ((), s₁)) :
    ∃ s', Os.step cfg s (.fork i) = .ok (s', ()) ∧
    Os.step cfg s' (.insert_kernel_stack tid) = .ok (s₁, ()) := by
  rw [fork, exec_bind] at h
  change (event cfg (.fork i) >>= _ : Op Unit) s = _ at h
  rw [exec_bind] at h
  obtain ⟨⟨_, s'⟩, hfork, h⟩ := bind_eq_ok h
  rw [exec_bind] at h
  obtain ⟨⟨_, t⟩, hstack, h⟩ := bind_eq_ok h
  change (.ok ((), t) : Except Panic (Unit × Os)) = _ at h
  cases h
  exact ⟨s', event_eq_ok hfork, event_eq_ok hstack⟩

theorem plain_spec (h : Consistent cfg s) (has : s.spaces[i]? = some (some as))
    (hplain : fork cfg i tid ⟨0⟩ va s = .ok ((), s₁)) :
    ∃ c, Plain cfg s s₁ i as c := by
  obtain ⟨s', hfork, hstack⟩ := fork_steps_of_ok hplain
  obtain ⟨φ, kernel, l⟩ := s
  obtain ⟨as', c, φ', l₁, l₂, has', hok, rfl, rfl⟩ := new_from_cases hfork
  obtain rfl := Option.some.inj (Option.some.inj (has.symm.trans has'))
  obtain ⟨htracked, hf, -⟩ := wp_ok (fork_evolves h.tracked (h.keys as (by simp)).sorted) hok
  have happ : (l₁ ++ some as :: l₂) ++ [some c] = l₁ ++ some as :: (l₂ ++ [some c]) := by simp
  obtain ⟨r, kernel', φ₁, hr, hins, rfl⟩ := on_stack_cases hstack
  have hall : wp anyPanic (kernel.insert_kernel_stack_area cfg r) _ φ' :=
    map_and_insert_spec trivial (.inr rfl) htracked.half.kernel_owns (fun _ _ => trivial)
      (.inl trivial)
  obtain ⟨-, _, _, _, -, hi⟩ := wp_ok hall hins
  have hkeep : ∀ a, some a ∈ l₁ ++ some as :: (l₂ ++ [some c]) →
    ∀ q ∈ a.trackers, SameFrame φ'.mem φ₁.mem q :=
    fun a ha q hq => hi.exchanges.same q (mem_space_trackers.mpr ⟨a, ha, hq⟩)
  have htables : ∀ a, some a ∈ l₁ ++ some as :: (l₂ ++ [some c]) →
    ∀ q ∈ a.page_table.tables, SameFrame φ'.mem φ₁.mem q :=
    fun a ha q hq => hkeep a ha q (mem_trackers_of_table hq)
  have hmem : some as ∈ l₁ ++ some as :: (l₂ ++ [some c]) := by simp
  have hcmem : some c ∈ l₁ ++ some as :: (l₂ ++ [some c]) := by simp
  have htree := (htracked.half.spaces as hmem).tree
  have hctree := (htracked.half.spaces c hcmem).tree
  have hpages : c.pages = as.pages := by rw [AddressSpace.pages, hf.areas, AddressSpace.pages]
  refine ⟨c, rfl, hpages, htree.congr (htables as hmem), hctree.congr (htables c hcmem),
    ?_, ?_, fun q hq => ?_,
    fun j as' hj has' q hq => ?_⟩
  · exact hf.state.tracks.congr fun v hv => lookup_congr htree (htables as hmem) hv
  · rw [hpages]
    exact hf.state.child_tracks.congr fun v hv => lookup_congr hctree (htables c hcmem) hv
  · exact (hf.state.same q (List.mem_append_left _ hq)).trans
      (hkeep as hmem q (List.mem_append_right _ hq))
  · rcases mem_replaced (List.mem_of_getElem? has') with rfl | hother
    · exact (hf.state.same q (List.mem_append_left _ hq)).trans
        (hkeep as' hmem q (List.mem_append_right _ hq))
    · have hall : some as' ∈ l₁ ++ some as :: (l₂ ++ [some c]) :=
        mem_spaces_of_other (hother.imp id fun h => List.mem_append_left _ h)
      exact (hf.state.same q
        (List.mem_append_right _ (mem_others hother (List.mem_append_right _ hq)))).trans
        (hkeep as' hall q (List.mem_append_right _ hq))

theorem byte_of_page {m : Mem} {x : Page} (h : Tracks cfg m as.page_table as.pages)
    (hx : x ∈ as.pages) (hv : x.vpn = floor va) :
    byte cfg m as va = some (m (frame_va x.ppn + page_offset va)) := by
  obtain ⟨e, he, hp⟩ := h.mapped x hx
  rw [byte, ← hv, he, Option.map_some, hp]

theorem offset_lt (va : Nat) : page_offset va < 4096 := Nat.mod_lt _ (by decide)

theorem kernel_address {p offset : Nat} (hp : p + 1 < 2 ^ 26) (ho : offset < 4096) :
    checked_add (p * PAGE_SIZE + offset) KERNEL_MAP_OFFSET = some (frame_va p + offset) := by
  rw [frame_va_eq, checked_add_of_lt]
  · congr 1
    simp only [PAGE_SIZE, KERNEL_MAP_OFFSET]
    omega
  · simp only [PAGE_SIZE, KERNEL_MAP_OFFSET, USIZE]
    omega

theorem byte_same {m m' : Mem} (h : Tracks cfg m as.page_table as.pages)
    (h' : Tracks cfg m' c.page_table c.pages) (hpages : c.pages = as.pages)
    (hs : ∀ q ∈ as.frames, SameFrame m m' q) (hmaps : Maps as va) :
    byte cfg m' c va = byte cfg m as va := by
  obtain ⟨x, hx, hv⟩ := hmaps
  have hoff := offset_lt va
  rw [byte_of_page h hx hv, byte_of_page h' (hpages ▸ hx) hv,
    hs _ (frame_mem hx) _ (by omega) (by omega)]

theorem set_child_tid_ok {pa a : Nat} (hpa : c.page_table.translate_va cfg s.phys.mem va = some pa)
    (ha : checked_add pa KERNEL_MAP_OFFSET = some a) :
    set_child_tid cfg c va tid s = .ok ((), stored s a tid) := by
  have hspec : wp (fun _ => False) (set_child_tid cfg c va tid)
    (fun _ s' => s' = stored s a tid) s := by
    simp only [set_child_tid, wp_bind, wp_get, wp_unwrap, wp_set, hpa,
      ha, Option.some.injEq, forall_eq', reduceCtorEq,
      false_implies, and_true]
  obtain ⟨_, _, hok, rfl⟩ := wp_total hspec
  exact hok

theorem fork_of_plain (hplain : fork cfg i tid ⟨0⟩ va s = .ok ((), s₁))
    (hset : flags.CLONE_CHILD_SETTID = true) (hthread : flags.CLONE_THREAD = false)
    (hc : s₁.spaces[s.spaces.length]? = some (some c)) {pa a : Nat}
    (hpa : c.page_table.translate_va cfg s₁.phys.mem va = some pa)
    (ha : checked_add pa KERNEL_MAP_OFFSET = some a) :
    fork cfg i tid flags va s = .ok ((), stored s₁ a tid) := by
  obtain ⟨s', hfork, hstack⟩ := fork_steps_of_ok hplain
  have hchild : (s₁.spaces[s.spaces.length]?).join = some c := by rw [hc, Option.join_some]
  rw [fork, exec_bind]
  change (event cfg (.fork i) >>= _ : Op Unit) s = _
  rw [exec_bind, event_of_ok hfork]
  change (event cfg (.insert_kernel_stack tid) >>= _ : Op Unit) s' = _
  rw [exec_bind, event_of_ok hstack]
  dsimp only [Except.bind]
  rw [if_pos hset, hthread]
  change (do
    let as ← Exec.unwrap .assert (s₁.spaces[s.spaces.length]?).join
    set_child_tid cfg as va tid
    Exec.require .assert !false : Op Unit) s₁ = _
  rw [hchild]
  change (do
    set_child_tid cfg c va tid
    Exec.require .assert !false : Op Unit) s₁ = _
  rw [exec_bind, set_child_tid_ok hpa ha]
  rfl

end Plain

/-! ## With the store -/

section Store

variable {cfg} {s s₁ : Os} {i tid va a : Nat} {as c : AddressSpace}

theorem same_frames_iff :
    (∀ q ∈ space_trackers s₁.spaces, SameFrame s₁.phys.mem (stored s₁ a tid).phys.mem q) ↔
    ∀ k, k < 8 → ∀ q ∈ space_trackers s₁.spaces, frame_va q ≤ a + k → a + k < frame_va q + 4096 →
      s₁.phys.mem (a + k) = tid_byte tid k := by
  have hframe : ∀ q, SameFrame s₁.phys.mem (stored s₁ a tid).phys.mem q ↔
    ∀ k, k < 8 → frame_va q ≤ a + k →
    a + k < frame_va q + 4096 → s₁.phys.mem (a + k) = tid_byte tid k := fun q => store64_sameOn_iff
  exact ⟨fun h k hk q hq => (hframe q).mp (h q hq) k hk,
    fun h q hq => (hframe q).mpr fun k hk => h k hk q hq⟩

theorem same_bytes (h : Consistent cfg s)
    (has : s.spaces[i]? = some (some as)) (hp : Plain cfg s s₁ i as c)
    (hsame : ∀ q ∈ space_trackers s₁.spaces, SameFrame s₁.phys.mem (stored s₁ a tid).phys.mem q)
    {va : Nat} (hmaps : Maps as va) :
    byte cfg (stored s₁ a tid).phys.mem as va = byte cfg s.phys.mem as va ∧
    byte cfg (stored s₁ a tid).phys.mem c va = byte cfg s.phys.mem as va := by
  have hmem : some as ∈ s.spaces := List.mem_of_getElem? has
  have htracks := h.tracked.tracks as hmem
  have htrackers : ∀ o, some o ∈ s₁.spaces →
    ∀ q ∈ o.trackers, SameFrame s₁.phys.mem (stored s₁ a tid).phys.mem q :=
    fun o ho q hq => hsame q (mem_space_trackers.mpr ⟨o, ho, hq⟩)
  have hparent := htrackers as (by rw [hp.spaces]; exact List.mem_append_left _ hmem)
  have hchild := htrackers c (by rw [hp.spaces]; simp)
  have hframes : ∀ q ∈ as.frames, SameFrame s.phys.mem (stored s₁ a tid).phys.mem q :=
    fun q hq => (hp.same q hq).trans (hparent q (List.mem_append_right _ hq))
  constructor
  · refine byte_same htracks (hp.tracks.congr fun v hv => ?_) rfl hframes hmaps
    exact lookup_congr hp.tree (fun t ht => hparent t (mem_trackers_of_table ht)) hv
  · refine byte_same htracks (hp.child_tracks.congr fun v hv => ?_) hp.pages hframes hmaps
    exact lookup_congr hp.child_tree (fun t ht => hchild t (mem_trackers_of_table ht)) hv

theorem only_tid_iff (h : Consistent cfg s) (has : s.spaces[i]? = some (some as))
    (hp : Plain cfg s s₁ i as c) :
    OnlyTid cfg s s₁ (stored s₁ a tid) i tid va as ↔ AlreadyThere cfg s s₁ tid va a as := by
  constructor
  · rintro ⟨-, ⟨c', hspaces, hbytes⟩, -, hrest⟩
    refine ⟨fun k hk hmaps => ?_, same_frames_iff.mp hrest⟩
    obtain rfl : c' = c := by
      have hlast := hspaces.symm.trans hp.spaces
      simpa using hlast
    rw [← (same_bytes h has hp hrest hmaps).2, hbytes _ hmaps, if_pos (by omega),
      Nat.add_sub_cancel_left]
  · rintro ⟨hnumber, hword⟩
    have hrest := same_frames_iff.mpr hword
    refine ⟨⟨?_, fun b hb => (same_bytes h has hp hrest hb).1⟩, ⟨c, hp.spaces, fun b hb => ?_⟩,
      fun j as' hj has' q hq => ?_, hrest⟩
    · have hlt : i < s.spaces.length := (List.getElem?_eq_some_iff.mp has).1
      change s₁.spaces[i]? = _
      rw [hp.spaces, List.getElem?_append_left hlt, has]
    · rw [(same_bytes h has hp hrest hb).2]
      split
      · obtain ⟨k, rfl⟩ : ∃ k, b = va + k := ⟨b - va, by omega⟩
        rw [Nat.add_sub_cancel_left, hnumber k (by omega) hb]
      · rfl
    · refine (hp.others j as' hj has' q hq).trans (hrest q ?_)
      refine mem_space_trackers.mpr ⟨as', ?_, List.mem_append_right _ hq⟩
      rw [hp.spaces]
      exact List.mem_append_left _ (List.mem_of_getElem? has')

theorem already_there_iff_of_inside (h : Consistent cfg s) (has : s.spaces[i]? = some (some as))
    (hp : Plain cfg s s₁ i as c) {x : Page} (hx : x ∈ as.pages) (hv : x.vpn = floor va)
    (hin : page_offset va + 8 ≤ 4096) :
    AlreadyThere cfg s s₁ tid va (frame_va x.ppn + page_offset va) as ↔
      ∀ k, k < 8 → byte cfg s.phys.mem as (va + k) = some (tid_byte tid k) := by
  have hmem : some as ∈ s.spaces := List.mem_of_getElem? has
  have hbyte : ∀ k, k < 8 →
      byte cfg s.phys.mem as (va + k) =
        some (s₁.phys.mem (frame_va x.ppn + page_offset va + k)) := by
    intro k hk
    have hfloor : x.vpn = floor (va + k) := by
      rw [hv]
      simp only [floor, page_offset, PAGE_SIZE] at hin ⊢
      omega
    have hoff : page_offset (va + k) = page_offset va + k := by
      simp only [page_offset, PAGE_SIZE] at hin ⊢
      omega
    rw [byte_of_page (h.tracked.tracks as hmem) hx hfloor, hoff, ← Nat.add_assoc,
      hp.same _ (frame_mem hx) _ (by omega) (by omega)]
  constructor
  · rintro ⟨-, hword⟩ k hk
    have htracker : x.ppn ∈ space_trackers s₁.spaces := by
      refine mem_space_trackers.mpr ⟨as, ?_, List.mem_append_right _ (frame_mem hx)⟩
      rw [hp.spaces]
      exact List.mem_append_left _ hmem
    rw [hbyte k hk, hword k hk _ htracker (by omega) (by omega)]
  · refine fun hall => ⟨fun k hk _ => hall k (by omega), fun k hk q _ _ _ => ?_⟩
    exact Option.some.inj ((hbyte k hk).symm.trans (hall k hk))

theorem address_of_page (h : Consistent cfg s) (has : some as ∈ s.spaces)
    {x : Page} (hx : x ∈ as.pages) :
    checked_add (x.ppn * PAGE_SIZE + page_offset va) KERNEL_MAP_OFFSET =
      some (frame_va x.ppn + page_offset va) := by
  have htracker : x.ppn ∈ s.trackers :=
    List.mem_append_right _
      (mem_space_trackers.mpr ⟨as, has, List.mem_append_right _ (frame_mem hx)⟩)
  exact kernel_address (h.tracked.half.ram _ (h.tracked.half.alloc.range _ htracker)).2
    (offset_lt va)

end Store

/-- `CLONE_CHILD_SETTID` changes the number of the child and nothing else exactly when the number is
there already: for a word inside of a page, when the parent has it there. -/
theorem only_tid_iff_already_there (cfg : Config) (sym : Layout) (mem : Mem)
    (kernel : PageTableImpl) (φ : Phys) (es : List Event) (s : Os) (os : List Unit)
    (i tid va : Nat) (flags : CloneFlags) (as : AddressSpace) (x : Page)
    (s₁ : Os) (hboot : boot cfg sym ⟨mem, PhyPageAllocator.new⟩ = .ok (kernel, φ))
    (hfits : Meets (Os.step cfg) (fun s e => e.fits s = true) (Os.start kernel φ) es)
    (hrun : run (Os.step cfg) (Os.start kernel φ) es = .ok (s, os))
    (has : s.spaces[i]? = some (some as)) (hx : x ∈ as.pages) (hv : x.vpn = floor va)
    (hset : flags.CLONE_CHILD_SETTID = true) (hthread : flags.CLONE_THREAD = false)
    (hplain : fork cfg i tid ⟨0⟩ va s = .ok ((), s₁)) :
    ∃ s₂, fork cfg i tid flags va s = .ok ((), s₂) ∧
      (OnlyTid cfg s s₁ s₂ i tid va as ↔
        AlreadyThere cfg s s₁ tid va (frame_va x.ppn + page_offset va) as) ∧
      (page_offset va + 8 ≤ 4096 →
        (AlreadyThere cfg s s₁ tid va (frame_va x.ppn + page_offset va) as ↔
        ∀ k, k < 8 → byte cfg s.phys.mem as (va + k) = some (tid_byte tid k))) := by
  have h : Consistent cfg s := run_consistent hboot hfits hrun
  obtain ⟨c, hp⟩ := plain_spec h has hplain
  have hchild : s₁.spaces[s.spaces.length]? = some (some c) := by
    rw [hp.spaces]
    simp
  obtain ⟨e, he, hppn⟩ := hp.child_tracks.mapped x (hp.pages ▸ hx)
  have hpa : c.page_table.translate_va cfg s₁.phys.mem va =
    some (x.ppn * PAGE_SIZE + page_offset va) := by
    rw [PageTableImpl.translate_va_eq, ← hv, he, Option.map_some, hppn]
  have ha : checked_add (x.ppn * PAGE_SIZE + page_offset va) KERNEL_MAP_OFFSET = _ :=
    address_of_page h (List.mem_of_getElem? has) hx
  exact ⟨_, fork_of_plain hplain hset hthread hchild hpa ha, only_tid_iff h has hp,
    already_there_iff_of_inside h has hp hx hv⟩

theorem only_tid_of_five : ∃ kernel φ s os as s₁ s₂,
    boot qemu smallLayout ⟨fun _ => 0, PhyPageAllocator.new⟩ = .ok (kernel, φ) ∧
    run (Os.step qemu) (Os.start kernel φ)
    [.from_elf (onePage 0x10002000), .poke 0 0x10002000 5] = .ok (s, os) ∧
    fork qemu 0 5 ⟨0⟩ 0x10002000 s = .ok ((), s₁) ∧
    fork qemu 0 5 ⟨2 ^ 24⟩ 0x10002000 s = .ok ((), s₂) ∧
    OnlyTid qemu s s₁ s₂ 0 5 0x10002000 as := by
  obtain ⟨kernel, φ, s, os, hboot, hfits, hrun, hseen⟩ :=
    small_run_meets [.from_elf (onePage 0x10002000), .poke 0 0x10002000 5]
      (fun s e => e.fits s = true)
      (fun s => ((s.spaces[0]?).join.any fun as => as.pages.any (·.vpn == floor 0x10002000) &&
        (fork qemu 0 5 ⟨0⟩ 0x10002000 s).toOption.isSome &&
        (List.range 8).all fun k => byte qemu s.phys.mem as (0x10002000 + k) == some
          (tid_byte 5 k)) = true) (by decide +kernel)
  obtain ⟨as, has, hseen⟩ := (Option.any_eq_true _ _).mp hseen
  simp only [Bool.and_eq_true, List.any_eq_true, List.all_eq_true, List.mem_range,
    beq_iff_eq] at hseen
  obtain ⟨⟨⟨x, hx, hv⟩, hplain⟩, hbytes⟩ := hseen
  obtain ⟨⟨_, s₁⟩, hplain⟩ := ok_of_isSome hplain
  obtain ⟨s₂, hfork, honly, hinside⟩ :=
    only_tid_iff_already_there qemu smallLayout _ kernel φ _ s os 0 5 0x10002000 ⟨2 ^ 24⟩ as x
    s₁ hboot hfits hrun (Option.join_eq_some_iff.mp has) hx hv (by decide) (by decide) hplain
  exact ⟨kernel, φ, s, os, as, s₁, s₂, hboot, hrun, hplain, hfork,
    honly.mpr ((hinside (by decide)).mpr hbytes)⟩

/-- The parent's byte becomes the number of the child. -/
theorem child_tid_in_parent : ∃ kernel φ s os as s₂,
    boot qemu smallLayout ⟨fun _ => 0, PhyPageAllocator.new⟩ = .ok (kernel, φ) ∧
    run (Os.step qemu) (Os.start kernel φ) [.from_elf (onePage 0x10002000)] = .ok (s, os) ∧
    s.spaces[0]? = some (some as) ∧ Maps as 0x10002000 ∧
    fork qemu 0 1 ⟨2 ^ 24⟩ 0x10002000 s = .ok ((), s₂) ∧
    byte qemu s.phys.mem as 0x10002000 = some 0 ∧ byte qemu s₂.phys.mem as 0x10002000 = some 1 := by
  obtain ⟨kernel, φ, s, os, hboot, hrun, hseen⟩ := small_run_ends [.from_elf (onePage 0x10002000)]
    (fun s => ((s.spaces[0]?).join.any fun as => as.pages.any (·.vpn == floor 0x10002000) &&
      byte qemu s.phys.mem as 0x10002000 == some 0 &&
      (fork qemu 0 1 ⟨2 ^ 24⟩ 0x10002000 s).toOption.any fun r =>
        byte qemu r.2.phys.mem as 0x10002000 == some 1) = true)
    (by decide +kernel)
  obtain ⟨as, has, hseen⟩ := (Option.any_eq_true _ _).mp hseen
  simp only [Bool.and_eq_true, List.any_eq_true, beq_iff_eq] at hseen
  obtain ⟨⟨hmaps, hzero⟩, hfork⟩ := hseen
  obtain ⟨⟨_, s₂⟩, hfork, hone⟩ := (Option.any_eq_true _ _).mp hfork
  exact ⟨kernel, φ, s, os, as, s₂, hboot, hrun, Option.join_eq_some_iff.mp has,
    hmaps, toOption_eq_some.mp hfork, hzero,
    beq_iff_eq.mp hone⟩

end HectoOs.ChildTid
