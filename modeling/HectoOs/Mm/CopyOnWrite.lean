import HectoOs.Mm.Isolation
import Mathlib.Data.List.Forall2

/-! # Copy-on-write

`fork` shares the frames of the parent, and the first store to a page copies its frame. Nobody can
tell that from a `fork` that copies every page: the two run side by side here.
-/

open HectoOs.Lib

namespace HectoOs.Mm

open PageTableImpl

/-- What processes do: they fork, load and store bytes, and exit. -/
inductive Access where
  | fork (i : Nat)
  | load (i va : Nat)
  | store (i va : Nat) (b : Byte)
  | drop (i : Nat)

/-- What a process sees of that. -/
inductive Seen where
  | nothing
  | byte (b : Byte)
  | stored
  | rejected
  deriving DecidableEq

/-- An area without its frames: its addresses, its permissions, and its pages. -/
structure Extent where
  range : VARange
  perm : PTEImpl
  pages : List Nat

/-- An address inside of the area, on a page of it. -/
def Extent.has (x : Extent) (va : Nat) : Bool :=
  x.range.start ≤ va && va < x.range.stop && x.pages.contains (floor va)

/-- Whether an address can be stored to; `none` outside of the areas. -/
def writable (l : List Extent) (va : Nat) : Option Bool :=
  (l.find? (·.has va)).map fun x => AddressSpace.is_cow x.perm

/-! ## Eager copies -/

/-- An address space with bytes of its own. -/
structure Image where
  extents : List Extent
  bytes : Nat → Byte

namespace Image

def load (im : Image) (va : Nat) : Seen :=
  match writable im.extents va with
  | none => .nothing
  | some _ => .byte (im.bytes va)

def store (im : Image) (va : Nat) (b : Byte) : Image × Seen :=
  match writable im.extents va with
  | none => (im, .nothing)
  | some false => (im, .rejected)
  | some true => ({ im with bytes := storeByte im.bytes va b }, .stored)

def step (t : List (Option Image)) : Access → List (Option Image) × Seen
  | .fork i => ((t[i]?).join.elim t fun im => t ++ [some im], .nothing)
  | .load i va => (t, (t[i]?).join.elim .nothing fun im => im.load va)
  | .store i va b =>
    (t[i]?).join.elim (t, .nothing) fun im => (t.set i (some (im.store va b).1), (im.store va b).2)
  | .drop i => ((t[i]?).join.elim t fun _ => t.set i none, .nothing)

end Image

/-! ## Page tables -/

namespace AddressSpace

def extents (as : AddressSpace) : List Extent :=
  as.areas.map fun a => ⟨a.1, a.2.map_perm, a.2.data_frames.map (·.1)⟩

variable (cfg : Config)

/-- A load of the user, at an address inside of an area. -/
def load (m : Mem) (as : AddressSpace) (va : Nat) : Seen :=
  match writable as.extents va, lookup cfg m as.page_table (floor va) with
  | some _, some e => .byte (m (frame_va (e.ppn cfg) + page_offset va))
  | _, _ => .nothing

/-- The page is copy-on-write and not writable: a store faults. -/
def faults (m : Mem) (as : AddressSpace) (va : Nat) : Bool :=
  (lookup cfg m as.page_table (floor va)).any fun e => !e.contains .WRITABLE && e.contains .COW

/-- A store of the user, without the page fault. -/
def try_store (as : AddressSpace) (va : Nat) (b : Byte) : Kernel Seen := do
  let φ ← get
  match lookup cfg φ.mem as.page_table (floor va) with
  | none => return .nothing
  | some e =>
    if e.contains .WRITABLE then
      set (φ.set_mem (storeByte φ.mem (frame_va (e.ppn cfg) + page_offset va) b))
      return .stored
    else
      return .rejected

/-- A store of the user: after a page fault it is tried again. -/
def store (as : AddressSpace) (va : Nat) (b : Byte) : Kernel (AddressSpace × Seen) := do
  match writable as.extents va with
  | none => return (as, .nothing)
  | some _ =>
    let φ ← get
    let as ← if as.faults cfg φ.mem va then as.handle_pagefault cfg va else pure as
    let seen ← as.try_store cfg va b
    return (as, seen)

/-- The bytes that a process can load. -/
def image (m : Mem) (as : AddressSpace) : Image where
  extents := as.extents
  bytes va := (lookup cfg m as.page_table (floor va)).elim 0 fun e =>
    m (frame_va (e.ppn cfg) + page_offset va)

end AddressSpace

variable (cfg : Config) in
def Os.access (s : Os) : Access → Except Panic (Os × Seen)
  | .fork i => (s.spaces[i]?).join.elim (.ok (s, .nothing)) fun as =>
    (as.fork cfg s.kernel.page_table.root s.phys).map fun (c, φ) =>
      (⟨φ, s.kernel, s.spaces ++ [some c]⟩, .nothing)
  | .load i va => .ok (s, (s.spaces[i]?).join.elim .nothing fun as => as.load cfg s.phys.mem va)
  | .store i va b => (s.spaces[i]?).join.elim (.ok (s, .nothing)) fun as =>
    (as.store cfg va b s.phys).map fun ((as, seen), φ) =>
      (⟨φ, s.kernel, s.spaces.set i (some as)⟩, seen)
  | .drop i => (s.spaces[i]?).join.elim (.ok (s, .nothing)) fun as =>
    (as.drop s.phys).map fun (_, φ) => (⟨φ, s.kernel, s.spaces.set i none⟩, .nothing)

/-! ## Searching the areas -/

/-- The areas are in order with addresses between them, and their pages are in order. -/
structure Apart (l : List Extent) : Prop where
  ordered : ∀ x ∈ l, x.range.start ≤ x.range.stop
  separate : l.Pairwise fun x y => x.range.stop < y.range.start
  pages : ∀ x ∈ l, x.pages.Pairwise (· < ·)

instance (l : List Extent) : Decidable (Apart l) :=
  decidable_of_iff ((∀ x ∈ l, x.range.start ≤ x.range.stop) ∧
    l.Pairwise (fun x y => x.range.stop < y.range.start) ∧
      ∀ x ∈ l, x.pages.Pairwise (· < ·))
    ⟨fun ⟨h₁, h₂, h₃⟩ => ⟨h₁, h₂, h₃⟩, fun h => ⟨h.ordered, h.separate, h.pages⟩⟩

section Search

variable {as : AddressSpace} {va : Nat} {w : Bool}

theorem Apart.sorted (h : Apart as.extents) : Sorted as.areas := by
  have hs := List.pairwise_map.mp h.separate
  refine hs.imp_of_mem fun {a b} ha hb hab => ?_
  have h₁ := h.ordered _ (List.mem_map_of_mem ha)
  have h₂ := h.ordered _ (List.mem_map_of_mem hb)
  dsimp only at hab h₁ h₂
  exact ⟨by omega, by omega⟩

theorem writable_eq (h : writable as.extents va = some w) :
    ∃ a ∈ as.areas, a.1.start ≤ va ∧ va < a.1.stop ∧
    (∃ p, (floor va, p) ∈ a.2.data_frames) ∧ w = AddressSpace.is_cow a.2.map_perm := by
  rw [writable, Option.map_eq_some_iff] at h
  obtain ⟨x, hx, rfl⟩ := h
  obtain ⟨a, ha, rfl⟩ := List.mem_map.mp (List.mem_of_find?_eq_some hx)
  have hhas := List.find?_some hx
  simp only [Extent.has, Bool.and_eq_true, decide_eq_true_eq, List.contains_iff_mem,
    List.mem_map] at hhas
  obtain ⟨⟨h₁, h₂⟩, y, hy, hyv⟩ := hhas
  exact ⟨a, ha, h₁, h₂, ⟨y.2, by rw [← hyv]; exact hy⟩, rfl⟩

theorem find_area {a : VARange × MapArea} (h : Apart as.extents)
    (ha : a ∈ as.areas) (h₁ : a.1.start ≤ va) (h₂ : va < a.1.stop) :
    SearchTree.find VARange.cmp ⟨va, va⟩ as.tree = some a := by
  obtain ⟨l₁, l₂, hl⟩ := List.append_of_mem ha
  have hs := List.pairwise_map.mp h.separate
  rw [hl] at hs
  refine SearchTree.find_of_divides (as.inorder_tree.trans hl) (fun b hb => ?_) ?_ fun b hb => ?_
  · have hbefore := (List.pairwise_append.mp hs).2.2 b hb a List.mem_cons_self
    have hord := h.ordered _ (List.mem_map_of_mem (show b ∈ as.areas by rw [hl]; simp [hb]))
    dsimp only at hbefore hord
    exact VARange.cmp_of_before ⟨show b.1.start < va by omega, show b.1.stop < va by omega⟩
  · refine cmp_eq_iff.mpr ?_
    simp only [VARange.eq_iff]
    omega
  · have hafter : a.1.stop < b.1.start :=
      (List.pairwise_cons.mp (List.pairwise_append.mp hs).2.1).1 b hb
    have hord : b.1.start ≤ b.1.stop :=
      h.ordered _ (List.mem_map_of_mem (show b ∈ as.areas by rw [hl]; simp [hb]))
    exact VARange.cmp_of_after ⟨show va < b.1.start by omega, show va < b.1.stop by omega⟩

theorem find_frame {l : List (Nat × Nat)} {x : Nat × Nat} (h : (l.map (·.1)).Pairwise (· < ·))
    (hx : x ∈ l) :
    SearchTree.find compare x.1 (SearchTree.spine l) = some x := by
  obtain ⟨l₁, l₂, rfl⟩ := List.append_of_mem hx
  have hs := List.pairwise_append.mp (List.pairwise_map.mp h)
  refine SearchTree.find_of_divides (SearchTree.inorder_spine _) (fun y hy => ?_)
    (Nat.compare_eq_eq.mpr rfl) fun y hy => ?_
  · exact Nat.compare_eq_gt.mpr (hs.2.2 y hy x List.mem_cons_self)
  · exact Nat.compare_eq_lt.mpr ((List.pairwise_cons.mp hs.2.1).1 y hy)

end Search

/-! ## The invariant -/

variable {cfg : Config} {s s' : Os} {φ φ' : Phys} {kernel as as' c : AddressSpace}
  {o o' : Option AddressSpace}
  {l l₁ l₂ : List (Option AddressSpace)} {m m' : Mem} {im : Image} {t t₁ t₂ : List (Option Image)}

/-- A page of an area that can be stored to is writable or copy-on-write; the other pages are
neither. -/
def Flagged (cfg : Config) (m : Mem) (as : AddressSpace) : Prop :=
  ∀ x ∈ as.pages, ∀ e, lookup cfg m as.page_table x.vpn = some e →
    AddressSpace.is_cow x.perm = (e.getLsbD 2 || e.getLsbD 8)

structure Sharing (cfg : Config) (s : Os) : Prop where
  tracked : Tracked cfg s
  unshared : Unshared cfg s
  apart : ∀ as, some as ∈ s.spaces → Apart as.extents
  flags : ∀ as, some as ∈ s.spaces → Flagged cfg s.phys.mem as

/-- The bytes of the frames are those of the image. -/
structure Shows (m : Mem) (as : AddressSpace) (im : Image) : Prop where
  extents : im.extents = as.extents
  bytes : ∀ x ∈ as.pages, ∀ i, i < 4096 → im.bytes (vpn_va x.vpn + i) = m (frame_va x.ppn + i)

structure Refines (cfg : Config) (s : Os) (t : List (Option Image)) : Prop where
  sharing : Sharing cfg s
  shows : List.Forall₂ (Option.Rel (Shows s.phys.mem)) s.spaces t

theorem Flagged.congr (h : Flagged cfg m as) (hlow : ∀ x ∈ as.pages, x.vpn < 2 ^ 26)
    (hs : SameMap cfg userHalf m as.page_table m' as.page_table) : Flagged cfg m' as := by
  intro x hx e he
  rw [hs _ (own_of_lt (hlow x hx))] at he
  exact h x hx e he

theorem Shows.congr (h : Shows m as im) (hs : ∀ q ∈ as.frames, SameFrame m m' q) :
    Shows m' as im := by
  refine ⟨h.extents, fun x hx i hi => ?_⟩
  rw [h.bytes x hx i hi, hs _ (frame_mem hx) _ (by omega) (by omega)]

theorem shows_congr (hs : ∀ a, some a ∈ l → ∀ q ∈ a.frames, SameFrame m m' q)
    (h : List.Forall₂ (Option.Rel (Shows m)) l t) : List.Forall₂ (Option.Rel (Shows m')) l t := by
  have hmem := (List.forall₂_and_left l t).mpr ⟨fun o (ho : o ∈ l) => ho, h⟩
  refine hmem.imp fun o o' ho => ?_
  cases ho.2 with
  | none => exact .none
  | some hshows => exact .some (hshows.congr (hs _ ho.1))

theorem shows_split (h : List.Forall₂ (Option.Rel (Shows m)) (l₁ ++ some as :: l₂) t) : ∃ t₁ im t₂,
    t = t₁ ++ some im :: t₂ ∧ t₁.length = l₁.length ∧ List.Forall₂ (Option.Rel (Shows m)) l₁ t₁ ∧
    Shows m as im ∧ List.Forall₂ (Option.Rel (Shows m)) l₂ t₂ := by
  induction l₁ generalizing t with
  | nil =>
    obtain ⟨o, t₂, ho, h₂, rfl⟩ := List.forall₂_cons_left_iff.mp h
    cases ho with
    | some hshows => exact ⟨[], _, t₂, rfl, rfl, .nil, hshows, h₂⟩
  | cons a l₁ ih =>
    obtain ⟨o, t', ho, h', rfl⟩ := List.forall₂_cons_left_iff.mp h
    obtain ⟨t₁, im, t₂, rfl, hlen, h₁, hshows, h₂⟩ := ih h'
    exact ⟨o :: t₁, im, t₂, rfl, by simp [hlen], .cons ho h₁, hshows, h₂⟩

theorem shows_join (h : List.Forall₂ (Option.Rel (Shows m)) l t) {i : Nat}
    (hi : (l[i]?).join = none) :
    (t[i]?).join = none := by
  induction h generalizing i with
  | nil => simp
  | cons ho _ ih =>
    cases i with
    | zero =>
      cases ho with
      | none => rfl
      | some _ => simp at hi
    | succ i =>
      simp only [List.getElem?_cons_succ] at hi ⊢
      exact ih hi

theorem Sharing.of_other (h : Sharing cfg ⟨φ, kernel, l₁ ++ o :: l₂⟩)
    (hs : ∀ q ∈ others kernel l₁ l₂, SameFrame φ.mem φ'.mem q) (has : some as ∈ l₁ ∨ some as ∈ l₂) :
    Apart as.extents ∧ Flagged cfg φ'.mem as := by
  have hmem : some as ∈ l₁ ++ o :: l₂ := mem_spaces_of_other has
  exact ⟨h.apart as hmem, (h.flags as hmem).congr (h.tracked.tracks as hmem).low
    (h.tracked.half.other_lookup hs has)⟩

theorem Sharing.replace (h : Sharing cfg ⟨φ, kernel, l₁ ++ o :: l₂⟩)
    (ht : Tracked cfg ⟨φ', kernel, l₁ ++ o' :: l₂⟩) (hu : Unshared cfg ⟨φ', kernel, l₁ ++ o' :: l₂⟩)
    (hs : ∀ q ∈ others kernel l₁ l₂, SameFrame φ.mem φ'.mem q)
    (hnew : ∀ as', o' = some as' → Apart as'.extents ∧ Flagged cfg φ'.mem as') :
    Sharing cfg ⟨φ', kernel, l₁ ++ o' :: l₂⟩ := by
  have hall : ∀ a, some a ∈ l₁ ++ o' :: l₂ → Apart a.extents ∧ Flagged cfg φ'.mem a := by
    intro a ha
    simp only [List.mem_append, List.mem_cons] at ha
    rcases ha with ha | ha | ha
    · exact h.of_other hs (.inl ha)
    · exact hnew a ha.symm
    · exact h.of_other hs (.inr ha)
  exact ⟨ht, hu, fun a ha => (hall a ha).1, fun a ha => (hall a ha).2⟩

/-! ## Fork -/

theorem fork_entry_cow (x : Page) : (fork_entry x).getLsbD 8 = AddressSpace.is_cow x.perm := by
  rw [fork_entry, PTEImpl.getLsbD_new _ _ (by omega), BitVec.getLsbD_or,
    AddressSpace.fork_flags, PTEImpl.VALID,
    PTEImpl.getLsbD_flag (by omega)]
  split
  · rename_i hcow
    rw [PTEImpl.COW, PTEImpl.WRITABLE, PTEImpl.getLsbD_insert _ (by omega),
      PTEImpl.getLsbD_remove _ (by omega) (by omega),
      hcow]
    simp
  · rename_i hcow
    rw [Bool.eq_false_iff.mpr hcow]
    simp only [AddressSpace.is_cow, PTEImpl.COW, PTEImpl.contains_flag _ (show 8 < 64 by omega),
      Bool.or_eq_true,
      not_or, Bool.not_eq_true] at hcow
    rw [hcow.2]
    rfl

theorem Flagged.fork_fits (h : Flagged cfg m as) : as.fork_fits cfg m = true := by
  simp only [AddressSpace.fork_fits, List.all_eq_true, Bool.or_eq_true]
  intro a ha
  by_cases hcow : AddressSpace.is_cow a.2.map_perm = true
  · exact .inl hcow
  · refine .inr fun y hy => ?_
    cases he : lookup cfg m as.page_table y.1 with
    | none => rfl
    | some e =>
      have hx : Page.of a.2.map_perm y ∈ as.pages :=
        List.mem_flatMap.mpr ⟨a, ha, List.mem_map_of_mem hy⟩
      have hflags := h _ hx e he
      have hfalse : (e.getLsbD 2 || e.getLsbD 8) = false := by
        rw [← hflags]
        exact Bool.eq_false_iff.mpr hcow
      rw [Option.all_some, (Bool.or_eq_false_iff.mp hfalse).1]
      rfl

section Fork

variable {rest : List Nat} {k : Nat} (hf : Forked cfg rest k as φ φ' c)
include hf

theorem forked_extents :
    c.extents = as.extents := by rw [AddressSpace.extents, hf.areas, AddressSpace.extents]

theorem forked_pages :
    c.pages = as.pages := by rw [AddressSpace.pages, hf.areas, AddressSpace.pages]

theorem forked_child_flags : Flagged cfg φ'.mem c := by
  intro x hx e he
  rw [forked_pages hf] at hx
  rw [hf.state.child_entry x hx] at he
  obtain rfl := Option.some.inj he
  rw [fork_entry_read_only, fork_entry_cow, Bool.false_or]

theorem forked_parent_flags (h : Flagged cfg φ.mem as) : Flagged cfg φ'.mem as := by
  intro x hx e he
  rcases hf.state.parent_entry x.vpn (hf.state.tracks.low x hx) with ⟨y, hy, hyx, hl⟩ | ⟨_, hl⟩
  · have hxy : y = x := hf.state.tracks.unique (List.mem_filter.mp hy).1 hx hyx
    subst hxy
    rw [hl] at he
    obtain rfl := Option.some.inj he
    rw [fork_entry_read_only, fork_entry_cow, Bool.false_or]
  · rw [hl] at he
    exact h x hx e he

end Fork

theorem fork_refines (h : Refines cfg ⟨φ, kernel, l₁ ++ some as :: l₂⟩ t)
    (him : Shows φ.mem as im) :
    wp anyPanic (AddressSpace.fork cfg kernel.page_table.root as) (fun c φ' =>
      Refines cfg ⟨φ', kernel, (l₁ ++ some as :: l₂) ++ [some c]⟩ (t ++ [some im])) φ := by
  have hshare := h.sharing
  have has : some as ∈ l₁ ++ some as :: l₂ := by simp
  refine wp_mono (fork_evolves hshare.tracked (hshare.apart as has).sorted) ?_
  rintro c φ' ⟨htracked, hf, hunshared, _⟩
  have happ : (l₁ ++ some as :: l₂) ++ [some c] = l₁ ++ some as :: (l₂ ++ [some c]) := by simp
  have hs : ∀ q ∈ others kernel l₁ l₂, SameFrame φ.mem φ'.mem q :=
    fun q hq => hf.state.same q (List.mem_append_right _ hq)
  have hparent : ∀ q ∈ as.frames, SameFrame φ.mem φ'.mem q :=
    fun q hq => hf.state.same q (List.mem_append_left _ hq)
  have hall : ∀ a, some a ∈ (l₁ ++ some as :: l₂) ++ [some c] → Apart a.extents ∧
    Flagged cfg φ'.mem a := by
    intro a ha
    rcases List.mem_append.mp ha with ha | ha
    · rcases mem_replaced ha with rfl | hother
      · exact ⟨hshare.apart a has, forked_parent_flags hf (hshare.flags a has)⟩
      · exact hshare.of_other hs hother
    · obtain rfl := Option.some.inj (List.mem_singleton.mp ha)
      refine ⟨?_, forked_child_flags hf⟩
      rw [forked_extents hf]
      exact hshare.apart as has
  refine ⟨⟨?_, ?_, fun a ha => (hall a ha).1, fun a ha => (hall a ha).2⟩, ?_⟩
  · rw [happ]
    exact htracked
  · rw [happ]
    exact hunshared (hshare.flags as has).fork_fits hshare.unshared
  · refine List.rel_append (shows_congr (fun a ha q hq => ?_) h.shows) (.cons (.some ?_) .nil)
    · rcases mem_replaced ha with rfl | hother
      · exact hparent q hq
      · exact hs q (mem_others hother (List.mem_append_right _ hq))
    · refine ⟨by rw [forked_extents hf, him.extents], fun x hx i hi => ?_⟩
      rw [forked_pages hf] at hx
      exact (him.congr hparent).bytes x hx i hi

theorem drop_refines {may : Panic → Prop} (h : Sharing cfg ⟨φ, kernel, l₁ ++ some as :: l₂⟩)
    (h₁ : List.Forall₂ (Option.Rel (Shows φ.mem)) l₁ t₁)
    (h₂ : List.Forall₂ (Option.Rel (Shows φ.mem)) l₂ t₂) :
    wp may as.drop
      (fun _ φ' => Refines cfg ⟨φ', kernel, l₁ ++ none :: l₂⟩ (t₁ ++ none :: t₂)) φ := by
  have hperm : (Os.mk φ kernel (l₁ ++ some as :: l₂)).trackers.Perm
    (as.trackers ++ others kernel l₁ l₂) :=
    trackers_perm φ (some as)
  refine wp_mono (wp_and (drop_evolves h.tracked) (drop_frames_spec h.tracked.half.alloc hperm)) ?_
  rintro _ φ' ⟨he, _, hs, _⟩
  refine ⟨h.replace he.tracked (he.unshared h.unshared) hs (by simp),
    List.rel_append ?_ (.cons .none ?_)⟩
  · exact shows_congr (fun a ha q hq => hs q (mem_others (.inl ha) (List.mem_append_right _ hq))) h₁
  · exact shows_congr (fun a ha q hq => hs q (mem_others (.inr ha) (List.mem_append_right _ hq))) h₂

/-! ## Page faults -/

section Fault

variable {va frame p : Nat} {e : PTEImpl} {area : MapArea}

theorem set_frame_extents (hf : Faults cfg m as va e area frame) :
    (AddressSpace.set_frame as va (floor va) area p).extents = as.extents := by
  obtain ⟨k, hfound⟩ := hf.found
  obtain ⟨v, htracker⟩ := hf.tracker
  obtain ⟨a₁, a₂, ha, _, hua⟩ := AddressSpace.find_spec hfound
  obtain ⟨d₁, d₂, hd, hv, hud⟩ := SearchTree.find_spec htracker
  rw [SearchTree.inorder_spine] at hd
  rw [AddressSpace.extents, AddressSpace.set_frame]
  dsimp only
  rw [hua, hud]
  simp [AddressSpace.extents, ha, hd]

theorem Faults.low (hf : Faults cfg m as va e area frame)
    (htr : Tracks cfg m as.page_table as.pages) :
    floor va < 2 ^ 26 := by
  obtain ⟨k, hfound⟩ := hf.found
  obtain ⟨v, htracker⟩ := hf.tracker
  obtain ⟨d₁, d₂, hpages, _⟩ := AddressSpace.pages_of_find hfound htracker
  have hx : (⟨floor va, frame, area.map_perm⟩ : Page) ∈ as.pages := by simp [hpages]
  exact htr.low _ hx

theorem fault_writable (e : PTEImpl) : (fault_flags e).getLsbD 2 = true := by
  rw [getLsbD_fault e (by omega)]
  simp

theorem Flagged.fault (h : Flagged cfg m as) (hf : Faults cfg m as va e area frame) {x : Page}
    (hx : x ∈ as.pages) (hxv : x.vpn = floor va) : AddressSpace.is_cow x.perm = true := by
  have hcow := hf.cow
  rw [PTEImpl.COW, PTEImpl.contains_flag _ (by omega)] at hcow
  rw [h x hx e (by rw [hxv]; exact hf.entry), hcow, Bool.or_true]

theorem faults_of_writable (he : lookup cfg m as.page_table (floor va) = some e)
    (hw : e.getLsbD 2 = true) :
    AddressSpace.faults cfg m as va = false := by
  rw [AddressSpace.faults, he, Option.any_some, PTEImpl.WRITABLE,
    PTEImpl.contains_flag _ (by omega), hw]
  rfl

/-- After a page fault: the page does not fault again, and the bytes are the same. -/
structure Resolved (cfg : Config) (kernel : AddressSpace) (l₁ l₂ : List (Option AddressSpace))
    (φ : Phys) (va : Nat) (im : Image) (as' : AddressSpace) (φ' : Phys) : Prop where
  sharing : Sharing cfg ⟨φ', kernel, l₁ ++ some as' :: l₂⟩
  shows : Shows φ'.mem as' im
  same : ∀ q ∈ others kernel l₁ l₂, SameFrame φ.mem φ'.mem q
  done : AddressSpace.faults cfg φ'.mem as' va = false

theorem in_place_refines (h : Sharing cfg ⟨φ, kernel, l₁ ++ some as :: l₂⟩)
    (him : Shows φ.mem as im) (hf : Faults cfg φ.mem as va e area frame)
    (hcount : (as.trackers ++ others kernel l₁ l₂).count frame ≤ 1)
    (hm : Moves cfg userHalf (as.frames ++ others kernel l₁ l₂) φ as.page_table φ' as.page_table)
    (hu : Updates cfg userHalf φ.mem as.page_table φ'.mem as.page_table (floor va)
    (some (fault_flags e))) :
    Resolved cfg kernel l₁ l₂ φ va im as φ' := by
  have has : some as ∈ l₁ ++ some as :: l₂ := by simp
  have htr := h.tracked.tracks as has
  obtain ⟨hc, hw⟩ := handled_in_place htr hf hcount hm hu
  have hev := Evolves.change h.tracked hc hw
  refine ⟨h.replace hev.tracked (hev.unshared h.unshared) hc.exchanges.same ?_,
    ?_, hc.exchanges.same, ?_⟩
  · rintro a ha
    obtain rfl := Option.some.inj ha
    refine ⟨h.apart as has, fun x hx d hd => ?_⟩
    rw [updates_of_lt hu (hf.low htr) (htr.low x hx)] at hd
    by_cases hxv : x.vpn = floor va
    · rw [if_pos hxv] at hd
      obtain rfl := Option.some.inj hd
      rw [(h.flags as has).fault hf hx hxv, fault_writable, Bool.true_or]
    · rw [if_neg hxv] at hd
      exact h.flags as has x hx d hd
  · exact him.congr fun q hq => hm.same q (List.mem_append_left _ hq)
  · refine faults_of_writable ?_ (fault_writable e)
    rw [updates_of_lt hu (hf.low htr) (hf.low htr), if_pos rfl]

theorem mem_erase_of_count {L : List Nat} {q : Nat} (hq : q ∈ L) (hcount : 1 < L.count frame) :
    q ∈ L.erase frame := by
  by_cases hne : q = frame
  · subst hne
    refine List.count_pos_iff.mp ?_
    rw [List.count_erase_self]
    omega
  · exact (List.mem_erase_of_ne hne).mpr hq

theorem copied_refines (h : Sharing cfg ⟨φ, kernel, l₁ ++ some as :: l₂⟩)
    (him : Shows φ.mem as im) (hf : Faults cfg φ.mem as va e area frame)
    (hcount : 1 < (as.trackers ++ others kernel l₁ l₂).count frame) (hc : Copied cfg
    (as.frames ++ others kernel l₁ l₂) φ as.page_table (floor va) frame (fault_flags e) φ' p)
    (has' : as' = AddressSpace.set_frame as va (floor va) area p) :
    Resolved cfg kernel l₁ l₂ φ va im as' φ' := by
  have has : some as ∈ l₁ ++ some as :: l₂ := by simp
  have htr := h.tracked.tracks as has
  have hext : as'.extents = as.extents := by rw [has', set_frame_extents hf]
  have hpt : as'.page_table = as.page_table := by rw [has', AddressSpace.set_frame_page_table]
  obtain ⟨hch, hw, _⟩ := handled_copied htr hf hc has'
  have hev := Evolves.change h.tracked hch hw
  obtain ⟨k, hfound⟩ := hf.found
  obtain ⟨v, htracker⟩ := hf.tracker
  obtain ⟨d₁, d₂, hpages, hset⟩ := AddressSpace.pages_of_find hfound htracker
  obtain ⟨hpages', _⟩ := hset p
  rw [← has'] at hpages'
  have hx : (⟨floor va, frame, area.map_perm⟩ : Page) ∈ as.pages := by simp [hpages]
  -- a page of the new address space is the one that moved, or one from before
  have hcase : ∀ y ∈ as'.pages, y = ⟨floor va, p, area.map_perm⟩ ∨ y ∈ as.pages ∧
    y.vpn ≠ floor va := by
    intro y hy
    have hd := htr.distinct
    rw [hpages] at hd
    simp only [List.map_append, List.map_cons, List.nodup_append, List.nodup_cons,
      List.mem_map, List.mem_cons] at hd
    rw [hpages', List.mem_append, List.mem_cons] at hy
    rw [hpages]
    simp only [List.mem_append, List.mem_cons]
    rcases hy with hy | rfl | hy
    · exact .inr ⟨.inl hy, hd.2.2 _ ⟨y, hy, rfl⟩ _ (.inl rfl)⟩
    · exact .inl rfl
    · exact .inr ⟨.inr (.inr hy), fun he => hd.2.1.1 ⟨y, hy, he⟩⟩
  refine ⟨h.replace hev.tracked (hev.unshared h.unshared) hch.exchanges.same ?_,
    ⟨by rw [hext, him.extents], ?_⟩,
    hch.exchanges.same, ?_⟩
  · rintro a ha
    obtain rfl := Option.some.inj ha
    refine ⟨by rw [hext]; exact h.apart as has, fun y hy d hd => ?_⟩
    rw [hpt, updates_of_lt hc.update (hf.low htr) (hch.tracks.low y hy)] at hd
    rcases hcase y hy with rfl | ⟨hy, hyv⟩
    · rw [if_pos rfl] at hd
      obtain rfl := Option.some.inj hd
      have hcow := (h.flags as has).fault hf hx rfl
      dsimp only at hcow
      rw [PTEImpl.getLsbD_new _ _ (by omega), fault_writable, Bool.true_or, hcow]
    · rw [if_neg hyv] at hd
      exact h.flags as has y hy d hd
  · intro y hy i hi
    rcases hcase y hy with rfl | ⟨hy, _⟩
    · rw [hc.copy i hi]
      exact him.bytes _ hx i hi
    · have hmem : y.ppn ∈ as.frames ++ others kernel l₁ l₂ := List.mem_append_left _ (frame_mem hy)
      have hone : 1 < (as.frames ++ others kernel l₁ l₂).count frame := by
        have hnot : frame ∉ as.page_table.tables :=
          fun ht => h.tracked.half.owns.notMem ht (List.mem_append_left _ (frame_mem hx))
        rw [AddressSpace.trackers, List.append_assoc, List.count_append,
          List.count_eq_zero.mpr hnot] at hcount
        omega
      rw [him.bytes y hy i hi, hc.same _ (mem_erase_of_count hmem hone) _ (by omega) (by omega)]
  · have hnow : lookup cfg φ'.mem as'.page_table (floor va) = some (.new p (fault_flags e)) := by
      rw [hpt, updates_of_lt hc.update (hf.low htr) (hf.low htr), if_pos rfl]
    refine faults_of_writable hnow ?_
    rw [PTEImpl.getLsbD_new _ _ (by omega), fault_writable]

theorem pagefault_refines {may : Panic → Prop} {w : Bool} (hm : may .out_of_frames)
    (h : Sharing cfg ⟨φ, kernel, l₁ ++ some as :: l₂⟩) (him : Shows φ.mem as im)
    (hw : writable as.extents va = some w) (hfault : AddressSpace.faults cfg φ.mem as va = true) :
    wp may (AddressSpace.handle_pagefault cfg as va) (Resolved cfg kernel l₁ l₂ φ va im) φ := by
  have has : some as ∈ l₁ ++ some as :: l₂ := by simp
  -- the handler finds what it looks up, so that it does not panic
  obtain ⟨a, ha, h₁, h₂, ⟨frame, hframe⟩, _⟩ := writable_eq hw
  obtain ⟨e, he, hcow⟩ := (Option.any_eq_true _ _).mp hfault
  have hfound := find_area (h.apart as has) ha h₁ h₂
  have htracker := find_frame ((h.apart as has).pages _ (List.mem_map_of_mem ha)) hframe
  have hfaults : Faults cfg φ.mem as va e a.2 frame :=
    ⟨he, (Bool.and_eq_true_iff.mp hcow).2, ⟨a.1, hfound⟩, ⟨floor va, htracker⟩⟩
  refine wp_mono (handle_pagefault_spec (fun _ => hm) h.tracked.half.owns (h.tracked.tracks as has)
    fun hnone => absurd hfaults (hnone e a.2 frame)) ?_
  rintro as' φ' ⟨e', area, frame', hf, hh⟩
  cases hh with
  | inPlace hcount hmoves hup => exact in_place_refines h him hf hcount hmoves hup
  | copied hcount hc => exact copied_refines h him hf hcount hc rfl

end Fault

/-! ## Stores -/

section Store

variable {va : Nat} {w : Bool} {b : Byte}

theorem page_of_writable (hw : writable as.extents va = some w) : ∃ x ∈ as.pages, x.vpn = floor va ∧
    w = AddressSpace.is_cow x.perm := by
  obtain ⟨a, ha, _, _, ⟨p, hp⟩, hcow⟩ := writable_eq hw
  exact ⟨Page.of a.2.map_perm (floor va, p),
    List.mem_flatMap.mpr ⟨a, ha, List.mem_map_of_mem hp⟩, rfl, hcow⟩

theorem page_eq_of_count {x y : Page} (hx : x ∈ as.pages) (hy : y ∈ as.pages) (hp : y.ppn = x.ppn)
    (hcount : as.frames.count x.ppn ≤ 1) : y = x := by
  by_contra hne
  obtain ⟨d₁, d₂, hd⟩ := List.append_of_mem hx
  rw [AddressSpace.frames_eq, hd, List.map_append, List.map_cons, List.count_append,
    List.count_cons_self] at hcount
  rw [hd, List.mem_append, List.mem_cons] at hy
  rcases hy with hy | hy | hy
  · have hmem : x.ppn ∈ d₁.map Page.ppn := List.mem_map.mpr ⟨y, hy, hp⟩
    have := List.count_pos_iff.mpr hmem
    omega
  · exact hne hy
  · have hmem : x.ppn ∈ d₂.map Page.ppn := List.mem_map.mpr ⟨y, hy, hp⟩
    have := List.count_pos_iff.mpr hmem
    omega

theorem vpn_va_floor (va : Nat) : vpn_va (floor va) + page_offset va = va :=
  Nat.div_add_mod' va PAGE_SIZE

theorem Shows.store {x : Page} (h : Shows m as im) (hx : x ∈ as.pages) (hxv : x.vpn = floor va)
    (hone : as.frames.count x.ppn ≤ 1) (hdistinct : (as.pages.map Page.vpn).Nodup) :
    Shows (storeByte m (frame_va x.ppn + page_offset va) b) as
      { im with bytes := storeByte im.bytes va b } := by
  refine ⟨h.extents, fun y hy i hi => ?_⟩
  have hva := vpn_va_floor va
  have hoff : page_offset va < 4096 := Nat.mod_lt _ (by decide)
  dsimp only [storeByte]
  by_cases hyx : y = x
  · subst hyx
    rw [hxv]
    by_cases hio : i = page_offset va
    · rw [if_pos (by omega), if_pos (by omega)]
    · rw [if_neg (by omega), if_neg (by omega), ← hxv]
      exact h.bytes y hy i hi
  · have hvpn : y.vpn ≠ x.vpn := fun he => hyx (List.inj_on_of_nodup_map hdistinct hy hx he)
    have hppn : y.ppn ≠ x.ppn := fun hp => hyx (page_eq_of_count hx hy hp hone)
    rw [if_neg, if_neg]
    · exact h.bytes y hy i hi
    · rcases frame_va_apart hppn with hlt | hlt <;> omega
    · intro heq
      rw [hxv] at hvpn
      refine hvpn ?_
      rw [← heq, floor, vpn_va, PAGE_SIZE]
      omega

theorem try_store_refines {may : Panic → Prop} (h : Sharing cfg ⟨φ, kernel, l₁ ++ some as :: l₂⟩)
    (h₁ : List.Forall₂ (Option.Rel (Shows φ.mem)) l₁ t₁)
    (h₂ : List.Forall₂ (Option.Rel (Shows φ.mem)) l₂ t₂) (him : Shows φ.mem as im)
    (hw : writable as.extents va = some w) (hdone : AddressSpace.faults cfg φ.mem as va = false) :
    wp may (AddressSpace.try_store cfg as va b) (fun seen φ' => seen = (im.store va b).2 ∧
      Refines cfg ⟨φ', kernel, l₁ ++ some as :: l₂⟩ (t₁ ++ some (im.store va b).1 :: t₂)) φ := by
  have has : some as ∈ l₁ ++ some as :: l₂ := by simp
  have htr := h.tracked.tracks as has
  obtain ⟨x, hx, hxv, hcow⟩ := page_of_writable hw
  obtain ⟨e, he, hppn⟩ := htr.mapped x hx
  have hflags := h.flags as has x hx e he
  rw [← hcow] at hflags
  have hlow := htr.low x hx
  have hdev := htr.apart x hx
  rw [hxv] at he hlow hdev
  rw [AddressSpace.faults, he, Option.any_some, PTEImpl.WRITABLE, PTEImpl.COW,
    PTEImpl.contains_flag _ (by omega),
    PTEImpl.contains_flag _ (by omega)] at hdone
  rw [AddressSpace.try_store, wp_bind, wp_get, he]
  dsimp only
  rw [PTEImpl.WRITABLE, PTEImpl.contains_flag _ (by omega), wp_ite]
  refine ⟨fun hwr => ?_, fun hwr => ?_⟩
  · -- the frame has no other tracker
    have hstore : im.store va b = ({ im with bytes := storeByte im.bytes va b }, .stored) := by
      rw [Image.store, him.extents, hw, hflags, hwr]
      rfl
    obtain ⟨ha, hs⟩ := h.tracked.store_apart hlow he fun q hq => storeByte_sameFrame (Ne.symm hq)
    have hev := Evolves.write h.tracked hs ha
    have hcount := h.unshared as has _ e hlow hdev he hwr
    rw [(trackers_perm φ (some as)).count_eq, Option.elim_some, AddressSpace.trackers,
      List.count_append,
      List.count_append, hppn] at hcount
    have hpos := List.count_pos_iff.mpr (frame_mem hx)
    have hrest : x.ppn ∉ others kernel l₁ l₂ := List.count_eq_zero.mp (by omega)
    have hother : ∀ a, some a ∈ l₁ ∨ some a ∈ l₂ → ∀ q ∈ a.frames,
        SameFrame φ.mem (storeByte φ.mem (frame_va (e.ppn cfg) + page_offset va) b) q := by
      intro a ha q hq
      refine storeByte_sameFrame fun heq => hrest ?_
      rw [← hppn, heq]
      exact mem_others ha (List.mem_append_right _ hq)
    rw [wp_bind, wp_set, wp_pure, hstore]
    refine ⟨rfl, ⟨hev.tracked, hev.unshared h.unshared, h.apart, fun a ha => ?_⟩,
      List.rel_append ?_ (.cons (.some ?_) ?_)⟩
    · exact (h.flags a ha).congr (h.tracked.tracks a ha).low (h.tracked.write_lookup hs ha)
    · exact shows_congr (fun a ha => hother a (.inl ha)) h₁
    · have hshows := him.store (b := b) hx hxv (by omega) htr.distinct
      rw [← hppn] at hshows
      exact hshows
    · exact shows_congr (fun a ha => hother a (.inr ha)) h₂
  · have hwr := Bool.eq_false_iff.mpr hwr
    have hstore : im.store va b = (im, .rejected) := by
      rw [hwr, Bool.not_false, Bool.true_and] at hdone
      rw [Image.store, him.extents, hw, hflags, hwr, hdone]
      rfl
    rw [wp_pure, hstore]
    exact ⟨rfl, h, List.rel_append h₁ (.cons (.some him) h₂)⟩

theorem store_refines {may : Panic → Prop} (hm : may .out_of_frames)
    (h : Sharing cfg ⟨φ, kernel, l₁ ++ some as :: l₂⟩)
    (h₁ : List.Forall₂ (Option.Rel (Shows φ.mem)) l₁ t₁)
    (h₂ : List.Forall₂ (Option.Rel (Shows φ.mem)) l₂ t₂) (him : Shows φ.mem as im) :
    wp may (AddressSpace.store cfg as va b) (fun r φ' => r.2 = (im.store va b).2 ∧
      Refines cfg ⟨φ', kernel, l₁ ++ some r.1 :: l₂⟩ (t₁ ++ some (im.store va b).1 :: t₂)) φ := by
  rw [AddressSpace.store]
  cases hw : writable as.extents va with
  | none =>
    have hstore : im.store va b = (im, .nothing) := by
      rw [Image.store, him.extents, hw]
    rw [hstore]
    exact ⟨rfl, h, List.rel_append h₁ (.cons (.some him) h₂)⟩
  | some w =>
    dsimp only
    rw [wp_bind, wp_get]
    by_cases hfault : AddressSpace.faults cfg φ.mem as va = true
    · rw [if_pos hfault]
      refine wp_call (pagefault_refines hm h him hw hfault) fun as' φ' hr => ?_
      have hext : as'.extents = as.extents := by rw [← hr.shows.extents, him.extents]
      have h₁' := shows_congr
        (fun a ha q hq => hr.same q (mem_others (.inl ha) (List.mem_append_right _ hq))) h₁
      have h₂' := shows_congr
        (fun a ha q hq => hr.same q (mem_others (.inr ha) (List.mem_append_right _ hq))) h₂
      rw [← hext] at hw
      exact wp_call (try_store_refines hr.sharing h₁' h₂' hr.shows hw hr.done)
        fun seen φ'' h'' => h''
    · rw [if_neg hfault, wp_bind, wp_pure]
      refine wp_call (try_store_refines h h₁ h₂ him hw (Bool.eq_false_iff.mpr hfault))
        fun seen φ' h' => h'

theorem load_refines (h : Sharing cfg s) (has : some as ∈ s.spaces) (him : Shows s.phys.mem as im) :
    im.load va = as.load cfg s.phys.mem va := by
  rw [Image.load, AddressSpace.load, him.extents]
  cases hw : writable as.extents va with
  | none => rfl
  | some w =>
    have htr := h.tracked.tracks as has
    obtain ⟨x, hx, hxv, _⟩ := page_of_writable hw
    obtain ⟨e, he, hppn⟩ := htr.mapped x hx
    have hbyte := him.bytes x hx (page_offset va) (Nat.mod_lt _ (by decide))
    rw [hxv] at he
    rw [hxv, vpn_va_floor] at hbyte
    rw [he]
    dsimp only
    rw [hppn, hbyte]

end Store

/-! ## Runs -/

section Run

variable {i : Nat} {a : Access} {seen : Seen}

theorem join_eq_some {α : Type} {l : List (Option α)} {x : α} (h : (l[i]?).join = some x) :
    l[i]? = some (some x) := by
  rw [Option.join_eq_some_iff] at h
  exact h

theorem Refines.split (h : Refines cfg s t) (hi : (s.spaces[i]?).join = some as) : ∃ l₁ l₂ t₁ t₂ im,
    s = ⟨s.phys, s.kernel, l₁ ++ some as :: l₂⟩ ∧ t = t₁ ++ some im :: t₂ ∧ (t[i]?).join = some im ∧
    (∀ o, s.spaces.set i o = l₁ ++ o :: l₂) ∧ (∀ o, t.set i o = t₁ ++ o :: t₂) ∧
    List.Forall₂ (Option.Rel (Shows s.phys.mem)) l₁ t₁ ∧
    List.Forall₂ (Option.Rel (Shows s.phys.mem)) l₂ t₂ ∧
    Shows s.phys.mem as im := by
  obtain ⟨l₁, l₂, hl, hlen, hset⟩ := split_at (join_eq_some hi)
  have hshows := h.shows
  rw [hl] at hshows
  obtain ⟨t₁, im, t₂, rfl, htlen, h₁, him, h₂⟩ := shows_split hshows
  have htl : t₁.length = i := by omega
  refine ⟨l₁, l₂, t₁, t₂, im, by rw [← hl], rfl, ?_, hset, fun o => ?_, h₁, h₂, him⟩
  · simp [← htl]
  · simp [← htl]

theorem access_refines (h : Refines cfg s t) (hs : s.access cfg a = .ok (s', seen)) :
    (Image.step t a).2 = seen ∧ Refines cfg s' (Image.step t a).1 := by
  cases a with
  | fork i =>
    simp only [Os.access, Image.step] at hs ⊢
    cases hi : (s.spaces[i]?).join with
    | none =>
      simp only [hi, Option.elim_none, Except.ok.injEq, Prod.mk.injEq] at hs
      obtain ⟨rfl, rfl⟩ := hs
      rw [shows_join h.shows hi]
      exact ⟨rfl, h⟩
    | some as =>
      obtain ⟨l₁, l₂, t₁, t₂, im, hsplit, _, hti, _, _, _, _, him⟩ := h.split hi
      rw [hi] at hs
      rw [hti]
      rw [hsplit] at h hs him
      obtain ⟨c, φ', hr, heq⟩ := wp_map_ok (fork_refines h him) hs
      obtain ⟨rfl, rfl⟩ := Prod.mk.inj heq
      exact ⟨rfl, hr⟩
  | load i va =>
    simp only [Os.access, Image.step, Except.ok.injEq, Prod.mk.injEq] at hs ⊢
    obtain ⟨rfl, rfl⟩ := hs
    refine ⟨?_, h⟩
    cases hi : (s.spaces[i]?).join with
    | none =>
      rw [shows_join h.shows hi]
      rfl
    | some as =>
      obtain ⟨l₁, l₂, t₁, t₂, im, hsplit, _, hti, _, _, _, _, him⟩ := h.split hi
      rw [hti]
      exact load_refines h.sharing (by rw [hsplit]; simp) him
  | store i va b =>
    simp only [Os.access, Image.step] at hs ⊢
    cases hi : (s.spaces[i]?).join with
    | none =>
      simp only [hi, Option.elim_none, Except.ok.injEq, Prod.mk.injEq] at hs
      obtain ⟨rfl, rfl⟩ := hs
      rw [shows_join h.shows hi]
      exact ⟨rfl, h⟩
    | some as =>
      obtain ⟨l₁, l₂, t₁, t₂, im, hsplit, _, hti, hset, htset, h₁, h₂, him⟩ := h.split hi
      have hshare := h.sharing
      rw [hsplit] at hshare
      simp only [hi, Option.elim_some, hset] at hs
      have hstore : wp anyPanic (AddressSpace.store cfg as va b) _ s.phys :=
        store_refines trivial hshare h₁ h₂ him
      obtain ⟨r, φ', ⟨hseen, hr⟩, heq⟩ := wp_map_ok hstore hs
      obtain ⟨rfl, rfl⟩ := Prod.mk.inj heq
      rw [hti, Option.elim_some, htset]
      exact ⟨hseen.symm, hr⟩
  | drop i =>
    simp only [Os.access, Image.step] at hs ⊢
    cases hi : (s.spaces[i]?).join with
    | none =>
      simp only [hi, Option.elim_none, Except.ok.injEq, Prod.mk.injEq] at hs
      obtain ⟨rfl, rfl⟩ := hs
      rw [shows_join h.shows hi]
      exact ⟨rfl, h⟩
    | some as =>
      obtain ⟨l₁, l₂, t₁, t₂, im, hsplit, _, hti, hset, htset, h₁, h₂, him⟩ := h.split hi
      have hshare := h.sharing
      rw [hsplit] at hshare
      simp only [hi, Option.elim_some, hset] at hs
      have hdrop : wp anyPanic as.drop _ s.phys := drop_refines hshare h₁ h₂
      obtain ⟨_, φ', hr, heq⟩ := wp_map_ok hdrop hs
      obtain ⟨rfl, rfl⟩ := Prod.mk.inj heq
      rw [hti, Option.elim_some, htset]
      exact ⟨rfl, hr⟩

/-- The memory has run out. -/
def noFrames (p : Panic) : Prop := p = .out_of_frames

theorem access_panics {p : Panic} (h : Refines cfg s t) (hs : s.access cfg a = .error p) :
    noFrames p := by
  have hm : noFrames .out_of_frames := rfl
  cases a with
  | fork i =>
    simp only [Os.access] at hs
    cases hi : (s.spaces[i]?).join with
    | none => simp [hi] at hs
    | some as =>
      obtain ⟨l₁, l₂, _, _, _, hsplit, _⟩ := h.split hi
      have hshare := h.sharing
      rw [hi] at hs
      rw [hsplit] at hshare hs
      have has : some as ∈ l₁ ++ some as :: l₂ := by simp
      have hkroot : s.kernel.page_table.root ∈ others s.kernel l₁ l₂ :=
        mem_others_kernel (mem_trackers_of_table List.mem_cons_self)
      exact wp_map_error (fork_spec hm hshare.tracked.half.owns (hshare.tracked.tracks as has)
        (hshare.apart as has).sorted hkroot) hs
  | load i va => simp [Os.access] at hs
  | store i va b =>
    simp only [Os.access] at hs
    cases hi : (s.spaces[i]?).join with
    | none => simp [hi] at hs
    | some as =>
      obtain ⟨l₁, l₂, t₁, t₂, im, hsplit, _, _, _, _, h₁, h₂, him⟩ := h.split hi
      have hshare := h.sharing
      rw [hsplit] at hshare
      rw [hi] at hs
      exact wp_map_error (store_refines hm hshare h₁ h₂ him) hs
  | drop i =>
    simp only [Os.access] at hs
    cases hi : (s.spaces[i]?).join with
    | none => simp [hi] at hs
    | some as =>
      obtain ⟨l₁, l₂, t₁, t₂, im, hsplit, _, _, _, _, h₁, h₂, him⟩ := h.split hi
      have hshare := h.sharing
      rw [hsplit] at hshare
      rw [hi] at hs
      have hdrop : wp noFrames as.drop _ s.phys := drop_refines hshare h₁ h₂
      exact wp_map_error hdrop hs

/-- Before any `fork`: every page has the permissions of its area, and the frame of a writable page
has one tracker. -/
structure Plain (cfg : Config) (s : Os) : Prop where
  tracked : Tracked cfg s
  apart : ∀ as, some as ∈ s.spaces → Apart as.extents
  entries : ∀ as, some as ∈ s.spaces → ∀ x ∈ as.pages,
    lookup cfg s.phys.mem as.page_table x.vpn = some (.new x.ppn (x.perm ||| .VALID))
  single : ∀ as, some as ∈ s.spaces → ∀ x ∈ as.pages, x.perm.contains .WRITABLE = true →
    s.phys.ref_count x.ppn = 1

theorem shows_image (htr : Tracks cfg m as.page_table as.pages) : Shows m as (as.image cfg m) := by
  refine ⟨rfl, fun x hx i hi => ?_⟩
  obtain ⟨e, he, hppn⟩ := htr.mapped x hx
  have hfloor : floor (vpn_va x.vpn + i) = x.vpn := by
    simp only [floor, vpn_va, PAGE_SIZE]
    omega
  have hoff : page_offset (vpn_va x.vpn + i) = i := by
    simp only [page_offset, vpn_va, PAGE_SIZE]
    omega
  simp only [AddressSpace.image, hfloor, he, Option.elim_some, hppn, hoff]

theorem Plain.refines (h : Plain cfg s) :
    Refines cfg s (s.spaces.map fun o => o.map (AddressSpace.image cfg s.phys.mem)) := by
  have hbit : ∀ as, some as ∈ s.spaces →
    ∀ x ∈ as.pages, ∀ e, lookup cfg s.phys.mem as.page_table x.vpn = some e →
      ∀ i, 0 < i → i < 9 → e.getLsbD i = x.perm.getLsbD i := by
    intro as has x hx e he i hpos hi
    rw [h.entries as has x hx] at he
    obtain rfl := Option.some.inj he
    have hne : ¬ i = 0 := by omega
    rw [PTEImpl.getLsbD_new _ _ hi, BitVec.getLsbD_or, PTEImpl.VALID,
      PTEImpl.getLsbD_flag (by omega)]
    simp [hne]
  refine ⟨⟨h.tracked, fun as has v e hv hd he hwr => ?_, h.apart, fun as has x hx e he => ?_⟩, ?_⟩
  · obtain ⟨x, hx, rfl⟩ := (h.tracked.tracks as has).tracked v e hv he hd
    have hperm : x.perm.contains .WRITABLE = true := by
      rw [PTEImpl.WRITABLE, PTEImpl.contains_flag _ (by omega),
        ← hbit as has x hx e he 2 (by omega) (by omega)]
      exact hwr
    have hone := h.single as has x hx hperm
    rw [← (h.tracked.tracks as has).ppn_eq hx he] at hone
    have halloc := h.tracked.half.alloc
    have hmem : e.ppn cfg ∈ s.trackers := by
      rw [(h.tracked.tracks as has).ppn_eq hx he]
      exact List.mem_append_right _
        (mem_space_trackers.mpr ⟨as, has, List.mem_append_right _ (frame_mem hx)⟩)
    rw [← halloc.usage _ (halloc.range _ hmem), hone]
  · rw [AddressSpace.is_cow, PTEImpl.WRITABLE, PTEImpl.COW, PTEImpl.contains_flag _ (by omega),
      PTEImpl.contains_flag _ (by omega), hbit as has x hx e he 2 (by omega) (by omega),
      hbit as has x hx e he 8 (by omega) (by omega)]
  · rw [List.forall₂_map_right_iff, List.forall₂_same]
    intro o ho
    cases o with
    | none => exact .none
    | some as => exact .some (shows_image (h.tracked.tracks as ho))

/-- However processes fork, load, store and exit: they see what they would see if `fork` copied
every page at once, until the memory runs out. -/
theorem fork_refines_copy (cfg : Config) (s : Os) (es : List Access) (h : Plain cfg s) :
    (∀ s' os, run (Os.access cfg) s es = .ok (s', os) → ∃ t',
      run (fun t a => (.ok (Image.step t a) : Except Panic _))
        (s.spaces.map fun o => o.map (AddressSpace.image cfg s.phys.mem)) es = .ok (t', os)) ∧
    ∀ p, run (Os.access cfg) s es = .error p → p = .out_of_frames := by
  refine ⟨fun s' os hrun => ?_, fun p hrun => ?_⟩
  · have hstep : ∀ s t a s' seen, Refines cfg s t → Os.access cfg s a = .ok (s', seen) →
        (Image.step t a).2 = seen ∧ Refines cfg s' (Image.step t a).1 :=
          fun s t a s' seen hr hs => access_refines hr hs
    obtain ⟨t', ht', _⟩ := run_simulation (Refines cfg) hstep h.refines hrun
    exact ⟨t', ht'⟩
  · have hm : Meets (Os.access cfg) (fun _ _ => True) s es := meets_true s es
    suffices hp : noFrames p from hp
    refine run_error_of_meets (fun s => ∃ t, Refines cfg s t) ?_ ?_ ⟨_, h.refines⟩ hm hrun
    · rintro s a s' seen ⟨t, ht⟩ _ hs
      exact ⟨_, (access_refines ht hs).2⟩
    · rintro s a p ⟨t, ht⟩ _ hs
      exact access_panics ht hs

/-- The child stores to the page that it shares with its parent, which keeps its byte. -/
theorem fork_refines_copy_store : ∃ s s' os t', Plain qemu s ∧
    run (Os.access qemu) s [.fork 0, .store 1 0x1000 7, .load 0 0x1000, .load 1 0x1000] =
      .ok (s', os) ∧
    os = [.nothing, .stored, .byte 0, .byte 7] ∧
    run (fun t a => (.ok (Image.step t a) : Except Panic _))
    (s.spaces.map fun o => o.map (AddressSpace.image qemu s.phys.mem))
      [.fork 0, .store 1 0x1000 7, .load 0 0x1000, .load 1 0x1000] = .ok (t', os) := by
  obtain ⟨kernel, φ, s, os, hboot, hfits, hrun, hplain, hseen⟩ :=
    small_run_meets [.from_elf (onePage 0x1000)] (fun s e => e.fits s = true)
      (fun s => (∀ o ∈ s.spaces, ∀ as ∈ o, Apart as.extents ∧
          (∀ x ∈ as.pages, lookup qemu s.phys.mem as.page_table x.vpn =
            some (.new x.ppn (x.perm ||| .VALID))) ∧
          ∀ x ∈ as.pages, x.perm.contains .WRITABLE = true → s.phys.ref_count x.ppn = 1) ∧
        ((run (Os.access qemu) s [.fork 0, .store 1 0x1000 7, .load 0 0x1000,
          .load 1 0x1000]).bind fun r =>
          permit .assert (r.2 = [.nothing, .stored, .byte 0, .byte 7]) ()).toOption.isSome)
      (by decide +kernel)
  have hconsistent : Consistent qemu s := run_consistent hboot hfits hrun
  have h : Plain qemu s := ⟨hconsistent.tracked, fun as has => (hplain _ has as rfl).1,
    fun as has => (hplain _ has as rfl).2.1, fun as has => (hplain _ has as rfl).2.2⟩
  obtain ⟨r, haccess, hpermit⟩ := ok_of_bind hseen
  obtain ⟨_, hpermit⟩ := ok_of_isSome hpermit
  obtain ⟨t', ht'⟩ := (fork_refines_copy qemu s _ h).1 r.1 r.2 haccess
  exact ⟨s, r.1, r.2, t', h, haccess, (permit_eq_ok hpermit).1, ht'⟩

end Run

end HectoOs.Mm
