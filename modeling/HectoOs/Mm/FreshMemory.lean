import HectoOs.Mm.Isolation
import HectoOs.Mm.OldContents

/-! # What new pages show

Two states that differ only in what is left in free frames; an operation that gives pages to a
process leaks nothing if a user program cannot tell the states apart afterwards. Whether it does
comes down to the bytes of the new frames that nobody has written.
-/

open HectoOs.Lib

namespace HectoOs.Mm

open PageTableImpl

variable {cfg : Config} {s : Os} {φ φ' ψ ψ' : Phys} {as as' : AddressSpace} {D W : Set Nat}

/-- A user program can read through an entry. -/
def PTEImpl.shows (e : PTEImpl) : Bool := e.contains .USER && e.contains .READABLE

/-- The byte that a user program reads at an address. -/
def AddressSpace.readable (cfg : Config) (m : Mem) (as : AddressSpace) (va : Nat) : Option Byte :=
  (lookup cfg m as.page_table (floor va)).bind fun e =>
    if e.shows then some (m (frame_va (e.ppn cfg) + page_offset va)) else none

/-- The states differ only in what is left in free frames, behind the links of the free list. -/
structure SameButFree (φ ψ : Phys) : Prop where
  allocator : ψ.allocator = φ.allocator
  mem : ∀ a, (∀ p, φ.InRange p → φ.ref_count p = 0 → a ∉ body p) → ψ.mem a = φ.mem a

/-- How an operation ends: with a panic, or with the bytes that a user program can read. -/
def seen (cfg : Config) (x : Kernel AddressSpace) (φ : Phys) : Except Panic (Nat → Option Byte) :=
  (x φ).map fun r => r.1.readable cfg r.2.mem

/-- Nothing that is left in a free frame is seen. -/
def LeaksNothing (cfg : Config) (x : Kernel AddressSpace) (φ : Phys) : Prop :=
  ∀ ψ, SameButFree φ ψ → seen cfg x ψ = seen cfg x φ

/-! ## What an operation gives -/

/-- The address space has the pages of `new`, each with a frame that was free, and pages of the
system that were there before. -/
structure Supplied (cfg : Config) (s : Os) (φ' : Phys) (as' : AddressSpace)
    (new : List Page) : Prop where
  tree : Tree cfg φ'.mem as'.page_table userHalf
  shared : ∀ i, ¬ userHalf i → read_pte φ'.mem as'.page_table.root i =
    read_pte φ'.mem s.kernel.page_table.root i
  kernel : ∀ t ∈ s.kernel.page_table.tables, SameFrame s.phys.mem φ'.mem t
  fresh : ∀ x ∈ new, s.phys.InRange x.ppn ∧ x.ppn ∉ s.trackers ∧ x.ppn ∉ as'.page_table.tables
  own : ∀ x ∈ new, Own userHalf x.vpn
  mapped : ∀ x ∈ new, lookup cfg φ'.mem as'.page_table x.vpn = some (.new x.ppn (x.perm ||| .VALID))
  old : ∀ v e, Own userHalf v → lookup cfg φ'.mem as'.page_table v = some e →
    (∃ x ∈ new, e = .new x.ppn (x.perm ||| .VALID)) ∨ e.ppn cfg ∈ s.trackers ∨
    ¬ s.phys.InRange (e.ppn cfg)

/-- The pages that the user can read have been written where they were not clean. -/
def Covered (new : List Page) (W : Set Nat) : Prop :=
  ∀ x ∈ new, x.perm.shows = true → body x.ppn ⊆ W

theorem shows_new (p : Nat) (f : PTEImpl) : (PTEImpl.new p (f ||| .VALID)).shows = f.shows := by
  simp only [PTEImpl.shows, PTEImpl.USER, PTEImpl.READABLE, PTEImpl.VALID,
    PTEImpl.contains_flag _ (show 4 < 64 by omega),
    PTEImpl.contains_flag _ (show 1 < 64 by omega), PTEImpl.getLsbD_new _ _ (show 4 < 9 by omega),
    PTEImpl.getLsbD_new _ _ (show 1 < 9 by omega), BitVec.getLsbD_or,
      PTEImpl.getLsbD_flag (show 0 < 64 by omega)]
  simp

theorem getLsbD_of_shows {e : PTEImpl} (h : e.shows = true) : e.getLsbD 4 = true := by
  rw [PTEImpl.shows, Bool.and_eq_true, PTEImpl.USER, PTEImpl.contains_flag _ (by omega)] at h
  exact h.1

/-- The bytes of free frames that are not links. -/
def freeBytes (φ : Phys) : Set Nat := {a | ∃ p, φ.InRange p ∧ φ.ref_count p = 0 ∧ a ∈ body p}

theorem SameButFree.differ (h : SameButFree φ ψ) : ∃ D, D ⊆ freeBytes φ ∧ Differ D φ ψ := by
  refine ⟨{a | ψ.mem a ≠ φ.mem a}, fun a ha => ?_, ⟨h.allocator, fun _ => Iff.rfl, fun a ha => ?_⟩⟩
  all_goals
    by_contra hno
    refine ha (h.mem a fun p hp hc hin => hno ?_)
  · exact ⟨p, hp, hc, hin⟩
  · exact ⟨p, hin⟩

/-- The state in which every byte of a free frame is another. -/
noncomputable def flipped (φ : Phys) : Phys :=
  open Classical in φ.set_mem fun a => if a ∈ freeBytes φ then φ.mem a + 1 else φ.mem a

theorem flipped_differ (φ : Phys) :
    SameButFree φ (flipped φ) ∧ Differ (freeBytes φ) φ (flipped φ) := by
  refine ⟨⟨rfl, fun a ha => ?_⟩, ⟨rfl, fun a => ?_, fun a ⟨p, _, _, hp⟩ => ⟨p, hp⟩⟩⟩
  · refine if_neg ?_
    rintro ⟨p, hp, hc, hin⟩
    exact ha p hp hc hin
  · by_cases ha : a ∈ freeBytes φ
    · simp [flipped, ha]
    · simp [flipped, ha]

/-! ## What is seen -/

section Seen

theorem notMem_trackers {p : Nat} (hs : Consistent cfg s) (h : s.phys.ref_count p = 0)
    (hr : s.phys.InRange p) : p ∉ s.trackers := by
  rw [hs.tracked.half.alloc.usage p hr] at h
  exact List.count_eq_zero.mp h

variable {new : List Page} (hs : Consistent cfg s) (hD : D ⊆ freeBytes s.phys)
include hs hD

theorem apart_of_tracker {q x : Nat} (hq : q ∈ s.trackers) (hx : x ∈ D) :
    x < frame_va q ∨ frame_va q + 4096 ≤ x := by
  obtain ⟨p, hr, hc, hp⟩ := hD hx
  by_contra hin
  have hqp : q = p := body_frame hp (by omega) (by omega)
  exact notMem_trackers hs hc hr (hqp ▸ hq)

variable (hsup : Supplied cfg s φ' as' new) (hd : Differ ((D \ W) \ as'.page_table.bytes) φ' ψ')
include hsup hd

theorem Supplied.lookup_eq (v : Nat) :
    lookup cfg ψ'.mem as'.page_table v = lookup cfg φ'.mem as'.page_table v := by
  have htables : ∀ t ∈ as'.page_table.tables, SameFrame φ'.mem ψ'.mem t :=
    fun t ht => hd.sameFrame ht
  by_cases hv : Own userHalf v
  · exact lookup_congr hsup.tree htables hv
  · have hkernel : ∀ t ∈ s.kernel.page_table.tables, SameFrame φ'.mem ψ'.mem t := fun t ht =>
      hd.mem.sameOn fun x hx =>
        apart_of_tracker hs hD (List.mem_append_left _ (mem_trackers_of_table ht)) hx.1.1
    have hroot := hsup.shared _ hv
    have hroot' : read_pte ψ'.mem as'.page_table.root (vpn_index v 18) =
        read_pte ψ'.mem s.kernel.page_table.root (vpn_index v 18) := by
      rw [read_pte_same (htables _ List.mem_cons_self), hroot,
        read_pte_same (hkernel _ List.mem_cons_self)]
    rw [lookup_of_root_eq hroot, lookup_of_root_eq hroot']
    exact lookup_congr (hs.tracked.half.kernel.congr hsup.kernel) hkernel trivial

theorem Supplied.readable_eq (hh : Hidden cfg s) (hc : Covered new W) :
    as'.readable cfg ψ'.mem = as'.readable cfg φ'.mem := by
  funext va
  simp only [AddressSpace.readable, hsup.lookup_eq hs hD hd]
  cases he : lookup cfg φ'.mem as'.page_table (floor va) with
  | none => rfl
  | some e =>
    simp only [Option.bind_some]
    by_cases hshow : e.shows = true
    · rw [if_pos hshow, if_pos hshow]
      congr 1
      by_contra hne
      have hin := (hd.mem _).mp hne
      obtain ⟨p, hr, hcount, hp⟩ := hD hin.1.1
      have hoff : page_offset va < 4096 := Nat.mod_lt _ (by decide)
      have hep : e.ppn cfg = p := body_frame hp (Nat.le_add_right _ _) (by omega)
      by_cases hv : Own userHalf (floor va)
      · rcases hsup.old _ e hv he with ⟨x, hx, rfl⟩ | hmem | hout
        · rw [shows_new] at hshow
          have hxr := (hsup.fresh x hx).1
          have hlt := hs.tracked.half.alloc.lt hxr
          rw [PTEImpl.ppn_new cfg (by omega)] at hep
          exact hin.1.2 (hc x hx hshow (hep ▸ hp))
        · exact notMem_trackers hs hcount hr (hep ▸ hmem)
        · exact hout (hep ▸ hr)
      · -- the kernel's half shows nothing
        have hkernel : lookup cfg s.phys.mem s.kernel.page_table (floor va) = some e := by
          rw [← he, lookup_of_root_eq (hsup.shared _ hv)]
          exact (lookup_congr hs.tracked.half.kernel hsup.kernel trivial).symm
        have hno := hh.kernel _ e hv hkernel
        rw [getLsbD_of_shows hshow] at hno
        simp at hno
    · rw [if_neg hshow, if_neg hshow]

theorem Supplied.readable_ne (hfree : freeBytes s.phys ⊆ D) (hc : ¬ Covered new W) :
    as'.readable cfg ψ'.mem ≠ as'.readable cfg φ'.mem := by
  simp only [Covered, not_forall] at hc
  obtain ⟨x, hx, hshow, hsub⟩ := hc
  obtain ⟨a, ha, haW⟩ := Set.not_subset.mp hsub
  obtain ⟨hr, hnot, htab⟩ := hsup.fresh x hx
  have hbody := ha
  rw [body, Set.mem_Ico] at hbody
  have hlt := hs.tracked.half.alloc.lt hr
  have hcount : s.phys.ref_count x.ppn = 0 := by
    rw [hs.tracked.half.alloc.usage _ hr]
    exact List.count_eq_zero.mpr hnot
  have hin : a ∈ (D \ W) \ as'.page_table.bytes := by
    refine ⟨⟨hfree ⟨_, hr, hcount, ha⟩, haW⟩, ?_⟩
    rintro ⟨t, ht, hle, hlt⟩
    exact htab (body_frame ha hle hlt ▸ ht)
  have hne := (hd.mem a).mpr hin
  -- the address at which the user reads the byte
  intro heq
  have hva := congrFun heq (x.vpn * 4096 + (a - frame_va x.ppn))
  have hfloor : floor (x.vpn * 4096 + (a - frame_va x.ppn)) = x.vpn := by
    simp only [floor, PAGE_SIZE]
    omega
  have hoff : page_offset (x.vpn * 4096 + (a - frame_va x.ppn)) = a - frame_va x.ppn := by
    simp only [page_offset, PAGE_SIZE]
    omega
  simp only [AddressSpace.readable, hsup.lookup_eq hs hD hd, hfloor, hsup.mapped x hx,
    Option.bind_some, shows_new,
    hshow, if_true, hoff, PTEImpl.ppn_new cfg (show x.ppn < 2 ^ 38 by omega),
      Option.some.injEq] at hva
  rw [show frame_va x.ppn + (a - frame_va x.ppn) = a by omega] at hva
  exact hne hva

end Seen

theorem leaks_nothing_iff {x : Kernel AddressSpace}
    {cond : Prop} (hs : Consistent cfg s) (hh : Hidden cfg s)
    (hx : ∀ D ψ, D ⊆ freeBytes s.phys → Differ D s.phys ψ → wp2 x x (fun as' φ' ψ' => ∃ new W,
      Supplied cfg s φ' as' new ∧ (Covered new W ↔ cond) ∧
        Differ ((D \ W) \ as'.page_table.bytes) φ' ψ') s.phys ψ) :
    LeaksNothing cfg x s.phys ↔ ((∃ r, x s.phys = .ok r) → cond) := by
  constructor
  · rintro hleak ⟨⟨as', φ'⟩, hr⟩
    obtain ⟨hsame, hdiff⟩ := flipped_differ s.phys
    obtain ⟨ψ', hψ, new, W, hsup, hcov, hd⟩ := wp2_ok (hx _ _ (fun _ h => h) hdiff) hr
    by_contra hcond
    have heq := hleak _ hsame
    rw [seen, seen, hr, hψ] at heq
    refine hsup.readable_ne hs (fun _ h => h) hd (fun _ h => h) (fun hc => hcond (hcov.mp hc)) ?_
    exact Except.ok.inj heq
  · intro hcond ψ hsame
    obtain ⟨D, hD, hdiff⟩ := hsame.differ
    have hboth := hx D ψ hD hdiff
    cases hr : x s.phys with
    | error e => rw [seen, seen, hr, wp2_error hboth hr]
    | ok r =>
      obtain ⟨ψ', hψ, new, W, hsup, hcov, hd⟩ := wp2_ok hboth hr
      rw [seen, seen, hr, hψ]
      exact congrArg Except.ok (hsup.readable_eq hs hD hd hh (hcov.mpr (hcond ⟨r, hr⟩)))

theorem Supplied.write {new : List Page} {x : Page} {m : Mem} (h : Supplied cfg s φ as' new)
    (hx : x ∈ new) (hm : ∀ q, q ≠ x.ppn → SameFrame φ.mem m q) :
    Supplied cfg s (φ.set_mem m) as' new := by
  obtain ⟨_, hnot, htab⟩ := h.fresh x hx
  have htables : ∀ t ∈ as'.page_table.tables, SameFrame φ.mem m t :=
    fun t ht => hm t fun he => htab (he ▸ ht)
  have hkernel : ∀ t ∈ s.kernel.page_table.tables, SameFrame φ.mem m t := fun t ht =>
    hm t fun he => hnot (he ▸ List.mem_append_left _ (mem_trackers_of_table ht))
  refine ⟨h.tree.congr htables, fun i hi => ?_, fun t ht => (h.kernel t ht).trans (hkernel t ht),
    h.fresh, h.own,
    fun y hy => ?_, fun v e hv he => h.old v e hv ?_⟩
  · rw [Phys.set_mem_mem, read_pte_same (htables _ List.mem_cons_self), h.shared i hi,
      read_pte_same (hkernel _ List.mem_cons_self)]
  · rw [← h.mapped y hy]
    exact lookup_congr h.tree htables (h.own y hy)
  · rw [← he]
    exact (lookup_congr h.tree htables hv).symm

/-! ## Areas -/

section Areas

variable {kernel old : AddressSpace} {l₁ l₂ : List (Option AddressSpace)}

theorem Differ.off_tables (hs : Consistent cfg s) (hD : D ⊆ freeBytes s.phys) (h : Differ D φ ψ)
    (ht : ∀ t ∈ as.page_table.tables, t ∈ s.trackers) : Differ (D \ as.page_table.bytes) φ ψ := by
  refine h.congr (Set.ext fun x => and_iff_left_of_imp ?_)
  rintro hx ⟨t, ht', hle, hlt⟩
  have := apart_of_tracker hs hD (ht t ht') hx
  omega

theorem lookup_low (cfg : Config) (m : Mem) (pt : PageTableImpl) {v : Nat} (hv : Own userHalf v) :
    key v < 2 ^ 26 ∧ lookup cfg m pt v = lookup cfg m pt (key v) := by
  have hlow : key v < 2 ^ 26 := by
    have hv : (vpn_index v 18).val < 256 := hv
    rw [vpn_index_val] at hv
    simp only [key]
    omega
  exact ⟨hlow, lookup_mod (key_of_lt hlow).symm⟩

theorem Tracks.entry {m : Mem} {pt : PageTableImpl} {pages : List Page}
    (h : Tracks cfg m pt pages) (hram : ∀ p, φ.InRange p → FIRST_PPN ≤ p)
    {v : Nat} {e : PTEImpl} (hv : Own userHalf v) (he : lookup cfg m pt v = some e) :
    (∃ x ∈ pages, e.ppn cfg = x.ppn) ∨ ¬ φ.InRange (e.ppn cfg) := by
  obtain ⟨hlow, hkey⟩ := lookup_low cfg m pt hv
  rw [hkey] at he
  by_cases hd : key v ∈ cfg.device_pages
  · obtain ⟨e', he', hp⟩ := h.devices _ hd
    rw [he] at he'
    obtain rfl := Option.some.inj he'
    refine .inr fun hr => ?_
    have := hram _ hr
    have := device_lt hd
    omega
  · obtain ⟨x, hx, hxv⟩ := h.tracked _ e hlow he hd
    exact .inl ⟨x, hx, h.ppn_eq hx (hxv ▸ he)⟩

theorem Consistent.old_entry (hs : Consistent cfg s) (has : some as ∈ s.spaces) {v : Nat}
    {e : PTEImpl} (hv : Own userHalf v) (he : lookup cfg s.phys.mem as.page_table v = some e) :
    e.ppn cfg ∈ s.trackers ∨ ¬ s.phys.InRange (e.ppn cfg) := by
  rcases (hs.tracked.tracks as has).entry
    (fun p hp => (hs.tracked.half.ram p hp).1) hv he with ⟨x, hx, hp⟩ | hout
  · rw [hp]
    refine .inl (List.mem_append_right _ (mem_space_trackers.mpr ⟨as, has, ?_⟩))
    exact List.mem_append_right _ (frame_mem hx)
  · exact .inr hout

theorem Supplied.refl (hs : Consistent cfg s) (has : some as ∈ s.spaces) :
    Supplied cfg s s.phys as [] :=
  ⟨(hs.tracked.half.spaces as has).tree, (hs.tracked.half.spaces as has).shared,
    fun _ _ => SameFrame.refl _ _, by simp,
    by simp, by simp, fun _ _ hv he => .inr (hs.old_entry has hv he)⟩

theorem Inserted.supplied {k : VARange} {area area' : MapArea} {φ₁ : Phys} {new : List (Nat × Nat)}
    (hs : Consistent cfg ⟨φ, kernel, l₁ ++ some as :: l₂⟩)
    (hi : Inserted cfg userHalf (others kernel l₁ l₂) φ old k area φ₁ area' new φ' as')
    (hpt : old.page_table = as.page_table) (hframes : (area.frames ++ old.frames).Perm as.frames) :
    Supplied cfg ⟨φ, kernel, l₁ ++ some as :: l₂⟩ φ' as' (new.map (Page.of area.map_perm)) := by
  have hkernel : ∀ t ∈ kernel.page_table.tables, SameFrame φ.mem φ'.mem t := fun t ht =>
    hi.exchanges.same t (mem_others_kernel (mem_trackers_of_table ht))
  have hperm : (Os.mk φ kernel (l₁ ++ some as :: l₂)).trackers.Perm
    (as.trackers ++ others kernel l₁ l₂) :=
    trackers_perm φ (some as)
  refine ⟨hi.exchanges.owns.tree, fun i hi' => ?_, hkernel, fun x hx => ?_,
    fun x hx => ?_, fun x hx => ?_,
    fun v e hv he => ?_⟩
  · rw [hi.exchanges.root.root, hi.exchanges.root.keep i hi', hpt,
      (hs.tracked.half.spaces as (by simp)).shared i hi',
      read_pte_same (hkernel _ List.mem_cons_self)]
  · obtain ⟨y, hy, rfl⟩ := List.mem_map.mp hx
    have hmem : y.2 ∈ area'.frames := hi.filled.mem_frames.mpr (.inl (List.mem_map_of_mem hy))
    refine ⟨?_, fun htr => hi.filled.fresh y hy ?_, fun ht => ?_⟩
    · exact (hi.filled.root.range.inRange _).mp
        (hi.filled.owns.alloc.range _ (by simp [hmem, Page.of]))
    · have := hperm.mem_iff.mp htr
      rw [hpt]
      simp only [AddressSpace.trackers, List.mem_append, ← hframes.mem_iff, Page.of] at this ⊢
      tauto
    · exact hi.filled.owns.notMem ht (List.mem_append_left _ hmem)
  · obtain ⟨y, hy, rfl⟩ := List.mem_map.mp hx
    exact hi.filled.own y hy
  · obtain ⟨y, hy, rfl⟩ := List.mem_map.mp hx
    have he := hi.maps.of_mem (List.mem_map_of_mem hy) (hi.filled.own y hy)
    dsimp only at he
    exact he
  · rcases (hi.maps.found v e hv).mp he with he | ⟨z, hz, _, rfl⟩
    · rw [hpt] at he
      exact .inr (hs.old_entry (by simp) hv he)
    · obtain ⟨y, hy, rfl⟩ := List.mem_map.mp hz
      exact .inl ⟨_, List.mem_map_of_mem hy, rfl⟩

theorem covered_nothing {perm : PTEImpl} {new : List (Nat × Nat)} :
    Covered (new.map (Page.of perm)) ∅ ↔ (perm.shows = true → new = []) := by
  constructor
  · intro hc hshow
    rw [List.eq_nil_iff_forall_not_mem]
    intro x hx
    have hsub := hc _ (List.mem_map_of_mem hx) hshow
    exact hsub (show frame_va x.2 + 8 ∈ body x.2 from Set.mem_Ico.mpr ⟨le_refl _, by omega⟩)
  · intro h x hx hshow
    obtain ⟨y, hy, rfl⟩ := List.mem_map.mp hx
    rw [h hshow] at hy
    simp at hy

/-- The pages of the range that `alloc_user_area` finds. -/
def AddressSpace.user_pages (as : AddressSpace) (size : Nat) : List Nat :=
  (as.alloc_user_area size).elim [] fun stop => vpns (floor (stop - size)) (ceil stop)

variable (hs : Consistent cfg ⟨φ, kernel, l₁ ++ some as :: l₂⟩) (hD : D ⊆ freeBytes φ)
  (hd : Differ D φ ψ)
include hs hD hd

theorem Differ.off_space : Differ (D \ as.page_table.bytes) φ ψ := by
  refine hd.off_tables hs hD fun t ht => ?_
  have hperm : (Os.mk φ kernel (l₁ ++ some as :: l₂)).trackers.Perm
    (as.trackers ++ others kernel l₁ l₂) :=
    trackers_perm φ (some as)
  exact hperm.mem_iff.mpr (List.mem_append_left _ (mem_trackers_of_table ht))

theorem insert_user_area_differ {size : Nat} {perm : PTEImpl}
    (hfit : as.user_area_fits size = true) :
    wp2 (as.insert_user_area cfg size perm) (as.insert_user_area cfg size perm) (fun r φ' ψ' =>
      as.alloc_user_area size = some r.2 ∧ ∃ φ₁ area' new, new.map (·.1) = as.user_pages size ∧
        Inserted cfg userHalf (others kernel l₁ l₂) φ as ⟨r.2 - size, r.2⟩
          ⟨[], .Framed, perm⟩ φ₁ area' new φ' r.1 ∧
        Differ (D \ r.1.page_table.bytes) φ' ψ') φ ψ := by
  have hready := hs.tracked.ready (hs.keys as (by simp))
  refine wp2_bind (wp2_unwrap fun stop hstop => ?_)
  have hlow : ∀ v ∈ vpns (floor (stop - size)) (ceil stop), v < 2 ^ 26 := by
    rw [AddressSpace.user_area_fits, hstop] at hfit
    exact fun v hv => page_lt (of_decide_eq_true hfit) (mem_vpns.mp hv).2
  have hmap := map_and_insert_differ (r := ⟨stop - size, stop⟩) (f := perm) hready.owns
    (fun v hv => own_of_lt (hlow v hv)) (Differ.off_space hs hD hd)
  refine wp2_call hmap ?_
  rintro as' φ' ψ' ⟨φ₁, area', new, hnew, hi, h'⟩
  exact wp2_pure ⟨hstop, φ₁, area', new, by rw [AddressSpace.user_pages, hstop]; exact hnew, hi, h'⟩

theorem mmap_supplies {length : Nat} {prot : AddressSpace.Prot}
    (hfit : as.user_area_fits length = true) :
    wp2 (do return (← as.sys_mmap cfg 0 length prot).1)
    (do return (← as.sys_mmap cfg 0 length prot).1)
      (fun as' φ' ψ' => ∃ new W, Supplied cfg ⟨φ, kernel, l₁ ++ some as :: l₂⟩ φ' as' new ∧
        (Covered new W ↔ (prot.read = true → as.user_pages length = [])) ∧
        Differ ((D \ W) \ as'.page_table.bytes) φ' ψ') φ ψ := by
  have hshow : prot.map_perm.shows = prot.read := by
    cases prot with
    | mk read write exec => cases read <;> cases write <;> cases exec <;> decide
  refine wp2_bind (wp2_call (insert_user_area_differ hs hD hd hfit) ?_)
  rintro r φ' ψ' ⟨_, φ₁, area', new, hnew, hi, h'⟩
  refine wp2_pure (wp2_pure ⟨_, ∅, hi.supplied hs rfl (by simp [MapArea.frames]),
    ?_, h'.congr (by rw [Set.sdiff_empty])⟩)
  rw [covered_nothing, hshow, ← hnew, List.map_eq_nil_iff]

omit hs hD hd in
theorem brk_pages {old addr : Nat} :
    vpns (floor (round_up old)) (ceil addr) = [] ↔ addr ≤ round_up old := by
  rw [vpns, List.range'_eq_nil_iff]
  simp only [floor, ceil, round_up, PAGE_SIZE]
  omega

/-- `brk` gives no page that can be read: it does not move the end of the data segment beyond the
last page, or the area of the segment cannot be read. -/
def AddressSpace.brk_clean (as : AddressSpace) (addr : Nat) : Bool :=
  addr = 0 || as.data_segment_max < addr ||
    (SearchTree.remove VARange.cmp ⟨as.data_segment_end, as.data_segment_end⟩ as.tree).all fun r =>
      !r.1.2.map_perm.shows || addr ≤ round_up as.data_segment_end

omit hD hd in
theorem brk_insert_differ {addr : Nat} {entry : VARange × MapArea}
    {a₁ a₂ : List (VARange × MapArea)} {φ₁ ψ₁ : Phys} {pt' : PageTableImpl}
    {shape : SearchTree.Shape} {area' : MapArea} {new : List (Nat × Nat)}
    (hareas : as.areas = a₁ ++ entry :: a₂) (hf : Filled cfg userHalf
    ((a₁ ++ a₂).flatMap (·.2.frames) ++ others kernel l₁ l₂) φ as.page_table entry.2 φ₁ pt' area'
      new) (h₁ : Differ (D \ pt'.bytes) φ₁ ψ₁) :
    wp2 (AddressSpace.insert_area cfg ⟨pt', a₁ ++ a₂, shape, addr,
      as.data_segment_max⟩ ⟨entry.1.start, addr⟩ area')
      (AddressSpace.insert_area cfg ⟨pt', a₁ ++ a₂, shape, addr,
        as.data_segment_max⟩ ⟨entry.1.start, addr⟩ area') (fun as' φ' ψ' =>
        Supplied cfg ⟨φ, kernel, l₁ ++ some as :: l₂⟩ φ' as' (new.map (Page.of entry.2.map_perm)) ∧
        Differ (D \ as'.page_table.bytes) φ' ψ') φ₁ ψ₁ := by
  generalize hbase : { as with areas := a₁ ++ a₂, shape } = base
  have hpt : base.page_table = as.page_table := by rw [← hbase]
  have hbareas : base.areas = a₁ ++ a₂ := by rw [← hbase]
  have hbmax : base.data_segment_max = as.data_segment_max := by rw [← hbase]
  have hbshape : base.shape = shape := by rw [← hbase]
  have hframes : (entry.2.frames ++ base.frames).Perm as.frames := by
    rw [AddressSpace.frames, hbareas]
    exact (frames_remove hareas).symm
  have hfilled : Filled cfg userHalf (base.frames ++ others kernel l₁ l₂)
    φ base.page_table entry.2 φ₁ pt' area' new := by
    rw [hpt, AddressSpace.frames, hbareas]
    exact hf
  have hins : wp anyPanic
    (AddressSpace.insert_area cfg { base with page_table := pt', data_segment_end := addr }
      ⟨entry.1.start, addr⟩ area') _ φ₁ := insert_filled hfilled addr
  rw [hbareas, hbmax, hbshape] at hins
  refine wp2_mono (wp2_and hins (insert_area_differ h₁)) ?_
  rintro as' φ' ψ' ⟨⟨_, hi⟩, hpt', h'⟩
  exact ⟨hi.supplied hs hpt hframes, h'.congr (by rw [hpt'])⟩

theorem brk_supplies {addr : Nat} (hfit : as.brk_fits addr = true) :
    wp2 (do return (← as.brk cfg addr).1) (do return (← as.brk cfg addr).1)
      (fun as' φ' ψ' => ∃ new W, Supplied cfg ⟨φ, kernel, l₁ ++ some as :: l₂⟩ φ' as' new ∧
        (Covered new W ↔ as.brk_clean addr = true) ∧
          Differ ((D \ W) \ as'.page_table.bytes) φ' ψ') φ ψ := by
  have hready := hs.tracked.ready (hs.keys as (by simp))
  have h := Differ.off_space hs hD hd
  have hnone : ∀ E : Set Nat, (E \ ∅ : Set Nat) = E := fun E => Set.sdiff_empty
  have hsame : as.brk_clean addr = true →
    ∃ new W, Supplied cfg ⟨φ, kernel, l₁ ++ some as :: l₂⟩ φ as new ∧
      (Covered new W ↔ as.brk_clean addr = true) ∧
      Differ ((D \ W) \ as.page_table.bytes) φ ψ := fun hclean =>
    ⟨[], ∅, Supplied.refl hs (by simp), by simp [Covered, hclean], by rwa [hnone]⟩
  refine wp2_bind (wp2_bind (wp2_unwrap fun cur_end hcur => ?_))
  obtain rfl := checked_round_up_eq hcur
  refine wp2_ite
    (fun h0 => wp2_pure (wp2_pure (hsame (by simp [AddressSpace.brk_clean, h0])))) fun hne => ?_
  refine wp2_ite
    (fun hgt => wp2_pure (wp2_pure (hsame (by simp [AddressSpace.brk_clean, hgt])))) fun hle => ?_
  refine wp2_bind (wp2_unwrap ?_)
  rintro ⟨entry, areas⟩ hrem
  have hclean : as.brk_clean addr = true ↔
    (entry.2.map_perm.shows = true → addr ≤ round_up as.data_segment_end) := by
    simp only [AddressSpace.brk_clean, hrem, hne, hle, decide_false, Bool.false_or,
      Option.all_some, Bool.or_eq_true,
      Bool.not_eq_true', decide_eq_true_eq]
    cases entry.2.map_perm.shows <;> simp
  have hle := Nat.not_lt.mp hle
  simp only [AddressSpace.brk_fits, hrem, hne, decide_false, Nat.not_lt.mpr hle,
    Bool.false_or, Option.all_some,
    Bool.and_eq_true, Bool.or_eq_true, decide_eq_true_eq, List.all_eq_true,
      Bool.not_eq_true'] at hfit
  obtain ⟨hlow, _⟩ := hfit
  obtain ⟨a₁, a₂, hareas, rfl, _⟩ := AddressSpace.remove_spec hrem
  have ho : Owns cfg userHalf φ as.page_table
      (entry.2.frames ++ ((a₁ ++ a₂).flatMap (·.2.frames) ++ others kernel l₁ l₂)) := by
    rw [← List.append_assoc]
    exact hready.owns.perm ((frames_remove hareas).append_right _).symm
  dsimp only
  refine wp2_ite (fun hgrow => ?_) fun hshrink => ?_
  · refine wp2_bind (wp2_unwrap fun l hl => ?_)
    obtain rfl := vpn_range_eq hl
    have hlow' : ∀ v ∈ vpns (floor (round_up as.data_segment_end)) (ceil addr), v < 2 ^ 26 :=
      fun v hv => page_lt (by omega) (mem_vpns.mp hv).2
    have hmapped : Mapped cfg userHalf φ.mem as.page_table entry.2 :=
      hready.tracks.mapped_area fun x hx =>
        (pages_remove hareas).mem_iff.mpr (List.mem_append_left _ hx)
    refine wp2_call (map_frames_differ ho (fun v hv => own_of_lt (hlow' v hv)) hmapped h) ?_
    rintro ⟨pt', area'⟩ φ₁ ψ₁ ⟨new, hnew, hf, h₁⟩
    refine wp2_call (brk_insert_differ hs hareas hf h₁) ?_
    rintro as' φ' ψ' ⟨hsup, h'⟩
    refine wp2_pure (wp2_pure ⟨_, ∅, hsup, ?_, by rwa [hnone]⟩)
    rw [covered_nothing, hclean, ← brk_pages, ← hnew, List.map_eq_nil_iff]
  · refine wp2_bind (wp2_pure (wp2_call (brk_insert_differ hs hareas (Filled.refl ho) h) ?_))
    rintro as' φ' ψ' ⟨hsup, h'⟩
    refine wp2_pure (wp2_pure ⟨_, ∅, hsup, ?_, by rwa [hnone]⟩)
    rw [covered_nothing, hclean]
    exact ⟨fun _ _ => by omega, fun _ _ => rfl⟩

end Areas

end HectoOs.Mm
