import HectoOs.Mm.DevicePages
import HectoOs.Mm.Isolation

/-! # The data segment (`brk`)

`brk` moves the end of the last segment. Where the end of its pages was is computed from its old
end, but no page is unmapped when the end moves back.
-/

open HectoOs.Lib

namespace HectoOs.Mm

open PageTableImpl

variable {cfg : Config} {rest : List Nat} {φ φ' : Phys} {as as' : AddressSpace} {start addr : Nat}

/-- A call of `brk`, and what it returns. -/
def brk_step (cfg : Config) (s : AddressSpace × Phys) (addr : Nat) :
    Except Panic ((AddressSpace × Phys) × Int) :=
  (s.1.brk cfg addr s.2).map fun r => ((r.1.1, r.2), r.1.2)

/-- The last segment is the highest one, and it starts at `start`. -/
def ElfFile.Highest (elf : ElfFile) (last : ProgramHeader) : Prop :=
  ∃ done, elf.loads = done ++ [last] ∧ ∀ ph ∈ done, ph.va_range.stop ≤ last.virtual_addr

/-- The area of the data segment, and the page table, have exactly the pages from its start to its
end. -/
structure DataPages (cfg : Config) (start : Nat) (φ : Phys) (as : AddressSpace) : Prop where
  area : ∃ area, (⟨start, as.data_segment_end⟩, area) ∈ as.areas ∧
    (∀ v, v ∈ area.data_frames.map (·.1) ↔ floor start ≤ v ∧ v < ceil as.data_segment_end) ∧
    ∀ x ∈ area.data_frames, ∃ e, lookup cfg φ.mem as.page_table x.1 = some e ∧ e.ppn cfg = x.2
  entries : ∀ v, floor start ≤ v → v < ceil as.data_segment_max →
    ((lookup cfg φ.mem as.page_table v).isSome ↔ v < ceil as.data_segment_end)

/-- The call of `brk` does what it should: it panics only without a free frame, it refuses addresses
beyond the limit, and it moves the end of the data segment to any other. -/
def BrkWorks (cfg : Config) (start : Nat) (s : AddressSpace × Phys) (addr : Nat) : Prop :=
  match brk_step cfg s addr with
  | .error p => p = .out_of_frames
  | .ok (s', r) =>
    if addr = 0 then s' = s
    else if s.1.data_segment_max < addr then r = -1 ∧ s' = s
    else r = addr ∧ s'.1.data_segment_end = addr ∧ s'.1.data_segment_max = s.1.data_segment_max ∧
      DataPages cfg start s'.2 s'.1

/-- The call takes no page away. -/
def brk_grows (s : AddressSpace × Phys) (addr : Nat) : Prop :=
  addr = 0 ∨ s.1.data_segment_max < addr ∨ ceil s.1.data_segment_end ≤ ceil addr

instance (s : AddressSpace × Phys) (addr : Nat) : Decidable (brk_grows s addr) :=
  inferInstanceAs (Decidable (_ ∨ _ ∨ _))

/-- The address is not below the data segment. -/
def InData (start addr : Nat) : Prop := addr = 0 ∨ start ≤ addr

instance (start addr : Nat) : Decidable (InData start addr) := inferInstanceAs (Decidable (_ ∨ _))

/-! ## The invariant -/

/-- An area before the data segment. It can touch the data segment only at the start of a page. -/
structure Below (start stop : Nat) (a : VARange × MapArea) : Prop where
  before : a.1.Before ⟨start, stop⟩
  ordered : a.1.start ≤ a.1.stop
  stop : a.1.stop ≤ start
  touching : a.1.stop = start → page_offset start = 0

/-- The data segment is the last area, with exactly its pages. -/
structure BrkInv (cfg : Config) (rest : List Nat) (start : Nat) (φ : Phys)
    (as : AddressSpace) : Prop where
  ready : Ready cfg rest φ as
  low : as.data_segment_max ≤ 2 ^ 38
  start_le : start ≤ as.data_segment_end
  last : ∃ l area, as.areas = l ++ [(⟨start, as.data_segment_end⟩, area)] ∧
    Whole (⟨start, as.data_segment_end⟩, area) ∧ ∀ a ∈ l, Below start as.data_segment_end a
  entries : ∀ v, floor start ≤ v → v < ceil as.data_segment_max →
    ((lookup cfg φ.mem as.page_table v).isSome ↔ v < ceil as.data_segment_end)

theorem ceil_le {a b : Nat} (h : a ≤ b) : ceil a ≤ ceil b :=
  Nat.div_le_div_right (Nat.add_le_add_right h _)

theorem floor_le_ceil (a : Nat) : floor a ≤ ceil a := Nat.div_le_div_right (Nat.le_add_right a _)

theorem floor_round_up (a : Nat) : floor (round_up a) = ceil a := Nat.mul_div_cancel _ (by decide)

theorem BrkInv.end_le (h : BrkInv cfg rest start φ as) : as.data_segment_end ≤ 2 ^ 38 :=
  h.ready.keys.limit.trans h.low

theorem BrkInv.pages (h : BrkInv cfg rest start φ as) : DataPages cfg start φ as := by
  obtain ⟨l, area, hareas, hwhole, _⟩ := h.last
  refine ⟨⟨area, by simp [hareas], fun v => ?_, fun x hx => ?_⟩, h.entries⟩
  · rw [← hwhole v, VARange.pages, mem_vpns]
  · have hpage : Page.of area.map_perm x ∈ as.pages :=
      List.mem_flatMap.mpr ⟨(⟨start, as.data_segment_end⟩, area), by simp [hareas],
        List.mem_map_of_mem hx⟩
    obtain ⟨e, he, hp⟩ := h.ready.tracks.mapped _ hpage
    dsimp only [Page.of] at he hp
    exact ⟨e, he, hp⟩

theorem BrkInv.remove (h : BrkInv cfg rest start φ as) {l : List (VARange × MapArea)}
    {area : MapArea} (hareas : as.areas = l ++ [(⟨start, as.data_segment_end⟩, area)])
    (hl : ∀ a ∈ l, Below start as.data_segment_end a) :
    SearchTree.remove VARange.cmp ⟨as.data_segment_end, as.data_segment_end⟩ as.tree =
      some ((⟨start, as.data_segment_end⟩, area), l) := by
  have hle := h.start_le
  rw [← List.append_nil l]
  refine SearchTree.remove_of_divides (as.inorder_tree.trans hareas) (fun a ha => ?_) ?_ (by simp)
  · refine VARange.cmp_of_before ⟨?_, (hl a ha).before.2⟩
    have := (hl a ha).before.1
    dsimp only at this ⊢
    omega
  · rw [cmp_eq_iff]
    simp only [VARange.eq_iff]
    omega

theorem Below.grow {stop : Nat} {a : VARange × MapArea} (h : Below start stop a)
    (hstart : start ≤ addr) (hgrow : ceil stop ≤ ceil addr) : Below start addr a := by
  have hb := h.before
  have hord := h.ordered
  have hstop := h.stop
  have htouch := h.touching
  refine ⟨⟨hb.1, ?_⟩, hord, hstop, htouch⟩
  have hend := hb.2
  dsimp only at hend ⊢
  simp only [ceil, page_offset, PAGE_SIZE] at hgrow htouch
  omega

theorem BrkInv.grown {l : List (VARange × MapArea)} {area area' : MapArea}
    {new : List (Nat × Nat)} {pt : PageTableImpl} {shape : SearchTree.Shape}
    {perm : PTEImpl} (h : BrkInv cfg rest start φ as) (hle : addr ≤ as.data_segment_max)
    (hstart : start ≤ addr) (hgrow : ceil as.data_segment_end ≤ ceil addr)
    (hwhole : Whole (⟨start, as.data_segment_end⟩, area))
    (hl : ∀ a ∈ l, Below start as.data_segment_end a)
    (hnew : new.map (·.1) = vpns (ceil as.data_segment_end) (ceil addr))
    (hframes : area'.data_frames.Perm (new ++ area.data_frames)) (hmaps : Maps cfg userHalf φ.mem
    as.page_table φ'.mem pt (new.map fun x => (x.1, .new x.2 perm))) (hready : Ready cfg rest φ'
    ⟨pt, l ++ [(⟨start, addr⟩, area')], shape, addr, as.data_segment_max⟩) :
    BrkInv cfg rest start φ' ⟨pt, l ++ [(⟨start, addr⟩, area')], shape,
      addr, as.data_segment_max⟩ := by
  have hfirst := floor_le_ceil start
  have hend := ceil_le h.start_le
  refine ⟨hready, h.low, hstart,
    ⟨l, area', rfl, fun v => ?_, fun a ha => (hl a ha).grow hstart hgrow⟩, fun v hv hmax => ?_⟩
  · -- the pages of the area are those from before and the new ones
    have hp := (hframes.map (·.1)).mem_iff (a := v)
    rw [List.map_append, List.mem_append, hnew, mem_vpns, ← hwhole v, VARange.pages, mem_vpns] at hp
    rw [hp, VARange.pages, mem_vpns]
    dsimp only
    omega
  · dsimp only at hmax ⊢
    have hv26 : v < 2 ^ 26 := page_lt h.low hmax
    have hlow : ∀ x ∈ new, x.1 < 2 ^ 26 ∧ ceil as.data_segment_end ≤ x.1 ∧ x.1 < ceil addr :=
      fun x hx => by
      have hx := mem_vpns.mp
        (hnew ▸ List.mem_map_of_mem hx : x.1 ∈ vpns (ceil as.data_segment_end) (ceil addr))
      exact ⟨page_lt (hle.trans h.low) hx.2, hx⟩
    have hold := h.entries v hv hmax
    rw [Option.isSome_iff_exists] at hold ⊢
    constructor
    · rintro ⟨e, he⟩
      rcases (hmaps.found v e (own_of_lt hv26)).mp he with he | ⟨y, hy, hyv, _⟩
      · exact (hold.mp ⟨e, he⟩).trans_le hgrow
      · obtain ⟨x, hx, rfl⟩ := List.mem_map.mp hy
        obtain ⟨hx26, _, hlt⟩ := hlow x hx
        exact (key_inj hx26 hv26).mp hyv ▸ hlt
    · intro hlt
      by_cases hlt' : v < ceil as.data_segment_end
      · obtain ⟨e, he⟩ := hold.mpr hlt'
        exact ⟨e, (hmaps.found v e (own_of_lt hv26)).mpr (.inl he)⟩
      · have hmem : v ∈ new.map (·.1) := hnew ▸ mem_vpns.mpr ⟨Nat.not_lt.mp hlt', hlt⟩
        obtain ⟨x, hx, rfl⟩ := List.mem_map.mp hmem
        exact ⟨_, (hmaps.found x.1 _ (own_of_lt hv26)).mpr
          (.inr ⟨_, List.mem_map_of_mem hx, rfl, rfl⟩)⟩

theorem BrkInv.checked_end (h : BrkInv cfg rest start φ as) :
    checked_round_up as.data_segment_end = some (round_up as.data_segment_end) := by
  have := h.end_le
  unfold checked_round_up
  rw [if_pos]
  simp only [PAGE_SIZE, USIZE]
  omega

theorem BrkInv.unmapped (h : BrkInv cfg rest start φ as) (hle : addr ≤ as.data_segment_max) :
    Unmapped cfg φ.mem as.page_table (vpns (ceil as.data_segment_end) (ceil addr)) := by
  have hlow : ∀ v ∈ vpns (ceil as.data_segment_end) (ceil addr), v < 2 ^ 26 :=
    fun v hv => page_lt (hle.trans h.low) (mem_vpns.mp hv).2
  refine ⟨fun v hv => ?_,
    (nodup_vpns _ _).imp_of_mem fun hv hw hvw he => hvw ((key_inj (hlow _ hv) (hlow _ hw)).mp he)⟩
  obtain ⟨hfirst, hlast⟩ := mem_vpns.mp hv
  have hv' : floor start ≤ v := (floor_le_ceil start).trans ((ceil_le h.start_le).trans hfirst)
  have hno := (h.entries v hv' (hlast.trans_le (ceil_le hle))).not.mpr (Nat.not_lt.mpr hfirst)
  rwa [Bool.not_eq_true, Option.isSome_eq_false_iff, Option.isNone_iff_eq_none] at hno

theorem BrkInv.grow (h : BrkInv cfg rest start φ as) (hne : addr ≠ 0)
    (hle : addr ≤ as.data_segment_max) (hstart : start ≤ addr)
    (hgrow : ceil as.data_segment_end ≤ ceil addr) :
    wp (fun p => p = .out_of_frames) (as.brk cfg addr)
    (fun r φ' => r.2 = addr ∧ r.1.data_segment_end = addr ∧
      r.1.data_segment_max = as.data_segment_max ∧ BrkInv cfg rest start φ' r.1) φ := by
  obtain ⟨l, area, hareas, hwhole, hl⟩ := h.last
  have hlow : ∀ v ∈ vpns (ceil as.data_segment_end) (ceil addr), v < 2 ^ 26 :=
    fun v hv => page_lt (hle.trans h.low) (mem_vpns.mp hv).2
  have hsplit : as.areas = l ++ (⟨start, as.data_segment_end⟩, area) :: [] := hareas
  have hcmp : VARange.cmp ⟨as.data_segment_end, as.data_segment_end⟩
    ⟨start, as.data_segment_end⟩ = .eq := by
    have := h.start_le
    rw [cmp_eq_iff]
    simp only [VARange.eq_iff]
    omega
  have hlast : ∀ a ∈ l, a.1.Before ⟨start, addr⟩ := fun a ha => ((hl a ha).grow hstart hgrow).before
  have hother : ∀ a ∈ l ++ [], VARange.eq ⟨start, addr⟩ a.1 = false := fun a ha => by
    have hgt := VARange.cmp_of_before (hlast a (by simpa using ha))
    rw [Bool.eq_false_iff]
    intro he
    rw [cmp_eq_iff.mpr he] at hgt
    simp at hgt
  have hinsert : ∀ (pt' : PageTableImpl) (shape : SearchTree.Shape) (area' : MapArea) (φ₁ : Phys)
      (new : List (Nat × Nat)),
      new.map (·.1) = vpns (ceil as.data_segment_end) (ceil addr) →
      Filled cfg userHalf ((l ++ []).flatMap (fun (a : VARange × MapArea) => a.2.frames) ++ rest)
        φ as.page_table area φ₁ pt' area' new →
      wp (fun p => p = .out_of_frames) (do
        let as ← AddressSpace.insert_area cfg ⟨pt', l, shape, addr,
          as.data_segment_max⟩ ⟨start, addr⟩ area'
        return (as, (addr : Int)))
          (fun (r : AddressSpace × Int) φ' => r.2 = addr ∧ r.1.data_segment_end = addr ∧
        r.1.data_segment_max = as.data_segment_max ∧ BrkInv cfg rest start φ' r.1) φ₁ := by
    intro pt' shape area' φ₁ new hnew hf
    have hnew' : ∀ x ∈ new, x.1 < 2 ^ 26 := fun x hx => hlow x.1 (hnew ▸ List.mem_map_of_mem hx)
    have hins : wp (fun p => p = Panic.out_of_frames) (AddressSpace.insert_area cfg
      ⟨pt', l ++ [], shape, addr, as.data_segment_max⟩ ⟨start, addr⟩ area') _ φ₁ :=
      brk_insert h.ready hsplit hcmp hle hother hnew' hf
    rw [List.append_nil] at hins
    refine wp_call hins ?_
    rintro as' φ' ⟨hc, _, hkeys, pt, areas, shape', rfl, hareas', hmaps⟩
    rw [insert_last hlast] at hareas'
    subst hareas'
    exact ⟨rfl, rfl, rfl, h.grown hle hstart hgrow hwhole hl hnew hf.frames hmaps
      ⟨hc.exchanges.owns, hc.tracks, hkeys⟩⟩
  have ho : Owns cfg userHalf φ as.page_table
    (area.frames ++ ((l ++ []).flatMap (fun (a : VARange × MapArea) => a.2.frames) ++ rest)) := by
    rw [← List.append_assoc]
    exact h.ready.owns.perm ((frames_remove hsplit).append_right rest).symm
  rw [AddressSpace.brk, h.checked_end, wp_bind, wp_unwrap]
  refine ⟨?_, by simp⟩
  rintro _ hcur
  obtain rfl := Option.some.inj hcur
  rw [if_neg hne, if_neg (Nat.not_lt.mpr hle), h.remove hareas hl, wp_bind, wp_unwrap]
  refine ⟨?_, by simp⟩
  rintro _ hentry
  obtain rfl := Option.some.inj hentry
  dsimp only
  rw [wp_ite]
  refine ⟨fun _ => ?_, fun hcur => ?_⟩
  · rw [wp_bind, wp_unwrap]
    refine ⟨fun pages hpages => ?_, fun hno => ?_⟩
    · obtain rfl := vpn_range_eq hpages
      dsimp only
      rw [floor_round_up]
      have hmapped : Mapped cfg userHalf φ.mem as.page_table area :=
        h.ready.tracks.mapped_area fun x hx =>
          (pages_remove hsplit).mem_iff.mpr (List.mem_append_left _ hx)
      refine wp_call (map_frames_spec false rfl ho (fun v hv => own_of_lt (hlow v hv)) hmapped
        (.inr (h.unmapped hle))) ?_
      rintro ⟨pt', area'⟩ φ₁ ⟨new, hnew, hf⟩
      exact hinsert pt' _ area' φ₁ new hnew hf
    · refine absurd hno (vpn_range_ne_none ?_)
      have := hle.trans h.low
      simp only [ceil_checks, Bool.and_eq_true, decide_eq_true_eq, PAGE_SIZE, USIZE]
      omega
  · rw [wp_bind, wp_pure]
    refine hinsert as.page_table _ area φ [] ?_ (Filled.refl ho)
    have hsame : ceil addr ≤ ceil as.data_segment_end := by
      simp only [round_up, ceil, PAGE_SIZE] at hcur ⊢
      omega
    rw [vpns, Nat.sub_eq_zero_of_le hsame]
    rfl

theorem BrkInv.shrink (h : BrkInv cfg rest start φ as) (hne : addr ≠ 0)
    (hle : addr ≤ as.data_segment_max) (hshrink : ceil addr < ceil as.data_segment_end) :
    wp (fun _ => False) (as.brk cfg addr) (fun r φ' => ∀ v, v < 2 ^ 26 →
      lookup cfg φ'.mem r.1.page_table v = lookup cfg φ.mem as.page_table v) φ := by
  obtain ⟨l, area, hareas, _, hl⟩ := h.last
  have hsplit : as.areas = l ++ (⟨start, as.data_segment_end⟩, area) :: [] := hareas
  generalize hnow : (⟨as.page_table, l, cfg.balance.removed as.shape (as.areas.map (·.1))
    ⟨as.data_segment_end, as.data_segment_end⟩, addr, as.data_segment_max⟩ : AddressSpace) = now
  have hpt : now.page_table = as.page_table := by rw [← hnow]
  have ho : Owns cfg userHalf φ now.page_table (area.frames ++ now.frames ++ rest) := by
    have hperm := (frames_remove hsplit).append_right rest
    rw [List.append_nil] at hperm
    rw [← hnow]
    exact h.ready.owns.perm hperm.symm
  have hcur : ¬ round_up as.data_segment_end ≤ addr := by
    simp only [round_up, ceil, PAGE_SIZE] at hshrink ⊢
    omega
  rw [AddressSpace.brk, h.checked_end, wp_bind, wp_unwrap]
  refine ⟨?_, by simp⟩
  rintro _ hend
  obtain rfl := Option.some.inj hend
  rw [if_neg hne, if_neg (Nat.not_lt.mpr hle), h.remove hareas hl, wp_bind, wp_unwrap]
  refine ⟨?_, by simp⟩
  rintro _ hentry
  obtain rfl := Option.some.inj hentry
  dsimp only
  rw [if_neg hcur, wp_bind, wp_pure]
  dsimp only
  rw [hnow]
  refine wp_call (insert_area_spec ho) ?_
  rintro as' φ' ⟨⟨shape, rfl⟩, _, hs⟩ v hv
  rw [← hpt]
  exact ho.sameMap (fun t ht => hs t (List.mem_append_left _ ht)) v (own_of_lt hv)

/-! ## Sequences of calls -/

theorem brk_step_ok {s s' : AddressSpace × Phys} {r : Int} (h : brk_step cfg s addr = .ok (s', r)) :
    s.1.brk cfg addr s.2 = .ok ((s'.1, r), s'.2) := by
  unfold brk_step at h
  cases hb : s.1.brk cfg addr s.2 with
  | error p => simp [hb, Except.map] at h
  | ok t =>
    simp only [hb, Except.map, Except.ok.injEq, Prod.mk.injEq] at h
    obtain ⟨rfl, rfl⟩ := h
    rfl

theorem BrkInv.skip (h : BrkInv cfg rest start φ as)
    (hskip : addr = 0 ∨ as.data_segment_max < addr) :
    brk_step cfg (as, φ) addr =
      .ok ((as, φ), if addr = 0 then (round_up as.data_segment_end : Int) else -1) := by
  unfold brk_step
  rw [AddressSpace.brk, h.checked_end]
  by_cases h0 : addr = 0
  · subst h0
    rfl
  · have hlt := hskip.resolve_left h0
    simp only [if_neg h0, if_pos hlt]
    rfl

theorem BrkInv.works_iff (h : BrkInv cfg rest start φ as) (hin : InData start addr) :
    BrkWorks cfg start (as, φ) addr ↔ brk_grows (as, φ) addr := by
  by_cases hskip : addr = 0 ∨ as.data_segment_max < addr
  · have hgrows : brk_grows (as, φ) addr := hskip.imp_right .inl
    refine iff_of_true ?_ hgrows
    rw [BrkWorks, h.skip hskip]
    dsimp only
    split
    · rfl
    · rw [if_pos (hskip.resolve_left ‹_›)]
      exact ⟨rfl, rfl⟩
  rw [not_or, Nat.not_lt] at hskip
  obtain ⟨hne, hle⟩ := hskip
  have hstart : start ≤ addr := hin.resolve_left hne
  rw [BrkWorks, brk_grows]
  simp only [hne, Nat.not_lt.mpr hle, false_or, if_false]
  constructor
  · intro hw
    by_contra hshrink
    rw [Nat.not_le] at hshrink
    obtain ⟨r, φ', hok, hkeep⟩ := wp_total (h.shrink hne hle hshrink)
    have hstep : brk_step cfg (as, φ) addr = .ok ((r.1, φ'), r.2) := by
      unfold brk_step
      rw [hok]
      rfl
    rw [hstep] at hw
    obtain ⟨_, hend, hmax, hpages⟩ := hw
    -- the last of the old pages is still mapped
    have hlast : ceil as.data_segment_end - 1 < ceil as.data_segment_end := by omega
    have hfirst : floor start ≤ ceil as.data_segment_end - 1 := by
      have := (floor_le_ceil start).trans (ceil_le hstart)
      omega
    have hbound := hlast.trans_le (ceil_le h.ready.keys.limit)
    have hnow := hpages.entries _ hfirst (by rw [hmax]; exact hbound)
    have hold := (h.entries _ hfirst hbound).mpr hlast
    dsimp only at hnow hend
    rw [hkeep _ (page_lt h.low hbound), hend] at hnow
    have := hnow.mp hold
    omega
  · intro hgrow
    have hspec := h.grow hne hle hstart hgrow
    cases hb : brk_step cfg (as, φ) addr with
    | error p =>
      have herr : as.brk cfg addr φ = .error p := by
        unfold brk_step at hb
        dsimp only at hb
        cases hr : as.brk cfg addr φ with
        | error q =>
          simp only [hr, Except.map, Except.error.injEq] at hb
          rw [hb]
        | ok t => simp [hr, Except.map] at hb
      have hpanic := wp_error hspec herr
      exact hpanic
    | ok t =>
      obtain ⟨s', r⟩ := t
      obtain ⟨hr, hend, hmax, hinv⟩ := wp_ok hspec (brk_step_ok hb)
      exact ⟨hr, hend, hmax, hinv.pages⟩

theorem BrkInv.step {s' : AddressSpace × Phys} {r : Int} (h : BrkInv cfg rest start φ as)
    (hin : InData start addr) (hgrows : brk_grows (as, φ) addr)
    (hs : brk_step cfg (as, φ) addr = .ok (s', r)) : BrkInv cfg rest start s'.2 s'.1 := by
  by_cases hskip : addr = 0 ∨ as.data_segment_max < addr
  · rw [h.skip hskip] at hs
    obtain ⟨rfl, _⟩ := Prod.mk.inj (Except.ok.inj hs)
    exact h
  rw [not_or, Nat.not_lt] at hskip
  obtain ⟨hne, hle⟩ := hskip
  have hgrow := (hgrows.resolve_left hne).resolve_left (Nat.not_lt.mpr hle)
  exact (wp_ok (h.grow hne hle (hin.resolve_left hne) hgrow) (brk_step_ok hs)).2.2.2

/-! ## The address space of a file -/

section File

variable {kernel : AddressSpace} {l : List (Option AddressSpace)} {elf : ElfFile}
  {last : ProgramHeader}

theorem ElfFile.Highest.data_end (h : elf.Highest last) : elf.data_end = last.va_range.stop := by
  obtain ⟨done, hloads, _⟩ := h
  rw [ElfFile.loads] at hloads
  rw [ElfFile.data_end, hloads, List.getLast?_concat]
  rfl

theorem ElfFile.Highest.mem (h : elf.Highest last) :
    last ∈ elf.program_iter ∧ last.load = true := by
  obtain ⟨done, hloads, _⟩ := h
  have hmem : last ∈ elf.loads := by simp [hloads]
  exact List.mem_filter.mp hmem

theorem ElfFile.Highest.stop_le (h : elf.Highest last) {ph : ProgramHeader}
    (hph : ph ∈ elf.program_iter) (hload : ph.load = true) :
    ph.va_range = last.va_range ∨ ph.va_range.stop ≤ last.virtual_addr := by
  obtain ⟨done, hloads, hbelow⟩ := h
  have hmem : ph ∈ elf.loads := List.mem_filter.mpr ⟨hph, hload⟩
  rw [hloads, List.mem_append, List.mem_singleton] at hmem
  rcases hmem with hmem | rfl
  · exact .inr (hbelow ph hmem)
  · exact .inl rfl

theorem Loading.highest (h : Loading elf.program_iter as) (hhigh : elf.Highest last) :
    ∃ l area, as.areas = l ++ [(last.va_range, area)] ∧
      ∀ a ∈ l, a.1.Before last.va_range ∧ a.1.start ≤ a.1.stop ∧ a.1.stop ≤ last.virtual_addr := by
  obtain ⟨hmem, hload⟩ := hhigh.mem
  obtain ⟨⟨k, area⟩, harea, rfl⟩ := List.mem_map.mp (h.all last hmem hload)
  obtain ⟨l₁, l₂, hareas⟩ := List.append_of_mem harea
  have hsorted := h.sorted
  rw [Sorted, hareas] at hsorted
  obtain ⟨_, h₂, h₁⟩ := List.pairwise_append.mp hsorted
  have hstop : last.virtual_addr ≤ last.va_range.stop := Nat.le_add_right _ _
  -- a key that is before or behind that of the segment is another
  have hother : ∀ a ∈ as.areas, a.1 ≠ last.va_range → a.1.start ≤ a.1.stop ∧
    a.1.stop ≤ last.virtual_addr := by
    intro a ha hne
    obtain ⟨ph, hph, hload', hk⟩ := h.keys a ha
    rw [hk] at hne ⊢
    exact ⟨Nat.le_add_right _ _, (hhigh.stop_le hph hload').resolve_left hne⟩
  have hnil : l₂ = [] := by
    refine List.eq_nil_iff_forall_not_mem.mpr fun a ha => ?_
    have hb := (List.pairwise_cons.mp h₂).1 a ha
    have hle := hother a (by simp [hareas, ha]) fun he => by
      rw [he] at hb
      exact Nat.lt_irrefl _ hb.1
    have := hb.2
    dsimp only at this
    omega
  subst hnil
  refine ⟨l₁, area, hareas, fun a ha => ?_⟩
  have hb := h₁ a ha _ List.mem_cons_self
  refine ⟨hb, hother a (by simp [hareas, ha]) fun he => ?_⟩
  rw [he] at hb
  exact Nat.lt_irrefl _ hb.1

theorem Tracks.apart_areas {m : Mem} {l : List (VARange × MapArea)} {a b : VARange × MapArea}
    {v : Nat} (h : Tracks cfg m as.page_table as.pages) (hareas : as.areas = l ++ [b]) (ha : a ∈ l)
    (hva : v ∈ a.2.data_frames.map (·.1)) (hvb : v ∈ b.2.data_frames.map (·.1)) : False := by
  have hd := h.distinct
  rw [AddressSpace.pages, hareas, List.flatMap_append, List.flatMap_singleton,
    List.map_append, List.nodup_append] at hd
  obtain ⟨x, hx, rfl⟩ := List.mem_map.mp hva
  obtain ⟨y, hy, hxy⟩ := List.mem_map.mp hvb
  refine hd.2.2 x.1 (List.mem_map.mpr ⟨Page.of a.2.map_perm x, ?_, rfl⟩) y.1
    (List.mem_map.mpr ⟨Page.of b.2.map_perm y, List.mem_map_of_mem hy, rfl⟩) hxy.symm
  exact List.mem_flatMap.mpr ⟨a, ha, List.mem_map_of_mem hx⟩

theorem from_elf_brk {s : Os} (h : Consistent cfg s) (hsep : elf.Separate)
    (hhigh : elf.Highest last) (hlow : round_up last.va_range.stop + AddressSpace.BRK_MAX ≤ 2 ^ 38)
    (hdev : ∀ d ∈ cfg.device_pages, vpn_va (d + 1) ≤ round_up last.va_range.stop ∨
      round_up last.va_range.stop + AddressSpace.BRK_MAX ≤ vpn_va d)
    (hload : AddressSpace.from_elf cfg s.kernel.page_table.root elf s.phys = .ok (as, φ')) :
    BrkInv cfg (others s.kernel s.spaces []) last.virtual_addr φ' as := by
  obtain ⟨φ, kernel, l⟩ := s
  obtain ⟨hevolves, hkeys, hloading, hwhole⟩ := wp_ok (from_elf_evolves hsep h.tracked) hload
  have hends : wp anyPanic (AddressSpace.from_elf cfg kernel.page_table.root elf)
    _ φ := from_elf_ends
  obtain ⟨hend, hmax⟩ := wp_ok hends hload
  rw [hhigh.data_end] at hend hmax
  have hready := hevolves.tracked.ready hkeys
  obtain ⟨l₁, area, hareas, hl⟩ := hloading.highest hhigh
  have hstop : last.virtual_addr ≤ last.va_range.stop := Nat.le_add_right _ _
  have hrange : last.va_range = ⟨last.virtual_addr, as.data_segment_end⟩ := by rw [hend]; rfl
  rw [hrange] at hareas hl
  have hwhole' : Whole (⟨last.virtual_addr, as.data_segment_end⟩, area) :=
    hwhole _ (by simp [hareas])
  refine ⟨hready, by rw [hmax]; exact hlow, by rw [hend]; exact hstop,
    ⟨l₁, area, hareas, hwhole', fun a ha => ?_⟩,
    fun v hv hlt => ?_⟩
  · obtain ⟨hbefore, hordered, hle⟩ := hl a ha
    refine ⟨hbefore, hordered, hle, fun htouch => ?_⟩
    by_contra hoff
    -- the page of the start would be a page of both
    have hbs := hbefore.1
    have hbe := hbefore.2
    dsimp only at hbs hbe
    have hfirst : floor last.virtual_addr ∈ a.1.pages := by
      rw [VARange.pages, mem_vpns, htouch]
      simp only [floor, ceil, page_offset, PAGE_SIZE] at hoff ⊢
      omega
    have hsecond :
      floor last.virtual_addr ∈ (VARange.mk last.virtual_addr as.data_segment_end).pages := by
      rw [VARange.pages, mem_vpns]
      simp only [floor, ceil, page_offset, PAGE_SIZE] at hoff ⊢
      omega
    exact hready.tracks.apart_areas hareas ha ((hwhole a (by simp [hareas, ha]) _).mp hfirst)
      ((hwhole' _).mp hsecond)
  · have hv26 : v < 2 ^ 26 := page_lt (by rw [hmax]; exact hlow) hlt
    constructor
    · intro hsome
      obtain ⟨e, he⟩ := Option.isSome_iff_exists.mp hsome
      by_cases hd : v ∈ cfg.device_pages
      · have := hdev v hd
        rw [hmax] at hlt
        rw [hend]
        simp only [round_up, ceil, vpn_va, AddressSpace.BRK_MAX, PAGE_SIZE] at this hlt ⊢
        omega
      · obtain ⟨x, hx, rfl⟩ := hready.tracks.tracked v e hv26 he hd
        obtain ⟨a, ha, hxa⟩ := List.mem_flatMap.mp hx
        obtain ⟨y, hy, rfl⟩ := List.mem_map.mp hxa
        have hpage : y.1 ∈ a.1.pages := (hwhole a ha y.1).mpr (List.mem_map_of_mem hy)
        have hle : a.1.stop ≤ as.data_segment_end := by
          rw [hareas, List.mem_append, List.mem_singleton] at ha
          rcases ha with ha | rfl
          · exact ((hl a ha).2.2.trans hstop).trans hend.ge
          · exact Nat.le_refl _
        exact (mem_vpns.mp hpage).2.trans_le (ceil_le hle)
    · intro hlt'
      obtain ⟨y, hy, rfl⟩ := List.mem_map.mp ((hwhole' v).mp (mem_vpns.mpr ⟨hv, hlt'⟩))
      have hmem : Page.of area.map_perm y ∈ as.pages :=
        List.mem_flatMap.mpr ⟨_, by rw [hareas]; exact List.mem_append_right _ List.mem_cons_self,
          List.mem_map_of_mem hy⟩
      obtain ⟨e, he, _⟩ := hready.tracks.mapped _ hmem
      dsimp only [Page.of] at he
      rw [he]
      rfl

end File

/-- A file was loaded whose last segment is the highest, with room for `brk` below the upper half
and between the devices. Then a sequence of calls of `brk`, at addresses from the start of the
segment on, does what it should exactly if no call takes a page away. -/
theorem brk_works_iff (cfg : Config) (sym : Layout) (mem : Mem) (kernel : PageTableImpl)
    (φ φ' : Phys) (es : List Event) (s : Os) (os : List Unit) (elf : ElfFile)
    (last : ProgramHeader) (as : AddressSpace) (addrs : List Nat)
    (hboot : boot cfg sym ⟨mem, PhyPageAllocator.new⟩ = .ok (kernel, φ))
    (hfits : Meets (Os.step cfg) (fun s e => e.fits s = true) (Os.start kernel φ) es)
    (hrun : run (Os.step cfg) (Os.start kernel φ) es = .ok (s, os)) (hsep : elf.Separate)
    (hhigh : elf.Highest last) (hlow : round_up last.va_range.stop + AddressSpace.BRK_MAX ≤ 2 ^ 38)
    (hdev : ∀ d ∈ cfg.device_pages, vpn_va (d + 1) ≤ round_up last.va_range.stop ∨
      round_up last.va_range.stop + AddressSpace.BRK_MAX ≤ vpn_va d)
    (hload : AddressSpace.from_elf cfg s.kernel.page_table.root elf s.phys = .ok (as, φ'))
    (haddrs : ∀ addr ∈ addrs, InData last.virtual_addr addr) :
    Meets (brk_step cfg) (BrkWorks cfg last.virtual_addr)
    (as, φ') addrs ↔ Meets (brk_step cfg) brk_grows (as, φ') addrs := by
  have h : Consistent cfg s := run_consistent hboot hfits hrun
  have hinv := from_elf_brk h hsep hhigh hlow hdev hload
  exact meets_iff_meets (fun t : AddressSpace × Phys =>
    BrkInv cfg (others s.kernel s.spaces []) last.virtual_addr t.2 t.1)
    (InData last.virtual_addr) (fun t addr hin ht => ht.works_iff hin)
      (fun t addr t' r hin ht hg hs => ht.step hin hg hs) hinv haddrs

/-- Growing, refused, and shrinking inside of the last page. -/
theorem brk_works_growing : ∃ kernel φ as φ',
    boot qemu smallLayout ⟨fun _ => 0, PhyPageAllocator.new⟩ = .ok (kernel, φ) ∧
    AddressSpace.from_elf qemu (Os.start kernel φ).kernel.page_table.root (onePage 0x1000)
    (Os.start kernel φ).phys = .ok (as, φ') ∧
    Meets (brk_step qemu) (BrkWorks qemu 0x1000) (as, φ') [0x2801, 0x9000, 0, 0x2400] := by
  obtain ⟨kernel, φ, s, os, hboot, hfits, hrun, hseen⟩ :=
    small_run_meets [] (fun s e => e.fits s = true)
      (fun s => (AddressSpace.from_elf qemu s.kernel.page_table.root
        (onePage 0x1000) s.phys).toOption.any
        (fun r => decide (Meets (brk_step qemu) brk_grows r [0x2801, 0x9000, 0, 0x2400])) = true)
          (by decide +kernel)
  obtain ⟨⟨as, φ'⟩, hload, hgrows⟩ := (Option.any_eq_true _ _).mp hseen
  have hload := toOption_eq_some.mp hload
  simp only [run, Except.ok.injEq, Prod.mk.injEq] at hrun
  obtain ⟨rfl, rfl⟩ := hrun
  have hiff := brk_works_iff qemu smallLayout _ kernel φ φ' [] _ [] (onePage 0x1000)
    ⟨true, 0x1000, 4096, 0, 0, true, true, false⟩
    as [0x2801, 0x9000, 0, 0x2400] hboot hfits rfl (by decide) ⟨[], rfl, by simp⟩
      (by decide) (by decide) hload
    (by decide)
  exact ⟨kernel, φ, as, φ', hboot, hload, hiff.mpr (of_decide_eq_true hgrows)⟩

/-- The segment grows by a page, shrinks again and grows again: the page is still mapped, and `brk`
panics. -/
theorem brk_meets_page : ∃ kernel φ as φ',
    boot qemu smallLayout ⟨fun _ => 0, PhyPageAllocator.new⟩ = .ok (kernel, φ) ∧
    AddressSpace.from_elf qemu (Os.start kernel φ).kernel.page_table.root (onePage 0x1000)
    (Os.start kernel φ).phys = .ok (as, φ') ∧
    run (brk_step qemu) (as, φ') [0x3000, 0x2000, 0x3000] = .error .assert := by
  obtain ⟨kernel, φ, s, os, hboot, hrun, hseen⟩ := small_run_ends [] (fun s =>
    (AddressSpace.from_elf qemu s.kernel.page_table.root (onePage 0x1000) s.phys).toOption.any
      (fun r => panics .assert (run (brk_step qemu) r [0x3000, 0x2000, 0x3000])) = true)
        (by decide +kernel)
  obtain ⟨⟨as, φ'⟩, hload, hpanics⟩ := (Option.any_eq_true _ _).mp hseen
  simp only [run, Except.ok.injEq, Prod.mk.injEq] at hrun
  obtain ⟨rfl, rfl⟩ := hrun
  exact ⟨kernel, φ, as, φ', hboot, toOption_eq_some.mp hload, panics_iff.mp hpanics⟩

end HectoOs.Mm
