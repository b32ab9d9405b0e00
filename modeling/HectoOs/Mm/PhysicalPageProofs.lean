import HectoOs.Mm.PhysicalPage

/-! # The frame allocator counts its trackers

Each operation keeps `AllocInv`, so every run of them does.
-/

open HectoOs.Lib HectoOs.ForwardList

namespace HectoOs.Mm

variable {may : Panic → Prop} {φ φ' : Phys} {live : List Nat} {p q : Nat}

theorem wp_assert {c : Bool} {R : Unit → Phys → Prop} :
    wp may (assert c) R φ ↔ (c = true → R () φ) ∧ (c = false → may .assert) := wp_require

theorem wp_assert_of {c : Bool} {R : Unit → Phys → Prop} (hc : c = true) (h : R () φ) :
    wp may (assert c) R φ :=
  wp_assert.mpr ⟨fun _ => h, fun hf => by simp [hc] at hf⟩

/-- The allocator manages the same pages. -/
def SameRange (φ φ' : Phys) : Prop :=
  φ'.allocator.start_ppn = φ.allocator.start_ppn ∧ φ'.allocator.npages = φ.allocator.npages

theorem SameRange.refl (φ : Phys) : SameRange φ φ := ⟨rfl, rfl⟩

theorem SameRange.trans {φ'' : Phys} (h : SameRange φ φ') (h' : SameRange φ' φ'') :
    SameRange φ φ'' :=
  ⟨h'.1.trans h.1, h'.2.trans h.2⟩

theorem SameRange.set_mem (h : SameRange φ φ') (m : Mem) : SameRange φ (φ'.set_mem m) := h

theorem SameRange.inRange (h : SameRange φ φ') (p : Nat) : φ'.InRange p ↔ φ.InRange p := by
  unfold Phys.InRange
  rw [h.1, h.2]

/-! ## One operation -/

namespace PhyPageAllocator

theorem usage_spec {R : Nat → Phys → Prop} (hp : φ.InRange p) (h : R (φ.ref_count p) φ) :
    wp may (usage p) R φ :=
  wp_bind.mpr (wp_bind.mpr (wp_assert_of (decide_eq_true hp) h))

/-- `p` was free, and now it has one tracker. -/
structure Fresh (φ φ' : Phys) (live : List Nat) (p : Nat) : Prop where
  notMem : p ∉ live
  inv : AllocInv φ' (p :: live)
  same : ∀ q, q ≠ p → SameFrame φ.mem φ'.mem q
  range : SameRange φ φ'

/-- What `alloc` returns and leaves behind. -/
def AllocPost (φ : Phys) (live : List Nat) : Option Nat → Phys → Prop
  | none, φ' => φ' = φ ∧ ∀ p, φ.InRange p → live.count p ≠ 0
  | some p, φ' => Fresh φ φ' live p

theorem fresh_of_pop (h : AllocInv φ live) {l : List Nat}
    (hl : IsList φ.mem (frame_va p) ((p :: l).map frame_va))
    (hm : ∀ q, q ∈ p :: l ↔ φ.InRange q ∧ live.count q = 0) :
    Fresh φ ((φ.set_list (pop_front φ.mem (frame_va p))).set_ref_count p 1) live p := by
  have hp := (hm p).mp List.mem_cons_self
  have hnot : p ∉ live := List.count_eq_zero.mp hp.2
  have hpl : p ∉ l := (List.nodup_cons.mp (List.Nodup.of_map _ hl.nodup)).1
  refine ⟨hnot, ⟨by simpa using h.bound, ⟨l, ?_, ?_⟩, ?_, ?_⟩, ?_, by simp [SameRange]⟩
  · simpa using pop_front_spec hl (AllocInv.links_apart hpl)
  · intro q
    -- `q` is in the rest of the list exactly if it was free and is not `p`
    have hq : φ.InRange q ∧ live.count q = 0 ↔ q = p ∨ q ∈ l := by rw [← hm, List.mem_cons]
    rw [Phys.set_ref_count_inRange, Phys.set_list_inRange]
    by_cases hqp : q = p
    · subst hqp
      simp [hpl]
    · rw [List.count_cons_of_ne (Ne.symm hqp), hq]
      simp [hqp]
  · intro q hq
    rw [Phys.set_ref_count_inRange, Phys.set_list_inRange] at hq
    rw [Phys.ref_count_set_ref_count (by simpa using hp.1) (by simpa using hq),
      Phys.set_list_ref_count]
    by_cases hqp : q = p
    · subst hqp
      rw [if_pos rfl, List.count_cons_self, hp.2]
    · rw [if_neg hqp, List.count_cons_of_ne (Ne.symm hqp)]
      exact h.usage q hq
  · intro q hq
    rw [Phys.set_ref_count_inRange, Phys.set_list_inRange]
    rcases List.mem_cons.mp hq with rfl | hq
    · exact hp.1
    · exact h.range q hq
  · intro q hqp
    simpa [pop_front] using SameFrame.of_ne (Ne.symm hqp) (le_refl _) (by omega)
      (store64_sameOn φ.mem (frame_va p) 0)

theorem alloc_spec (h : AllocInv φ live) : wp may alloc (AllocPost φ live) φ := by
  obtain ⟨l, hl, hm⟩ := h.free
  rw [alloc, wp_bind, wp_get, wp_ite]
  cases l with
  | nil =>
    have h0 : φ.allocator.free_list = 0 := hl
    refine ⟨fun _ => ?_, fun hne => absurd h0 hne⟩
    rw [wp_pure]
    refine ⟨rfl, fun p hp h0 => ?_⟩
    exact absurd ((hm p).mpr ⟨hp, h0⟩) List.not_mem_nil
  | cons p l =>
    have hhead : φ.allocator.free_list = frame_va p := hl.1
    have hp := (hm p).mp List.mem_cons_self
    rw [hhead] at hl ⊢
    refine ⟨fun h0 => absurd h0 (frame_va_pos p), fun _ => ?_⟩
    rw [wp_bind, wp_set, wp_bind]
    refine wp_assert_of (decide_eq_true (offset_le_floor_frame p)) ?_
    rw [vpn_ppn_frame, wp_bind]
    refine usage_spec (by simpa using hp.1) ?_
    rw [Phys.set_list_ref_count, h.usage p hp.1, hp.2, wp_bind]
    refine wp_assert_of rfl ?_
    rw [wp_bind, wp_modify, wp_pure]
    exact fresh_of_pop h hl hm

theorem dealloc_last (h : AllocInv φ live) (hp : p ∈ live) (h1 : live.count p = 1) :
    AllocInv ((φ.set_ref_count p 0).set_list (push_front φ.mem φ.allocator.free_list (frame_va p)))
      (live.erase p) := by
  obtain ⟨l, hl, hm⟩ := h.free
  have hr := h.range p hp
  have hpl : p ∉ l := fun hin => by
    have := ((hm p).mp hin).2
    omega
  have hlt : ∀ a ∈ l.map frame_va, a < 2 ^ 64 := by
    intro a ha
    obtain ⟨q, hq, rfl⟩ := List.mem_map.mp ha
    have := frame_va_lt (h.lt ((hm q).mp hq).1)
    omega
  refine ⟨by simpa using h.bound, ⟨p :: l, ?_, ?_⟩, ?_, ?_⟩
  · simpa using push_front_spec hl (frame_va_pos p) hlt (AllocInv.links_apart hpl)
  · intro q
    rw [Phys.set_list_inRange, Phys.set_ref_count_inRange, List.mem_cons, hm]
    by_cases hqp : q = p
    · subst hqp
      simp [hr, h1]
    · rw [List.count_erase_of_ne hqp]
      simp [hqp]
  · intro q hq
    rw [Phys.set_list_inRange, Phys.set_ref_count_inRange] at hq
    rw [Phys.set_list_ref_count, Phys.ref_count_set_ref_count hr hq]
    by_cases hqp : q = p
    · subst hqp
      rw [if_pos rfl, List.count_erase_self, h1]
    · rw [if_neg hqp, List.count_erase_of_ne hqp]
      exact h.usage q hq
  · intro q hq
    rw [Phys.set_list_inRange, Phys.set_ref_count_inRange]
    exact h.range q (List.mem_of_mem_erase hq)

theorem set_count_inv (h : AllocInv φ live) {live' : List Nat} (hp : p ∈ live)
    (hp' : p ∈ live') (hc : ∀ q, q ≠ p → live'.count q = live.count q) :
    AllocInv (φ.set_ref_count p (live'.count p)) live' := by
  obtain ⟨l, hl, hm⟩ := h.free
  have hr := h.range p hp
  have h1 := List.count_pos_iff.mpr hp
  have h2 := List.count_pos_iff.mpr hp'
  refine ⟨by simpa using h.bound, ⟨l, by simpa using hl, ?_⟩, ?_, ?_⟩
  · intro q
    rw [Phys.set_ref_count_inRange]
    by_cases hqp : q = p
    · subst hqp
      rw [hm]
      omega
    · rw [hc q hqp, hm]
  · intro q hq
    rw [Phys.set_ref_count_inRange] at hq
    rw [Phys.ref_count_set_ref_count hr hq]
    by_cases hqp : q = p
    · rw [if_pos hqp, hqp]
    · rw [if_neg hqp, hc q hqp]
      exact h.usage q hq
  · intro q hq
    rw [Phys.set_ref_count_inRange]
    by_cases hqp : q = p
    · exact hqp ▸ hr
    · have := List.count_pos_iff.mpr hq
      exact h.range q (List.count_pos_iff.mp (by rw [← hc q hqp]; exact this))

/-- What dropping one tracker of `p` leaves. -/
structure Dropped (φ φ' : Phys) (live : List Nat) (p : Nat) : Prop where
  inv : AllocInv φ' (live.erase p)
  same : ∀ q, q ≠ p ∨ q ∈ live.erase p → SameFrame φ.mem φ'.mem q
  range : SameRange φ φ'

theorem dealloc_spec (h : AllocInv φ live) (hp : p ∈ live) :
    wp may (dealloc p) (fun _ φ' => Dropped φ φ' live p) φ := by
  have hr := h.range p hp
  have hpos := List.count_pos_iff.mpr hp
  have hc : (live.erase p).count p = live.count p - 1 := List.count_erase_self
  rw [dealloc, wp_bind]
  refine usage_spec hr ?_
  rw [h.usage p hr, wp_bind]
  refine wp_assert_of (decide_eq_true hpos) ?_
  rw [wp_bind, wp_modify, wp_ite]
  refine ⟨fun h1 => ?_, fun h1 => ?_⟩
  · rw [wp_bind]
    refine wp_assert_of (bne_iff_ne.mpr (frame_va_pos p)) ?_
    rw [wp_modify, Phys.set_ref_count_mem, Phys.set_ref_count_free_list, h1]
    refine ⟨dealloc_last h hp (by omega), fun q hq => ?_, by simp [SameRange]⟩
    have hqp : q ≠ p := by
      rcases hq with hq | hq
      · exact hq
      · rintro rfl
        have := List.count_pos_iff.mpr hq
        omega
    simpa [push_front] using SameFrame.of_ne (Ne.symm hqp) (le_refl _) (by omega)
      (store64_sameOn φ.mem (frame_va p) φ.allocator.free_list)
  · rw [wp_pure, ← hc]
    refine ⟨set_count_inv h hp (List.count_pos_iff.mp (by omega))
      fun q hq => List.count_erase_of_ne hq,
      fun q _ => ?_, by simp [SameRange]⟩
    rw [Phys.set_ref_count_mem]
    exact SameFrame.refl _ _

theorem clone_spec (h : AllocInv φ live) (hp : p ∈ live) :
    wp may (clone p) (fun _ φ' => AllocInv φ' (p :: live) ∧ φ'.mem = φ.mem ∧ SameRange φ φ') φ := by
  have hr := h.range p hp
  have hc : (p :: live).count p = live.count p + 1 := List.count_cons_self
  rw [clone, wp_bind]
  refine usage_spec hr ?_
  rw [h.usage p hr, wp_bind]
  refine wp_assert_of (decide_eq_true (List.count_pos_iff.mpr hp)) ?_
  rw [wp_modify, ← hc]
  exact ⟨set_count_inv h hp List.mem_cons_self fun q hq =>
    List.count_cons_of_ne (Ne.symm hq), by simp,
    by simp [SameRange]⟩

theorem get_ref_count_spec {R : Nat → Phys → Prop} (h : AllocInv φ live) (hp : p ∈ live)
    (hR : R (live.count p) φ) : wp may (get_ref_count p) R φ := by
  have hr := h.range p hp
  rw [get_ref_count, wp_bind]
  refine usage_spec hr ?_
  rw [h.usage p hr, wp_bind]
  exact wp_assert_of (decide_eq_true (List.count_pos_iff.mpr hp)) hR

end PhyPageAllocator

open PhyPageAllocator

/-- Every frame has a tracker. -/
def NoneFree (φ : Phys) (live : List Nat) : Prop := ∀ p, φ.InRange p → p ∈ live

theorem frame_alloc_spec (hm : NoneFree φ live → may .out_of_frames) (h : AllocInv φ live) :
    wp may frame_alloc (fun p φ' => Fresh φ φ' live p) φ := by
  refine wp_call (alloc_spec h) ?_
  intro r φ' hr
  refine wp_unwrap.mpr ⟨?_, ?_⟩
  · rintro p rfl
    exact hr
  · rintro rfl
    exact hm fun p hp => by_contra fun hno => hr.2 p hp (List.count_eq_zero.mpr hno)

/-! ## Initialisation -/

/-- `PHYPAGE_ALLOCATOR` before `init`. -/
def PhyPageAllocator.new : PhyPageAllocator := ⟨0, fun _ => 0, 0, 1⟩

theorem push_all_spec (l : List Nat) : ∀ (acc : List Nat) (r : Mem × Nat),
    IsList r.1 r.2 (acc.map vpn_va) → (l.reverse ++ acc).Nodup →
    (∀ v ∈ l ++ acc, 0 < v ∧ v < 2 ^ 52) →
    IsList (l.foldl (fun r v => push_front r.1 r.2 (vpn_va v)) r).1
      (l.foldl (fun r v => push_front r.1 r.2 (vpn_va v)) r).2 ((l.reverse ++ acc).map vpn_va) := by
  induction l with
  | nil => exact fun acc r h _ _ => h
  | cons v l ih =>
    intro acc r h hnd hlt
    have hv := hlt v List.mem_cons_self
    have hnd' : (l.reverse ++ v :: acc).Nodup := by simpa using hnd
    have hnot : v ∉ acc := (List.nodup_cons.mp (List.nodup_append.mp hnd').2.1).1
    have hstep : IsList (push_front r.1 r.2 (vpn_va v)).1 (push_front r.1 r.2 (vpn_va v)).2
        ((v :: acc).map vpn_va) := by
      refine push_front_spec h ?_ ?_ ?_
      · simp only [vpn_va, PAGE_SIZE]
        omega
      all_goals
        intro a ha
        obtain ⟨w, hw, rfl⟩ := List.mem_map.mp ha
        have := (hlt w (List.mem_append_right _ hw)).2
        have hne : w ≠ v := fun he => hnot (he ▸ hw)
        simp only [vpn_va, PAGE_SIZE]
        omega
    have := ih (v :: acc) _ hstep hnd' fun w hw => hlt w (by simpa [or_comm, or_left_comm] using hw)
    simpa using this

theorem mem_pages {start stop p : Nat} (hs : KERNEL_VPN_OFFSET ≤ start) :
    p ∈ (vpns start stop).map vpn_ppn ↔ start ≤ ppn_vpn p ∧ ppn_vpn p < stop := by
  rw [List.mem_map]
  constructor
  · rintro ⟨v, hv, rfl⟩
    have hv := mem_vpns.mp hv
    rw [ppn_vpn_vpn_ppn (hs.trans hv.1)]
    exact hv
  · exact fun hp => ⟨ppn_vpn p, mem_vpns.mpr hp, vpn_ppn_ppn_vpn p⟩

/-- The pages `init` hands to the allocator. -/
def Managed (ekernel memory_end p : Nat) : Prop :=
  ceil ekernel ≤ ppn_vpn p ∧ ppn_vpn p < floor memory_end

theorem init_spec {ekernel memory_end : Nat} (hend : memory_end < USIZE) (mem : Mem) :
    wp (fun _ => True) (init ekernel memory_end)
      (fun _ φ => AllocInv φ [] ∧ ∀ p, φ.InRange p ↔ Managed ekernel memory_end p)
      ⟨mem, PhyPageAllocator.new⟩ := by
  simp only [init, wp_bind, wp_assert, wp_modify]
  refine ⟨fun hceil => ⟨fun hle => ⟨fun hoff => ?_, fun _ => trivial⟩, fun _ => trivial⟩,
    fun _ => trivial⟩
  have hle := of_decide_eq_true hle
  have hoff := of_decide_eq_true hoff
  have hpos : 0 < ceil ekernel := by
    simp only [ceil_checks, ceil, PAGE_SIZE, Bool.and_eq_true, decide_eq_true_eq] at *
    omega
  have hstop : floor memory_end ≤ 2 ^ 52 := by
    simp only [floor, PAGE_SIZE, USIZE] at *
    omega
  generalize hst : ceil ekernel = start at *
  generalize hsp : floor memory_end = stop at *
  have hlen := vpn_ppn_add hoff hle
  have hin : ∀ p, vpn_ppn start ≤ p ∧ p < vpn_ppn start + (stop - start) ↔
      start ≤ ppn_vpn p ∧ ppn_vpn p < stop := by
    intro p
    have h1 := ppn_vpn_le_iff (v := start) (p := p)
    have h2 := ppn_vpn_le_iff (v := stop) (p := p)
    omega
  refine ⟨⟨?_, ⟨(vpns start stop).map vpn_ppn, ?_, ?_⟩, by simp, by simp⟩, ?_⟩
  · have h1 := vpn_ppn_le hstop
    rw [Phys.set_pages_start_ppn, Phys.set_pages_npages]
    omega
  · have hpush := push_all_spec (vpns start stop).reverse [] (mem, 0) rfl
      (by simpa using nodup_vpns start stop) (by
        intro v hv
        have hv := mem_vpns.mp (by simpa using hv)
        omega)
    have heq : ((vpns start stop).map vpn_ppn).map frame_va = (vpns start stop).map vpn_va := by
      rw [List.map_map]
      refine List.map_congr_left fun v hv => ?_
      rw [Function.comp_apply]
      exact frame_va_vpn_ppn (hoff.trans (mem_vpns.mp hv).1)
    rw [heq]
    simpa [PhyPageAllocator.new] using hpush
  · intro p
    rw [mem_pages hoff, ← hin p]
    simp
  · intro p
    rw [Managed, hst, hsp, ← hin p, Phys.set_pages_inRange]

/-! ## Runs -/

/-- The allocator, and the frame trackers that are alive. -/
structure Frames where
  phys : Phys
  live : List Nat

/-- What the owners of frame trackers do. Besides the operations of the allocator they write to
the frames they hold. -/
inductive FrameOp where
  | alloc
  | clone (p : Nat)
  | drop (p : Nat)
  | get_ref_count (p : Nat)
  | store (p offset : Nat) (b : Byte)

namespace Frames

def step (s : Frames) : FrameOp → Except Panic (Frames × Option Nat)
  | .alloc => (alloc s.phys).map fun (r, φ) => (⟨φ, r.toList ++ s.live⟩, r)
  | .clone p => (PhyPageAllocator.clone p s.phys).map fun (_, φ) => (⟨φ, p :: s.live⟩, none)
  | .drop p => (dealloc p s.phys).map fun (_, φ) => (⟨φ, s.live.erase p⟩, none)
  | .get_ref_count p => (get_ref_count p s.phys).map fun (n, φ) => (⟨φ, s.live⟩, some n)
  | .store p offset b =>
    .ok (⟨s.phys.set_mem (storeByte s.phys.mem (frame_va p + offset) b), s.live⟩, none)

/-- Rust's ownership: only a tracker that is alive is cloned, dropped, asked or written through. -/
def Owned (s : Frames) : FrameOp → Prop
  | .alloc => True
  | .clone p | .drop p | .get_ref_count p => p ∈ s.live
  | .store p offset _ => p ∈ s.live ∧ offset < PAGE_SIZE

/-- The free list holds the pages of reference count 0, each once, and the counts are those of the
live trackers. -/
structure Counted (s : Frames) : Prop where
  free : ∃ l : List Nat, IsList s.phys.mem s.phys.allocator.free_list (l.map frame_va) ∧ l.Nodup ∧
    ∀ p, p ∈ l ↔ s.phys.InRange p ∧ s.phys.ref_count p = 0
  count : ∀ p, s.phys.InRange p → s.phys.ref_count p = s.live.count p
  range : ∀ p ∈ s.live, s.phys.InRange p

/-- The next `alloc` returns a page that no live tracker carries, and none exactly if there is no
page of reference count 0. -/
def AllocFresh (s : Frames) : Prop :=
  ∃ r φ, alloc s.phys = .ok (r, φ) ∧ (∀ p, r = some p → s.phys.InRange p ∧ p ∉ s.live) ∧
    (r = none ↔ ∀ p, s.phys.InRange p → s.phys.ref_count p ≠ 0)

theorem counted_of_inv {s : Frames} (h : AllocInv s.phys s.live) : Counted s where
  free := by
    obtain ⟨l, hl, hm⟩ := h.free
    refine ⟨l, hl, AllocInv.nodup_free hl, fun p => ?_⟩
    rw [hm]
    constructor
    · exact fun hp => ⟨hp.1, (h.usage p hp.1).trans hp.2⟩
    · exact fun hp => ⟨hp.1, (h.usage p hp.1).symm.trans hp.2⟩
  count := h.usage
  range := h.range

theorem allocFresh_of_inv {s : Frames} (h : AllocInv s.phys s.live) : AllocFresh s := by
  obtain ⟨r, φ, hr, hpost⟩ := wp_total (alloc_spec h)
  refine ⟨r, φ, hr, ?_⟩
  cases r with
  | none =>
    refine ⟨by simp, by simpa using fun p hp h0 => hpost.2 p hp ((h.usage p hp).symm.trans h0)⟩
  | some p =>
    have hin : s.phys.InRange p := (hpost.range.inRange p).mp (hpost.inv.range p List.mem_cons_self)
    refine ⟨fun q hq => ?_, ?_⟩
    · obtain rfl := Option.some.inj hq
      exact ⟨hin, hpost.notMem⟩
    · simp only [reduceCtorEq, false_iff]
      intro hall
      exact hall p hin ((h.usage p hin).trans (List.count_eq_zero.mpr hpost.notMem))

theorem step_spec {s : Frames} {op : FrameOp} (h : AllocInv s.phys s.live) (ho : Owned s op) :
    ∃ s' o, step s op = .ok (s', o) ∧ AllocInv s'.phys s'.live ∧ SameRange s.phys s'.phys := by
  cases op with
  | alloc =>
    obtain ⟨r, φ, hr, hpost⟩ := wp_total (alloc_spec h)
    refine ⟨⟨φ, r.toList ++ s.live⟩, r, by simp [step, hr, Except.map], ?_⟩
    cases r with
    | none =>
      obtain ⟨rfl, _⟩ := hpost
      exact ⟨h, rfl, rfl⟩
    | some p => exact ⟨hpost.inv, hpost.range⟩
  | clone p =>
    obtain ⟨_, φ, hr, hinv, _, hrange⟩ := wp_total (clone_spec h ho)
    exact ⟨⟨φ, p :: s.live⟩, none, by simp [step, hr, Except.map], hinv, hrange⟩
  | drop p =>
    obtain ⟨_, φ, hr, hd⟩ := wp_total (dealloc_spec h ho)
    exact ⟨⟨φ, s.live.erase p⟩, none, by simp [step, hr, Except.map], hd.inv, hd.range⟩
  | get_ref_count p =>
    obtain ⟨n, φ, hr, hn⟩ := wp_total (get_ref_count_spec (R := fun _ φ => φ = s.phys) h ho rfl)
    subst hn
    exact ⟨⟨s.phys, s.live⟩, some n, by simp [step, hr, Except.map], h, rfl, rfl⟩
  | store p offset b =>
    refine ⟨_, _, rfl, h.write fun q _ hq => ?_, rfl, rfl⟩
    have hne : p ≠ q := fun he => hq (he ▸ ho.1)
    have hoff := ho.2
    simp only [PAGE_SIZE] at hoff
    exact SameFrame.of_ne (b := frame_va p + offset + 1) hne (Nat.le_add_right _ offset) (by omega)
      fun c d hcd => storeByte_sameOn s.phys.mem (frame_va p + offset) b c d hcd

theorem run_spec {s : Frames} {ops : List FrameOp} (h : AllocInv s.phys s.live)
    (ho : Meets step Owned s ops) :
    ∃ s' os, run step s ops = .ok (s', os) ∧ AllocInv s'.phys s'.live ∧
    SameRange s.phys s'.phys := by
  induction ops generalizing s with
  | nil => exact ⟨s, [], rfl, h, rfl, rfl⟩
  | cons op ops ih =>
    obtain ⟨t, o, ht, hinv, hr⟩ := step_spec h ho.1
    obtain ⟨s', os, hs', hinv', hr'⟩ := ih hinv (ho.2 t o ht)
    exact ⟨s', o :: os, by simp [run, ht, hs'], hinv', hr.trans hr'⟩

/-- After `init`, whatever the owners of trackers do, nothing panics, and the counts, the free list
and the next allocation are right. -/
theorem frames_counted (ekernel memory_end : Nat) (mem : Mem)
    (φ : Phys) (ops : List FrameOp) (hend : memory_end < USIZE)
    (hinit : init ekernel memory_end ⟨mem, PhyPageAllocator.new⟩ = .ok ((), φ))
    (howned : Meets step Owned ⟨φ, []⟩ ops) :
    ∃ s os, run step ⟨φ, []⟩ ops = .ok (s, os) ∧
    (∀ p, s.phys.InRange p ↔ Managed ekernel memory_end p) ∧
      Counted s ∧ AllocFresh s ∧ ∀ op, Owned s op → ∃ s' o, step s op = .ok (s', o) := by
  obtain ⟨hinv, hman⟩ := wp_ok (init_spec hend mem) hinit
  obtain ⟨s, os, hrun, hs, hr⟩ := run_spec hinv howned
  refine ⟨s, os, hrun, fun p => (hr.inRange p).trans (hman p), counted_of_inv hs,
    allocFresh_of_inv hs, ?_⟩
  intro op ho
  obtain ⟨s', o, h, _⟩ := step_spec hs ho
  exact ⟨s', o, h⟩

/-- Two pages, of which the first is allocated and dropped again. -/
theorem frames_counted_two_pages : ∃ φ s os,
    init 0xFFFF_FFC0_8020_0000 0xFFFF_FFC0_8020_2000
      ⟨fun _ => 0, PhyPageAllocator.new⟩ = .ok ((), φ) ∧
    run step ⟨φ, []⟩ [.alloc, .drop 0x80200] = .ok (s, os) ∧ Counted s := by
  have halloc :
    ((init 0xFFFF_FFC0_8020_0000 0xFFFF_FFC0_8020_2000 ⟨fun _ => 0, PhyPageAllocator.new⟩).bind
      fun r => step ⟨r.2, []⟩ .alloc).toOption.map (·.1.live) = some [0x80200] := by decide +kernel
  cases hinit : init 0xFFFF_FFC0_8020_0000 0xFFFF_FFC0_8020_2000
    ⟨fun _ => 0, PhyPageAllocator.new⟩ with
  | error e =>
    rw [hinit] at halloc
    simp [Except.bind, Except.toOption] at halloc
  | ok r =>
    have howned : Meets step Owned ⟨r.2, []⟩ [.alloc, .drop 0x80200] := by
      refine ⟨trivial, fun s o hs => ⟨?_, fun _ _ _ => trivial⟩⟩
      rw [hinit] at halloc
      simp only [Except.bind, hs, Except.toOption, Option.map_some, Option.some.injEq] at halloc
      simp [Owned, halloc]
    obtain ⟨s, os, hrun, _, hc, _⟩ := frames_counted _ _ _ r.2 _ (by decide) hinit howned
    exact ⟨r.2, s, os, rfl, hrun, hc⟩

end Frames

end HectoOs.Mm
