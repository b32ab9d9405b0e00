import HectoOs.Mm.MapProofs

/-! # The page table refines a finite map

A page table made by `new_kernel` is compared, operation by operation, with a map from pages to
physical pages and flags.
-/

open HectoOs.Lib

namespace HectoOs.Mm.PageTableImpl

/-! ## The map -/

/-- What the map holds for a page: the physical page, and the nine flags. -/
abbrev PageMap := Nat → Option (Nat × BitVec 9)

/-- The nine flags of an entry. -/
def flags (e : PTEImpl) : BitVec 9 := e.setWidth 9

inductive Op where
  | map_one (vpn ppn : Nat) (flags : PTEImpl)
  | unmap_one (vpn : Nat)
  | remap_one (vpn ppn : Nat) (flags : PTEImpl)
  | modify_flags (vpn : Nat) (flags : PTEImpl)

namespace Op

def vpn : Op → Nat
  | .map_one v _ _ | .unmap_one v | .remap_one v _ _ | .modify_flags v _ => v

/-- A page of the lower half, and a physical page number that fits the entry. -/
def Ok (op : Op) : Prop :=
  Own userHalf op.vpn ∧
  match op with
  | .map_one _ p _ | .remap_one _ p _ => p < 2 ^ 38
  | .unmap_one _ | .modify_flags _ _ => True

/-- The value of the operation's page afterwards. -/
def value (a : PageMap) : Op → Option (Nat × BitVec 9)
  | .map_one _ p f | .remap_one _ p f => some (p, flags (f ||| .VALID))
  | .unmap_one _ => none
  | .modify_flags v f => (a v).map fun x => (x.1, flags (f ||| .VALID))

/-- The operation on the map: pages with other low 27 bits are not affected. -/
def apply (a : PageMap) (op : Op) : PageMap :=
  fun w => if key w = key op.vpn then op.value a else a w

/-- `map_one` asks that the page is not in the map, the others that it is. -/
def Pre (a : PageMap) : Op → Prop
  | .map_one v _ _ => a v = none
  | .unmap_one v | .remap_one v _ _ | .modify_flags v _ => (a v).isSome

end Op

/-! ## The page table -/

structure State where
  phys : Phys
  pt : PageTableImpl

variable (cfg : Config)

def step (s : State) : Op → Except Panic (State × Unit)
  | .map_one v p f => (map_one cfg s.pt v p f s.phys).map fun (pt, φ) => (⟨φ, pt⟩, ())
  | .unmap_one v => (unmap_one cfg s.pt v s.phys).map fun (_, φ) => (⟨φ, s.pt⟩, ())
  | .remap_one v p f => (remap_one cfg s.pt v p f s.phys).map fun (_, φ) => (⟨φ, s.pt⟩, ())
  | .modify_flags v f => (modify_flags cfg s.pt v f s.phys).map fun (_, φ) => (⟨φ, s.pt⟩, ())

/-- The entries of a page table as a map. -/
def view (m : Mem) (pt : PageTableImpl) : PageMap := fun v =>
  (lookup cfg m pt v).map fun e => (e.ppn cfg, flags e)

/-- The map after `new_kernel`: the pages of the upper half are those of the kernel. -/
def kernelMap (m : Mem) (kernel : PageTableImpl) : PageMap := fun v =>
  if (vpn_index v 18).val < 256 then none else view cfg m kernel v

/-- The kernel's page table is a tree of frames that are alive. -/
structure KernelAlive (φ : Phys) (kernel : PageTableImpl) (live : List Nat) : Prop where
  alloc : AllocInv φ live
  tree : Tree cfg φ.mem kernel (fun _ => True)
  live : ∀ t ∈ kernel.tables, t ∈ live

/-- The page table translates as the map says, and its memory is a tree beside the kernel's. -/
structure Refines (kernel : PageTableImpl) (s : State) (a : PageMap) : Prop where
  live : ∃ live, KernelAlive cfg s.phys kernel live ∧ ∀ t ∈ s.pt.tables, t ∈ live
  tree : Tree cfg s.phys.mem s.pt userHalf
  apart : ∀ t ∈ kernel.tables, t ∉ s.pt.tables
  shared : ∀ i, ¬ userHalf i → read_pte s.phys.mem s.pt.root i = read_pte s.phys.mem kernel.root i
  agrees : ∀ v, view cfg s.phys.mem s.pt v = a v

variable {cfg}

section Step

variable {kernel : PageTableImpl} {s : State} {a : PageMap} {op : Op}

theorem flags_new (p : Nat) (f : PTEImpl) : flags (.new p f) = flags f := by
  apply BitVec.eq_of_getLsbD_eq
  intro i hi
  rw [flags, flags, BitVec.getLsbD_setWidth, BitVec.getLsbD_setWidth, PTEImpl.getLsbD_new p f hi]

theorem view_new {p : Nat} (hp : p < 2 ^ cfg.ppn_bits) (f : PTEImpl) :
    (some (PTEImpl.new p f)).map (fun e => (e.ppn cfg, flags e)) = some (p, flags f) := by
  rw [Option.map_some, PTEImpl.ppn_new_of_lt cfg hp, flags_new]

/-- What an operation has done: it changed the entry of its page to one that the map expects. -/
structure Done (cfg : Config) (live : List Nat) (s : State) (a : PageMap)
    (op : Op) (s' : State) : Prop where
  pre : op.Pre a
  step : ∃ new, Step cfg userHalf live s.phys s.pt s'.phys s'.pt new []
  update : ∃ e, Updates cfg userHalf s.phys.mem s.pt s'.phys.mem s'.pt op.vpn e ∧
    e.map (fun e => (e.ppn cfg, flags e)) = op.value a

variable {live : List Nat}

theorem lookup_eq_none (h : Refines cfg kernel s a) {v : Nat} (hv : a v = none) :
    lookup cfg s.phys.mem s.pt v = none := by
  rw [← h.agrees v, view, Option.map_eq_none_iff] at hv
  exact hv

theorem lookup_isSome (h : Refines cfg kernel s a) (v : Nat) :
    (lookup cfg s.phys.mem s.pt v).isSome = (a v).isSome := by
  rw [← h.agrees v, view, Option.isSome_map]

theorem step_spec (h : Refines cfg kernel s a) (hop : op.Ok) (ha : AllocInv s.phys live)
    (hl : ∀ t ∈ s.pt.tables, t ∈ live) :
    (∀ s' o, step cfg s op = .ok (s', o) → Done cfg live s a op s') ∧
    ∀ p, step cfg s op = .error p → op.Pre a → p = .out_of_frames := by
  -- a failed check is allowed exactly if the map refuses the operation
  have hmay : ∀ {P : Prop}, (op.Pre a → P) → (op.Pre a → Panic.assert = .out_of_frames) ∨ P := by
    intro P hP
    by_cases hpre : op.Pre a
    · exact .inr (hP hpre)
    · exact .inl fun hp => absurd hp hpre
  have h38 : (2 : Nat) ^ 38 ≤ 2 ^ cfg.ppn_bits := Nat.pow_le_pow_right (by omega) cfg.ppn_bits_ge
  have hsome : ∀ v, (lookup cfg s.phys.mem s.pt v).isSome → (a v).isSome := fun v hv => by
    rwa [← lookup_isSome h]
  have hnone : ∀ v, lookup cfg s.phys.mem s.pt v = none → a v = none := fun v hv => by
    rw [← h.agrees v, view, hv]
    rfl
  obtain ⟨hown, hppn⟩ := hop
  cases op with
  | map_one v p f =>
    have hspec : wp (fun e => (Op.map_one v p f).Pre a → e = .out_of_frames)
      (map_one cfg s.pt v p f) _ s.phys :=
      map_one_spec ha h.tree hl hown (fun _ => rfl) (hmay fun hp => lookup_eq_none h hp)
    refine ⟨fun s' o hs => ?_, fun e he => wp_map_error hspec he⟩
    obtain ⟨pt', φ', ⟨hlook, new, hstep, hup⟩, heq⟩ := wp_map_ok hspec hs
    obtain ⟨rfl, rfl⟩ := Prod.mk.inj heq
    exact ⟨hnone v hlook, ⟨new, hstep⟩, _, hup, view_new (lt_of_lt_of_le hppn h38) _⟩
  | unmap_one v =>
    have hspec : wp (fun e => (Op.unmap_one v).Pre a → e = .out_of_frames)
      (unmap_one cfg s.pt v) _ s.phys :=
      unmap_one_spec ha h.tree hl hown (hmay fun hp => by rwa [lookup_isSome h])
    refine ⟨fun s' o hs => ?_, fun e he => wp_map_error hspec he⟩
    obtain ⟨_, φ', ⟨hlook, hstep, hup⟩, heq⟩ := wp_map_ok hspec hs
    obtain ⟨rfl, rfl⟩ := Prod.mk.inj heq
    exact ⟨hsome v hlook, ⟨[], hstep⟩, _, hup, rfl⟩
  | remap_one v p f =>
    have hspec : wp (fun e => (Op.remap_one v p f).Pre a → e = .out_of_frames)
      (remap_one cfg s.pt v p f) _
        s.phys := remap_one_spec ha h.tree hl hown (hmay fun hp => by rwa [lookup_isSome h])
    refine ⟨fun s' o hs => ?_, fun e he => wp_map_error hspec he⟩
    obtain ⟨_, φ', ⟨hlook, hstep, hup⟩, heq⟩ := wp_map_ok hspec hs
    obtain ⟨rfl, rfl⟩ := Prod.mk.inj heq
    exact ⟨hsome v hlook, ⟨[], hstep⟩, _, hup, view_new (lt_of_lt_of_le hppn h38) _⟩
  | modify_flags v f =>
    have hspec : wp (fun e => (Op.modify_flags v f).Pre a → e = .out_of_frames)
      (modify_flags cfg s.pt v f) _
        s.phys := modify_flags_spec ha h.tree hl hown (hmay fun hp => by rwa [lookup_isSome h])
    refine ⟨fun s' o hs => ?_, fun e he => wp_map_error hspec he⟩
    obtain ⟨_, φ', ⟨e, hlook, hstep, hup⟩, heq⟩ := wp_map_ok hspec hs
    obtain ⟨rfl, rfl⟩ := Prod.mk.inj heq
    refine ⟨hsome v (by rw [hlook]; rfl), ⟨[], hstep⟩, _, hup, ?_⟩
    rw [view_new (PTEImpl.ppn_lt cfg e), Op.value, ← h.agrees v, view, hlook]
    rfl

theorem kernel_same (h : Refines cfg kernel s a) (halive : KernelAlive cfg s.phys kernel live)
    {s' : State} {new : List Nat} (hs : Step cfg userHalf live s.phys s.pt s'.phys s'.pt new []) :
    ∀ t ∈ kernel.tables, SameFrame s.phys.mem s'.phys.mem t :=
  fun t ht => hs.same t (halive.live t ht) (h.apart t ht)

theorem done_refines (h : Refines cfg kernel s a) (hop : op.Ok)
    (halive : KernelAlive cfg s.phys kernel live) (hl : ∀ t ∈ s.pt.tables, t ∈ live)
    {s' : State} (hd : Done cfg live s a op s') :
    Refines cfg kernel s' (op.apply a) := by
  obtain ⟨new, hs⟩ := hd.step
  obtain ⟨e, hup, hval⟩ := hd.update
  have hsame := kernel_same h halive hs
  have hkroot : kernel.root ∈ kernel.tables := List.mem_cons_self
  have hshared : ∀ i, ¬ userHalf i →
      read_pte s'.phys.mem s'.pt.root i = read_pte s'.phys.mem kernel.root i := by
    intro i hi
    rw [hs.root, hs.keep i hi, h.shared i hi, read_pte_same (hsame _ hkroot)]
  refine ⟨⟨new ++ [] ++ live, ⟨hs.alloc, halive.tree.congr hsame, ?_⟩,
    hs.tables_live hl⟩, hs.tree, ?_,
    hshared, ?_⟩
  · exact fun t ht => List.mem_append_right _ (halive.live t ht)
  · intro t ht ht'
    rcases hs.mem_tables.mp ht' with ht' | ht'
    · exact h.apart t ht ht'
    · exact hs.fresh t (by simpa using ht') (halive.live t ht)
  · intro w
    by_cases hw : Own userHalf w
    · rw [view, hup w hw, Op.apply]
      by_cases hk : key w = key op.vpn
      · rw [if_pos hk, if_pos hk, hval]
      · rw [if_neg hk, if_neg hk, ← h.agrees w, view]
    · -- both roots lead into the kernel's tables
      have hk : key w ≠ key op.vpn := fun hk => hw ((own_mod hk).mpr hop.1)
      have hnow : lookup cfg s'.phys.mem s'.pt w = lookup cfg s'.phys.mem kernel w :=
        lookup_of_root_eq (hshared _ hw)
      have hthen : lookup cfg s.phys.mem s.pt w = lookup cfg s.phys.mem kernel w :=
        lookup_of_root_eq (h.shared _ hw)
      rw [Op.apply, if_neg hk, ← h.agrees w, view, view, hnow, hthen,
        lookup_congr halive.tree hsame trivial]

end Step

/-! ## Runs -/

section Run

variable {kernel : PageTableImpl} {s : State} {a : PageMap}

theorem run_refines (h : Refines cfg kernel s a) {ops : List Op} (hops : ∀ op ∈ ops, op.Ok)
    {s' : State} {os : List Unit} (hrun : run (step cfg) s ops = .ok (s', os)) :
    Refines cfg kernel s' (ops.foldl Op.apply a) := by
  induction ops generalizing s a os with
  | nil =>
    simp only [run, Except.ok.injEq, Prod.mk.injEq] at hrun
    obtain ⟨rfl, _⟩ := hrun
    exact h
  | cons op ops ih =>
    obtain ⟨t, o, os', ht, hr, _⟩ := run_cons hrun
    have hop := hops op List.mem_cons_self
    obtain ⟨live, halive, hl⟩ := h.live
    have hd := (step_spec h hop halive.alloc hl).1 t o ht
    exact ih (done_refines h hop halive hl hd)
      (fun op' h' => hops op' (List.mem_cons_of_mem _ h')) hr

theorem new_kernel_refines {φ φ' : Phys} {live : List Nat} {pt : PageTableImpl}
    (halive : KernelAlive cfg φ kernel live) (hnew : new_kernel kernel.root φ = .ok (pt, φ')) :
    Refines cfg kernel ⟨φ', pt⟩ (kernelMap cfg φ.mem kernel) := by
  have hspec : wp (fun _ => True) (new_kernel kernel.root)
    (fun pt φ' => NewRoot cfg userHalf live φ φ' pt ∧ _ ∧ _)
      φ := new_kernel_spec trivial halive.alloc (halive.live _ List.mem_cons_self)
  obtain ⟨hroot, hnone, hshared⟩ := wp_ok hspec hnew
  have hsame : ∀ t ∈ kernel.tables, SameFrame φ.mem φ'.mem t :=
    fun t ht => hroot.same t (halive.live t ht)
  refine ⟨⟨pt.tables ++ live, ⟨hroot.alloc, halive.tree.congr hsame, ?_⟩, ?_⟩,
    hroot.tree, ?_, hshared, ?_⟩
  · exact fun t ht => List.mem_append_right _ (halive.live t ht)
  · exact fun t ht => List.mem_append_left _ ht
  · exact fun t ht ht' => hroot.fresh t ht' (halive.live t ht)
  · intro v
    rw [kernelMap, view]
    by_cases hv : (vpn_index v 18).val < 256
    · rw [if_pos hv, hnone v hv]
      rfl
    · rw [if_neg hv, view, lookup_of_root_eq (hshared _ hv), lookup_congr halive.tree hsame trivial]

theorem translate_va_of_refines (h : Refines cfg kernel s a) (va : Nat) :
    translate_va cfg s.phys.mem s.pt va = (a (floor va)).map fun x =>
      x.1 * PAGE_SIZE + page_offset va := by
  rw [← h.agrees, view, lookup, translate_va, Option.map_map, Option.map_map]
  rfl

theorem find_pte_create_keeps (h : Refines cfg kernel s a) {v : Nat}
    (hv : Own userHalf v) {φ' : Phys} {pt' : PageTableImpl} {pte : Slot}
    (hc : find_pte_create cfg s.pt v s.phys = .ok ((pt', pte), φ')) (w : Nat) :
    lookup cfg φ'.mem pt' w = lookup cfg s.phys.mem s.pt w := by
  obtain ⟨live, halive, hl⟩ := h.live
  have hspec : wp (fun _ => True) (find_pte_create cfg s.pt v) _ s.phys :=
    find_pte_create_spec trivial halive.alloc h.tree hl hv
  obtain ⟨new, hcr, _, _⟩ := wp_ok hspec hc
  have hsame : ∀ t ∈ kernel.tables, SameFrame s.phys.mem φ'.mem t :=
    fun t ht => hcr.same t (halive.live t ht) (h.apart t ht)
  by_cases hw : Own userHalf w
  · rw [lookup_eq, lookup_eq]
    exact hcr.found (inner w) _ rfl hw
  · have hnow : lookup cfg φ'.mem pt' w = lookup cfg φ'.mem kernel w := by
      refine lookup_of_root_eq ?_
      rw [hcr.root, hcr.keep _ hw, h.shared _ hw, read_pte_same (hsame _ List.mem_cons_self)]
    rw [hnow, lookup_congr halive.tree hsame trivial, lookup_of_root_eq (h.shared _ hw)]

/-- From `new_kernel` on, whatever operations on pages of the lower half pass their checks, the page
table is the map that the same operations give: `find_pte` finds the pages of the map with their
values and `VALID`, `translate_va` adds the offset, creating tables translates nothing differently,
and an operation that the map allows fails only for want of a frame. -/
theorem page_table_is_map (cfg : Config) (kernel : PageTableImpl) (live : List Nat) (φ φ₀ : Phys)
    (pt : PageTableImpl) (ops : List Op) (s : State) (os : List Unit)
    (halive : KernelAlive cfg φ kernel live) (hnew : new_kernel kernel.root φ = .ok (pt, φ₀))
    (hops : ∀ op ∈ ops, op.Ok) (hrun : run (step cfg) ⟨φ₀, pt⟩ ops = .ok (s, os)) :
    let a := ops.foldl Op.apply (kernelMap cfg φ.mem kernel)
    (∀ v, (find_pte cfg s.phys.mem s.pt v).map
        (fun pte => ((read_pte s.phys.mem pte.table pte.index).ppn cfg,
          flags (read_pte s.phys.mem pte.table pte.index))) = a v) ∧
    (∀ v pte, find_pte cfg s.phys.mem s.pt v = some pte →
      (read_pte s.phys.mem pte.table pte.index).contains .VALID) ∧
    (∀ va, translate_va cfg s.phys.mem s.pt va =
      (a (floor va)).map fun x => x.1 * PAGE_SIZE + page_offset va) ∧
    (∀ v φ' pt' pte, Own userHalf v → find_pte_create cfg s.pt v s.phys = .ok ((pt', pte), φ') →
      ∀ w, lookup cfg φ'.mem pt' w = lookup cfg s.phys.mem s.pt w) ∧
    ∀ op : Op, op.Ok → ∀ p, step cfg s op = .error p → op.Pre a → p = .out_of_frames := by
  have h := run_refines (new_kernel_refines halive hnew) hops hrun
  refine ⟨fun v => ?_, fun v pte hv => ?_, translate_va_of_refines h,
    fun v φ' pt' pte hv hc => ?_, ?_⟩
  · rw [← h.agrees v, view, lookup, Option.map_map]
    rfl
  · have hlook : lookup cfg s.phys.mem s.pt v = some (read_pte s.phys.mem pte.table pte.index) := by
      rw [lookup, hv]
      rfl
    have hvalid := lookup_valid hlook
    rw [PTEImpl.is_valid_eq] at hvalid
    rw [PTEImpl.VALID, PTEImpl.contains_flag _ (by omega), hvalid]
  · exact find_pte_create_keeps h hv hc
  · intro op hop p hp
    obtain ⟨live, hal, hl⟩ := h.live
    exact (step_spec h hop hal.alloc hl).2 p hp

end Run

/-! ## The first page table -/

/-- The frame allocator and the kernel's page table, as the kernel starts. -/
def boot (cfg : Config) (sym : Layout) : Kernel PageTableImpl := do
  PhyPageAllocator.init sym.ekernel sym.memory_end
  kernel_page_table cfg sym

theorem boot_spec (cfg : Config) (sym : Layout) (mem : Mem) :
    wp (fun _ => True) (boot cfg sym) (fun kernel φ =>
      KernelAlive cfg φ kernel kernel.tables ∧ kernel.tables.Nodup ∧ NoUser cfg φ.mem kernel ∧
      StackTable cfg φ.mem kernel ∧ ∀ p, φ.InRange p → FIRST_PPN ≤ p ∧ p + 1 < 2 ^ 26)
      ⟨mem, PhyPageAllocator.new⟩ := by
  have hend : sym.memory_end < USIZE := by
    have := sym.below sym.memory_end (by simp)
    simp only [USIZE]
    omega
  rw [boot, wp_bind]
  refine wp_mono (init_spec hend mem) ?_
  rintro _ φ ⟨hinv, hmanaged⟩
  refine wp_mono (kernel_page_table_spec sym hinv) ?_
  rintro kernel φ' ⟨hroot, huser, hstack⟩
  refine ⟨⟨by simpa using hroot.alloc, hroot.tree, fun t ht => ht⟩, hroot.nodup,
    huser, hstack, fun p hp => ?_⟩
  have hstart := sym.above sym.ekernel (by simp)
  have hstop := sym.below sym.memory_end (by simp)
  obtain ⟨hceil, hfloor⟩ := (hmanaged p).mp ((hroot.range.inRange p).mp hp)
  rw [ppn_vpn] at hceil hfloor
  simp only [ceil, floor, PAGE_SIZE, MEMORY_START, KERNEL_VPN_OFFSET, FIRST_PPN] at *
  omega

/-- A kernel without sections, and 16 pages of memory. -/
def smallLayout : Layout :=
  ⟨0xFFFF_FFC0_8020_0000, 0xFFFF_FFC0_8020_0000, 0xFFFF_FFC0_8020_0000,
    0xFFFF_FFC0_8020_0000, 0xFFFF_FFC0_8020_0000,
    0xFFFF_FFC0_8020_0000, 0xFFFF_FFC0_8020_0000, 0xFFFF_FFC0_8020_0000,
    0xFFFF_FFC0_8020_0000, 0xFFFF_FFC0_8021_0000,
    by decide, by decide⟩

theorem page_table_is_map_two_ops : ∃ kernel φ pt φ₀ s os,
    boot qemu smallLayout ⟨fun _ => 0, PhyPageAllocator.new⟩ = .ok (kernel, φ) ∧
    new_kernel kernel.root φ = .ok (pt, φ₀) ∧
    run (step qemu) ⟨φ₀, pt⟩ [.map_one 2 0x80300 .WRITABLE,
      .modify_flags 2 .READABLE] = .ok (s, os) ∧
    translate_va qemu s.phys.mem s.pt 0x2345 = some 0x8030_0345 := by
  have hok : ((boot qemu smallLayout ⟨fun _ => 0, PhyPageAllocator.new⟩).bind fun r =>
      (new_kernel r.1.root r.2).bind fun q =>
        run (step qemu) ⟨q.2, q.1⟩ [.map_one 2 0x80300 .WRITABLE,
          .modify_flags 2 .READABLE]).toOption.isSome := by
    decide +kernel
  obtain ⟨r, hb, hok⟩ := ok_of_bind hok
  obtain ⟨q, hn, hok⟩ := ok_of_bind hok
  obtain ⟨t, hr⟩ := ok_of_isSome hok
  have hops : ∀ op ∈ [Op.map_one 2 0x80300 .WRITABLE, .modify_flags 2 .READABLE], op.Ok := by
    intro op hop
    simp only [List.mem_cons, List.not_mem_nil, or_false] at hop
    rcases hop with rfl | rfl
    · exact ⟨by decide, by decide⟩
    · exact ⟨by decide, trivial⟩
  have h := page_table_is_map qemu r.1 r.1.tables r.2 q.2 q.1 _ t.1 t.2
    (wp_ok (boot_spec _ _ _) hb).1 hn hops hr
  refine ⟨r.1, r.2, q.1, q.2, t.1, t.2, hb, hn, hr, ?_⟩
  rw [h.2.2.1 0x2345]
  rfl

end HectoOs.Mm.PageTableImpl
