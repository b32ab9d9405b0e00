import HectoOs.Mm.LoadedSegments
import HectoOs.Process.FreshStack

/-! # Old contents of frames

Four operations give new pages to a process: `from_elf`, `alloc_user_stack`, `mmap` without an
address and `brk`. `PageTable::map` does not clear the frames it takes, so a page that the process
can read shows what the last owner of its frame has left, wherever the operation writes nothing.
-/

open HectoOs.Lib HectoOs.Mm HectoOs.UserStack

namespace HectoOs.Leaks

open PageTableImpl

/-- An operation that gives pages to a process. -/
inductive Supply where
  | from_elf (elf : ElfFile)
  | alloc_user_stack (i : Nat) (arguments environments : List (List Byte))
      (elf : ElfFile) (header : ElfHeader)
  | mmap (i length : Nat) (prot : AddressSpace.Prot)
  | brk (i addr : Nat)

/-- An operation on the address space of a process. -/
def at_process (s : Os) (i : Nat) (f : AddressSpace → Kernel AddressSpace) :
    Kernel AddressSpace := do
  let as ← Exec.unwrap .assert (s.spaces[i]?).join
  f as

namespace Supply

/-- The address space that the operation makes or changes. -/
def supply (cfg : Config) (s : Os) : Supply → Kernel AddressSpace
  | .from_elf elf => AddressSpace.from_elf cfg s.kernel.page_table.root elf
  | .alloc_user_stack i arguments environments elf header => at_process s i fun as => do
    return (← UserStack.alloc_user_stack cfg as arguments environments elf header).1
  | .mmap i length prot => at_process s i fun as => do return (← as.sys_mmap cfg 0 length prot).1
  | .brk i addr => at_process s i fun as => do return (← as.brk cfg addr).1

/-- The pages lie in the lower half, no key replaces another, and the arguments of a program stay in
the last page of its stack. -/
def fits (s : Os) : Supply → Bool
  | .from_elf elf => elf.Separate
  | .alloc_user_stack i arguments environments _ _ =>
    s.at_space i (stack_fits · arguments environments)
  | .mmap i length _ => s.at_space i (·.user_area_fits length)
  | .brk i addr => s.at_space i (·.brk_fits addr)

/-- The operation writes all that it lets the process read. -/
def clean (s : Os) : Supply → Bool
  | .from_elf elf => elf.Clean
  | .alloc_user_stack .. => false
  | .mmap i length prot => !prot.read || s.at_space i fun as => as.user_pages length = []
  | .brk i addr => s.at_space i (·.brk_clean addr)

end Supply

section Leaks

variable {cfg : Config} {s : Os} {i : Nat} {D : Set Nat} {ψ : Phys}

theorem at_process_differ {f : AddressSpace → Kernel AddressSpace}
    {Q : AddressSpace → Phys → Phys → Prop} (h : ∀ as l₁ l₂, s.spaces[i]? = some (some as) →
    s.spaces = l₁ ++ some as :: l₂ → wp2 (f as) (f as) Q s.phys ψ) :
    wp2 (at_process s i f) (at_process s i f) Q s.phys ψ := by
  refine wp2_bind (wp2_unwrap fun as has => ?_)
  have has : s.spaces[i]? = some (some as) := Option.join_eq_some_iff.mp has
  obtain ⟨l₁, l₂, hl, _, _⟩ := split_at has
  exact h as l₁ l₂ has hl

theorem at_space_some {as : AddressSpace} (has : s.spaces[i]? = some (some as))
    (p : AddressSpace → Bool) :
    s.at_space i p = p as := by
  rw [Os.at_space, has]
  rfl

theorem supply_differ (op : Supply) (hs : Consistent cfg s) (hfit : op.fits s = true)
    (hD : D ⊆ freeBytes s.phys) (hd : Differ D s.phys ψ) :
    wp2 (op.supply cfg s) (op.supply cfg s) (fun as' φ' ψ' => ∃ new W, Supplied cfg s φ' as' new ∧
      (Covered new W ↔ op.clean s = true) ∧ Differ ((D \ W) \ as'.page_table.bytes) φ' ψ')
      s.phys ψ := by
  obtain ⟨φ, kernel, l⟩ := s
  cases op with
  | from_elf elf =>
    simp only [Supply.clean, decide_eq_true_eq]
    exact from_elf_supplies (of_decide_eq_true hfit) hs hD hd
  | alloc_user_stack i arguments environments elf header =>
    refine at_process_differ fun as l₁ l₂ has hl => ?_
    obtain rfl := hl
    simp only [Supply.clean, Bool.false_eq_true]
    exact alloc_user_stack_supplies hs hD hd (at_space_eq hfit has)
  | mmap i length prot =>
    refine at_process_differ fun as l₁ l₂ has hl => ?_
    obtain rfl := hl
    have hclean : Supply.clean ⟨φ, kernel, l₁ ++ some as :: l₂⟩ (.mmap i length prot) = true ↔
        (prot.read = true → as.user_pages length = []) := by
      simp only [Supply.clean, at_space_some has]
      cases prot.read <;> simp
    simp only [hclean]
    exact mmap_supplies hs hD hd (at_space_eq hfit has)
  | brk i addr =>
    refine at_process_differ fun as l₁ l₂ has hl => ?_
    obtain rfl := hl
    simp only [Supply.clean, at_space_some has]
    exact brk_supplies hs hD hd (at_space_eq hfit has)

end Leaks

/-- In every state of a run whose steps fit and map no device for the user, and for every operation
that fits: nothing that is left in a free frame is seen exactly if the operation, when it returns,
has written all that it lets the process read. -/
theorem leaks_nothing_iff_clean (cfg : Config) (sym : Layout) (mem : Mem)
    (kernel : PageTableImpl) (φ : Phys) (es : List Event) (s : Os) (os : List Unit) (op : Supply)
    (hboot : boot cfg sym ⟨mem, PhyPageAllocator.new⟩ = .ok (kernel, φ)) (hfits : Meets
    (Os.step cfg) (fun s e => e.fits s = true ∧ e.hides cfg = true) (Os.start kernel φ) es)
    (hrun : run (Os.step cfg) (Os.start kernel φ) es = .ok (s, os)) (hfit : op.fits s = true) :
    LeaksNothing cfg (op.supply cfg s) s.phys ↔
    ((∃ r, op.supply cfg s s.phys = .ok r) → op.clean s = true) := by
  have h : Consistent cfg s ∧ Hidden cfg s :=
    run_invariant_of_meets (fun s => Consistent cfg s ∧ Hidden cfg s)
      (fun s e s' u hs hf hstep => by
        have hsteps := step_steps hs.1 hf.1 hstep
        exact ⟨hsteps.consistent, hsteps.hidden hf.2 hs.2⟩) ⟨start_consistent hboot,
          start_hidden hboot⟩ hfits hrun
  exact leaks_nothing_iff h.1 h.2 fun D ψ hD hd => supply_differ op h.1 hfit hD hd

/-- A file whose segment is a whole page leaks nothing; a page of `mmap` does. -/
theorem leaks_nothing_iff_clean_mmap : ∃ kernel φ s os,
    boot qemu smallLayout ⟨fun _ => 0, PhyPageAllocator.new⟩ = .ok (kernel, φ) ∧
    run (Os.step qemu) (Os.start kernel φ) [.from_elf (onePage 0x1000)] = .ok (s, os) ∧
    LeaksNothing qemu ((Supply.from_elf (onePage 0x3000)).supply qemu s) s.phys ∧
    ¬ LeaksNothing qemu ((Supply.mmap 0 4096 ⟨true, true, false⟩).supply qemu s) s.phys := by
  obtain ⟨kernel, φ, s, os, hboot, hfits, hrun, hseen⟩ :=
    small_run_meets [.from_elf (onePage 0x1000)]
      (fun s e => e.fits s = true ∧ e.hides qemu = true)
      (fun s => (Supply.mmap 0 4096 ⟨true, true, false⟩).fits s = true ∧
        (Supply.mmap 0 4096 ⟨true, true, false⟩).clean s = false ∧
        ((Supply.mmap 0 4096 ⟨true, true, false⟩).supply qemu s s.phys).toOption.isSome)
      (by decide +kernel)
  obtain ⟨hfit, hclean, hret⟩ := hseen
  refine ⟨kernel, φ, s, os, hboot, hrun, ?_, ?_⟩
  · refine (leaks_nothing_iff_clean qemu smallLayout _ kernel φ _ s os
      _ hboot hfits hrun ?_).mpr fun _ => ?_
    · exact decide_eq_true (show (onePage 0x3000).Separate by decide)
    · exact decide_eq_true (show (onePage 0x3000).Clean by decide)
  · intro hleaks
    have h := (leaks_nothing_iff_clean qemu smallLayout _ kernel φ _ s
      os _ hboot hfits hrun hfit).mp hleaks
    obtain ⟨r, hr⟩ := ok_of_isSome hret
    rw [h ⟨r, hr⟩] at hclean
    simp at hclean

theorem same_but_byte {φ : Phys} {p a : Nat} (b : Byte) (hr : φ.InRange p)
    (hc : φ.ref_count p = 0) (ha : a ∈ body p) :
    SameButFree φ (φ.set_mem (storeByte φ.mem a b)) := by
  refine ⟨rfl, fun x hx => if_neg ?_⟩
  rintro rfl
  exact hx p hr hc ha

/-- The ninth byte of the page that `mmap` gives is the one that was left in the frame. -/
theorem old_byte_seen : ∃ kernel φ s os ψ as φ' as' ψ',
    boot qemu smallLayout ⟨fun _ => 0, PhyPageAllocator.new⟩ = .ok (kernel, φ) ∧
    run (Os.step qemu) (Os.start kernel φ)
    [.from_elf (onePage 0x1000)] = .ok (s, os) ∧ SameButFree s.phys ψ ∧
    (Supply.mmap 0 4096 ⟨true, true, false⟩).supply qemu s s.phys = .ok (as, φ') ∧
    (Supply.mmap 0 4096 ⟨true, true, false⟩).supply qemu s ψ = .ok (as', ψ') ∧
    as.readable qemu φ'.mem 0x6008 = some 0 ∧ as'.readable qemu ψ'.mem 0x6008 = some 1 := by
  obtain ⟨kernel, φ, s, os, hboot, hrun, hr, hc, hsame, hother⟩ :=
    small_run_ends [.from_elf (onePage 0x1000)]
      (fun s => s.phys.InRange 0x8020B ∧ s.phys.ref_count 0x8020B = 0 ∧
        (((Supply.mmap 0 4096 ⟨true, true, false⟩).supply qemu s s.phys).bind fun r =>
          permit .assert (r.1.readable qemu r.2.mem 0x6008 = some 0) ()).toOption.isSome ∧
        (((Supply.mmap 0 4096 ⟨true, true, false⟩).supply qemu s
          (s.phys.set_mem (storeByte s.phys.mem (frame_va 0x8020B + 8) 1))).bind fun r =>
          permit .assert (r.1.readable qemu r.2.mem 0x6008 = some 1) ()).toOption.isSome)
      (by decide +kernel)
  obtain ⟨r, hok, hseen⟩ := ok_of_bind hsame
  obtain ⟨_, hseen⟩ := ok_of_isSome hseen
  obtain ⟨r', hok', hseen'⟩ := ok_of_bind hother
  obtain ⟨_, hseen'⟩ := ok_of_isSome hseen'
  refine ⟨kernel, φ, s, os, _, r.1, r.2, r'.1, r'.2, hboot, hrun,
    same_but_byte 1 hr hc ?_, hok, hok',
    (permit_eq_ok hseen).1, (permit_eq_ok hseen').1⟩
  exact Set.mem_Ico.mpr ⟨le_refl _, by omega⟩

end HectoOs.Leaks
