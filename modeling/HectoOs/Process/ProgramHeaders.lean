import HectoOs.Process.StackImage

/-! # Where the program headers are (`AT_PHDR` in `alloc_user_stack`)

The loop takes the first segment whose offset in the file is not past the table of program headers,
and does not look at where that segment ends.
-/

open HectoOs.Lib HectoOs.Mm

namespace HectoOs.UserStack

/-- The whole table lies in the part of the file that the segment is loaded from. -/
def HasTable (header : ElfHeader) (ph : ProgramHeader) : Prop :=
  ph.load = true ∧ ph.offset ≤ header.ph_offset ∧
    header.ph_offset + header.ph_entry_size * header.ph_count ≤ ph.offset + ph.file_size

instance (header : ElfHeader) (ph : ProgramHeader) : Decidable (HasTable header ph) :=
  inferInstanceAs (Decidable (_ ∧ _ ∧ _))

/-- The table is loaded at this address. -/
def TableAt (elf : ElfFile) (header : ElfHeader) (addr : Nat) : Prop :=
  ∃ ph ∈ elf.program_iter, HasTable header ph ∧
  addr = ph.virtual_addr + (header.ph_offset - ph.offset)

instance (elf : ElfFile) (header : ElfHeader) (addr : Nat) : Decidable (TableAt elf header addr) :=
  inferInstanceAs (Decidable (∃ ph ∈ elf.program_iter, _))

/-- The first segment that does not begin behind the table. -/
def first_load (header : ElfHeader) (phs : List ProgramHeader) : Option ProgramHeader :=
  phs.find? fun ph => ph.load && ph.offset ≤ header.ph_offset

/-- That segment is moved upwards, stays inside of 64 bits, and is moved as far as one that has the
table. -/
def FirstLeads (elf : ElfFile) (header : ElfHeader) : Prop :=
  ∃ first, first_load header elf.program_iter = some first ∧ first.offset ≤ first.virtual_addr ∧
    header.ph_offset + (first.virtual_addr - first.offset) < USIZE ∧
    ∃ ph ∈ elf.program_iter, HasTable header ph ∧
    first.virtual_addr + ph.offset = ph.virtual_addr + first.offset

/-- What `alloc_user_stack` leaves at `auxv_base`, seen through the address of the last page of the
stack. -/
def WritesAuxv (cfg : Config) (as : AddressSpace) (header : ElfHeader)
    (φ : Phys) (as' : AddressSpace) (stack : Stack) (φ' : Phys) (addr : Nat) : Prop :=
  ∃ φ₁ off, as.insert_user_area cfg USER_STACK_SIZE stack_perm φ =
    .ok ((as', stack.user_stack_top), φ₁) ∧
    (as'.page_table.translate_va cfg φ₁.mem (stack.user_stack_top - 8)).bind
      (stack_offset · stack.user_stack_top) = some off ∧
    Holds φ'.mem (stack.auxv_base + off) ((auvx_words (auvx header addr)).flatMap word_bytes)

section Headers

variable {cfg : Config} {as : AddressSpace} {φ : Phys} {off sp top addr : Nat}
  {arguments environments : List (List Byte)}
  {elf : ElfFile} {header : ElfHeader} {first : ProgramHeader} {phs : List ProgramHeader}

theorem ph_head_addr_eq (h : first_load header phs = some first) :
    ph_head_addr header.ph_offset phs =
    (checked_sub first.virtual_addr first.offset).bind (checked_add header.ph_offset) := by
  induction phs with
  | nil => simp [first_load] at h
  | cons ph phs ih =>
    rw [first_load, List.find?_cons] at h
    unfold ph_head_addr
    split
    · rename_i hfirst
      simp only [hfirst, Option.some.injEq] at h
      rw [h]
      rfl
    · rename_i hnot
      simp only [hnot] at h
      exact ih h

theorem first_load_isSome (h : ∃ ph ∈ phs, HasTable header ph) :
    ∃ first, first_load header phs = some first := by
  obtain ⟨ph, hm, hload, hle, -⟩ := h
  have hsome : (first_load header phs).isSome := by
    rw [first_load, List.find?_isSome]
    exact ⟨ph, hm, by simp [hload, hle]⟩
  exact Option.isSome_iff_exists.mp hsome

theorem moved_iff {v o v' o' a : Nat} (hv : o ≤ v) (ho : o' ≤ a) :
    a + (v - o) = v' + (a - o') ↔ v + o' = v' + o := by
  omega

theorem table_at_iff (h : ∃ ph ∈ elf.program_iter, HasTable header ph) :
    (∃ addr, ph_head_addr header.ph_offset elf.program_iter = some addr ∧ TableAt elf header addr) ↔
      FirstLeads elf header := by
  obtain ⟨first, hfirst⟩ := first_load_isSome h
  rw [ph_head_addr_eq hfirst]
  constructor
  · rintro ⟨addr, haddr, ph, hm, htable, hat⟩
    obtain ⟨shift, hshift, haddr⟩ := Option.bind_eq_some_iff.mp haddr
    obtain ⟨hle, rfl⟩ := checked_sub_eq hshift
    have hlt : header.ph_offset + (first.virtual_addr - first.offset) < USIZE := by
      unfold checked_add at haddr
      split at haddr
      · assumption
      · simp at haddr
    obtain rfl := checked_add_eq haddr
    exact ⟨first, hfirst, hle, hlt, ph, hm, htable, (moved_iff hle htable.2.1).mp hat⟩
  · rintro ⟨first', hfirst', hle, hlt, ph, hm, htable, hmoved⟩
    obtain rfl := Option.some.inj (hfirst.symm.trans hfirst')
    refine ⟨header.ph_offset + (first.virtual_addr - first.offset), ?_, ph, hm, htable,
      (moved_iff hle htable.2.1).mpr hmoved⟩
    rw [checked_sub, if_pos hle, Option.bind_some, checked_add_of_lt hlt]

/-! ## The auxiliary vector in memory -/

theorem push_words_writes {words : List Nat} :
    wp anyPanic (push_words off sp words) (fun base φ' => base + 8 * words.length = sp ∧
      Holds φ'.mem (base + off) (words.flatMap word_bytes) ∧
      SameOff φ.mem φ'.mem (base + off) (sp + off) ∧
      φ'.allocator = φ.allocator) φ := by
  by_cases hroom : 8 * words.length ≤ sp
  · exact push_words_spec hroom
  · rw [push_words, checked_sub, if_neg hroom]
    trivial

theorem write_stack_auxv :
    wp anyPanic (write_stack top off arguments environments elf header) (fun stack φ' =>
    stack.user_stack_top = top ∧
    ∃ addr, ph_head_addr header.ph_offset elf.program_iter = some addr ∧
      Holds φ'.mem (stack.auxv_base + off)
        ((auvx_words (auvx header addr)).flatMap word_bytes)) φ := by
  rw [write_stack, wp_bind]
  refine wp_mono (wp_any _) fun ⟨sp₁, envp⟩ φ₁ _ => ?_
  rw [wp_bind]
  refine wp_mono (wp_any _) fun ⟨sp₂, argv⟩ φ₂ _ => ?_
  rw [wp_bind, wp_unwrap]
  refine ⟨fun addr haddr => ?_, fun _ => trivial⟩
  refine wp_call push_words_writes ?_
  rintro auxv_base φ₃ ⟨-, hauxv, -, -⟩
  refine wp_call push_words_writes ?_
  rintro envp_base φ₄ ⟨henvp, -, hsame₄, -⟩
  refine wp_call push_words_writes ?_
  rintro argv_base φ₅ ⟨hargv, -, hsame₅, -⟩
  refine wp_call push_words_writes ?_
  rintro user_sp φ₆ ⟨hsp, -, hsame₆, -⟩
  -- what comes later lies below the vector
  have hlater : SameOff φ₃.mem φ₆.mem (user_sp + off) (auxv_base + off) := by
    refine (hsame₄.mono ?_ ?_).trans ((hsame₅.mono ?_ ?_).trans (hsame₆.mono ?_ ?_)) <;> omega
  exact ⟨rfl, addr, haddr, hauxv.same (hlater.sameOn (.inr (le_refl _)))⟩

theorem alloc_user_stack_auxv :
    wp anyPanic (alloc_user_stack cfg as arguments environments elf header) (fun r φ' =>
    ∃ addr, ph_head_addr header.ph_offset elf.program_iter = some addr ∧
      WritesAuxv cfg as header φ r.1 r.2 φ' addr) φ := by
  rw [alloc_user_stack, wp_bind]
  cases hmap : as.insert_user_area cfg USER_STACK_SIZE stack_perm φ with
  | error e =>
    rw [wp, hmap]
    trivial
  | ok r =>
    obtain ⟨⟨as', top⟩, φ₁⟩ := r
    rw [wp_iff_of_ok hmap, wp_bind, wp_unwrap]
    refine ⟨fun last hlast => ?_, fun _ => trivial⟩
    obtain ⟨-, rfl⟩ := checked_sub_eq hlast
    rw [wp_bind, wp_get, wp_bind, wp_unwrap]
    refine ⟨fun pa hpa => ?_, fun _ => trivial⟩
    rw [wp_bind, wp_unwrap]
    refine ⟨fun off hoff => ?_, fun _ => trivial⟩
    refine wp_call write_stack_auxv ?_
    rintro stack φ' ⟨rfl, addr, haddr, hholds⟩
    exact ⟨addr, haddr, φ₁, off, hmap, by rw [hpa, Option.bind_some, hoff], hholds⟩

end Headers

/-- In a file of which some segment has the whole table of program headers, `AT_PHDR` is computed
without overflow and is the address of the table exactly if the first segment leads there. The
computed value is what stands in memory. -/
theorem at_phdr_iff (elf : ElfFile) (header : ElfHeader)
    (h : ∃ ph ∈ elf.program_iter, HasTable header ph) :
    ((∃ addr, ph_head_addr header.ph_offset elf.program_iter = some addr ∧
      TableAt elf header addr) ↔
      FirstLeads elf header) ∧
    ∀ cfg as arguments environments φ as' stack φ',
      alloc_user_stack cfg as arguments environments elf header φ = .ok ((as', stack), φ') →
      ∃ addr, ph_head_addr header.ph_offset elf.program_iter = some addr ∧
      WritesAuxv cfg as header φ as' stack φ' addr :=
  ⟨table_at_iff h, fun _ _ _ _ _ _ _ _ hok => wp_ok alloc_user_stack_auxv hok⟩

/-- A file of one segment, which has the table. -/
def oneSegment : ElfFile := ⟨[⟨true, 0x1000, 0x1000, 0, 0x200, true, true, false⟩], []⟩

/-- A first segment with the header of the file only, and a second one with the table. -/
def twoSegments : ElfFile :=
  ⟨[⟨true, 0x1000, 0x40, 0, 0x40, true, false, false⟩,
    ⟨true, 0x5040, 0x1000, 0x40, 0x1000, true, true, false⟩], []⟩

/-- The headers of these files. -/
def headerOf (ph_count : Nat) : ElfHeader := ⟨64, 56, ph_count, 0x1000⟩

theorem at_phdr_one_segment : ∃ as φ as' stack φ',
    alloc_user_stack qemu as [ascii "ls"] [] oneSegment (headerOf 1) φ = .ok ((as', stack), φ') ∧
    ∃ addr, TableAt oneSegment (headerOf 1) addr ∧
    WritesAuxv qemu as (headerOf 1) φ as' stack φ' addr := by
  obtain ⟨r, hr⟩ := ok_of_isSome (x := (small_run [.from_elf (onePage 0x1000)]).bind fun t =>
    (orPanic .assert (t.1.spaces[0]?).join).bind fun as =>
      (alloc_user_stack qemu as [ascii "ls"] [] oneSegment (headerOf 1) t.1.phys).bind fun r =>
        permit .assert True (as, t.1.phys, r)) (by decide +kernel)
  obtain ⟨t, _, hr⟩ := bind_eq_ok hr
  obtain ⟨as, _, hr⟩ := bind_eq_ok hr
  obtain ⟨⟨⟨as', stack⟩, φ'⟩, hok, _⟩ := bind_eq_ok hr
  have htable : ∃ ph ∈ oneSegment.program_iter, HasTable (headerOf 1) ph := by decide
  obtain ⟨hiff, hwrites⟩ := at_phdr_iff oneSegment (headerOf 1) htable
  obtain ⟨addr, haddr, hat⟩ :=
    hiff.mpr ⟨⟨true, 0x1000, 0x1000, 0, 0x200, true, true, false⟩, rfl, by decide, by decide,
    ⟨true, 0x1000, 0x1000, 0, 0x200, true, true, false⟩, List.mem_cons_self, by decide, rfl⟩
  obtain ⟨addr', haddr', hw⟩ := hwrites _ _ _ _ _ _ _ _ hok
  obtain rfl := Option.some.inj (haddr.symm.trans haddr')
  exact ⟨as, t.1.phys, as', stack, φ', hok, addr, hat, hw⟩

/-- The first segment leads into a hole behind itself. -/
theorem at_phdr_two_segments : (∃ ph ∈ twoSegments.program_iter, HasTable (headerOf 2) ph) ∧
    TableAt twoSegments (headerOf 2) 0x5040 ∧
    ph_head_addr 64 twoSegments.program_iter = some 0x1040 ∧
    ¬ ∃ addr, ph_head_addr 64 twoSegments.program_iter = some addr ∧
    TableAt twoSegments (headerOf 2) addr := by
  have haddr : ph_head_addr 64 twoSegments.program_iter = some 0x1040 := by decide +kernel
  refine ⟨by decide, by decide, haddr, ?_⟩
  rintro ⟨addr, h, hat⟩
  obtain rfl := Option.some.inj (haddr.symm.trans h)
  exact absurd hat (by decide)

end HectoOs.UserStack
