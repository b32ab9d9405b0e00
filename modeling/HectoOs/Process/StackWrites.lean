import HectoOs.Process.UserStack

/-! # What is written to a stack

`write_stack` writes downwards through one address of the kernel. What fits into the last page of
the stack is written to the frame of that page.
-/

open HectoOs.Lib HectoOs.Mm

namespace HectoOs.UserStack

variable {cfg : Config} {may : Panic → Prop} {φ φ' : Phys} {m m' : Mem} {off sp lo hi top : Nat}
  {arguments environments : List (List Byte)} {elf : ElfFile} {header : ElfHeader}

/-! ## Where the kernel writes -/

/-- The strings lie at the pointers between two addresses of the program, each with its `\0`. -/
def Strings (m : Mem) (off lo hi : Nat) (ptrs : List Nat) (strs : List (List Byte)) : Prop :=
  List.Forall₂ (fun ptr str => lo ≤ ptr ∧ ptr + (str.length + 1) ≤ hi ∧
    Holds m (ptr + off) (str ++ [0])) ptrs strs

theorem Strings.same {lo' hi' : Nat} {ptrs : List Nat} {strs : List (List Byte)}
    (h : Strings m off lo hi ptrs strs) (hs : SameOn m m' (lo + off) (hi + off))
    (hlo : lo' ≤ lo) (hhi : hi ≤ hi') : Strings m' off lo' hi' ptrs strs := by
  refine List.Forall₂.imp (fun ptr str => ?_) h
  rintro ⟨h1, h2, hh⟩
  refine ⟨by omega, by omega, hh.same (hs.mono (by omega) ?_)⟩
  rw [List.length_append, List.length_singleton]
  omega

theorem push_string_spec {ptrs : List Nat} {str : List Byte} (hroom : str.length + 1 ≤ sp) :
    wp may (push_string off (sp, ptrs) str)
    (fun r φ' => r = (sp - (str.length + 1), ptrs ++ [sp - (str.length + 1)]) ∧
      Holds φ'.mem (sp - (str.length + 1) + off) (str ++ [0]) ∧
      SameOff φ.mem φ'.mem (sp - (str.length + 1) + off) (sp + off) ∧
        φ'.allocator = φ.allocator) φ := by
  rw [push_string, checked_sub, if_pos hroom]
  refine ⟨rfl, holds_writeBytes _ _ _, ?_, rfl⟩
  have hsame := writeBytes_sameOff φ.mem (sp - (str.length + 1) + off) (str ++ [0])
  refine hsame.mono (le_refl _) ?_
  rw [List.length_append, List.length_singleton]
  omega

theorem push_strings_spec {l : List (List Byte)} (hroom : strings_size l ≤ sp) :
    wp may (l.foldlM (push_string off) (sp, [])) (fun r φ' => r.1 + strings_size l = sp ∧
      Strings φ'.mem off r.1 sp r.2 l ∧ SameOff φ.mem φ'.mem (r.1 + off) (sp + off) ∧
        φ'.allocator = φ.allocator) φ := by
  refine wp_foldlM (fun done (r : Nat × List Nat) (φ' : Phys) => r.1 + strings_size done = sp ∧
    Strings φ'.mem off r.1 sp r.2 done ∧ SameOff φ.mem φ'.mem (r.1 + off) (sp + off) ∧
      φ'.allocator = φ.allocator)
    ⟨rfl, List.Forall₂.nil, SameOff.refl _ _ _, rfl⟩ ?_
  rintro done str rest ⟨sp₁, ptrs₁⟩ φ₁ rfl ⟨hsp, hstrings, hsame, halloc⟩
  simp only [strings_size, List.map_append, List.map_cons, List.sum_append,
    List.sum_cons] at hroom hsp
  dsimp only at hsp hstrings hsame
  refine wp_mono (push_string_spec (by omega)) ?_
  rintro _ φ₂ ⟨rfl, hholds, hsame₂, halloc₂⟩
  dsimp only
  refine ⟨?_, ?_, ?_, halloc₂.trans halloc⟩
  · simp only [strings_size, List.map_append, List.map_cons, List.map_nil,
      List.sum_append, List.sum_cons, List.sum_nil]
    omega
  · -- the new string lies below the others
    have hold := @Strings.same _ _ _ _ _ (sp₁ - (str.length + 1)) sp _ _ hstrings
      (hsame₂.sameOn (.inr (le_refl _))) (by omega)
      (le_refl _)
    exact List.rel_append hold (List.Forall₂.cons ⟨le_refl _, by omega, hholds⟩ List.Forall₂.nil)
  · exact (hsame.mono (by omega) (le_refl _)).trans (hsame₂.mono (le_refl _) (by omega))

theorem push_words_spec {words : List Nat} (hroom : 8 * words.length ≤ sp) :
    wp may (push_words off sp words) (fun base φ' => base + 8 * words.length = sp ∧
      Holds φ'.mem (base + off) (words.flatMap word_bytes) ∧
      SameOff φ.mem φ'.mem (base + off) (sp + off) ∧
      φ'.allocator = φ.allocator) φ := by
  rw [push_words, checked_sub, if_pos hroom]
  refine ⟨Nat.sub_add_cancel hroom, holds_storeWords _ _ _, ?_, rfl⟩
  have hsame := storeWords_sameOff φ.mem (sp - 8 * words.length + off) words
  exact hsame.mono (le_refl _) (by omega)

/-- The words from the stack pointer on. -/
def stack_words (argv envp : List Nat) (auxv : List (AUXV × Nat)) : List Nat :=
  argv.length :: (argv ++ 0 :: (envp ++ 0 :: auvx_words auxv))

/-- What `write_stack` leaves in memory. -/
structure Written (off top : Nat) (arguments environments : List (List Byte))
    (auxv : List (AUXV × Nat)) (m m' : Mem) (stack : Stack) : Prop where
  size : stack.user_sp + stack_size top arguments environments = top - 8
  image : ∃ argv envp, Holds m' (stack.user_sp + off)
    ((stack_words argv envp auxv).flatMap word_bytes) ∧
    Strings m' off stack.user_sp (top - 8) argv arguments ∧
    Strings m' off stack.user_sp (top - 8) envp environments
  same : SameOff m m' (stack.user_sp + off) (top - 8 + off)

theorem stack_words_eq (argv envp : List Nat) (auxv : List (AUXV × Nat)) :
    stack_words argv envp auxv =
    [argv.length] ++ ((argv ++ [0]) ++ ((envp ++ [0]) ++ auvx_words auxv)) := by
  simp [stack_words]

theorem Strings.length {ptrs : List Nat} {strs : List (List Byte)}
    (h : Strings m off lo hi ptrs strs) :
    ptrs.length = strs.length := List.Forall₂.length_eq h

theorem write_stack_spec (hroom : stack_size top arguments environments ≤ top - 8)
    (haddr : may .assert ∨ (ph_head_addr header.ph_offset elf.program_iter).isSome) :
    wp may (write_stack top off arguments environments elf header) (fun stack φ' => ∃ addr,
      ph_head_addr header.ph_offset elf.program_iter = some addr ∧
      Written off top arguments environments (auvx header addr) φ.mem φ'.mem stack ∧
        φ'.allocator = φ.allocator) φ := by
  simp only [stack_size] at hroom
  refine wp_call (push_strings_spec (by omega)) ?_
  rintro ⟨sp₁, envp⟩ φ₁ ⟨hsp₁, henvp, hsame₁, halloc₁⟩
  dsimp only at hsp₁ henvp hsame₁ ⊢
  refine wp_call (push_strings_spec (by omega)) ?_
  rintro ⟨sp₂, argv⟩ φ₂ ⟨hsp₂, hargv, hsame₂, halloc₂⟩
  dsimp only at hsp₂ hargv hsame₂ ⊢
  rw [wp_bind, wp_unwrap]
  refine ⟨fun addr haddr' => ?_, fun hno => haddr.elim id fun h => by simp [hno] at h⟩
  have hpad : sp₂ = top - 8 - (strings_size environments + strings_size arguments) := by omega
  have hauvx : (auvx_words (auvx header addr)).length = 14 := rfl
  have henvp' : (envp ++ [0]).length = environments.length + 1 := by simp [henvp.length]
  have hargv' : (argv ++ [0]).length = arguments.length + 1 := by simp [hargv.length]
  have hargc : [arguments.length].length = 1 := rfl
  rw [← hpad] at hroom
  refine wp_call (push_words_spec (by omega)) ?_
  rintro auxv_base φ₃ ⟨hauxv, hwords₃, hsame₃, halloc₃⟩
  refine wp_call (push_words_spec (by omega)) ?_
  rintro envp_base φ₄ ⟨henvp_base, hwords₄, hsame₄, halloc₄⟩
  refine wp_call (push_words_spec (by omega)) ?_
  rintro argv_base φ₅ ⟨hargv_base, hwords₅, hsame₅, halloc₅⟩
  refine wp_call (push_words_spec (by omega)) ?_
  rintro user_sp φ₆ ⟨hsp, hwords₆, hsame₆, halloc₆⟩
  -- nothing that comes later reaches what has been written
  have hlater₄ : SameOff φ₄.mem φ₆.mem (user_sp + off) (envp_base + off) := by
    refine (hsame₅.mono ?_ ?_).trans (hsame₆.mono ?_ ?_) <;> omega
  have hlater₃ : SameOff φ₃.mem φ₆.mem (user_sp + off) (auxv_base + off) := by
    refine (hsame₄.mono ?_ ?_).trans (hlater₄.mono ?_ ?_) <;> omega
  have hlater : SameOff φ₂.mem φ₆.mem (user_sp + off) (sp₂ + off) := by
    refine (hsame₃.mono ?_ ?_).trans (hlater₃.mono ?_ ?_) <;> omega
  have hrest : SameOff φ₁.mem φ₆.mem (user_sp + off) (sp₁ + off) :=
    (hsame₂.mono (by omega) (le_refl _)).trans (hlater.mono (le_refl _) (by omega))
  have henvp₆ : Strings φ₆.mem off user_sp (top - 8) envp environments :=
    henvp.same (hrest.sameOn (.inr (le_refl _))) (by omega) (by omega)
  have hargv₆ : Strings φ₆.mem off user_sp (top - 8) argv arguments :=
    hargv.same (hlater.sameOn (.inr (by omega))) (by omega) (by omega)
  have hauxv_words := hwords₃.same (hlater₃.sameOn (.inr (le_refl _)))
  have henvp_words := hwords₄.same (hlater₄.sameOn (.inr (le_refl _)))
  have hargv_words := hwords₅.same (hsame₆.sameOn (.inr (le_refl _)))
  rw [hauvx] at hauxv
  rw [henvp'] at henvp_base
  rw [hargv'] at hargv_base
  rw [hargc] at hsp
  refine ⟨addr, haddr', ⟨?_, ⟨argv, envp, ?_, ?_, ?_⟩, ?_⟩, ?_⟩
  · simp only [stack_size]
    omega
  · have h₁ : user_sp + off + 8 * [arguments.length].length =
      argv_base + off := by rw [hargc]; omega
    have h₂ : argv_base + off + 8 * (argv ++ [0]).length = envp_base + off := by rw [hargv']; omega
    have h₃ : envp_base + off + 8 * (envp ++ [0]).length = auxv_base + off := by rw [henvp']; omega
    rw [stack_words_eq, hargv.length]
    refine holds_words_append.mpr ⟨hwords₆, ?_⟩
    rw [h₁]
    refine holds_words_append.mpr ⟨hargv_words, ?_⟩
    rw [h₂]
    refine holds_words_append.mpr ⟨henvp_words, ?_⟩
    rw [h₃]
    exact hauxv_words
  · exact hargv₆
  · exact henvp₆
  · show SameOff φ.mem φ₆.mem (user_sp + off) (top - 8 + off)
    exact (hsame₁.mono (by omega) (le_refl _)).trans (hrest.mono (le_refl _) (by omega))
  · exact halloc₆.trans (halloc₅.trans (halloc₄.trans (halloc₃.trans (halloc₂.trans halloc₁))))

/-! ## The frame of the last page -/

section Frame

open PageTableImpl

variable {as : AddressSpace} {pt : PageTableImpl}

theorem translate_page {p va : Nat} {f : PTEImpl} (h : lookup cfg m pt (floor va) = some (.new p f))
    (hp : p < 2 ^ 38) :
    translate_va cfg m pt va = some (p * PAGE_SIZE + page_offset va) := by
  rw [translate_va_eq, h, Option.map_some, PTEImpl.ppn_new cfg hp]

theorem page_offset_le (va : Nat) : page_offset va ≤ va ∧ page_offset va < 4096 :=
  ⟨Nat.mod_le _ _, Nat.mod_lt _ (by decide)⟩

theorem stack_offset_eq {p top off : Nat} (htop : USER_STACK_SIZE ≤ top)
    (h : stack_offset (p * PAGE_SIZE + page_offset (top - 8)) top = some off) :
    top - 8 - page_offset (top - 8) + off = frame_va p := by
  simp only [stack_offset, Option.bind_eq_bind, Option.bind_eq_some_iff] at h
  obtain ⟨pa, hpa, va, hva, hoff⟩ := h
  have hpa := checked_add_eq hpa
  have hva := checked_add_eq hva
  obtain ⟨hle, hoff⟩ := checked_sub_eq hoff
  have hin := page_offset_le (top - 8)
  rw [frame_va_eq]
  simp only [PAGE_SIZE, USER_STACK_SIZE, KERNEL_MAP_OFFSET] at *
  omega

theorem write_frame {Q : Stack → Phys → Prop} {e : PTEImpl} (hroom : USER_STACK_SIZE ≤ top)
    (hsize : stack_size top arguments environments ≤ page_offset (top - 8))
    (hoff : stack_offset (e.ppn cfg * PAGE_SIZE + page_offset (top - 8)) top = some off)
    (hq : ∀ stack m, (∀ q, q ≠ e.ppn cfg → SameFrame φ.mem m q) → Q stack (φ.set_mem m)) :
    wp anyPanic (write_stack top off arguments environments elf header) Q φ := by
  have hin := page_offset_le (top - 8)
  refine wp_mono (write_stack_spec (by omega) (.inl trivial)) ?_
  rintro stack φ' ⟨addr, -, hw, halloc⟩
  have hsp := hw.size
  have hbase := stack_offset_eq hroom hoff
  have hset : φ' = φ.set_mem φ'.mem := by
    show φ' = ⟨φ'.mem, φ.allocator⟩
    rw [← halloc]
  rw [hset]
  refine hq stack φ'.mem fun q hq a ha ha' => hw.same a ?_
  rcases frame_va_apart hq with hapart | hapart <;> omega

theorem alloc_user_stack_writes {Q : AddressSpace × Nat → Phys → Prop}
    (hsize : (as.alloc_user_area USER_STACK_SIZE).all fun top =>
      stack_size top arguments environments ≤ page_offset (top - 8))
    (hmap : wp anyPanic (as.insert_user_area cfg USER_STACK_SIZE stack_perm) (fun r φ₁ =>
      as.alloc_user_area USER_STACK_SIZE = some r.2 ∧ Q r φ₁) φ) :
    wp anyPanic (alloc_user_stack cfg as arguments environments elf header)
    (fun r φ' => ∃ φ₁ top e m,
      as.alloc_user_area USER_STACK_SIZE = some top ∧ Q (r.1, top) φ₁ ∧
      lookup cfg φ₁.mem r.1.page_table (floor (top - 8)) = some e ∧ φ' = φ₁.set_mem m ∧
      ∀ q, q ≠ e.ppn cfg → SameFrame φ₁.mem m q) φ := by
  rw [alloc_user_stack, wp_bind]
  refine wp_mono hmap ?_
  rintro ⟨as', top⟩ φ₁ ⟨halloc, hmapped⟩
  rw [halloc, Option.all_some, decide_eq_true_eq] at hsize
  have hroom := alloc_user_area_ge halloc
  rw [wp_bind, wp_unwrap]
  refine ⟨fun last hlast => ?_, fun _ => trivial⟩
  obtain ⟨_, rfl⟩ := checked_sub_eq hlast
  rw [wp_bind, wp_get, wp_bind, wp_unwrap]
  refine ⟨fun pa hpa => ?_, fun _ => trivial⟩
  rw [wp_bind, wp_unwrap]
  refine ⟨fun off hoff => ?_, fun _ => trivial⟩
  obtain ⟨e, he, rfl⟩ := Option.map_eq_some_iff.mp ((translate_va_eq ..).symm.trans hpa)
  exact wp_call (write_frame (by omega) hsize hoff fun stack m hm => ⟨φ₁, top, e, m, halloc,
    hmapped, he, rfl, hm⟩) fun _ _ h => h

theorem alloc_user_stack_space {P : AddressSpace → Prop}
    (hmap : wp anyPanic (as.insert_user_area cfg USER_STACK_SIZE stack_perm) (fun r _ => P r.1) φ) :
    wp anyPanic (alloc_user_stack cfg as arguments environments elf header)
    (fun r _ => P r.1) φ := by
  rw [alloc_user_stack]
  refine wp_call hmap fun r φ₁ h => ?_
  exact wp_call (wp_any _) fun _ _ _ => wp_call (wp_any _) fun _ _ _ =>
    wp_call (wp_any _) fun _ _ _ =>
    wp_call (wp_any _) fun _ _ _ => wp_call (wp_any _) fun _ _ _ => h

end Frame

end HectoOs.UserStack
