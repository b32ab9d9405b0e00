import HectoOs.Mm.System
import HectoOs.Process.UserStack

/-! # The alignment of the stack pointer

The pointers and the pairs of the auxiliary vector are pushed after the padding.
-/

open HectoOs.Lib HectoOs.Mm

namespace HectoOs.UserStack

variable {cfg : Config} {as : AddressSpace} {φ : Phys} {off sp top : Nat}
  {arguments environments : List (List Byte)}
  {elf : ElfFile} {header : ElfHeader}

theorem push_words_base {words : List Nat} :
    wp anyPanic (push_words off sp words) (fun base _ => base + 8 * words.length = sp) φ := by
  rw [push_words, wp_bind, wp_unwrap]
  refine ⟨fun base hbase => ?_, fun _ => trivial⟩
  obtain ⟨hle, rfl⟩ := checked_sub_eq hbase
  exact Nat.sub_add_cancel hle

theorem push_strings_length {l : List (List Byte)} {r : Nat × List Nat} :
    wp anyPanic (l.foldlM (push_string off) r)
    (fun r' _ => r'.2.length = r.2.length + l.length) φ := by
  refine wp_foldlM
    (fun done (r' : Nat × List Nat) _ => r'.2.length = r.2.length + done.length) rfl ?_
  rintro done str rest ⟨sp₁, ptrs₁⟩ φ₁ _ hptrs
  rw [push_string, wp_bind, wp_unwrap]
  refine ⟨fun user_sp _ => ?_, fun _ => trivial⟩
  have hlen : (ptrs₁ ++ [user_sp]).length = r.2.length + (done ++ [str]).length := by
    simp only [List.length_append, List.length_singleton] at hptrs ⊢
    omega
  exact hlen

theorem write_stack_aligned : wp anyPanic (write_stack top off arguments environments elf header)
    (fun stack _ => stack.user_sp % 16 = 0 ↔
      (arguments.length + environments.length) % 2 = 1) φ := by
  refine wp_call push_strings_length ?_
  rintro ⟨sp₁, envp⟩ φ₁ henvp
  refine wp_call push_strings_length ?_
  rintro ⟨sp₂, argv⟩ φ₂ hargv
  rw [wp_bind, wp_unwrap]
  refine ⟨fun addr _ => ?_, fun _ => trivial⟩
  dsimp only [List.length_nil] at henvp hargv ⊢
  have hauvx : (auvx_words (auvx header addr)).length = 14 := rfl
  refine wp_call push_words_base fun auxv_base φ₃ hauxv => ?_
  refine wp_call push_words_base fun envp_base φ₄ henvp_base => ?_
  refine wp_call push_words_base fun argv_base φ₅ hargv_base => ?_
  refine wp_call push_words_base fun user_sp φ₆ hsp => ?_
  simp only [List.length_append, List.length_singleton] at henvp_base hargv_base hsp
  show user_sp % 16 = 0 ↔ _
  omega

/-- The stack pointer of a program is aligned exactly if its arguments and its environment have an
odd number of strings together. -/
theorem user_sp_aligned_iff (cfg : Config) (as as' : AddressSpace)
    (arguments environments : List (List Byte))
    (elf : ElfFile) (header : ElfHeader) (φ φ' : Phys) (stack : Stack)
    (h : alloc_user_stack cfg as arguments environments elf header φ = .ok ((as', stack), φ')) :
    stack.user_sp % 16 = 0 ↔ (arguments.length + environments.length) % 2 = 1 := by
  have hspec : wp anyPanic (alloc_user_stack cfg as arguments environments elf header)
      (fun r _ => r.2.user_sp % 16 = 0 ↔ (arguments.length + environments.length) % 2 = 1) φ := by
    rw [alloc_user_stack, wp_bind]
    refine wp_mono (wp_any _) fun r φ₁ _ => ?_
    rw [wp_bind, wp_unwrap]
    refine ⟨fun last _ => ?_, fun _ => trivial⟩
    rw [wp_bind, wp_get, wp_bind, wp_unwrap]
    refine ⟨fun pa _ => ?_, fun _ => trivial⟩
    rw [wp_bind, wp_unwrap]
    refine ⟨fun off _ => ?_, fun _ => trivial⟩
    exact wp_call write_stack_aligned fun _ _ h => h
  have haligned := wp_ok hspec h
  exact haligned

/-- The stack of a program in the first process of a small system. -/
def small_stack (arguments environments : List (List Byte)) :
    Except Panic ((AddressSpace × Stack) × Phys) := do
  let t ← small_run [.from_elf (onePage 0x1000)]
  let as ← orPanic .assert (t.1.spaces[0]?).join
  alloc_user_stack qemu as arguments environments (onePage 0x1000) ⟨64, 56, 1, 0x1000⟩ t.1.phys

theorem small_stack_ends (arguments environments : List (List Byte)) (P : Stack → Prop)
    [DecidablePred P] (h : ((small_stack arguments environments).bind fun r =>
    permit .assert (P r.1.2) ()).toOption.isSome) :
    ∃ as φ as' stack φ', alloc_user_stack qemu as arguments environments (onePage 0x1000)
    ⟨64, 56, 1, 0x1000⟩ φ =
      .ok ((as', stack), φ') ∧ P stack := by
  obtain ⟨r, hr, hseen⟩ := ok_of_bind h
  obtain ⟨_, hseen⟩ := ok_of_isSome hseen
  obtain ⟨t, _, hr⟩ := bind_eq_ok hr
  obtain ⟨as, _, hr⟩ := bind_eq_ok hr
  exact ⟨as, t.1.phys, r.1.1, r.1.2, r.2, hr, (permit_eq_ok hseen).1⟩

theorem user_sp_aligned_two :
    ∃ as φ as' stack φ', alloc_user_stack qemu as [ascii "echo", ascii "hi"]
    new_thread_environment (onePage 0x1000) ⟨64, 56, 1, 0x1000⟩ φ = .ok ((as', stack), φ') ∧
    stack.user_sp % 16 = 0 := by
  obtain ⟨as, φ, as', stack, φ', hok, _⟩ :=
    small_stack_ends [ascii "echo", ascii "hi"] new_thread_environment
      (fun _ => True) (by decide +kernel)
  exact ⟨as, φ, as', stack, φ', hok,
    (user_sp_aligned_iff qemu as as' _ _ _ _ φ φ' stack hok).mpr (by decide)⟩

/-- `new_thread` with one argument. -/
theorem user_sp_misaligned :
    ∃ as φ as' stack φ', alloc_user_stack qemu as [ascii "ls"] new_thread_environment
    (onePage 0x1000) ⟨64, 56, 1, 0x1000⟩ φ = .ok ((as', stack), φ') ∧ stack.user_sp % 16 = 8 :=
  small_stack_ends _ _ (fun stack => stack.user_sp % 16 = 8) (by decide +kernel)

end HectoOs.UserStack
