import HectoOs.Mm.DevicePages
import HectoOs.Mm.NewArea
import HectoOs.Mm.UserArea
import HectoOs.Mm.FreshMemory
import HectoOs.Process.StackWrites

/-! # What a program finds on its stack

`write_stack` writes downwards through one address of the kernel. The program reads the stack
through its page table, page by page.
-/

open HectoOs.Lib HectoOs.Mm

namespace HectoOs.UserStack

variable {cfg : Config} {may : Panic → Prop} {φ φ' : Phys} {m m' : Mem} {off sp lo hi top : Nat}
  {arguments environments : List (List Byte)} {elf : ElfFile} {header : ElfHeader}

/-! ## The two pages -/

section Pages

open PageTableImpl

variable {as as' kernel : AddressSpace} {l₁ l₂ : List (Option AddressSpace)} {p q pa : Nat}

/-- The program reads the bytes from an address on. -/
def Reads (cfg : Config) (m : Mem) (as : AddressSpace) (va : Nat) (bytes : List Byte) : Prop :=
  ∀ i (h : i < bytes.length), as.readable cfg m (va + i) = some bytes[i]

/-- The frames behind the pages of a range. -/
def frames_behind (cfg : Config) (m : Mem) (as : AddressSpace) (r : VARange) : List Nat :=
  r.pages.filterMap fun v => (lookup cfg m as.page_table v).map (·.ppn cfg)

def stack_frames (cfg : Config) (m : Mem) (as : AddressSpace) (top : Nat) : List Nat :=
  frames_behind cfg m as ⟨top - USER_STACK_SIZE, top⟩

/-- The frame of the upper page follows that of the lower one. -/
def adjacent (cfg : Config) (m : Mem) (as : AddressSpace) (top : Nat) : Prop :=
  translate_va cfg m as.page_table (top - 8) =
    (translate_va cfg m as.page_table (top - 8 - PAGE_SIZE)).map (· + PAGE_SIZE)

/-- The stack has the frame `p` for its lower page and `q` for the upper one. -/
structure StackPages (cfg : Config) (m : Mem) (as : AddressSpace) (top p q : Nat) : Prop where
  aligned : top % 4096 = 0
  room : USER_STACK_SIZE ≤ top
  low : top ≤ 2 ^ 38
  tree : Tree cfg m as.page_table userHalf
  lower : lookup cfg m as.page_table (top / 4096 - 2) = some (.new p (stack_perm ||| .VALID))
  upper : lookup cfg m as.page_table (top / 4096 - 1) = some (.new q (stack_perm ||| .VALID))
  tables : ∀ t ∈ as.page_table.tables, t ≠ p ∧ t ≠ q
  range : ∀ x ∈ [p, q], FIRST_PPN ≤ x ∧ x + 1 < 2 ^ 26

theorem stack_pages_eq (haligned : top % 4096 = 0) (hroom : USER_STACK_SIZE ≤ top) :
    (VARange.mk (top - USER_STACK_SIZE) top).pages = [top / 4096 - 2, top / 4096 - 1] := by
  have hlo : floor (top - USER_STACK_SIZE) = top / 4096 - 2 := by
    simp only [floor, PAGE_SIZE, USER_STACK_SIZE] at hroom ⊢
    omega
  have hhi : ceil top = top / 4096 - 2 + 2 := by
    simp only [ceil, PAGE_SIZE, USER_STACK_SIZE] at hroom ⊢
    omega
  have hlast : top / 4096 - 2 + 1 = top / 4096 - 1 := by
    simp only [USER_STACK_SIZE] at hroom
    omega
  rw [VARange.pages, hlo, hhi, vpns, Nat.add_sub_cancel_left, ← hlast]
  rfl

theorem stack_pages (hs : Consistent cfg ⟨φ, kernel, l₁ ++ some as :: l₂⟩)
    (hlimit : as.data_segment_max % PAGE_SIZE = 0) (hfit : as.user_area_fits USER_STACK_SIZE = true)
    (hmap : as.insert_user_area cfg USER_STACK_SIZE stack_perm φ = .ok ((as', top), φ')) :
    ∃ p q, StackPages cfg φ'.mem as' top p q ∧
    Outside (as'.page_table.tables ++ [p, q]) φ.mem φ'.mem := by
  have hready := hs.tracked.ready (hs.keys as (by simp))
  have hstop : ∀ stop, as.alloc_user_area USER_STACK_SIZE = some stop → stop ≤ 2 ^ 38 :=
    fun stop hstop => by
    rw [AddressSpace.user_area_fits, hstop] at hfit
    exact of_decide_eq_true hfit
  obtain ⟨halloc, φ₁, area', new, hnew, hi, hout⟩ :=
    wp_ok (insert_user_area_outside hready hstop) hmap
  dsimp only at halloc hnew hi hout
  have hroom := (alloc_user_area_apart hready.keys halloc).1
  have haligned := alloc_user_area_aligned hlimit halloc
  have htop : top % 4096 = 0 := by
    simp only [USER_STACK_SIZE] at hroom haligned
    omega
  have hsup : Supplied cfg ⟨φ, kernel, l₁ ++ some as :: l₂⟩ φ' as' (new.map (Page.of stack_perm)) :=
    hi.supplied hs rfl (by simp [MapArea.frames])
  rw [stack_pages_eq htop hroom] at hnew
  obtain ⟨⟨v, p⟩, rest, rfl, hv, hrest⟩ := List.map_eq_cons_iff.mp hnew
  obtain ⟨⟨w, q⟩, rest, rfl, hw, hrest⟩ := List.map_eq_cons_iff.mp hrest
  obtain rfl := List.map_eq_nil_iff.mp hrest
  dsimp only at hv hw
  subst hv hw
  have hp := hsup.fresh (Page.of stack_perm (top / 4096 - 2, p)) (by simp)
  have hq := hsup.fresh (Page.of stack_perm (top / 4096 - 1, q)) (by simp)
  refine ⟨p, q, ⟨htop, hroom, hstop _ halloc, hsup.tree,
    hsup.mapped (Page.of stack_perm (top / 4096 - 2, p)) (by simp),
    hsup.mapped (Page.of stack_perm (top / 4096 - 1, q)) (by simp), fun t ht => ⟨?_, ?_⟩,
      fun x hx => ?_⟩, hout⟩
  · rintro rfl
    exact hp.2.2 ht
  · rintro rfl
    exact hq.2.2 ht
  · rcases List.mem_cons.mp hx with rfl | hx
    · exact hs.tracked.half.ram _ hp.1
    · exact List.mem_singleton.mp hx ▸ hs.tracked.half.ram _ hq.1

theorem stack_offset_some {pa : Nat} (hpa : pa + 8 < 2 ^ 38) (htop : top ≤ 2 ^ 38) :
    ∃ off, stack_offset pa top = some off := by
  have hva : pa + 8 + KERNEL_MAP_OFFSET < USIZE := by
    simp only [KERNEL_MAP_OFFSET, USIZE]
    omega
  have hle : top ≤ pa + 8 + KERNEL_MAP_OFFSET := by
    simp only [KERNEL_MAP_OFFSET]
    omega
  generalize hk : KERNEL_MAP_OFFSET = k at hva hle
  rw [stack_offset, checked_add_of_lt (by omega), hk, Option.bind_eq_bind, Option.bind_some,
    checked_add_of_lt hva, Option.bind_some, checked_sub, if_pos hle]
  exact ⟨_, rfl⟩

namespace StackPages

variable (h : StackPages cfg m as top p q)
include h

theorem frames : stack_frames cfg m as top = [p, q] := by
  have hp := h.range p (by simp)
  have hq := h.range q (by simp)
  rw [stack_frames, frames_behind, stack_pages_eq h.aligned h.room]
  simp only [List.filterMap_cons, List.filterMap_nil, h.lower, h.upper, Option.map_some,
    PTEImpl.ppn_new cfg (show p < 2 ^ 38 by omega), PTEImpl.ppn_new cfg (show q < 2 ^ 38 by omega)]

theorem last_offset : page_offset (top - 8) = 4088 := by
  have hroom := h.room
  have haligned := h.aligned
  simp only [page_offset, PAGE_SIZE, USER_STACK_SIZE] at hroom ⊢
  omega

theorem translate :
    translate_va cfg m as.page_table (top - 8) = some (q * PAGE_SIZE + page_offset (top - 8)) := by
  have hroom := h.room
  have haligned := h.aligned
  have hfloor : floor (top - 8) = top / 4096 - 1 := by
    simp only [floor, PAGE_SIZE, USER_STACK_SIZE] at hroom ⊢
    omega
  have hq := h.range q (by simp)
  exact translate_page (hfloor ▸ h.upper) (by omega)

theorem translate_lower : translate_va cfg m as.page_table (top - 8 - PAGE_SIZE) =
    some (p * PAGE_SIZE + page_offset (top - 8)) := by
  have hroom := h.room
  have haligned := h.aligned
  have hfloor : floor (top - 8 - PAGE_SIZE) = top / 4096 - 2 := by
    simp only [floor, PAGE_SIZE, USER_STACK_SIZE] at hroom ⊢
    omega
  have hoffset : page_offset (top - 8) = page_offset (top - 8 - PAGE_SIZE) := by
    simp only [page_offset, PAGE_SIZE, USER_STACK_SIZE] at hroom ⊢
    omega
  have hp := h.range p (by simp)
  rw [hoffset]
  exact translate_page (hfloor ▸ h.lower) (by omega)

theorem adjacent_iff : adjacent cfg m as top ↔ q = p + 1 := by
  rw [adjacent, h.translate, h.translate_lower, Option.map_some, Option.some.injEq]
  simp only [PAGE_SIZE]
  omega

theorem offset : ∃ off, stack_offset (q * PAGE_SIZE + page_offset (top - 8)) top = some off ∧
    top - 4096 + off = frame_va q := by
  have hsub : top - 8 - 4088 = top - 4096 := by omega
  have hin := h.last_offset
  have hq := h.range q (by simp)
  obtain ⟨off, hoff⟩ : ∃ off, stack_offset (q * PAGE_SIZE + page_offset (top - 8)) top =
    some off := by
    refine stack_offset_some ?_ h.low
    rw [hin]
    simp only [PAGE_SIZE]
    omega
  have heq := stack_offset_eq h.room hoff
  rw [hin, hsub] at heq
  exact ⟨off, hoff, heq⟩

theorem place {va : Nat} (hoff : top - 4096 + off = frame_va q) (hlo : top - 8192 ≤ va)
    (hhi : va < top) (hadj : top - 4096 ≤ va ∨ q = p + 1) : ∃ x ∈ [p, q],
      lookup cfg m as.page_table (floor va) = some (.new x (stack_perm ||| .VALID)) ∧
      frame_va x + page_offset va = va + off := by
  have hroom := h.room
  have haligned := h.aligned
  simp only [USER_STACK_SIZE] at hroom
  by_cases hup : top - 4096 ≤ va
  · have hfloor : floor va = top / 4096 - 1 := by
      simp only [floor, PAGE_SIZE]
      omega
    refine ⟨q, by simp, hfloor ▸ h.upper, ?_⟩
    simp only [page_offset, PAGE_SIZE]
    omega
  · have hfloor : floor va = top / 4096 - 2 := by
      simp only [floor, PAGE_SIZE]
      omega
    have hq : q = p + 1 := hadj.resolve_left hup
    have hframes : frame_va p + 4096 = frame_va q := by
      rw [hq, frame_va_eq, frame_va_eq]
      omega
    refine ⟨p, by simp, hfloor ▸ h.lower, ?_⟩
    simp only [page_offset, PAGE_SIZE]
    omega

variable {lo : Nat} (hoff : top - 4096 + off = frame_va q) (hlo : top - 8192 ≤ lo)
  (hadj : top - 4096 ≤ lo ∨ q = p + 1)
include hoff hlo hadj

theorem outside {m₁ m₂ : Mem} (hsame : SameOff m₁ m₂ (lo + off) (top - 8 + off)) :
    Outside [p, q] m₁ m₂ := by
  intro x hx a ha ha'
  by_cases hin : lo + off ≤ a ∧ a < top - 8 + off
  · obtain ⟨y, hy, _, hplace⟩ :=
      h.place hoff (show top - 8192 ≤ a - off by omega) (by omega) (by omega)
    have hoffset := (page_offset_le (a - off)).2
    have hne : x ≠ y := fun he => hx (he ▸ hy)
    rcases frame_va_apart hne with hapart | hapart <;> omega
  · exact hsame a (by omega)

theorem reads {va : Nat} {bytes : List Byte} (hsame : SameOff m m' (lo + off) (top - 8 + off))
    (hva : lo ≤ va) (hend : va + bytes.length ≤ top - 8) (hholds : Holds m' (va + off) bytes) :
    Reads cfg m' as va bytes := by
  intro i hi
  have hlow := h.low
  obtain ⟨x, hx, hlookup, hplace⟩ :=
    h.place hoff (show top - 8192 ≤ va + i by omega) (by omega) (by omega)
  have hframes := h.outside hoff hlo hadj hsame
  have htables : ∀ t ∈ as.page_table.tables, SameFrame m m' t :=
    fun t ht => hframes t (by simp [h.tables t ht])
  have hown : Own userHalf (floor (va + i)) := own_of_lt (by simp only [floor, PAGE_SIZE]; omega)
  have hshow : stack_perm.shows = true := by decide
  have hlt := h.range x hx
  rw [AddressSpace.readable, lookup_congr h.tree htables hown, hlookup,
    Option.bind_some, shows_new, if_pos hshow,
    PTEImpl.ppn_new cfg (by omega), hplace, Nat.add_right_comm, hholds i hi]

end StackPages

end Pages

/-! ## The image -/

section Image

open PageTableImpl

variable {as as' kernel : AddressSpace} {l₁ l₂ : List (Option AddressSpace)} {α : Type}

/-- The program finds the strings at the pointers, each with a `\0` behind it. -/
def Pointers (cfg : Config) (m : Mem) (as : AddressSpace) (ptrs : List Nat)
    (strs : List (List Byte)) : Prop :=
  List.Forall₂ (fun ptr str => ptr < USIZE ∧ Reads cfg m as ptr (str ++ [0])) ptrs strs

/-- From its stack pointer on, the program reads the number of arguments, the pointers to the
arguments, those to the environment, and the auxiliary vector. -/
def Decodes (cfg : Config) (m : Mem) (as : AddressSpace) (user_sp : Nat)
    (arguments environments : List (List Byte)) (auxv : List (AUXV × Nat)) : Prop :=
  ∃ argv envp, Reads cfg m as user_sp ((stack_words argv envp auxv).flatMap word_bytes) ∧
    Pointers cfg m as argv arguments ∧ Pointers cfg m as envp environments

/-- Whatever the memory holds, no frame but those of `F` is written. -/
def WritesOnly (F : List Nat) (x : Kernel α) : Prop :=
  ∀ φ r φ', x φ = .ok (r, φ') → Outside F φ.mem φ'.mem

/-- The stack area is mapped in `φ₁`. The program finds its arguments, and nothing is written but
the tables and the frames of the stack. -/
def ShowsArguments (cfg : Config) (as : AddressSpace) (arguments environments : List (List Byte))
    (elf : ElfFile) (header : ElfHeader) (φ : Phys) (as₁ : AddressSpace)
    (top : Nat) (φ₁ : Phys) : Prop :=
  ∃ stack φ' addr, alloc_user_stack cfg as arguments environments elf header φ =
    .ok ((as₁, stack), φ') ∧
    ph_head_addr header.ph_offset elf.program_iter = some addr ∧
    Decodes cfg φ'.mem as₁ stack.user_sp arguments environments (auvx header addr) ∧
    Outside (as₁.page_table.tables ++ stack_frames cfg φ₁.mem as₁ top) φ.mem φ'.mem ∧
    ∀ off, (translate_va cfg φ₁.mem as₁.page_table (top - 8)).bind (stack_offset · top) = some off →
      WritesOnly (stack_frames cfg φ₁.mem as₁ top)
        (write_stack top off arguments environments elf header)

/-- The program headers have an address, and what is written stays in the upper page or goes on in
the lower one. -/
def InStack (cfg : Config) (m : Mem) (as : AddressSpace) (top : Nat)
    (arguments environments : List (List Byte)) (elf : ElfFile) (header : ElfHeader) : Prop :=
  (ph_head_addr header.ph_offset elf.program_iter).isSome ∧
    (stack_size top arguments environments ≤ page_offset (top - 8) ∨ adjacent cfg m as top)

theorem wp_alloc_user_stack {q : Nat}
    {Q : AddressSpace × Stack → Phys → Prop} (hroom : USER_STACK_SIZE ≤ top)
    (hmap : as.insert_user_area cfg USER_STACK_SIZE stack_perm φ = .ok ((as', top), φ'))
    (htranslate : translate_va cfg φ'.mem as'.page_table (top - 8) = some q)
    (hoff : stack_offset q top = some off) :
    wp may (alloc_user_stack cfg as arguments environments elf header) Q φ ↔
      wp may (write_stack top off arguments environments elf header)
      (fun stack φ₂ => Q (as', stack) φ₂) φ' := by
  have hlast : checked_sub top 8 = some (top - 8) := by
    simp only [USER_STACK_SIZE] at hroom
    rw [checked_sub, if_pos (by omega)]
  rw [alloc_user_stack, wp_bind, wp_iff_of_ok hmap]
  simp only [hlast, wp_bind, wp_unwrap, wp_get, htranslate, hoff, Option.some.injEq,
    forall_eq', reduceCtorEq,
    false_implies, and_true]
  exact Iff.rfl

theorem pointers_of_strings {ptrs : List Nat} {strs : List (List Byte)}
    (hstrings : Strings m' off lo hi ptrs strs) (hhi : hi ≤ 2 ^ 38)
    (hreads : ∀ va bytes, lo ≤ va → va + bytes.length ≤ hi → Holds m' (va + off) bytes →
      Reads cfg m' as va bytes) : Pointers cfg m' as ptrs strs := by
  refine List.Forall₂.imp (fun ptr str => ?_) hstrings
  rintro ⟨hlo, hend, hholds⟩
  refine ⟨by simp only [USIZE]; omega, hreads ptr _ hlo ?_ hholds⟩
  rw [List.length_append, List.length_singleton]
  exact hend

theorem upper_page {user_sp size : Nat} (h : user_sp + size = top - 8) (hle : size ≤ 4088) :
    top - 4096 ≤ user_sp := by
  omega

theorem stack_words_size {argv envp : List Nat} {addr : Nat}
    (hargv : argv.length = arguments.length) (henvp : envp.length = environments.length) :
    ((stack_words argv envp (auvx header addr)).flatMap word_bytes).length ≤
      stack_size top arguments environments := by
  have hauvx : (auvx_words (auvx header addr)).length = 14 := rfl
  rw [length_words, stack_words_eq]
  simp only [List.length_append, List.length_cons, List.length_nil, hargv, henvp, hauvx, stack_size]
  omega

variable (hs : Consistent cfg ⟨φ, kernel, l₁ ++ some as :: l₂⟩)
  (hlimit : as.data_segment_max % PAGE_SIZE = 0)
  (hfit : as.user_area_fits USER_STACK_SIZE = true)
  (hmap : as.insert_user_area cfg USER_STACK_SIZE stack_perm φ = .ok ((as', top), φ'))
  (hsize : stack_size top arguments environments + 8 ≤ USER_STACK_SIZE)
include hs hlimit hfit hmap hsize

theorem shows_arguments (hin : InStack cfg φ'.mem as' top arguments environments elf header) :
    ShowsArguments cfg as arguments environments elf header φ as' top φ' := by
  obtain ⟨haddr, hcond⟩ := hin
  obtain ⟨p, q, h, hout⟩ := stack_pages hs hlimit hfit hmap
  obtain ⟨off, hoff, hbase⟩ := h.offset
  have hroom := h.room
  have hlow := h.low
  rw [h.last_offset, h.adjacent_iff] at hcond
  simp only [USER_STACK_SIZE] at hroom hsize
  have hspec : wp (fun _ => False) (write_stack top off arguments environments elf header) _ φ' :=
    write_stack_spec (by omega) (.inr haddr)
  obtain ⟨⟨_, stack⟩, φ₃, hok, rfl, addr, hph, hw⟩ :=
    wp_total ((wp_alloc_user_stack (Q := fun r φ₃ => r.1 = as' ∧ ∃ addr,
    ph_head_addr header.ph_offset elf.program_iter = some addr ∧
    Written off top arguments environments (auvx header addr) φ'.mem φ₃.mem r.2)
      h.room hmap h.translate hoff).mpr
    (wp_mono hspec fun stack φ₃ ⟨addr, hph, hw, _⟩ => ⟨rfl, addr, hph, hw⟩))
  dsimp only at hok hw
  have huser_sp := hw.size
  have hlo : top - 8192 ≤ stack.user_sp := by omega
  have hadj : top - 4096 ≤ stack.user_sp ∨ q = p + 1 := hcond.imp_left (upper_page huser_sp)
  have houtside := h.outside hbase hlo hadj hw.same
  have hreads : ∀ va bytes, stack.user_sp ≤ va → va + bytes.length ≤ top - 8 →
    Holds φ₃.mem (va + off) bytes →
      Reads cfg φ₃.mem _ va bytes := fun va bytes => h.reads hbase hlo hadj hw.same
  obtain ⟨argv, envp, hwords, hargv, henvp⟩ := hw.image
  refine ⟨stack, φ₃, addr, hok, hph, ⟨argv, envp, ?_, ?_, ?_⟩, ?_, ?_⟩
  · have hlen : ((stack_words argv envp (auvx header addr)).flatMap word_bytes).length ≤
        stack_size top arguments environments := stack_words_size hargv.length henvp.length
    exact hreads _ _ (le_refl _) (by omega) hwords
  · exact pointers_of_strings hargv (by omega) hreads
  · exact pointers_of_strings henvp (by omega) hreads
  · rw [h.frames]
    exact hout.trans (fun x hx => houtside x fun hmem => hx (List.mem_append_right _ hmem))
      fun x hx => hx
  · intro off' hoff'
    rw [h.translate, Option.bind_some, hoff, Option.some.injEq] at hoff'
    subst hoff'
    rw [h.frames]
    intro φ₄ stack' φ₅ hok'
    have hspec' : wp (fun _ => False)
      (write_stack top off arguments environments elf header) _ φ₄ :=
      write_stack_spec (by omega) (.inr haddr)
    obtain ⟨_, _, hw', _⟩ := wp_ok hspec' hok'
    have huser_sp' := hw'.size
    exact h.outside hbase (by omega) (hcond.imp_left (upper_page huser_sp')) hw'.same

theorem inStack_of_shows
    (hshows : ShowsArguments cfg as arguments environments elf header φ as' top φ') :
    InStack cfg φ'.mem as' top arguments environments elf header := by
  obtain ⟨_, _, addr, _, haddr, _, _, honly⟩ := hshows
  obtain ⟨p, q, h, _⟩ := stack_pages hs hlimit hfit hmap
  obtain ⟨off, hoff, hbase⟩ := h.offset
  have hroom := h.room
  have hq := h.range q (by simp)
  simp only [USER_STACK_SIZE] at hroom hsize
  refine ⟨by rw [haddr]; rfl, ?_⟩
  by_contra hno
  rw [h.last_offset, h.adjacent_iff, not_or] at hno
  obtain ⟨hlarge, hapart⟩ := hno
  -- a memory whose bytes differ from the lowest byte of the count
  have hspec : wp (fun _ => False) (write_stack top off arguments environments elf header) _
      (φ'.set_mem fun _ => BitVec.ofNat 8 arguments.length + 1) :=
        write_stack_spec (by omega) (.inr (by rw [haddr]; rfl))
  obtain ⟨stack, φ₃, hok, _, _, hw, _⟩ := wp_total hspec
  have hunchanged := honly off (by rw [h.translate, Option.bind_some, hoff]) _ _ _ hok
  have huser_sp := hw.size
  obtain ⟨argv, envp, hwords, hargv, _⟩ := hw.image
  have hprev : frame_va (q - 1) + 4096 = frame_va q := by
    rw [frame_va_eq, frame_va_eq]
    simp only [FIRST_PPN] at hq
    omega
  have hnot : q - 1 ∉ stack_frames cfg φ'.mem as' top := by
    rw [h.frames]
    simp only [FIRST_PPN, List.mem_cons, List.not_mem_nil, or_false] at hq ⊢
    omega
  have hbyte := hunchanged _ hnot (stack.user_sp + off) (by omega) (by omega)
  have hcount := hwords 0 (by simp [stack_words, word_bytes])
  rw [Nat.add_zero, hbyte] at hcount
  simp [stack_words, word_bytes, hargv.length] at hcount

end Image

/-! ## Runs -/

section Runs

open PageTableImpl

variable {as as₁ : AddressSpace} {s : Os} {i : Nat}

instance : Decidable (adjacent cfg m as top) :=
  inferInstanceAs (Decidable (translate_va cfg m as.page_table (top - 8) =
  (translate_va cfg m as.page_table (top - 8 - PAGE_SIZE)).map (· + PAGE_SIZE)))

instance : Decidable (InStack cfg m as top arguments environments elf header) :=
  inferInstanceAs (Decidable ((ph_head_addr header.ph_offset elf.program_iter).isSome = true ∧
    (stack_size top arguments environments ≤ page_offset (top - 8) ∨ adjacent cfg m as top)))

theorem shows_arguments_iff (hs : Consistent cfg s)
    (hlimit : ∀ as, some as ∈ s.spaces → as.data_segment_max % PAGE_SIZE = 0)
    (has : s.spaces[i]? = some (some as)) (hfit : as.user_area_fits USER_STACK_SIZE = true)
    (hmap : as.insert_user_area cfg USER_STACK_SIZE stack_perm s.phys = .ok ((as₁, top), φ))
    (hsize : stack_size top arguments environments + 8 ≤ USER_STACK_SIZE) :
    ShowsArguments cfg as arguments environments elf header s.phys as₁ top φ ↔
      InStack cfg φ.mem as₁ top arguments environments elf header := by
  obtain ⟨φ₀, kernel, l⟩ := s
  obtain ⟨l₁, l₂, hl, _, _⟩ := split_at has
  obtain rfl := hl
  have hlimit := hlimit as (by simp)
  exact ⟨inStack_of_shows hs hlimit hfit hmap hsize, shows_arguments hs hlimit hfit hmap hsize⟩

theorem run_places {sym : Layout} {mem : Mem} {kernel : PageTableImpl} {es : List Event}
    {os : List Unit} (hboot : boot cfg sym ⟨mem, PhyPageAllocator.new⟩ = .ok (kernel, φ))
    (hfits : Meets (Os.step cfg) (fun s e => e.fits s = true) (Os.start kernel φ) es)
    (hrun : run (Os.step cfg) (Os.start kernel φ) es = .ok (s, os)) :
    Consistent cfg s ∧ ∀ as, some as ∈ s.spaces → as.data_segment_max % PAGE_SIZE = 0 :=
  run_invariant_of_meets (fun s => Consistent cfg s ∧ ∀ as, some as ∈ s.spaces →
    as.data_segment_max % PAGE_SIZE = 0)
    (fun s e s' u hs hf hstep => ⟨(step_steps hs.1 hf hstep).consistent, step_aligned hs.2 hstep⟩)
    ⟨start_consistent hboot, by simp [Os.start]⟩ hfits hrun

/-- However address spaces came and went before, and whichever frames the stack area got: a program
whose arguments fit into its stack finds them, and no other frame is written, exactly if the frame
of the upper page follows that of the lower one, or all stays in the upper page. -/
theorem stack_decodes (cfg : Config) (sym : Layout) (mem : Mem) (kernel : PageTableImpl)
    (φ : Phys) (es : List Event) (s : Os) (os : List Unit) (i : Nat) (as as₁ : AddressSpace)
    (top : Nat) (φ₁ : Phys) (arguments environments : List (List Byte)) (elf : ElfFile)
    (header : ElfHeader) (hboot : boot cfg sym ⟨mem, PhyPageAllocator.new⟩ = .ok (kernel, φ))
    (hfits : Meets (Os.step cfg) (fun s e => e.fits s = true) (Os.start kernel φ) es)
    (hrun : run (Os.step cfg) (Os.start kernel φ) es = .ok (s, os))
    (has : s.spaces[i]? = some (some as)) (hfit : as.user_area_fits USER_STACK_SIZE = true)
    (hmap : as.insert_user_area cfg USER_STACK_SIZE stack_perm s.phys = .ok ((as₁, top), φ₁))
    (hsize : stack_size top arguments environments + 8 ≤ USER_STACK_SIZE) :
    ShowsArguments cfg as arguments environments elf header s.phys as₁ top φ₁ ↔
      InStack cfg φ₁.mem as₁ top arguments environments elf header := by
  obtain ⟨hs, hlimit⟩ := run_places hboot hfits hrun
  exact shows_arguments_iff hs hlimit has hfit hmap hsize

/-- What a process has before and after its stack is mapped. -/
def mapped_stack (cfg : Config) (s : Os) (i : Nat) :
    Except Panic (AddressSpace × (AddressSpace × Nat) × Phys) := do
  let as ← orPanic .assert (s.spaces[i]?).join
  let r ← as.insert_user_area cfg USER_STACK_SIZE stack_perm s.phys
  return (as, r)

theorem mapped_stack_ends {P : AddressSpace × (AddressSpace × Nat) × Phys → Prop} [DecidablePred P]
    (h : ((mapped_stack cfg s i).bind fun r => permit .assert (P r) ()).toOption.isSome) :
    ∃ as as₁ top φ,
    s.spaces[i]? = some (some as) ∧
    as.insert_user_area cfg USER_STACK_SIZE stack_perm s.phys = .ok ((as₁, top), φ) ∧
    P (as, (as₁, top), φ) := by
  obtain ⟨r, hr, hseen⟩ := ok_of_bind h
  obtain ⟨_, hseen⟩ := ok_of_isSome hseen
  obtain ⟨as, has, hr⟩ := bind_eq_ok hr
  obtain ⟨⟨⟨as₁, top⟩, φ⟩, hmap, hr⟩ := bind_eq_ok hr
  obtain rfl := Except.ok.inj hr
  exact ⟨as, as₁, top, φ, Option.join_eq_some_iff.mp (orPanic_eq_ok.mp has),
    hmap, (permit_eq_ok hseen).1⟩

/-- The first program after boot. -/
theorem stack_decodes_first : ∃ kernel φ s os as as₁ top φ₁,
    boot qemu smallLayout ⟨fun _ => 0, PhyPageAllocator.new⟩ = .ok (kernel, φ) ∧
    run (Os.step qemu) (Os.start kernel φ) [.from_elf (onePage 0x1000)] = .ok (s, os) ∧
    s.spaces[0]? = some (some as) ∧
    ShowsArguments qemu as [ascii "echo", ascii "hi"] new_thread_environment (onePage 0x1000)
    ⟨64, 56, 1, 0x1000⟩ s.phys
      as₁ top φ₁ := by
  obtain ⟨kernel, φ, s, os, hboot, hfits, hrun, hseen⟩ :=
    small_run_meets [.from_elf (onePage 0x1000)]
      (fun s e => e.fits s = true) (fun s =>
        ((mapped_stack qemu s 0).bind fun r => permit .assert
          (r.1.user_area_fits USER_STACK_SIZE = true ∧ stack_size r.2.1.2
            [ascii "echo", ascii "hi"] new_thread_environment + 8 ≤ USER_STACK_SIZE ∧
            InStack qemu r.2.2.mem r.2.1.1 r.2.1.2 [ascii "echo", ascii "hi"] new_thread_environment
              (onePage 0x1000)
              ⟨64, 56, 1, 0x1000⟩) ()).toOption.isSome) (by decide +kernel)
  obtain ⟨as, as₁, top, φ₁, has, hmap, hfit, hsize, hin⟩ := mapped_stack_ends hseen
  exact ⟨kernel, φ, s, os, as, as₁, top, φ₁, hboot, hrun, has,
    (stack_decodes qemu smallLayout _ kernel φ _ s os 0 as as₁
    top φ₁ _ _ _ _ hboot hfits hrun has hfit hmap hsize).mpr hin⟩

/-- The stack of `ls`. -/
def ls_stack (i : Nat) : Event :=
  .alloc_user_stack i [ascii "ls"] new_thread_environment (onePage 0x1000) ⟨64, 56, 1, 0x1000⟩

/-- One argument that is longer than a page. -/
def long_argument : List (List Byte) := [List.replicate 4100 65]

/-- A program after another one has ended. -/
theorem stack_not_decoded : ∃ kernel φ s os as as₁ top φ₁,
    boot qemu smallLayout ⟨fun _ => 0, PhyPageAllocator.new⟩ = .ok (kernel, φ) ∧
    run (Os.step qemu) (Os.start kernel φ)
      [.from_elf (onePage 0x1000), ls_stack 0, .drop 0, .from_elf (onePage 0x1000)] = .ok (s, os) ∧
    s.spaces[1]? = some (some as) ∧
    as.insert_user_area qemu USER_STACK_SIZE stack_perm s.phys = .ok ((as₁, top), φ₁) ∧
    stack_size top long_argument [] + 8 ≤ USER_STACK_SIZE ∧
    ¬ ShowsArguments qemu as long_argument []
    (onePage 0x1000) ⟨64, 56, 1, 0x1000⟩ s.phys as₁ top φ₁ := by
  obtain ⟨kernel, φ, s, os, hboot, hfits, hrun, hseen⟩ := small_run_meets
    [.from_elf (onePage 0x1000), ls_stack 0, .drop 0, .from_elf (onePage 0x1000)]
    (fun s e => e.fits s = true) (fun s =>
      ((mapped_stack qemu s 1).bind fun r => permit .assert
        (r.1.user_area_fits USER_STACK_SIZE = true ∧
          stack_size r.2.1.2 long_argument [] + 8 ≤ USER_STACK_SIZE ∧
          ¬ InStack qemu r.2.2.mem r.2.1.1 r.2.1.2 long_argument [] (onePage 0x1000)
            ⟨64, 56, 1, 0x1000⟩)
        ()).toOption.isSome) (by decide +kernel)
  obtain ⟨as, as₁, top, φ₁, has, hmap, hfit, hsize, hno⟩ := mapped_stack_ends hseen
  obtain ⟨hs, hlimit⟩ := run_places hboot hfits hrun
  exact ⟨kernel, φ, s, os, as, as₁, top, φ₁, hboot, hrun, has, hmap, hsize, fun hshows =>
    hno ((shows_arguments_iff hs hlimit has hfit hmap hsize).mp hshows)⟩

end Runs

end HectoOs.UserStack
