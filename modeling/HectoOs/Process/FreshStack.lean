import HectoOs.Mm.FreshMemory
import HectoOs.Process.StackWrites

/-! # A stack in two runs

What two runs write to the new stack is the same, and lies in one of its frames.
-/

open HectoOs.Lib HectoOs.Mm

namespace HectoOs.UserStack

section Runs

open PageTableImpl

variable {cfg : Config} {s : Os} {D : Set Nat} {new : List Page} {as as' : AddressSpace}
  {φ ψ : Phys} {p base off sp : Nat}

/-- The runs have written the same into the frame `p` and nowhere else. -/
structure Pushed (cfg : Config) (s : Os) (D : Set Nat) (new : List Page)
    (p : Nat) (as' : AddressSpace) (φ ψ : Phys) :
    Prop where
  supplied : Supplied cfg s φ as' new
  differ : ∃ W, W ⊆ Set.Ico (frame_va p) (frame_va p + 4096) ∧
    Differ ((D \ W) \ as'.page_table.bytes) φ ψ

variable (hnew : ∃ x ∈ new, x.ppn = p)
include hnew

theorem Pushed.store {m m' : Mem} {a b : Nat} (h : Pushed cfg s D new p as' φ ψ)
    (ha : frame_va p ≤ a) (hb : b ≤ frame_va p + 4096) (hm : SameOff φ.mem m a b)
    (hm' : SameOff ψ.mem m' a b) (hn : SameOn m m' a b) :
    Pushed cfg s D new p as' (φ.set_mem m) (ψ.set_mem m') := by
  obtain ⟨x, hx, rfl⟩ := hnew
  obtain ⟨W, hW, hd⟩ := h.differ
  refine ⟨h.supplied.write hx fun q hq => ?_, W ∪ Set.Ico a b, ?_, ?_⟩
  · exact SameFrame.of_ne (Ne.symm hq) ha hb fun c d hcd => hm.sameOn hcd
  · exact Set.union_subset hW fun y hy => ⟨ha.trans hy.1, hy.2.trans_le hb⟩
  · refine (hd.store hm hm' hn).congr ?_
    ext y
    simp only [Set.mem_sdiff, Set.mem_union]
    tauto

variable (hoff : base + off = frame_va p)
include hoff

theorem push_string_pushes {str : List Byte} {ptrs : List Nat} (h : Pushed cfg s D new p as' φ ψ)
    (hlow : base + (str.length + 1) ≤ sp) (hhigh : sp ≤ base + 4096) :
    wp2 (push_string off (sp, ptrs) str) (push_string off (sp, ptrs) str) (fun r φ' ψ' =>
      r.1 + (str.length + 1) = sp ∧ r.2.length = ptrs.length + 1 ∧
        Pushed cfg s D new p as' φ' ψ') φ ψ := by
  refine wp2_bind (wp2_unwrap fun user_sp hsp => wp2_bind (wp2_modify (wp2_pure ?_)))
  obtain ⟨hle, rfl⟩ := checked_sub_eq hsp
  have hlen : (str ++ [0]).length = str.length + 1 := by simp
  dsimp only at hle ⊢
  refine ⟨by omega, by simp,
    h.store hnew ?_ ?_ (writeBytes_sameOff _ _ _) (writeBytes_sameOff _ _ _)
    (writeBytes_sameOn_self _ _ _ _)⟩
  · omega
  · omega

theorem push_words_pushes {words : List Nat} (h : Pushed cfg s D new p as' φ ψ)
    (hlow : base + 8 * words.length ≤ sp) (hhigh : sp ≤ base + 4096) :
    wp2 (push_words off sp words) (push_words off sp words) (fun r φ' ψ' =>
      r + 8 * words.length = sp ∧ Pushed cfg s D new p as' φ' ψ') φ ψ := by
  refine wp2_bind (wp2_unwrap fun user_sp hsp => wp2_bind (wp2_modify (wp2_pure ?_)))
  obtain ⟨hle, rfl⟩ := checked_sub_eq hsp
  refine ⟨by omega, h.store hnew ?_ ?_ (storeWords_sameOff _ _ _) (storeWords_sameOff _ _ _)
    (storeWords_sameOn_self _ _ _ _)⟩
  · omega
  · omega

theorem push_strings_pushes {l : List (List Byte)} {ptrs : List Nat}
    (h : Pushed cfg s D new p as' φ ψ) (hlow : base + strings_size l ≤ sp)
    (hhigh : sp ≤ base + 4096) :
    wp2 (l.foldlM (push_string off) (sp, ptrs)) (l.foldlM (push_string off) (sp, ptrs))
    (fun r φ' ψ' =>
      r.1 + strings_size l = sp ∧ r.2.length = ptrs.length + l.length ∧
        Pushed cfg s D new p as' φ' ψ') φ ψ := by
  refine wp2_foldlM (fun done (r : Nat × List Nat) φ' ψ' => r.1 + strings_size done = sp ∧
    r.2.length = ptrs.length + done.length ∧
    Pushed cfg s D new p as' φ' ψ') ⟨rfl, rfl, h⟩ ?_
  rintro done str rest ⟨sp₁, ptrs₁⟩ φ₁ ψ₁ rfl ⟨hsp, hptrs, h₁⟩
  simp only [strings_size, List.map_append, List.map_cons, List.sum_append,
    List.sum_cons] at hlow hsp
  dsimp only at hsp hptrs
  refine wp2_mono (push_string_pushes hnew hoff h₁ (by omega) (by omega)) ?_
  rintro ⟨sp₂, ptrs₂⟩ φ₂ ψ₂ ⟨hsp₂, hptrs₂, h₂⟩
  dsimp only at hsp₂ hptrs₂ ⊢
  refine ⟨?_, by simp; omega, h₂⟩
  simp only [strings_size, List.map_append, List.map_cons, List.map_nil,
    List.sum_append, List.sum_cons, List.sum_nil]
  omega

theorem write_stack_pushes {top : Nat} {arguments environments : List (List Byte)}
    {elf : ElfFile} {header : ElfHeader} (h : Pushed cfg s D new p as' φ ψ)
    (hlow : base + stack_size top arguments environments ≤ top - 8)
    (hhigh : top - 8 ≤ base + 4096) :
    wp2 (write_stack top off arguments environments elf header)
    (write_stack top off arguments environments elf header)
      (fun _ => Pushed cfg s D new p as') φ ψ := by
  simp only [stack_size] at hlow
  refine wp2_call (push_strings_pushes hnew hoff h (by omega) hhigh) ?_
  rintro ⟨sp₁, envp⟩ φ₁ ψ₁ ⟨hsp₁, henvp, h₁⟩
  dsimp only [List.length_nil] at hsp₁ henvp ⊢
  refine wp2_call (push_strings_pushes hnew hoff h₁ (by omega) (by omega)) ?_
  rintro ⟨sp₂, argv⟩ φ₂ ψ₂ ⟨hsp₂, hargv, h₂⟩
  dsimp only [List.length_nil] at hsp₂ hargv ⊢
  refine wp2_bind (wp2_unwrap fun addr _ => ?_)
  have hpad : sp₂ = top - 8 - (strings_size environments + strings_size arguments) := by omega
  rw [← hpad] at hlow
  have hauvx : (auvx_words (auvx header addr)).length = 14 := rfl
  refine wp2_call (push_words_pushes hnew hoff h₂ (by omega) (by omega)) ?_
  rintro auxv_base φ₃ ψ₃ ⟨hauxv, h₃⟩
  have henvp' : (envp ++ [0]).length = environments.length + 1 := by simp [henvp]
  have hargv' : (argv ++ [0]).length = arguments.length + 1 := by simp [hargv]
  refine wp2_call (push_words_pushes hnew hoff h₃ (by omega) (by omega)) ?_
  rintro envp_base φ₄ ψ₄ ⟨henvp_base, h₄⟩
  refine wp2_call (push_words_pushes hnew hoff h₄ (by omega) (by omega)) ?_
  rintro argv_base φ₅ ψ₅ ⟨hargv_base, h₅⟩
  have hargc : [arguments.length].length = 1 := rfl
  exact wp2_call (push_words_pushes hnew hoff h₅ (by omega) (by omega))
    fun _ _ _ h₆ => wp2_pure h₆.2

end Runs

section Alloc

open PageTableImpl

variable {cfg : Config} {D : Set Nat} {as as' kernel : AddressSpace}
  {l₁ l₂ : List (Option AddressSpace)}
  {φ φ' ψ ψ' : Phys} {pt : PageTableImpl} {m : Mem}

theorem not_covered {new : List (Nat × Nat)} {W : Set Nat} {x y : Nat × Nat}
    (hnodup : (new.map (·.2)).Nodup) (hx : x ∈ new) (hy : y ∈ new) (hne : x.1 ≠ y.1)
    (hW : W ⊆ Set.Ico (frame_va x.2) (frame_va x.2 + 4096)) :
    ¬ Covered (new.map (Page.of stack_perm)) W := by
  intro hc
  have hmem : frame_va y.2 + 8 ∈ body y.2 := Set.mem_Ico.mpr ⟨le_refl _, by omega⟩
  have hshow : stack_perm.shows = true := by decide
  have hin := hW (hc _ (List.mem_map_of_mem hy) hshow hmem)
  have hxy : x.2 = y.2 := body_frame hmem hin.1 hin.2
  exact hne (congrArg Prod.fst (List.inj_on_of_nodup_map hnodup hx hy hxy))

theorem translate_both {s : Os} {new : List Page} {x : Page}
    {va : Nat} (h : Supplied cfg s φ as new) (hs : Consistent cfg s)
    (hd : Differ (D \ as.page_table.bytes) φ ψ) (hx : x ∈ new) (hxv : x.vpn = floor va) :
    translate_va cfg φ.mem as.page_table va = some (x.ppn * PAGE_SIZE + page_offset va) ∧
      translate_va cfg ψ.mem as.page_table va = some (x.ppn * PAGE_SIZE + page_offset va) := by
  have hlookup := h.mapped x hx
  have hsame : lookup cfg ψ.mem as.page_table x.vpn = lookup cfg φ.mem as.page_table x.vpn :=
    lookup_congr h.tree (fun t ht => hd.sameFrame ht) (h.own x hx)
  have hlt := hs.tracked.half.alloc.lt (h.fresh x hx).1
  rw [hxv] at hlookup hsame
  exact ⟨translate_page hlookup (by omega), translate_page (hsame.trans hlookup) (by omega)⟩

theorem user_page {size top v : Nat} {new : List (Nat × Nat)}
    (halloc : as.alloc_user_area size = some top) (hnew : new.map (·.1) = as.user_pages size)
    (hlo : floor (top - size) ≤ v) (hhi : v < ceil top) :
    ∃ x ∈ new, x.1 = v := by
  rw [AddressSpace.user_pages, halloc] at hnew
  exact List.mem_map.mp (hnew ▸ mem_vpns.mpr ⟨hlo, hhi⟩)

theorem stack_pages_last {top : Nat} (h : USER_STACK_SIZE ≤ top) :
    floor (top - USER_STACK_SIZE) ≤ floor (top - 8) ∧ floor (top - 8) < ceil top := by
  simp only [floor, ceil, PAGE_SIZE, USER_STACK_SIZE] at h ⊢
  omega

theorem stack_pages_first {top : Nat} (h : USER_STACK_SIZE ≤ top) :
    floor (top - USER_STACK_SIZE) < ceil top ∧ floor (top - 8) ≠ floor (top - USER_STACK_SIZE) := by
  simp only [floor, ceil, PAGE_SIZE, USER_STACK_SIZE] at h ⊢
  omega

theorem alloc_user_stack_supplies {arguments environments : List (List Byte)}
    {elf : ElfFile} {header : ElfHeader} (hs : Consistent cfg ⟨φ, kernel, l₁ ++ some as :: l₂⟩)
    (hD : D ⊆ freeBytes φ) (hd : Differ D φ ψ)
    (hfit : stack_fits as arguments environments = true) :
    wp2 (do return (← alloc_user_stack cfg as arguments environments elf header).1)
      (do return (← alloc_user_stack cfg as arguments environments elf header).1)
      (fun as' φ' ψ' => ∃ new W, Supplied cfg ⟨φ, kernel, l₁ ++ some as :: l₂⟩ φ' as' new ∧
        (Covered new W ↔ False) ∧ Differ ((D \ W) \ as'.page_table.bytes) φ' ψ') φ ψ := by
  rw [stack_fits, Bool.and_eq_true] at hfit
  obtain ⟨harea, hsize⟩ := hfit
  refine wp2_bind (wp2_call (insert_user_area_differ hs hD hd harea) ?_)
  rintro ⟨as', top⟩ φ₁ ψ₁ ⟨halloc, φ₂, area', new, hnew, hi, h₁⟩
  dsimp only at halloc hi h₁ ⊢
  rw [halloc, Option.all_some, decide_eq_true_eq] at hsize
  have htop := (alloc_user_area_apart (hs.keys as (by simp)) halloc).1
  have hsup : Supplied cfg ⟨φ, kernel, l₁ ++ some as :: l₂⟩ φ₁ as' (new.map (Page.of stack_perm)) :=
    hi.supplied hs rfl (by simp [MapArea.frames])
  obtain ⟨x, hx, hxv⟩ := user_page halloc hnew (stack_pages_last htop).1 (stack_pages_last htop).2
  obtain ⟨y, hy, hyv⟩ := user_page halloc hnew (le_refl _) (stack_pages_first htop).1
  have hne : x.1 ≠ y.1 := by
    rw [hxv, hyv]
    exact (stack_pages_first htop).2
  refine wp2_bind (wp2_unwrap fun last hlast => wp2_get ?_)
  obtain ⟨_, rfl⟩ := checked_sub_eq hlast
  obtain ⟨htranslate, htranslate'⟩ := translate_both hsup hs h₁ (List.mem_map_of_mem hx) hxv
  rw [htranslate, htranslate']
  refine wp2_bind (wp2_unwrap fun pa hpa => wp2_bind (wp2_unwrap fun off hoff => ?_))
  obtain rfl := Option.some.inj hpa
  have hbase := stack_offset_eq htop hoff
  have hpushed : Pushed cfg ⟨φ, kernel, l₁ ++ some as :: l₂⟩ D
    (new.map (Page.of stack_perm)) x.2 as' φ₁ ψ₁ :=
    ⟨hsup, ∅, Set.empty_subset _, h₁.congr (by rw [Set.sdiff_empty])⟩
  have hin := page_offset_le (top - 8)
  refine wp2_call
    (write_stack_pushes ⟨_, List.mem_map_of_mem hx, rfl⟩ hbase hpushed (by omega) (by omega)) ?_
  rintro stack φ₃ ψ₃ ⟨hsup₃, W, hW, h₃⟩
  refine wp2_pure (wp2_pure ⟨_, W, hsup₃, ?_, h₃⟩)
  exact iff_false_intro (not_covered hi.filled.nodup hx hy hne hW)

end Alloc

end HectoOs.UserStack
