import HectoOs.Mm.PageTable

/-! # The page table is a map

`lookup` is what the walk of the three levels finds. Each operation changes it like the operation of
a map, and changes no memory except the tables it owns and frames that were free.
-/

open HectoOs.Lib

namespace HectoOs.Mm

/-! ## Entries in memory -/

section Entries

variable {m m' : Mem} {t q : Nat} {i j : Fin 512} {e : PTEImpl}

theorem pte_addr_le (t : Nat) (i : Fin 512) :
    frame_va t ≤ pte_addr t i ∧ pte_addr t i + 8 ≤ frame_va t + 4096 := by
  have := i.isLt
  unfold pte_addr
  omega

theorem read_pte_same (h : SameFrame m m' t) : read_pte m' t i = read_pte m t i := by
  have hi := pte_addr_le t i
  rw [read_pte, read_pte, load64_same (h.mono hi.1 hi.2)]

theorem read_write_same : read_pte (write_pte m t i e) t i = e := by
  rw [read_pte, write_pte, load64_store64_same _ _ _ e.isLt, BitVec.ofNat_toNat, BitVec.setWidth_eq]

theorem read_write_ne (h : ¬ (q = t ∧ j = i)) :
    read_pte (write_pte m t i e) q j = read_pte m q j := by
  have hi := pte_addr_le t i
  have hj := pte_addr_le q j
  have hapart : pte_addr q j + 8 ≤ pte_addr t i ∨ pte_addr t i + 8 ≤ pte_addr q j := by
    by_cases hq : q = t
    · subst hq
      have hne : j.val ≠ i.val := fun he => h ⟨rfl, Fin.ext he⟩
      unfold pte_addr
      omega
    · rcases frame_va_apart hq with h' | h' <;> omega
  rw [read_pte, read_pte, write_pte, load64_store64_ne _ _ _ _ hapart]

theorem write_pte_sameFrame (h : t ≠ q) : SameFrame m (write_pte m t i e) q :=
  SameFrame.of_ne h (pte_addr_le t i).1 (pte_addr_le t i).2
    (store64_sameOn m (pte_addr t i) e.toNat)

theorem zeroBytes_sameFrame {n : Nat} (h : t ≠ q) (hn : n ≤ 4096) :
    SameFrame m (zeroBytes m (frame_va t) n) q :=
  SameFrame.of_ne h (le_refl _) (by omega) (zeroBytes_sameOn m (frame_va t) n)

theorem storeByte_sameFrame {va : Nat} {b : Byte} (h : t ≠ q) :
    SameFrame m (storeByte m (frame_va t + page_offset va) b) q := by
  have hoff : page_offset va < 4096 := Nat.mod_lt _ (by decide)
  exact SameFrame.of_ne h (Nat.le_add_right _ _) (show frame_va t + page_offset va + 1 ≤ _ by omega)
    fun c d hcd => storeByte_sameOn m _ b c d (hcd.imp_right fun hc => by omega)

theorem read_pte_zero : read_pte (zeroBytes m (frame_va t) 4096) t i = PTEImpl.EMPTY := by
  rw [read_pte, load64_zeroBytes _ _ _ _ (pte_addr_le t i).1 (pte_addr_le t i).2]
  rfl

end Entries

/-! ## What the walk finds -/

/-- The table a valid entry points to. -/
def child (cfg : Config) (e : PTEImpl) : Option Nat := if e.is_valid then some (e.ppn cfg) else none

/-- A valid entry. -/
def leaf (e : PTEImpl) : Option PTEImpl := if e.is_valid then some e else none

theorem child_of_valid {cfg : Config} {e : PTEImpl} (h : e.is_valid = true) :
    child cfg e = some (e.ppn cfg) :=
  if_pos h

theorem child_of_invalid {cfg : Config} {e : PTEImpl} (h : e.is_valid = false) :
    child cfg e = none := by
  rw [child, h]
  rfl

theorem leaf_eq_some {e e' : PTEImpl} : leaf e = some e' ↔ e.is_valid = true ∧ e = e' := by
  unfold leaf
  split <;> simp_all

theorem is_valid_new (p : Nat) (f : PTEImpl) : (PTEImpl.new p (f ||| .VALID)).is_valid = true := by
  rw [PTEImpl.is_valid_eq, PTEImpl.getLsbD_new _ _ (by omega), BitVec.getLsbD_or, PTEImpl.VALID,
    PTEImpl.getLsbD_flag (by omega)]
  simp

/-- The indices of the two inner levels. -/
def inner (vpn : Nat) : List (Fin 512) := [vpn_index vpn 18, vpn_index vpn 9]

theorem vpn_index_val (vpn shift : Nat) : (vpn_index vpn shift).val = vpn / 2 ^ shift % 512 := by
  show (vpn >>> shift) &&& 511 = _
  rw [Nat.shiftRight_eq_div_pow]
  exact Nat.and_two_pow_sub_one_eq_mod _ 9

/-- The walk sees the low 27 bits of a page number. -/
def key (vpn : Nat) : Nat := vpn % 2 ^ 27

theorem indexes_inj {v w : Nat} :
    (inner v = inner w ∧ vpn_index v 0 = vpn_index w 0) ↔ key v = key w := by
  simp only [key, inner, List.cons.injEq, and_true, Fin.ext_iff, vpn_index_val]
  omega

namespace PageTableImpl

variable {cfg : Config} {m m' : Mem} {pt pt' : PageTableImpl} {mine : Fin 512 → Prop} {v w : Nat}

/-- The entry that translates the page `vpn`. -/
def lookup (cfg : Config) (m : Mem) (pt : PageTableImpl) (vpn : Nat) : Option PTEImpl :=
  (find_pte cfg m pt vpn).map fun pte => read_pte m pte.table pte.index

theorem find_pte_eq : find_pte cfg m pt v =
    (walk (child cfg) (read_pte m) pt.root (inner v)).bind fun t =>
      if (read_pte m t (vpn_index v 0)).is_valid then some ⟨t, vpn_index v 0⟩ else none := by
  simp only [find_pte, indexes, List.tail_cons, inner, walk, find_pte_loop, child]
  split
  · rw [Option.bind_some]
    split <;> rfl
  · rfl

theorem lookup_eq : lookup cfg m pt v =
    find (child cfg) leaf (read_pte m) pt.root (inner v) (vpn_index v 0) := by
  rw [lookup, find_pte_eq, find]
  cases walk (child cfg) (read_pte m) pt.root (inner v) with
  | none => rfl
  | some t =>
    rw [Option.bind_some, Option.bind_some, leaf]
    split <;> rfl

theorem lookup_valid {e : PTEImpl} (h : lookup cfg m pt v = some e) : e.is_valid = true := by
  rw [lookup_eq, find, Option.bind_eq_some_iff] at h
  obtain ⟨t, _, ht⟩ := h
  obtain ⟨hv, rfl⟩ := leaf_eq_some.mp ht
  exact hv

theorem find_pte_of_lookup {e : PTEImpl} (h : lookup cfg m pt v = some e) :
    ∃ t, find_pte cfg m pt v = some ⟨t, vpn_index v 0⟩ ∧
      walk (child cfg) (read_pte m) pt.root (inner v) = some t ∧
      read_pte m t (vpn_index v 0) = e := by
  rw [lookup_eq, find, Option.bind_eq_some_iff] at h
  obtain ⟨t, ht, hleaf⟩ := h
  obtain ⟨hv, rfl⟩ := leaf_eq_some.mp hleaf
  refine ⟨t, ?_, ht, rfl⟩
  rw [find_pte_eq, ht, Option.bind_some, if_pos hv]

theorem find_pte_eq_none (h : lookup cfg m pt v = none) : find_pte cfg m pt v = none := by
  rw [lookup, Option.map_eq_none_iff] at h
  exact h

theorem translate_va_eq (va : Nat) : translate_va cfg m pt va =
    (lookup cfg m pt (floor va)).map fun e => e.ppn cfg * PAGE_SIZE + page_offset va := by
  rw [translate_va, lookup, Option.map_map]
  rfl

/-- The tables of `pt` form one tree; the entries of the root outside `mine` are not its own. -/
def Tree (cfg : Config) (m : Mem) (pt : PageTableImpl) (mine : Fin 512 → Prop) : Prop :=
  ∃ path, Radix (child cfg) (read_pte m) pt.root (· ∈ pt.tables) mine 2 path

/-- The page lies in the part of the address space that belongs to the table. -/
abbrev Own (mine : Fin 512 → Prop) (vpn : Nat) : Prop := mine (vpn_index vpn 18)

theorem Tree.congr (h : Tree cfg m pt mine) (hs : ∀ t ∈ pt.tables, SameFrame m m' t) :
    Tree cfg m' pt mine := by
  obtain ⟨path, h⟩ := h
  exact ⟨path, h.congr fun t _ ht _ => read_pte_same (hs t ht)⟩

theorem Tree.mono {mine' : Fin 512 → Prop} (h : Tree cfg m pt mine) (hm : ∀ i, mine' i → mine i) :
    Tree cfg m pt mine' := by
  obtain ⟨path, h⟩ := h
  exact ⟨path, h.mono hm⟩

theorem lookup_congr (h : Tree cfg m pt mine) (hs : ∀ t ∈ pt.tables, SameFrame m m' t)
    (hv : Own mine v) :
    lookup cfg m' pt v = lookup cfg m pt v := by
  obtain ⟨path, h⟩ := h
  rw [lookup_eq, lookup_eq]
  exact h.find_congr (fun t _ ht => read_pte_same (hs t ht)) (le_refl 2) hv

/-- An operation on `pt` may change its tables, and it may take free frames: `new` for tables of
`pt`, `data` for pages. The entries of the root that are not its own or valid, and everything else
that is alive, stay as they are. -/
structure Step (cfg : Config) (mine : Fin 512 → Prop) (live : List Nat) (φ : Phys)
    (pt : PageTableImpl) (φ' : Phys) (pt' : PageTableImpl) (new data : List Nat) : Prop where
  root : pt'.root = pt.root
  frames : pt'.frames = pt.frames ++ new
  alloc : AllocInv φ' (new ++ data ++ live)
  fresh : ∀ t ∈ new ++ data, t ∉ live
  nodup : (new ++ data).Nodup
  tree : Tree cfg φ'.mem pt' mine
  keep : ∀ i, ¬ mine i → read_pte φ'.mem pt.root i = read_pte φ.mem pt.root i
  valid : ∀ i, (read_pte φ.mem pt.root i).is_valid = true →
    read_pte φ'.mem pt.root i = read_pte φ.mem pt.root i
  same : ∀ q ∈ live, q ∉ pt.tables → SameFrame φ.mem φ'.mem q
  range : SameRange φ φ'

namespace Step

variable {live new new' data data' : List Nat} {φ φ' φ'' : Phys} {pt'' : PageTableImpl}

theorem refl (ha : AllocInv φ live) (ht : Tree cfg φ.mem pt mine) :
    Step cfg mine live φ pt φ pt [] [] where
  root := rfl
  frames := (List.append_nil _).symm
  alloc := ha
  fresh := by simp
  nodup := List.nodup_nil
  tree := ht
  keep _ _ := rfl
  valid _ _ := rfl
  same _ _ _ := SameFrame.refl _ _
  range := SameRange.refl φ

theorem mem_tables (h : Step cfg mine live φ pt φ' pt' new data) {t : Nat} :
    t ∈ pt'.tables ↔ t ∈ pt.tables ∨ t ∈ new := by
  simp only [tables, h.root, h.frames, List.mem_cons, List.mem_append, or_assoc]

theorem tables_live (h : Step cfg mine live φ pt φ' pt' new data) (hl : ∀ t ∈ pt.tables, t ∈ live) :
    ∀ t ∈ pt'.tables, t ∈ new ++ data ++ live := by
  intro t ht
  rcases h.mem_tables.mp ht with ht | ht
  · exact List.mem_append_right _ (hl t ht)
  · exact List.mem_append_left _ (List.mem_append_left _ ht)

theorem trans (h : Step cfg mine live φ pt φ' pt' new data)
    (h' : Step cfg mine (new ++ data ++ live) φ' pt' φ'' pt'' new' data') :
    Step cfg mine live φ pt φ'' pt'' (new ++ new') (data ++ data') where
  root := h'.root.trans h.root
  frames := by rw [h'.frames, h.frames, List.append_assoc]
  alloc := h'.alloc.congr fun p => by
    simp only [List.count_append]
    omega
  fresh t ht := by
    have hmem : t ∈ new ++ data ∨ t ∈ new' ++ data' := by
      simp only [List.mem_append] at ht ⊢
      tauto
    rcases hmem with ht | ht
    · exact h.fresh t ht
    · exact fun hl => h'.fresh t ht (List.mem_append_right _ hl)
  nodup := by
    have hperm : (new ++ data ++ (new' ++ data')).Perm (new ++ new' ++ (data ++ data')) := by
      rw [List.perm_iff_count]
      intro a
      simp only [List.count_append]
      omega
    refine hperm.nodup (List.nodup_append.mpr ⟨h.nodup, h'.nodup, fun a ha b hb he => ?_⟩)
    exact h'.fresh b hb (List.mem_append_left _ (he ▸ ha))
  tree := h'.tree
  keep i hi := by
    have := h'.keep i hi
    rw [h.root] at this
    rw [this, h.keep i hi]
  valid i hi := by
    have hi' := h.valid i hi
    have := h'.valid i
    rw [h.root, hi'] at this
    exact this hi
  same q hq hnot := by
    refine (h.same q hq hnot).trans (h'.same q (List.mem_append_right _ hq) ?_)
    rw [h.mem_tables]
    rintro (ht | ht)
    · exact hnot ht
    · exact h.fresh q (List.mem_append_left _ ht) hq
  range := h.range.trans h'.range

end Step

/-! ## Creating tables -/

section Create

variable {may : Panic → Prop} {live : List Nat} {φ : Phys}

/-- What `find_pte_create` and its loop leave: no page is translated differently. -/
structure Created (cfg : Config) (mine : Fin 512 → Prop) (live : List Nat)
    (φ : Phys) (pt : PageTableImpl) (φ' : Phys) (pt' : PageTableImpl) (new : List Nat) : Prop
    extends Step cfg mine live φ pt φ' pt' new [] where
  found : ∀ is i, is.length = 2 → Inside mine is →
    find (child cfg) leaf (read_pte φ'.mem) pt'.root is i =
      find (child cfg) leaf (read_pte φ.mem) pt.root is i

theorem Created.refl (ha : AllocInv φ live) (ht : Tree cfg φ.mem pt mine) :
    Created cfg mine live φ pt φ pt [] where
  toStep := Step.refl ha ht
  found _ _ _ _ := rfl

theorem Created.trans {φ' φ'' : Phys} {pt'' : PageTableImpl} {new new' : List Nat}
    (h : Created cfg mine live φ pt φ' pt' new)
    (h' : Created cfg mine (new ++ [] ++ live) φ' pt' φ'' pt'' new') :
    Created cfg mine live φ pt φ'' pt'' (new ++ new') where
  toStep := h.toStep.trans h'.toStep
  found is i hlen hin := (h'.found is i hlen hin).trans (h.found is i hlen hin)

/-- Memory `m'` holds a new, empty table `n`, and the entry `i₀` of `t₀` points to it. -/
structure NewTable (cfg : Config) (pt : PageTableImpl) (φ φ' : Phys) (m' : Mem)
    (t₀ : Nat) (i₀ : Fin 512) (n : Nat) : Prop where
  entry : child cfg (read_pte m' t₀ i₀) = some n
  empty : ∀ i, read_pte m' n i = .EMPTY
  other : ∀ t i, t ∈ pt.tables → ¬ (t = t₀ ∧ i = i₀) → read_pte m' t i = read_pte φ.mem t i
  same : ∀ q, q ≠ n → q ≠ t₀ → SameFrame φ'.mem m' q

theorem newTable_write {φ' : Phys} {n t₀ : Nat} {i₀ : Fin 512} (hl : ∀ t ∈ pt.tables, t ∈ live)
    (hn : PhyPageAllocator.Fresh φ φ' live n) (hown : t₀ ∈ pt.tables) :
    NewTable cfg pt φ φ'
      (write_pte (zeroBytes φ'.mem (frame_va n) 4096) t₀ i₀ (.new n .VALID)) t₀ i₀ n := by
  have hnt : ∀ t ∈ pt.tables, n ≠ t := fun t ht' he => hn.notMem (he ▸ hl t ht')
  have hn26 : n < 2 ^ 26 := hn.inv.lt (hn.inv.range n List.mem_cons_self)
  refine ⟨?_, fun i => ?_, fun t i ht hne => ?_, fun q hq hq₀ => ?_⟩
  · have hvalid : (PTEImpl.new n .VALID).is_valid = true := is_valid_new n 0
    rw [read_write_same, child_of_valid hvalid, PTEImpl.ppn_new cfg (by omega)]
  · rw [read_write_ne (fun h => hnt t₀ hown h.1), read_pte_zero]
  · rw [read_write_ne hne, read_pte_same (zeroBytes_sameFrame (hnt t ht) (le_refl _)),
      read_pte_same (hn.same t (Ne.symm (hnt t ht)))]
  · exact (zeroBytes_sameFrame (Ne.symm hq) (le_refl _)).trans (write_pte_sameFrame (Ne.symm hq₀))

theorem created_of_newTable {φ' : Phys} {m' : Mem}
    {n t₀ : Nat} {i₀ : Fin 512} {path : Nat → List (Fin 512)}
    (ht : Radix (child cfg) (read_pte φ.mem) pt.root (· ∈ pt.tables) mine 2 path)
    (hl : ∀ t ∈ pt.tables, t ∈ live) (hn : PhyPageAllocator.Fresh φ φ' live n)
    (hown : t₀ ∈ pt.tables) (hw : NewTable cfg pt φ φ' m' t₀ i₀ n)
    (hlen : (path t₀).length < 2) (hin : Inside mine (path t₀ ++ [i₀]))
    (hreach : walk (child cfg) (read_pte φ.mem) pt.root (path t₀) = some t₀)
    (hnone : child cfg (read_pte φ.mem t₀ i₀) = none) :
    Created cfg mine live φ pt (φ'.set_mem m') { pt with frames := pt.frames ++ [n] } [n] ∧
      walk (child cfg) (read_pte m') pt.root (path t₀ ++ [i₀]) = some n := by
  have hempty : ∀ i, child cfg (read_pte m' n i) = none := fun i => by
    rw [hw.empty i]
    rfl
  have hgrow := ht.grow hw.entry hempty hw.other fun h => hn.notMem (hl n h)
  refine ⟨⟨⟨rfl, rfl, ?_, ?_, List.nodup_singleton n, ?_, ?_, ?_, ?_, hn.range.set_mem _⟩, ?_⟩, ?_⟩
  · refine hn.inv.write fun q _ hq => hw.same q ?_ ?_
    · exact fun h => hq (by simp [h])
    · exact fun h => hq (by simp [h, hl t₀ hown])
  · simpa using hn.notMem
  · have heq : (fun t => t ∈ pt.tables ∨ t = n) =
        fun t => t ∈ tables { pt with frames := pt.frames ++ [n] } := by
      funext t
      simp [tables, or_assoc]
    rw [heq] at hgrow
    exact ⟨_, hgrow⟩
  · intro i hi
    refine hw.other _ i (by simp [tables]) ?_
    rintro ⟨rfl, rfl⟩
    rw [ht.root_path] at hin
    exact hi hin
  · intro i hi
    refine hw.other _ i (by simp [tables]) ?_
    rintro ⟨rfl, rfl⟩
    rw [child_of_valid hi] at hnone
    simp at hnone
  · intro q hq hqt
    have hqn : q ≠ n := fun h => hn.notMem (h ▸ hq)
    exact (hn.same q hqn).trans (hw.same q hqn fun h => hqt (h ▸ hown))
  · intro js j hjs hjin
    refine ht.find_grow hnone hw.entry hempty hw.other (fun i => ?_) hlen hreach hjs hjin
    rw [hw.empty i]
    rfl
  · rw [ht.walk_grow hnone hw.entry hempty hw.other hreach (by simp; omega) hin, if_pos rfl]

theorem create_table_spec (hm : may .out_of_frames) (ha : AllocInv φ live)
    (ht : Tree cfg φ.mem pt mine) (hl : ∀ t ∈ pt.tables, t ∈ live) {is : List (Fin 512)}
    {pte : Slot} (hlen : is.length < 2) (hin : Inside mine (is ++ [pte.index]))
    (hreach : walk (child cfg) (read_pte φ.mem) pt.root is = some pte.table)
    (hinv : (read_pte φ.mem pte.table pte.index).is_valid = false) :
    wp may (create_table pt pte) (fun pt' φ' => ∃ n,
      Created cfg mine live φ pt φ' pt' [n] ∧
      child cfg (read_pte φ'.mem pte.table pte.index) = some n ∧
      walk (child cfg) (read_pte φ'.mem) pt'.root (is ++ [pte.index]) = some n) φ := by
  obtain ⟨path, ht⟩ := ht
  obtain ⟨hown, rfl⟩ := ht.walk_own (by omega) hin.of_append hreach
  rw [create_table, wp_bind]
  refine wp_mono (frame_alloc_spec (fun _ => hm) ha) ?_
  intro n φ₁ hn
  have hw : NewTable cfg pt φ φ₁ _ pte.table pte.index n := newTable_write hl hn hown
  have hc := created_of_newTable ht hl hn hown hw hlen hin hreach (child_of_invalid hinv)
  rw [wp_bind, wp_modify, wp_bind, wp_modify, wp_pure, Phys.set_mem_mem, Phys.set_mem_set_mem]
  exact ⟨n, hc.1, hw.entry, hc.2⟩

theorem find_pte_create_loop_spec (hm : may .out_of_frames) {rest : List (Fin 512)} :
    ∀ {live : List Nat} {φ : Phys} {pt : PageTableImpl} {pte : Slot} {is : List (Fin 512)},
    AllocInv φ live → Tree cfg φ.mem pt mine → (∀ t ∈ pt.tables, t ∈ live) →
    is.length + rest.length = 2 → Inside mine (is ++ [pte.index]) →
    walk (child cfg) (read_pte φ.mem) pt.root is = some pte.table →
    wp may (find_pte_create_loop cfg pt pte rest) (fun r φ' => ∃ new is',
      Created cfg mine live φ pt φ' r.1 new ∧ is ++ pte.index :: rest = is' ++ [r.2.index] ∧
      walk (child cfg) (read_pte φ'.mem) r.1.root is' = some r.2.table) φ := by
  induction rest with
  | nil =>
    intro live φ pt pte is ha ht hl _ _ hreach
    rw [find_pte_create_loop, wp_pure]
    exact ⟨[], is, Created.refl ha ht, rfl, hreach⟩
  | cons idx rest ih =>
    intro live φ pt pte is ha ht hl hlen hin hreach
    rw [List.length_cons] at hlen
    have happ : is ++ [pte.index] ++ idx :: rest = is ++ pte.index :: idx :: rest := by simp
    have hin' : Inside mine (is ++ [pte.index] ++ [idx]) := by
      cases is with
      | nil => exact hin
      | cons i is => exact hin
    rw [find_pte_create_loop, wp_bind, wp_get, wp_ite]
    refine ⟨fun hvalid => ?_, fun hinvalid => ?_⟩
    · have hnext : walk (child cfg) (read_pte φ.mem) pt.root (is ++ [pte.index]) =
          some ((read_pte φ.mem pte.table pte.index).ppn cfg) := by
        rw [walk_snoc, hreach, Option.bind_some, child_of_valid hvalid]
      rw [← happ]
      exact ih ha ht hl (by simp; omega) hin' hnext
    · rw [wp_bind]
      refine wp_mono
        (create_table_spec hm ha ht hl (by omega) hin hreach (by simpa using hinvalid)) ?_
      rintro pt₁ φ₁ ⟨n, hc, hentry, hwalk⟩
      have hppn : (read_pte φ₁.mem pte.table pte.index).ppn cfg = n := by
        unfold child at hentry
        split at hentry
        · exact Option.some.inj hentry
        · simp at hentry
      rw [wp_bind, wp_get, ← happ]
      simp only [hppn]
      refine wp_mono (ih hc.alloc hc.tree (hc.tables_live hl) (by simp; omega) hin' hwalk) ?_
      rintro ⟨pt₂, pte₂⟩ φ₂ ⟨new, is', hc', happ', hwalk'⟩
      exact ⟨[n] ++ new, is', hc.trans hc', happ', hwalk'⟩

theorem find_pte_create_spec (hm : may .out_of_frames) (ha : AllocInv φ live)
    (ht : Tree cfg φ.mem pt mine) (hl : ∀ t ∈ pt.tables, t ∈ live) (hv : Own mine v) :
    wp may (find_pte_create cfg pt v) (fun r φ' => ∃ new, Created cfg mine live φ pt φ' r.1 new ∧
      r.2.index = vpn_index v 0 ∧
      walk (child cfg) (read_pte φ'.mem) r.1.root (inner v) = some r.2.table) φ := by
  have hin : Inside mine ([] ++ [vpn_index v 18]) := hv
  refine wp_mono (find_pte_create_loop_spec hm ha ht hl rfl hin rfl) ?_
  rintro ⟨pt', pte⟩ φ' ⟨new, is', hc, happ, hwalk⟩
  have happ' : inner v ++ [vpn_index v 0] = is' ++ [pte.index] := happ
  obtain ⟨h1, h2⟩ := List.append_inj' happ' rfl
  exact ⟨new, hc, (List.singleton_inj.mp h2).symm, by rw [h1]; exact hwalk⟩

end Create

/-! ## Writing one entry -/

section Write

variable {may : Panic → Prop} {live : List Nat} {φ : Phys} {e e' : PTEImpl}

/-- The pages of `pt` are translated as before, except that the entry of `v` is now `o`. -/
def Updates (cfg : Config) (mine : Fin 512 → Prop) (m : Mem) (pt : PageTableImpl) (m' : Mem)
    (pt' : PageTableImpl) (v : Nat) (o : Option PTEImpl) : Prop :=
  ∀ w, Own mine w → lookup cfg m' pt' w = if key w = key v then o else lookup cfg m pt w

theorem write_leaf {t : Nat} (ha : AllocInv φ live) (ht : Tree cfg φ.mem pt mine)
    (hl : ∀ t ∈ pt.tables, t ∈ live) (hv : Own mine v)
    (hwalk : walk (child cfg) (read_pte φ.mem) pt.root (inner v) = some t) :
    Step cfg mine live φ pt (φ.set_mem (write_pte φ.mem t (vpn_index v 0) e)) pt [] [] ∧
      Updates cfg mine φ.mem pt (write_pte φ.mem t (vpn_index v 0) e) pt v (leaf e) := by
  obtain ⟨path, ht⟩ := ht
  have hin : ∀ {u : Nat}, Own mine u → Inside mine (inner u) := fun hu => hu
  obtain ⟨hown, hpath⟩ := ht.walk_own (le_refl 2) (hin hv) hwalk
  have hsame : ∀ u i, u ∈ pt.tables → ¬ (u = t ∧ i = vpn_index v 0) →
      read_pte (write_pte φ.mem t (vpn_index v 0) e) u i = read_pte φ.mem u i :=
    fun u i _ hne => read_write_ne hne
  have hroot : t ≠ pt.root := by
    rintro rfl
    rw [ht.root_path] at hpath
    simp [inner] at hpath
  refine ⟨⟨rfl, (List.append_nil _).symm, ?_, by simp, List.nodup_nil,
    ⟨path, ?_⟩, fun i _ => ?_, fun i _ => ?_, ?_,
    (SameRange.refl φ).set_mem _⟩, ?_⟩
  · exact ha.write fun q _ hq => write_pte_sameFrame fun h => hq (h ▸ hl t hown)
  · refine ht.congr fun u i hu hlen => hsame u i hu ?_
    rintro ⟨rfl, _⟩
    rw [hpath] at hlen
    simp [inner] at hlen
  · exact read_write_ne fun h => hroot h.1.symm
  · exact read_write_ne fun h => hroot h.1.symm
  · exact fun q _ hq => write_pte_sameFrame fun h => hq (h ▸ hown)
  · intro w hw
    rw [lookup_eq, lookup_eq,
      ht.find_set rfl (hin hv) hwalk hsame rfl (hin hw), read_write_same]
    exact if_congr indexes_inj rfl rfl

theorem find_valid_spec {R : Slot → Phys → Prop} (hfound : may .assert ∨
    (lookup cfg φ.mem pt v).isSome) (hR : ∀ t e, lookup cfg φ.mem pt v = some e →
      walk (child cfg) (read_pte φ.mem) pt.root (inner v) = some t →
      read_pte φ.mem t (vpn_index v 0) = e → R ⟨t, vpn_index v 0⟩ φ) :
    wp may (find_valid cfg pt v) R φ := by
  rw [find_valid, wp_bind, wp_get, wp_bind, wp_unwrap]
  cases hlook : lookup cfg φ.mem pt v with
  | none =>
    rw [find_pte_eq_none hlook]
    refine ⟨by simp, fun _ => ?_⟩
    simpa [hlook] using hfound
  | some e =>
    obtain ⟨t, hfind, hwalk, hread⟩ := find_pte_of_lookup hlook
    rw [hfind]
    refine ⟨?_, by simp⟩
    rintro pte hpte
    obtain rfl := Option.some.inj hpte
    rw [wp_bind]
    refine wp_assert_of ?_ (wp_pure.mpr (hR t e hlook hwalk hread))
    rw [hread]
    exact lookup_valid hlook

variable {p : Nat} {f : PTEImpl} (ha : AllocInv φ live) (ht : Tree cfg φ.mem pt mine)
  (hl : ∀ t ∈ pt.tables, t ∈ live) (hv : Own mine v)
include ha ht hl hv

theorem remap_one_spec (hfound : may .assert ∨ (lookup cfg φ.mem pt v).isSome) :
    wp may (remap_one cfg pt v p f) (fun _ φ' => (lookup cfg φ.mem pt v).isSome ∧
      Step cfg mine live φ pt φ' pt [] [] ∧
      Updates cfg mine φ.mem pt φ'.mem pt v (some (.new p (f ||| .VALID)))) φ := by
  rw [remap_one, wp_bind]
  refine find_valid_spec hfound fun t e hlook hwalk hread => ?_
  rw [set_pte, wp_modify]
  have hleaf : leaf (.new p (f ||| .VALID)) = some (.new p (f ||| .VALID)) :=
    leaf_eq_some.mpr ⟨is_valid_new p f, rfl⟩
  have h := write_leaf (e := .new p (f ||| .VALID)) ha ht hl hv hwalk
  rw [hleaf] at h
  exact ⟨by simp [hlook], h⟩

theorem modify_flags_spec (hfound : may .assert ∨ (lookup cfg φ.mem pt v).isSome) :
    wp may (modify_flags cfg pt v f) (fun _ φ' => ∃ e, lookup cfg φ.mem pt v = some e ∧
      Step cfg mine live φ pt φ' pt [] [] ∧
      Updates cfg mine φ.mem pt φ'.mem pt v (some (.new (e.ppn cfg) (f ||| .VALID)))) φ := by
  rw [modify_flags, wp_bind]
  refine find_valid_spec hfound fun t e hlook hwalk hread => ?_
  rw [wp_bind, wp_get, set_pte, wp_modify, hread]
  have hleaf : leaf (.new (e.ppn cfg) (f ||| .VALID)) = some (.new (e.ppn cfg) (f ||| .VALID)) :=
    leaf_eq_some.mpr ⟨is_valid_new _ f, rfl⟩
  have h := write_leaf (e := .new (e.ppn cfg) (f ||| .VALID)) ha ht hl hv hwalk
  rw [hleaf] at h
  exact ⟨e, hlook, h⟩

theorem unmap_one_spec (hfound : may .assert ∨ (lookup cfg φ.mem pt v).isSome) :
    wp may (unmap_one cfg pt v) (fun _ φ' => (lookup cfg φ.mem pt v).isSome ∧
      Step cfg mine live φ pt φ' pt [] [] ∧ Updates cfg mine φ.mem pt φ'.mem pt v none) φ := by
  rw [unmap_one, wp_bind]
  refine find_valid_spec hfound fun t e hlook hwalk hread => ?_
  rw [set_pte, wp_modify]
  exact ⟨by simp [hlook], write_leaf (e := .EMPTY) ha ht hl hv hwalk⟩

theorem map_one_spec (hm : may .out_of_frames)
    (hnone : may .assert ∨ lookup cfg φ.mem pt v = none) :
    wp may (map_one cfg pt v p f) (fun pt' φ' => lookup cfg φ.mem pt v = none ∧
      ∃ new, Step cfg mine live φ pt φ' pt' new [] ∧
      Updates cfg mine φ.mem pt φ'.mem pt' v (some (.new p (f ||| .VALID)))) φ := by
  rw [map_one, wp_bind]
  refine wp_mono (find_pte_create_spec hm ha ht hl hv) ?_
  rintro ⟨pt₁, t, i⟩ φ₁ ⟨new, hc, hi, hwalk⟩
  obtain rfl : i = vpn_index v 0 := hi
  have hlook : ∀ w, Own mine w → lookup cfg φ₁.mem pt₁ w = lookup cfg φ.mem pt w := by
    intro w hw
    rw [lookup_eq, lookup_eq]
    exact hc.found (inner w) _ rfl hw
  -- the entry that was found is the one that `lookup` reads
  have hread : lookup cfg φ.mem pt v = leaf (read_pte φ₁.mem t (vpn_index v 0)) := by
    rw [← hlook v hv, lookup_eq, find, hwalk, Option.bind_some]
  simp only [wp_bind, wp_get, wp_assert, set_pte, wp_modify, wp_pure]
  refine ⟨fun hinv => ?_, fun hvalid => ?_⟩
  · have hnone' : lookup cfg φ.mem pt v = none := by
      rw [hread, leaf, if_neg (by simpa using hinv)]
    have hleaf : leaf (.new p (f ||| .VALID)) = some (.new p (f ||| .VALID)) :=
      leaf_eq_some.mpr ⟨is_valid_new p f, rfl⟩
    obtain ⟨hs, hu⟩ :=
      write_leaf (e := .new p (f ||| .VALID)) hc.alloc hc.tree (hc.tables_live hl) hv hwalk
    rw [hleaf] at hu
    refine ⟨hnone', new ++ [], hc.toStep.trans hs, fun w hw => ?_⟩
    rw [Phys.set_mem_mem, hu w hw, hlook w hw]
  · rcases hnone with h | h
    · exact h
    · rw [hread, leaf, if_pos (by simpa using hvalid)] at h
      simp at h

end Write

end PageTableImpl

end HectoOs.Mm
