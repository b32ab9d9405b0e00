import HectoOs.Mm.AddressSpace
import HectoOs.Mm.MapProofs

/-! # Frames and their owners

A page table owns its tables: each of them has one tracker among all that are alive. The other
trackers are a list, and each operation says what it does to them.
-/

open HectoOs.Lib

namespace HectoOs.Mm

open PageTableImpl PhyPageAllocator

variable {cfg : Config} {mine : Fin 512 → Prop} {may : Panic → Prop} {φ φ' φ'' : Phys}
  {pt pt' pt'' : PageTableImpl} {others others' : List Nat} {p v : Nat}

/-- The tables of `pt` are a tree, and nobody else has a tracker of one of them. -/
structure Owns (cfg : Config) (mine : Fin 512 → Prop) (φ : Phys) (pt : PageTableImpl)
    (others : List Nat) :
    Prop where
  alloc : AllocInv φ (pt.tables ++ others)
  tree : Tree cfg φ.mem pt mine
  once : ∀ t ∈ pt.tables, (pt.tables ++ others).count t = 1

/-- The entries of the root that do not belong to `mine`, and those that are valid, stay. -/
structure SameRoot (mine : Fin 512 → Prop) (φ : Phys) (pt : PageTableImpl)
    (φ' : Phys) (pt' : PageTableImpl) :
    Prop where
  root : pt'.root = pt.root
  keep : ∀ i, ¬ mine i → read_pte φ'.mem pt.root i = read_pte φ.mem pt.root i
  valid : ∀ i, (read_pte φ.mem pt.root i).is_valid = true →
    read_pte φ'.mem pt.root i = read_pte φ.mem pt.root i
  range : SameRange φ φ'

namespace SameRoot

theorem refl (φ : Phys) (pt : PageTableImpl) : SameRoot mine φ pt φ pt :=
  ⟨rfl, fun _ _ => rfl, fun _ _ => rfl, SameRange.refl φ⟩

theorem trans (h : SameRoot mine φ pt φ' pt') (h' : SameRoot mine φ' pt' φ'' pt'') :
    SameRoot mine φ pt φ'' pt'' := by
  refine ⟨h'.root.trans h.root, fun i hi => ?_, fun i hi => ?_, h.range.trans h'.range⟩
  · have := h'.keep i hi
    rw [h.root] at this
    rw [this, h.keep i hi]
  · have hi' := h.valid i hi
    have := h'.valid i
    rw [h.root, hi'] at this
    exact this hi

theorem of_same (hs : SameFrame φ.mem φ'.mem pt.root) (hr : SameRange φ φ') :
    SameRoot mine φ pt φ' pt :=
  ⟨rfl, fun _ _ => read_pte_same hs, fun _ _ => read_pte_same hs, hr⟩

end SameRoot

/-- Lookups do not change where the tables stay as they are. -/
def SameMap (cfg : Config) (mine : Fin 512 → Prop) (m : Mem) (pt : PageTableImpl) (m' : Mem)
    (pt' : PageTableImpl) : Prop := ∀ w, Own mine w → lookup cfg m' pt' w = lookup cfg m pt w

namespace Owns

variable (h : Owns cfg mine φ pt others)
include h

theorem notMem {t : Nat} (ht : t ∈ pt.tables) : t ∉ others := by
  have h1 := h.once t ht
  have h2 := List.count_pos_iff.mpr ht
  rw [List.count_append] at h1
  exact fun ho => by
    have := List.count_pos_iff.mpr ho
    omega

theorem nodup : pt.tables.Nodup := by
  rw [List.nodup_iff_count_le_one]
  intro t
  by_cases ht : t ∈ pt.tables
  · have := h.once t ht
    rw [List.count_append] at this
    omega
  · rw [List.count_eq_zero.mpr ht]
    omega

theorem perm (hp : others'.Perm others) : Owns cfg mine φ pt others' where
  alloc := h.alloc.perm (hp.append_left _)
  tree := h.tree
  once t ht := by
    rw [(hp.append_left pt.tables).count_eq]
    exact h.once t ht

theorem mono {mine' : Fin 512 → Prop} (hm : ∀ i, mine' i → mine i) : Owns cfg mine' φ pt others :=
  ⟨h.alloc, h.tree.mono hm, h.once⟩

theorem sameMap (hs : ∀ t ∈ pt.tables, SameFrame φ.mem φ'.mem t) :
    SameMap cfg mine φ.mem pt φ'.mem pt :=
  fun _ hw => lookup_congr h.tree hs hw

theorem congr (ha : AllocInv φ' (pt.tables ++ others'))
    (hs : ∀ t ∈ pt.tables, SameFrame φ.mem φ'.mem t) (ho : ∀ t ∈ pt.tables, t ∉ others') :
    Owns cfg mine φ' pt others' where
  alloc := ha
  tree := h.tree.congr hs
  once t ht := by
    have h1 := h.once t ht
    rw [List.count_append, List.count_eq_zero.mpr (h.notMem ht)] at h1
    rw [List.count_append, List.count_eq_zero.mpr (ho t ht), h1]

theorem write {m : Mem}
    (hm : ∀ q, q ∉ others → (φ.InRange q ∨ q ∈ pt.tables) → SameFrame φ.mem m q) :
    Owns cfg mine (φ.set_mem m) pt others := by
  refine h.congr (h.alloc.write fun q hr hq => hm q ?_ (.inl hr))
    (fun t ht => hm t (h.notMem ht) (.inr ht))
    fun t ht => h.notMem ht
  exact fun ho => hq (List.mem_append_right _ ho)

end Owns

/-! ## The operations -/

/-- What an operation on `pt` leaves to its owner and to all others. -/
structure Moves (cfg : Config) (mine : Fin 512 → Prop) (others : List Nat)
    (φ : Phys) (pt : PageTableImpl) (φ' : Phys) (pt' : PageTableImpl) : Prop where
  owns : Owns cfg mine φ' pt' others
  root : SameRoot mine φ pt φ' pt'
  same : ∀ q ∈ others, SameFrame φ.mem φ'.mem q
  tables : ∀ t ∈ pt.tables, t ∈ pt'.tables

namespace Moves

theorem refl (h : Owns cfg mine φ pt others) : Moves cfg mine others φ pt φ pt :=
  ⟨h, SameRoot.refl φ pt, fun _ _ => SameFrame.refl _ _, fun _ ht => ht⟩

theorem trans (h : Moves cfg mine others φ pt φ' pt') (h' : Moves cfg mine others φ' pt' φ'' pt'') :
    Moves cfg mine others φ pt φ'' pt'' :=
  ⟨h'.owns, h.root.trans h'.root, fun q hq => (h.same q hq).trans (h'.same q hq),
    fun t ht => h'.tables t (h.tables t ht)⟩

theorem of_step {new : List Nat} (h : Owns cfg mine φ pt others)
    (hs : Step cfg mine (pt.tables ++ others) φ pt φ' pt' new []) :
    Moves cfg mine others φ pt φ' pt' := by
  have htab : pt'.tables = pt.tables ++ new := by
    rw [PageTableImpl.tables, hs.root, hs.frames, PageTableImpl.tables, List.cons_append]
  have hcount : ∀ q, (pt'.tables ++ others).count q =
    (new ++ [] ++ (pt.tables ++ others)).count q := by
    intro q
    simp only [htab, List.count_append, List.count_nil]
    omega
  refine ⟨⟨hs.alloc.congr hcount, hs.tree, fun t ht => ?_⟩,
    ⟨hs.root, hs.keep, hs.valid, hs.range⟩, ?_,
    fun t ht => hs.mem_tables.mpr (.inl ht)⟩
  · rw [hcount, List.count_append, List.append_nil]
    have hnd : new.Nodup := by simpa using hs.nodup
    rcases hs.mem_tables.mp ht with ht | ht
    · have hnew : t ∉ new := fun hn => hs.fresh t (by simpa using hn) (List.mem_append_left _ ht)
      rw [List.count_eq_zero.mpr hnew, h.once t ht]
    · have hold : t ∉ pt.tables ++ others := hs.fresh t (by simpa using ht)
      rw [List.count_eq_one_of_mem hnd ht, List.count_eq_zero.mpr hold]
  · exact fun q hq => hs.same q (List.mem_append_right _ hq) fun ht => h.notMem ht hq

end Moves

theorem drop_frames_spec {live live' dropped : List Nat} (h : AllocInv φ live)
    (hp : live.Perm (dropped ++ live')) :
    wp may (drop_frames dropped) (fun _ φ' => AllocInv φ' live' ∧
      (∀ q ∈ live', SameFrame φ.mem φ'.mem q) ∧ SameRange φ φ') φ := by
  refine wp_mono
    (wp_foldlM (fun done _ φ' => ∃ rest, dropped = done ++ rest ∧ AllocInv φ' (rest ++ live') ∧
    (∀ q ∈ live', SameFrame φ.mem φ'.mem q) ∧ SameRange φ φ') ?_ ?_) ?_
  · exact ⟨dropped, rfl, h.perm hp.symm, fun _ _ => SameFrame.refl _ _, SameRange.refl φ⟩
  · rintro done p rest _ φ₁ rfl ⟨rest', heq, ha, hs, hr⟩
    obtain rfl := List.append_cancel_left heq
    refine wp_mono (dealloc_spec (p := p) ha (by simp)) ?_
    rintro _ φ₂ ⟨ha', hs', hr'⟩
    rw [List.cons_append, List.erase_cons_head] at ha' hs'
    exact ⟨rest, by simp, ha',
      fun q hq => (hs q hq).trans (hs' q (.inr (List.mem_append_right _ hq))), hr.trans hr'⟩
  · rintro _ φ' ⟨rest, heq, ha, hs, hr⟩
    have hnil : rest = [] := by simpa using heq
    subst hnil
    exact ⟨ha, hs, hr⟩

namespace Owns

variable (h : Owns cfg mine φ pt others)
include h

theorem map_one {f : PTEImpl} (hm : may .out_of_frames) (hv : Own mine v)
    (hnone : may .assert ∨ lookup cfg φ.mem pt v = none) :
    wp may (PageTableImpl.map_one cfg pt v p f) (fun pt' φ' => lookup cfg φ.mem pt v = none ∧
      Moves cfg mine others φ pt φ' pt' ∧
      Updates cfg mine φ.mem pt φ'.mem pt' v (some (.new p (f ||| .VALID)))) φ := by
  refine wp_mono
    (map_one_spec h.alloc h.tree (fun _ ht => List.mem_append_left _ ht) hv hm hnone) ?_
  rintro pt' φ' ⟨hn, new, hs, hu⟩
  exact ⟨hn, Moves.of_step h hs, hu⟩

theorem remap_one {f : PTEImpl} (hv : Own mine v)
    (hfound : may .assert ∨ (lookup cfg φ.mem pt v).isSome) :
    wp may (PageTableImpl.remap_one cfg pt v p f) (fun _ φ' => Moves cfg mine others φ pt φ' pt ∧
      Updates cfg mine φ.mem pt φ'.mem pt v (some (.new p (f ||| .VALID)))) φ := by
  refine wp_mono
    (remap_one_spec h.alloc h.tree (fun _ ht => List.mem_append_left _ ht) hv hfound) ?_
  rintro _ φ' ⟨_, hs, hu⟩
  exact ⟨Moves.of_step h hs, hu⟩

theorem modify_flags {f : PTEImpl} (hv : Own mine v)
    (hfound : may .assert ∨ (lookup cfg φ.mem pt v).isSome) :
    wp may (PageTableImpl.modify_flags cfg pt v f)
    (fun _ φ' => ∃ e, lookup cfg φ.mem pt v = some e ∧
      Moves cfg mine others φ pt φ' pt ∧
      Updates cfg mine φ.mem pt φ'.mem pt v (some (.new (e.ppn cfg) (f ||| .VALID)))) φ := by
  refine wp_mono
    (modify_flags_spec h.alloc h.tree (fun _ ht => List.mem_append_left _ ht) hv hfound) ?_
  rintro _ φ' ⟨e, he, hs, hu⟩
  exact ⟨e, he, Moves.of_step h hs, hu⟩

theorem unmap_one (hv : Own mine v) (hfound : may .assert ∨ (lookup cfg φ.mem pt v).isSome) :
    wp may (PageTableImpl.unmap_one cfg pt v) (fun _ φ' => (lookup cfg φ.mem pt v).isSome ∧
      Moves cfg mine others φ pt φ' pt ∧ Updates cfg mine φ.mem pt φ'.mem pt v none) φ := by
  refine wp_mono
    (unmap_one_spec h.alloc h.tree (fun _ ht => List.mem_append_left _ ht) hv hfound) ?_
  rintro _ φ' ⟨hl, hs, hu⟩
  exact ⟨hl, Moves.of_step h hs, hu⟩

theorem frame_alloc (hm : NoneFree φ (pt.tables ++ others) → may .out_of_frames) :
    wp may frame_alloc (fun p φ' => p ∉ pt.tables ++ others ∧ Owns cfg mine φ' pt (p :: others) ∧
      (∀ q, q ≠ p → SameFrame φ.mem φ'.mem q) ∧ SameRange φ φ') φ := by
  refine wp_mono (frame_alloc_spec hm h.alloc) ?_
  intro p φ' hf
  have hne : ∀ t ∈ pt.tables, t ≠ p := fun t ht he => hf.notMem (he ▸ List.mem_append_left _ ht)
  refine ⟨hf.notMem, h.congr ?_ (fun t ht => hf.same t (hne t ht)) fun t ht hm => ?_,
    hf.same, hf.range⟩
  · exact hf.inv.perm (List.perm_middle)
  · rcases List.mem_cons.mp hm with he | ho
    · exact hne t ht he
    · exact h.notMem ht ho

theorem dealloc (hp : p ∈ others) :
    wp may (dealloc p) (fun _ φ' => Owns cfg mine φ' pt (others.erase p) ∧
      (∀ q, q ≠ p ∨ q ∈ others.erase p → SameFrame φ.mem φ'.mem q) ∧ SameRange φ φ') φ := by
  have hnot : p ∉ pt.tables := fun ht => h.notMem ht hp
  have herase : (pt.tables ++ others).erase p = pt.tables ++ others.erase p :=
    List.erase_append_right _ hnot
  refine wp_mono (dealloc_spec h.alloc (List.mem_append_right _ hp)) ?_
  rintro _ φ' ⟨hinv, hsame, hrange⟩
  rw [herase] at hinv hsame
  refine ⟨h.congr hinv (fun t ht => hsame t (.inr (List.mem_append_left _ ht)))
    fun t ht ho => ?_, ?_, hrange⟩
  · exact h.notMem ht (List.mem_of_mem_erase ho)
  · exact fun q hq => hsame q (hq.imp_right fun hq => List.mem_append_right _ hq)

theorem clone (hp : p ∈ others) :
    wp may (PhyPageAllocator.clone p)
    (fun _ φ' => Owns cfg mine φ' pt (p :: others) ∧ φ'.mem = φ.mem ∧
      SameRange φ φ') φ := by
  refine wp_mono (clone_spec h.alloc (List.mem_append_right _ hp)) ?_
  rintro _ φ' ⟨hinv, hmem, hrange⟩
  refine ⟨h.congr (hinv.perm List.perm_middle) (fun t _ => ?_) fun t ht hm => ?_, hmem, hrange⟩
  · rw [hmem]
    exact SameFrame.refl _ _
  · rcases List.mem_cons.mp hm with he | ho
    · exact h.notMem ht (he ▸ hp)
    · exact h.notMem ht ho

theorem drop_frames {dropped : List Nat} (hp : others.Perm (dropped ++ others')) :
    wp may (drop_frames dropped) (fun _ φ' => Owns cfg mine φ' pt others' ∧
      (∀ q ∈ pt.tables ++ others', SameFrame φ.mem φ'.mem q) ∧ SameRange φ φ') φ := by
  have hperm : (pt.tables ++ others).Perm (dropped ++ (pt.tables ++ others')) := by
    rw [List.perm_iff_count] at hp ⊢
    intro q
    have := hp q
    simp only [List.count_append] at this ⊢
    omega
  refine wp_mono (drop_frames_spec h.alloc hperm) ?_
  rintro _ φ' ⟨ha, hs, hr⟩
  refine ⟨h.congr ha (fun t ht => hs t (List.mem_append_left _ ht)) fun t ht ho => ?_, hs, hr⟩
  exact h.notMem ht (hp.mem_iff.mpr (List.mem_append_right _ ho))

end Owns

/-! ## The entry of a page -/

/-- The entry of the page `v` lies in the table `t`. -/
def At (cfg : Config) (m : Mem) (pt : PageTableImpl) (v t : Nat) : Prop :=
  walk (child cfg) (read_pte m) pt.root (inner v) = some t

namespace Owns

variable {t : Nat} {e : PTEImpl} (h : Owns cfg mine φ pt others) (hv : Own mine v)
  (ht : At cfg φ.mem pt v t)
include h hv ht

theorem at_mem : t ∈ pt.tables := by
  obtain ⟨path, hr⟩ := h.tree
  have hin : Inside mine (inner v) := hv
  exact (hr.walk_own (le_refl 2) hin ht).1

theorem at_congr {m : Mem} (hs : ∀ t ∈ pt.tables, SameFrame φ.mem m t) : At cfg m pt v t := by
  obtain ⟨path, hr⟩ := h.tree
  have hin : Inside mine (inner v) := hv
  unfold At
  rw [hr.walk_congr (fun u i hu _ => read_pte_same (hs u hu)) (le_refl 2) hin]
  exact ht

theorem at_write : At cfg (write_pte φ.mem t (vpn_index v 0) e) pt v t := by
  obtain ⟨path, hr⟩ := h.tree
  have hin : Inside mine (inner v) := hv
  have hpath := (hr.walk_own (le_refl 2) hin ht).2
  unfold At
  rw [hr.walk_congr (fun u i _ hlen => read_write_ne ?_) (le_refl 2) hin]
  · exact ht
  · rintro ⟨rfl, _⟩
    rw [hpath] at hlen
    exact absurd hlen (by simp [inner])

theorem set_pte : Moves cfg mine others φ pt (φ.set_mem (write_pte φ.mem t (vpn_index v 0) e)) pt ∧
    Updates cfg mine φ.mem pt (write_pte φ.mem t (vpn_index v 0) e) pt v (leaf e) := by
  obtain ⟨hs, hu⟩ :=
    write_leaf (e := e) h.alloc h.tree (fun _ ht => List.mem_append_left _ ht) hv ht
  exact ⟨Moves.of_step h hs, hu⟩

end Owns

end HectoOs.Mm
