import HectoOs.Fs.VnodeRefs

/-! # The keys of the vnode cache

A key borrows a string and can outlive it: `mount` gives a new vnode to a key that is there, so the
old vnode, whose `full_path` the key borrows, can go before the key; and `umount` frees the
`mount_point`. As long as all strings are there, the cache is a map from paths to vnodes.
-/

open HectoOs.Lib

namespace HectoOs.Fs

variable {τ ι : Type} {F : Fatfs τ ι} {s s' : Vfs τ ι} {p q : Path} {flags : OpenFlags}

/-- The vnode that was made together with the string. -/
def Key.vnode : Key → Nat
  | .full_path v => v
  | .mount_point _ root => root

def Vfs.keys (s : Vfs τ ι) : List Key := s.VNODE_HASHSET.map Prod.fst

/-- A string that is still there is the path of the vnode, and no two keys have the same. -/
structure Keyed (s : Vfs τ ι) : Prop where
  named : ∀ e ∈ s.VNODE_HASHSET, ∀ p, s.string e.1 = some p → s.path_of e.2 = some p
  distinct : (s.keys.filterMap s.string).Nodup
  old : ∀ k ∈ s.keys, k.vnode < s.vnodes.next

/-- The strings of all keys are still there. -/
def KeysAlive (s : Vfs τ ι) : Prop := ∀ k ∈ s.keys, (s.string k).isSome

section Strings

variable {k : Key} {v : Nat}

theorem mem_keys {e : Key × Nat} (he : e ∈ s.VNODE_HASHSET) : e.1 ∈ s.keys := List.mem_map_of_mem he

theorem string_congr (ht : s'.FILE_SYSTEM_TABLE = s.FILE_SYSTEM_TABLE) (hr : s'.roots = s.roots)
    (hg : ∀ w, k = .full_path w → s'.vnodes.get w = s.vnodes.get w) : s'.string k = s.string k := by
  cases k with
  | full_path w => exact congrArg (Option.map Vnode.full_path) (hg w rfl)
  | mount_point i root =>
    unfold Vfs.string
    rw [ht, hr]

theorem string_of_drop (ht : s'.FILE_SYSTEM_TABLE = s.FILE_SYSTEM_TABLE) (hr : s'.roots = s.roots)
    (hg : ∀ w, (s'.vnodes.get w).isSome → s'.vnodes.get w = s.vnodes.get w) :
    s'.string k = none ∨ s'.string k = s.string k := by
  cases hs : s'.string k with
  | none => exact .inl rfl
  | some p =>
    right
    rw [← hs]
    refine string_congr ht hr ?_
    rintro w rfl
    refine hg w ?_
    obtain ⟨n, hn, -⟩ := Option.map_eq_some_iff.mp hs
    exact hn ▸ rfl

theorem string_registered {i : Fin MAX_FILE_SYSTEM} (hi : s.FILE_SYSTEM_TABLE i = none)
    (hk : k.vnode < s.vnodes.next) : (registered F s p i).string k = s.string k := by
  cases k with
  | full_path w =>
    exact congrArg (Option.map Vnode.full_path) (Arcs.get_new_of_ne (Nat.ne_of_lt hk))
  | mount_point j root =>
    by_cases hj : j = i
    · subst hj
      have hne : ¬ s.vnodes.next = root := fun he => absurd hk (by simp [Key.vnode, he])
      simp [Vfs.string, registered, hi, hne]
    · simp [Vfs.string, registered, Function.update_of_ne hj]

theorem string_umount {i : Fin MAX_FILE_SYSTEM} :
    { s with FILE_SYSTEM_TABLE := Function.update s.FILE_SYSTEM_TABLE i none }.string k = none ∨
      { s with FILE_SYSTEM_TABLE := Function.update s.FILE_SYSTEM_TABLE i none }.string k =
        s.string k := by
  cases k with
  | full_path w => exact .inr rfl
  | mount_point j root =>
    by_cases hj : j = i
    · subst hj
      left
      simp [Vfs.string]
    · right
      simp [Vfs.string, Function.update_of_ne hj]

end Strings

theorem filterMap_sublist {κ ν : Type} {f g : κ → Option ν} {l : List κ}
    (h : ∀ x ∈ l, f x = none ∨ f x = g x) : (l.filterMap f).Sublist (l.filterMap g) := by
  induction l with
  | nil => exact List.Sublist.refl _
  | cons x l ih =>
    have hl := ih fun y hy => h y (List.mem_cons_of_mem _ hy)
    rw [List.filterMap_cons, List.filterMap_cons]
    rcases h x List.mem_cons_self with hx | hx
    · rw [hx]
      cases g x with
      | none => exact hl
      | some y => exact hl.cons y
    · rw [hx]
      cases g x with
      | none => exact hl
      | some y => exact hl.cons_cons y

namespace Keyed

variable {k : Key} {v : Nat} {hand : List Nat}

theorem shrink (h : Keyed s) (hl : s'.VNODE_HASHSET.Subperm s.VNODE_HASHSET)
    (hs : ∀ k ∈ s.keys, s'.string k = none ∨ s'.string k = s.string k)
    (hp : ∀ v ∈ s'.held, s'.path_of v = s.path_of v) (hn : s.vnodes.next ≤ s'.vnodes.next) :
    Keyed s' := by
  have hkeys : ∀ k ∈ s'.keys, k ∈ s.keys := fun k hk => by
    obtain ⟨e, he, rfl⟩ := List.mem_map.mp hk
    exact mem_keys (hl.subset he)
  refine ⟨fun e he p hep => ?_, ?_, fun k hk => (h.old k (hkeys k hk)).trans_le hn⟩
  · rcases hs e.1 (mem_keys (hl.subset he)) with hnone | heq
    · simp [hnone] at hep
    · rw [hp e.2 (List.mem_map_of_mem he)]
      exact h.named e (hl.subset he) p (heq ▸ hep)
  · obtain ⟨l, hperm, hsub⟩ := hl
    have hl : (l.map Prod.fst).Sublist s.keys := hsub.map _
    have hnodup := h.distinct.sublist (hl.filterMap s.string)
    have hmem : ∀ k ∈ s'.keys, k ∈ l.map Prod.fst := (hperm.map _).symm.subset
    exact (((hperm.map Prod.fst).filterMap s.string).nodup_iff.mp hnodup).sublist
      (filterMap_sublist fun k hk => hs k (hl.subset (hmem k hk)))

theorem append (h : Keyed s) (hk : s.string k = some p) (hv : s.path_of v = some p)
    (hno : ∀ k ∈ s.keys, s.string k ≠ some p) (hold : k.vnode < s.vnodes.next) :
    Keyed { s with VNODE_HASHSET := s.VNODE_HASHSET ++ [(k, v)] } := by
  refine ⟨fun e he q heq => ?_, ?_, fun j hj => ?_⟩
  · rcases List.mem_append.mp he with he | he
    · exact h.named e he q heq
    · obtain rfl := List.mem_singleton.mp he
      obtain rfl := Option.some.inj (hk.symm.trans heq)
      exact hv
  · change ((s.VNODE_HASHSET ++ [(k, v)]).map Prod.fst |>.filterMap s.string).Nodup
    rw [List.map_append, List.filterMap_append, List.nodup_append]
    refine ⟨h.distinct, by simp [hk], fun q hq r hr => ?_⟩
    obtain ⟨j, hj, hjq⟩ := List.mem_filterMap.mp hq
    obtain rfl : r = p := by simpa [hk] using hr
    rintro rfl
    exact hno j hj hjq
  · unfold Vfs.keys at hj
    rw [List.map_append, List.mem_append] at hj
    rcases hj with hj | hj
    · exact h.old j hj
    · obtain rfl := List.mem_singleton.mp hj
      exact hold

theorem found_of_string (hk : s.string k = some q) : s.found p k = true ↔ q = p := by
  unfold Vfs.found Vfs.reads
  rw [hk]
  simp

theorem string_ne_of_uncached (hp : s.cached p = none) : ∀ k ∈ s.keys, s.string k ≠ some p := by
  intro k hk heq
  obtain ⟨e, he, rfl⟩ := List.mem_map.mp hk
  have hno := KeyTable.lookup_eq_none.mp hp e he
  rw [(found_of_string heq).mpr rfl] at hno
  exact absurd hno (by decide)

theorem put (hi : CacheInv s (v :: hand)) (h : Keyed s) (hk : s.string k = some p)
    (hv : s.path_of v = some p) (hold : k.vnode < s.vnodes.next) : Keyed (s.put p k v) := by
  have hins : Keyed { s with VNODE_HASHSET := (s.put p k v).VNODE_HASHSET } := by
    unfold Vfs.put
    by_cases hp : s.cached p = none
    · rw [KeyTable.insert_new hp]
      exact h.append hk hv (string_ne_of_uncached hp) hold
    · have hkeys := KeyTable.insert_keys (k := k) (v := v) hp
      refine ⟨fun e he q heq => ?_, ?_, ?_⟩
      · rcases KeyTable.mem_insert he with he | ⟨-, hnone⟩ | ⟨hev, hfound⟩
        · exact h.named e he q heq
        · exact absurd hnone hp
        · obtain rfl := (found_of_string heq).mp hfound
          exact hev ▸ hv
      · unfold Vfs.keys
        rw [hkeys]
        exact h.distinct
      · unfold Vfs.keys
        rw [hkeys]
        exact h.old
  refine hins.shrink (List.Subperm.refl _) (fun k _ => ?_) (fun w hw => ?_) (Nat.le_of_eq ?_)
  · exact string_of_drop rfl rfl fun w hw => get_of_drop_old hw
  · refine congrArg (Option.map Vnode.full_path) (hi.get_put (p := p) (k := k) ?_)
    exact List.mem_append_right _ (List.mem_append_left _ hw)
  · unfold Vfs.put drop_old
    dsimp only
    cases s.cached p with
    | none => rfl
    | some w => exact Arcs.next_drop.symm

theorem drops {fd : FileDescriptor} {n : Vnode ι} (hi : CacheInv s (fd.vnode :: hand)) (h : Keyed s)
    (hd : Drops s fd n s') : Keyed s' := by
  have hpath : ∀ w ∈ s'.held, s'.path_of w = s.path_of w := fun w hw =>
    congrArg (Option.map Vnode.full_path) (hi.get_drops hd (List.mem_append_left _ hw))
  cases hd with
  | keeps hc =>
    refine h.shrink (List.Subperm.refl _) (fun k _ => ?_) hpath (Nat.le_of_eq Arcs.next_drop.symm)
    exact string_of_drop rfl rfl fun w hw => Arcs.get_of_drop hw
  | evicts hc h1 =>
    refine h.shrink KeyTable.remove_sublist.subperm (fun k _ => ?_) hpath (Nat.le_of_eq ?_)
    · refine string_of_drop rfl rfl fun w hw => ?_
      have hdrop := Arcs.get_of_drop hw
      exact hdrop.trans (get_of_drop_old (hdrop ▸ hw))
    · refine Eq.trans ?_ Arcs.next_drop.symm
      unfold Vfs.evict drop_old
      dsimp only
      cases s.cached n.full_path with
      | none => rfl
      | some w => exact Arcs.next_drop.symm

theorem opens {r : Option Nat} (hi : CacheInv s []) (h : Keyed s) (ho : Opens F s p flags r s') :
    Keyed s' := by
  cases ho with
  | cached v pos vnode hv hg =>
    refine h.shrink (List.Subperm.refl _) (fun k _ => .inr ?_) (fun w _ => ?_) le_rfl
    · exact string_congr rfl rfl fun w _ => Arcs.get_clone
    · exact congrArg (Option.map Vnode.full_path) Arcs.get_clone
  | failed hv hinode => exact ⟨h.named, h.distinct, h.old⟩
  | fresh pos inode hv hinode =>
    let n : Vnode ι := ⟨some (filesystem_lookup s.FILE_SYSTEM_TABLE p), p, inode⟩
    let t : Vfs τ ι := { s with vnodes := (s.vnodes.new n).2.clone s.vnodes.next }
    have hget : ∀ w, w < s.vnodes.next → t.vnodes.get w = s.vnodes.get w := fun w hw =>
      Arcs.get_clone.trans (Arcs.get_new_of_ne (Nat.ne_of_lt hw))
    have hstring : ∀ k ∈ s.keys, t.string k = s.string k :=
      fun k hk => string_congr rfl rfl fun w hw =>
      hget w (by simpa [hw, Key.vnode] using h.old k hk)
    have ht : Keyed t := by
      refine h.shrink (List.Subperm.refl _) (fun k hk => .inr (hstring k hk)) (fun w hw => ?_)
        (Nat.le_succ _)
      refine congrArg (Option.map Vnode.full_path) (hget w (hi.counted.fresh w ?_))
      exact List.mem_append_right _ (List.mem_append_left _ hw)
    have hself : t.path_of s.vnodes.next = some p :=
      congrArg (Option.map Vnode.full_path) (Arcs.get_clone.trans Arcs.get_new_self)
    have hput := ht.append (k := .full_path s.vnodes.next) hself hself
      (fun k hk => hstring k hk ▸ string_ne_of_uncached hv k hk) (Nat.lt_succ_self _)
    exact ⟨hput.named, hput.distinct, hput.old⟩

theorem releases {f : Nat} (hi : CacheInv s []) (h : Keyed s) (hf : (s.files.get f).isSome)
    (hr : Releases s f s') : Keyed s' := by
  have hfiles : Keyed { s with files := (s.files.drop f).2 } := ⟨h.named, h.distinct, h.old⟩
  rcases hi.drop_file hf with ⟨hnone, _, _⟩ | ⟨fd, _, hsome, _, hi'⟩
  · cases hr with
    | shared => exact hfiles
    | last fd n hfd hn s' hd => simp [hnone] at hfd
  · cases hr with
    | shared hfd => simp [hsome] at hfd
    | last fd' n hfd hn s' hd =>
      obtain rfl := Option.some.inj (hsome.symm.trans hfd)
      exact hfiles.drops hi' hd

theorem registered {i : Fin MAX_FILE_SYSTEM} (hi : CacheInv s []) (h : Keyed s)
    (hfree : s.FILE_SYSTEM_TABLE i = none) : Keyed (registered F s p i) := by
  refine h.shrink (List.Subperm.refl _) (fun k hk => .inr (string_registered hfree (h.old k hk)))
    (fun w hw => ?_) (Nat.le_succ _)
  refine congrArg (Option.map Vnode.full_path) (Arcs.get_new_of_ne (Nat.ne_of_lt ?_))
  exact hi.counted.fresh w (List.mem_append_right _ (List.mem_append_left _ hw))

theorem mounted {i : Fin MAX_FILE_SYSTEM} (hi : CacheInv s []) (h : Keyed s)
    (hfree : s.FILE_SYSTEM_TABLE i = none) : Keyed (mounted F s p i) := by
  refine (h.registered hi hfree).put (hi.registered i) ?_ ?_ (Nat.lt_succ_self _)
  · simp [Vfs.string, Fs.registered]
  · exact congrArg (Option.map Vnode.full_path) Arcs.get_new_self

end Keyed

/-! ## Keys whose strings are there -/

namespace KeysAlive

variable {v w : Nat} {e : Key × Nat}

theorem string_eq (h : Keyed s) (ha : KeysAlive s) (he : e ∈ s.VNODE_HASHSET) :
    s.string e.1 = s.path_of e.2 := by
  obtain ⟨q, hq⟩ := Option.isSome_iff_exists.mp (ha e.1 (mem_keys he))
  rw [hq, h.named e he q hq]

theorem found_iff (h : Keyed s) (ha : KeysAlive s) (he : e ∈ s.VNODE_HASHSET) :
    s.found p e.1 = true ↔ s.path_of e.2 = some p := by
  obtain ⟨q, hq⟩ := Option.isSome_iff_exists.mp (ha e.1 (mem_keys he))
  rw [Keyed.found_of_string hq, h.named e he q hq, Option.some_inj]

theorem paths_nodup (h : Keyed s) (ha : KeysAlive s) : (s.held.map s.path_of).Nodup := by
  have hpaths : s.held.map s.path_of = s.keys.map s.string := by
    unfold Vfs.held Vfs.keys
    rw [List.map_map, List.map_map]
    exact List.map_congr_left fun e he => (string_eq h ha he).symm
  have hstrings : (s.keys.filterMap s.string).map some = s.keys.map s.string := by
    rw [List.map_filterMap, ← List.filterMap_eq_map]
    refine List.filterMap_congr fun k hk => ?_
    obtain ⟨q, hq⟩ := Option.isSome_iff_exists.mp (ha k hk)
    simp [hq]
  rw [hpaths, ← hstrings]
  exact h.distinct.map (Option.some_injective _)

theorem held_nodup (h : Keyed s) (ha : KeysAlive s) : s.held.Nodup :=
  List.Nodup.of_map _ (ha.paths_nodup h)

theorem eq_of_path (h : Keyed s) (ha : KeysAlive s) (hv : v ∈ s.held) (hw : w ∈ s.held)
    (hp : s.path_of v = s.path_of w) : v = w :=
  List.inj_on_of_nodup_map (ha.paths_nodup h) hv hw hp

theorem cached_iff (h : Keyed s) (ha : KeysAlive s) :
    s.cached p = some v ↔ v ∈ s.held ∧ s.path_of v = some p := by
  have hmem : ∀ w, s.cached p = some w → w ∈ s.held ∧ s.path_of w = some p := by
    intro w hw
    obtain ⟨e, he, hfound, rfl⟩ := KeyTable.mem_of_lookup hw
    exact ⟨List.mem_map_of_mem he, (found_iff h ha he).mp hfound⟩
  refine ⟨hmem v, fun ⟨hv, hp⟩ => ?_⟩
  cases hc : s.cached p with
  | none =>
    obtain ⟨e, he, rfl⟩ := List.mem_map.mp hv
    have hno := KeyTable.lookup_eq_none.mp hc e he
    rw [(found_iff h ha he).mpr hp] at hno
    exact absurd hno (by decide)
  | some w =>
    obtain ⟨hw, hpw⟩ := hmem w hc
    rw [eq_of_path h ha hv hw (hp.trans hpw.symm)]

theorem cached_none (h : Keyed s) (ha : KeysAlive s) :
    s.cached p = none ↔ ∀ v ∈ s.held, s.path_of v ≠ some p := by
  rw [Option.eq_none_iff_forall_ne_some]
  refine forall_congr' fun v => ?_
  rw [ne_eq, ha.cached_iff h]
  exact not_and

theorem cached_of_evicts (hc : s.vnodes.strong_count v = 2)
    (h1 : (s.evict p).vnodes.strong_count v = 1) : s.cached p = some v := by
  unfold Vfs.evict drop_old at h1
  dsimp only at h1
  cases hp : s.cached p with
  | none => simp [hp, hc] at h1
  | some w =>
    by_cases hw : v = w
    · rw [hw]
    · simp [hp, Arcs.strong_count_drop_of_ne hw, hc] at h1

theorem held_evict_of_cached (h : Keyed s) (ha : KeysAlive s) (hp : s.cached p = some v) :
    s.held.Perm (v :: (s.evict p).held) ∧ v ∉ (s.evict p).held := by
  have hperm := Vfs.held_evict (s := s) (p := p)
  rw [hp] at hperm
  have hnodup := hperm.nodup_iff.mpr (ha.held_nodup h)
  exact ⟨hperm.symm, (List.nodup_cons.mp hnodup).1⟩

end KeysAlive

/-- No `mount` replaces a vnode that is in the cache, and no `umount` frees a string that a key
borrows. -/
def Event.keeps_strings (s : Vfs τ ι) : Event → Bool
  | .mount p => s.cached p = none
  | .umount p =>
    let i := filesystem_lookup s.FILE_SYSTEM_TABLE p
    .mount_point i (s.roots i) ∉ s.keys
  | _ => true

/-- No last reference to a vnode is dropped while a key borrows its `full_path`. -/
def Event.keeps_borrowed (s : Vfs τ ι) : Event → Bool
  | .release f => (s.files.drop f).1.all fun fd =>
    s.vnodes.strong_count fd.vnode ≠ 1 || .full_path fd.vnode ∉ s.keys
  | _ => true

namespace KeysAlive

variable {hand : List Nat}

theorem of_string (ha : KeysAlive s) (hk : ∀ k ∈ s'.keys, k ∈ s.keys)
    (hs : ∀ k ∈ s'.keys, s'.string k = s.string k) : KeysAlive s' := by
  intro k hmem
  rw [hs k hmem]
  exact ha k (hk k hmem)

theorem append {k : Key} {v : Nat} (ha : KeysAlive s) (hk : (s.string k).isSome) :
    KeysAlive { s with VNODE_HASHSET := s.VNODE_HASHSET ++ [(k, v)] } := by
  intro j hj
  unfold Vfs.keys at hj
  rw [List.map_append, List.mem_append] at hj
  rcases hj with hj | hj
  · exact ha j hj
  · obtain rfl := List.mem_singleton.mp hj
    exact hk

theorem drops {fd : FileDescriptor} {n : Vnode ι} (hi : CacheInv s (fd.vnode :: hand))
    (h : Keyed s) (ha : KeysAlive s) (hn : s.vnodes.get fd.vnode = some n)
    (hb : s.vnodes.strong_count fd.vnode = 1 → .full_path fd.vnode ∉ s.keys)
    (hd : Drops s fd n s') :
    KeysAlive s' := by
  cases hd with
  | keeps hc =>
    refine of_string ha (fun _ hk => hk) fun k hk => string_congr rfl rfl ?_
    rintro w rfl
    by_cases hw : w = fd.vnode
    · subst hw
      have hcount := hi.counted.count fd.vnode
      rw [List.cons_append, List.count_cons_self] at hcount
      have hone : s.vnodes.strong_count fd.vnode ≠ 1 := fun h1 => hb h1 hk
      have hmore : 1 < s.vnodes.strong_count fd.vnode := by omega
      exact (Arcs.drop_shared hmore).2
    · exact Arcs.get_drop_of_ne hw
  | evicts hc h1 =>
    have hcached := cached_of_evicts hc h1
    obtain ⟨-, hgone⟩ := held_evict_of_cached h ha hcached
    have hsub : (s.evict n.full_path).VNODE_HASHSET.Sublist s.VNODE_HASHSET :=
      KeyTable.remove_sublist
    refine of_string ha (fun k hk => (hsub.map Prod.fst).subset hk) fun k hk => ?_
    refine string_congr rfl rfl ?_
    rintro w rfl
    have hw : w ≠ fd.vnode := by
      -- its entry would be the one that was found
      rintro rfl
      obtain ⟨e, he, hek⟩ := List.mem_map.mp hk
      have hstring : s.string e.1 = some n.full_path := by
        rw [hek]
        exact congrArg (Option.map Vnode.full_path) hn
      have hpath := h.named e (hsub.subset he) _ hstring
      obtain ⟨hv, hpv⟩ := (ha.cached_iff h).mp hcached
      have heq := eq_of_path h ha (List.mem_map_of_mem (hsub.subset he)) hv (hpath.trans hpv.symm)
      exact hgone (heq ▸ List.mem_map_of_mem he)
    refine (Arcs.get_drop_of_ne hw).trans ?_
    unfold Vfs.evict
    rw [hcached]
    exact Arcs.get_drop_of_ne hw

theorem opens {r : Option Nat} (h : Keyed s) (ha : KeysAlive s) (ho : Opens F s p flags r s') :
    KeysAlive s' := by
  cases ho with
  | cached v pos vnode hv hg =>
    exact of_string ha (fun _ hk => hk) fun k _ => string_congr rfl rfl fun w _ => Arcs.get_clone
  | failed hv hinode => exact ha
  | fresh pos inode hv hinode =>
    let n : Vnode ι := ⟨some (filesystem_lookup s.FILE_SYSTEM_TABLE p), p, inode⟩
    let t : Vfs τ ι := { s with vnodes := (s.vnodes.new n).2.clone s.vnodes.next }
    have ht : KeysAlive t := by
      refine of_string ha (fun _ hk => hk) fun k hk => string_congr rfl rfl ?_
      rintro w rfl
      exact Arcs.get_clone.trans (Arcs.get_new_of_ne (Nat.ne_of_lt (h.old _ hk)))
    refine ht.append (k := .full_path s.vnodes.next) ?_
    have hself : t.vnodes.get s.vnodes.next = some n := Arcs.get_clone.trans Arcs.get_new_self
    change ((t.vnodes.get s.vnodes.next).map Vnode.full_path).isSome
    rw [hself]
    rfl

theorem releases {f : Nat} (hi : CacheInv s []) (h : Keyed s) (ha : KeysAlive s)
    (hf : (s.files.get f).isSome) (hb : (Event.release f).keeps_borrowed s = true)
    (hr : Releases s f s') : KeysAlive s' := by
  have hfiles : Keyed { s with files := (s.files.drop f).2 } := ⟨h.named, h.distinct, h.old⟩
  rcases hi.drop_file hf with ⟨hnone, _, _⟩ | ⟨fd, _, hsome, _, hi'⟩
  · cases hr with
    | shared => exact ha
    | last fd n hfd hn s' hd => simp [hnone] at hfd
  · cases hr with
    | shared hfd => simp [hsome] at hfd
    | last fd' n hfd hn s' hd =>
      obtain rfl := Option.some.inj (hsome.symm.trans hfd)
      have hkey : s.vnodes.strong_count fd.vnode = 1 → .full_path fd.vnode ∉ s.keys := by
        intro h1
        simpa [Event.keeps_borrowed, hsome, h1] using hb
      exact drops hi' hfiles ha hn hkey hd

theorem cached_registered {i : Fin MAX_FILE_SYSTEM} (h : Keyed s)
    (hfree : s.FILE_SYSTEM_TABLE i = none) (hp : s.cached p = none) (ha : KeysAlive s) :
    (Fs.registered F s p i).cached p = none := by
  refine KeyTable.lookup_eq_none.mpr fun e he => ?_
  have hk := mem_keys he
  obtain ⟨q, hq⟩ := Option.isSome_iff_exists.mp (ha _ hk)
  have hstring := (string_registered (F := F) (p := p) hfree (h.old _ hk)).trans hq
  rw [Bool.eq_false_iff, ne_eq, Keyed.found_of_string hstring]
  rintro rfl
  exact Keyed.string_ne_of_uncached hp _ hk hq

theorem mounted_eq {i : Fin MAX_FILE_SYSTEM} (hp : (Fs.registered F s p i).cached p = none) :
    Fs.mounted F s p i = { Fs.registered F s p i with
      VNODE_HASHSET := s.VNODE_HASHSET ++ [(.mount_point i s.vnodes.next, s.vnodes.next)] } := by
  unfold Fs.mounted Vfs.put drop_old
  rw [KeyTable.insert_new hp, hp]
  rfl

theorem mounted {i : Fin MAX_FILE_SYSTEM} (h : Keyed s) (ha : KeysAlive s)
    (hfree : s.FILE_SYSTEM_TABLE i = none) (hp : s.cached p = none) :
    KeysAlive (Fs.mounted F s p i) := by
  rw [mounted_eq (cached_registered h hfree hp ha)]
  have hr : KeysAlive (Fs.registered F s p i) :=
    of_string ha (fun _ hk => hk) fun k hk => string_registered hfree (h.old k hk)
  refine hr.append (k := .mount_point i s.vnodes.next) ?_
  simp [Vfs.string, Fs.registered]

theorem umounted {i : Fin MAX_FILE_SYSTEM} (ha : KeysAlive s)
    (hk : .mount_point i (s.roots i) ∉ s.keys) :
    KeysAlive { s with FILE_SYSTEM_TABLE := Function.update s.FILE_SYSTEM_TABLE i none } := by
  intro k hmem
  have hs := ha k hmem
  cases k with
  | full_path w => exact hs
  | mount_point j root =>
    by_cases hroot : s.roots j = root
    · have hj : j ≠ i := by
        rintro rfl
        exact hk (hroot ▸ hmem)
      unfold Vfs.string at hs ⊢
      simpa [Function.update_of_ne hj] using hs
    · simp [Vfs.string, hroot] at hs

end KeysAlive

/-- A key that borrows the `full_path` of a vnode leads to that vnode. -/
def Own (s : Vfs τ ι) : Prop := ∀ e ∈ s.VNODE_HASHSET, ∀ w, e.1 = .full_path w → e.2 = w

namespace Own

theorem subset (h : Own s) (hl : s'.VNODE_HASHSET ⊆ s.VNODE_HASHSET) : Own s' :=
  fun e he => h e (hl he)

theorem append {k : Key} {v : Nat} (h : Own s) (hk : ∀ w, k = .full_path w → v = w)
    (hl : s'.VNODE_HASHSET = s.VNODE_HASHSET ++ [(k, v)]) : Own s' := by
  intro e he w hw
  rw [hl, List.mem_append] at he
  rcases he with he | he
  · exact h e he w hw
  · obtain rfl := List.mem_singleton.mp he
    exact hk w hw

theorem keeps_borrowed {f : Nat} (hi : CacheInv s []) (h : Own s) (hf : (s.files.get f).isSome) :
    (Event.release f).keeps_borrowed s = true := by
  rcases hi.drop_file hf with ⟨hnone, _, _⟩ | ⟨fd, _, hsome, hvalues, _⟩
  · simp [Event.keeps_borrowed, hnone]
  · have hcount := hi.counted.count fd.vnode
    have hopen : fd.vnode ∈ s.opened :=
      Vfs.mem_opened (hvalues.mem_iff.mpr List.mem_cons_self)
    have hkey : .full_path fd.vnode ∈ s.keys → fd.vnode ∈ s.held := by
      intro hk
      obtain ⟨e, he, hek⟩ := List.mem_map.mp hk
      exact h e he _ hek ▸ List.mem_map_of_mem he
    simp only [Event.keeps_borrowed, hsome, Option.all_some, Bool.or_eq_true, decide_eq_true_eq]
    by_cases hk : .full_path fd.vnode ∈ s.keys
    · left
      have h1 := List.count_pos_iff.mpr (hkey hk)
      have h2 := List.count_pos_iff.mpr hopen
      rw [List.nil_append, List.count_append] at hcount
      omega
    · exact .inr hk

end Own

/-- No key has outlived its string. -/
structure Sound (s : Vfs τ ι) : Prop where
  inv : CacheInv s []
  keyed : Keyed s
  alive : KeysAlive s

theorem Sound.cached_iff {v : Nat} (h : Sound s) :
    s.cached p = some v ↔ v ∈ s.held ∧ s.path_of v = some p := h.alive.cached_iff h.keyed

end HectoOs.Fs
