import HectoOs.Fs.File

/-! # The references to a vnode

A vnode is held by the entries of the cache that lead to it, and by each descriptor that is open on
it. Nothing here depends on what the keys of the cache spell.
-/

open HectoOs.Lib

namespace HectoOs.Fs

variable {τ ι : Type} {F : Fatfs τ ι} {s s' : Vfs τ ι} {p q : Path} {flags : OpenFlags}

/-! ## What one operation can do -/

/-- What `file_open` can do: use the vnode in the cache, fail, or make a vnode and put it there. -/
inductive Opens (F : Fatfs τ ι) (s : Vfs τ ι) (p : Path) (flags : OpenFlags) :
    Option Nat → Vfs τ ι → Prop
  | cached (v pos : Nat) (vnode : Vnode ι) (hv : s.cached p = some v)
      (hg : s.vnodes.get v = some vnode) :
    Opens F s p flags (some s.files.next)
      { s with vnodes := s.vnodes.clone v, files := (s.files.new ⟨flags, pos, v⟩).2 }
  | failed (hv : s.cached p = none) (hi : (open_inode F s.disk p flags).1 = none) :
    Opens F s p flags none { s with disk := (open_inode F s.disk p flags).2 }
  | fresh (pos : Nat) (inode : ι) (hv : s.cached p = none)
    (hi : (open_inode F s.disk p flags).1 = some inode) :
    Opens F s p flags (some s.files.next)
      { s with
        disk := (open_inode F s.disk p flags).2
        vnodes := (s.vnodes.new ⟨some (filesystem_lookup s.FILE_SYSTEM_TABLE p),
          p, inode⟩).2.clone s.vnodes.next
        VNODE_HASHSET := s.VNODE_HASHSET ++ [(.full_path s.vnodes.next, s.vnodes.next)]
        files := (s.files.new ⟨flags, pos, s.vnodes.next⟩).2 }

/-- Every panic but the assertion in `FileDescriptor::drop`. -/
def NotShared (e : Panic) : Prop := ∀ p, e ≠ .still_shared p

theorem open_descriptor_spec (v : Nat) (inode : ι) :
    wp NotShared (open_descriptor F v inode flags)
      (fun f s' => f = s.files.next ∧
        ∃ pos, s' = { s with files := (s.files.new ⟨flags, pos, v⟩).2 }) s := by
  rw [open_descriptor, wp_bind, wp_get, wp_bind, wp_unwrap]
  exact ⟨fun pos _ => ⟨rfl, pos, rfl⟩, fun _ p => nofun⟩

theorem file_system_spec :
    wp NotShared (file_system p)
    (fun r s' => s' = s ∧ r.1 = filesystem_lookup s.FILE_SYSTEM_TABLE p ∧
      s.FILE_SYSTEM_TABLE r.1 = some r.2) s := by
  rw [file_system, wp_bind, wp_get, wp_bind, wp_unwrap]
  exact ⟨fun fs hfs => ⟨rfl, rfl, hfs⟩, fun _ p => nofun⟩

theorem file_system_total {may : Panic → Prop}
    (h : (s.FILE_SYSTEM_TABLE (filesystem_lookup s.FILE_SYSTEM_TABLE p)).isSome) :
    wp may (file_system p)
    (fun r t => t = s ∧ r.1 = filesystem_lookup s.FILE_SYSTEM_TABLE p) s := by
  rw [file_system, wp_bind, wp_get, wp_bind, wp_unwrap]
  exact ⟨fun _ _ => ⟨rfl, rfl⟩, fun he => by simp [he] at h⟩

theorem file_open_spec : wp NotShared (file_open F p flags) (Opens F s p flags) s := by
  rw [file_open, wp_bind, wp_get]
  split
  · rename_i v hv
    rw [wp_bind, wp_unwrap]
    refine ⟨fun vnode hg => ?_, fun _ p => nofun⟩
    rw [wp_bind, wp_set]
    rw [map_eq_pure_bind]
    refine wp_call (open_descriptor_spec v vnode.inode) ?_
    rintro f s' ⟨rfl, pos, rfl⟩
    exact .cached v pos vnode hv hg
  · rename_i hv
    refine wp_call file_system_spec ?_
    rintro ⟨i, fs⟩ s' ⟨rfl, rfl, hfs⟩
    dsimp only
    split
    · rename_i hi
      exact .failed hv hi
    · rename_i inode hi
      rw [wp_bind, wp_set, map_eq_pure_bind]
      refine wp_call (open_descriptor_spec _ inode) ?_
      rintro f s'' ⟨rfl, pos, rfl⟩
      rw [KeyTable.insert_new hv]
      exact .fresh pos inode hv hi

/-- A vnode that the cache gave up. -/
def drop_old (vnodes : Arcs (Vnode ι)) : Option Nat → Arcs (Vnode ι)
  | some old => (vnodes.drop old).2
  | none => vnodes

/-- The cache without the entry that is found for the path. -/
def Vfs.evict (s : Vfs τ ι) (p : Path) : Vfs τ ι :=
  { s with
    VNODE_HASHSET := (KeyTable.remove (s.found p) s.VNODE_HASHSET).1
    vnodes := drop_old s.vnodes (s.cached p) }

theorem remove_vnode_spec {may : Panic → Prop} :
    wp may (remove_vnode p) (fun _ s' => s' = s.evict p) s := by
  rw [remove_vnode, wp_bind, wp_get, wp_bind, wp_set, KeyTable.remove_snd]
  change wp may (match s.cached p with | some old => _ | none => _) _ _
  unfold Vfs.evict
  cases s.cached p <;> exact (rfl)

/-- The vnode `v` is what the path leads to. -/
def Vfs.put (s : Vfs τ ι) (p : Path) (k : Key) (v : Nat) : Vfs τ ι :=
  { s with
    VNODE_HASHSET := (KeyTable.insert (s.found p) k v s.VNODE_HASHSET).1
    vnodes := drop_old s.vnodes (s.cached p) }

theorem insert_vnode_spec {may : Panic → Prop} {k : Key} {v : Nat} :
    wp may (insert_vnode p k v) (fun _ s' => s' = s.put p k v) s := by
  rw [insert_vnode, wp_bind, wp_get, wp_bind, wp_set, KeyTable.insert_snd]
  change wp may (match s.cached p with | some old => _ | none => _) _ _
  unfold Vfs.put
  cases s.cached p <;> exact (rfl)

/-- What the drop of the descriptor `fd` can do: drop its vnode, or evict the path of the vnode
first. -/
inductive Drops (s : Vfs τ ι) (fd : FileDescriptor) (n : Vnode ι) : Vfs τ ι → Prop
  | keeps (hc : s.vnodes.strong_count fd.vnode ≠ 2) :
      Drops s fd n { s with vnodes := (s.vnodes.drop fd.vnode).2 }
  | evicts (hc : s.vnodes.strong_count fd.vnode = 2)
      (h1 : (s.evict n.full_path).vnodes.strong_count fd.vnode = 1) :
    Drops s fd n { s.evict n.full_path with
      vnodes := ((s.evict n.full_path).vnodes.drop fd.vnode).2 }

/-- The assertion in `FileDescriptor::drop` fails only if the path of the vnode leads to another
vnode. -/
def Evicted (s : Vfs τ ι) (fd : FileDescriptor) (e : Panic) : Prop :=
  ∀ p, e = .still_shared p → ∃ n, s.vnodes.get fd.vnode = some n ∧ n.full_path = p ∧
    s.vnodes.strong_count fd.vnode = 2 ∧ s.cached p ≠ some fd.vnode

theorem drop_spec (fd : FileDescriptor) :
    wp (Evicted s fd) fd.drop (fun _ s' => ∃ n, s.vnodes.get fd.vnode = some n ∧
      Drops s fd n s') s := by
  rw [FileDescriptor.drop, wp_bind, wp_get, wp_bind, wp_unwrap]
  refine ⟨fun n hn => ?_, fun _ p => nofun⟩
  rw [wp_ite]
  constructor
  · intro hc
    refine wp_call remove_vnode_spec ?_
    rintro _ s' rfl
    rw [wp_bind, wp_get, wp_bind, wp_require]
    refine ⟨fun h1 => ⟨n, hn, .evicts hc (by simpa using h1)⟩,
      fun h1 p hp => ⟨n, hn, by simpa using hp, hc, ?_⟩⟩
    obtain rfl : n.full_path = p := by simpa using hp
    intro hl
    simp [Vfs.evict, hl, drop_old, Arcs.strong_count_drop_self, hc] at h1
  · intro hc
    exact ⟨n, hn, .keeps hc⟩

/-- What happens when a holder of the descriptor `f` goes. -/
inductive Releases (s : Vfs τ ι) (f : Nat) : Vfs τ ι → Prop
  | shared (hf : (s.files.drop f).1 = none) : Releases s f { s with files := (s.files.drop f).2 }
  | last (fd : FileDescriptor) (n : Vnode ι) (hf : (s.files.drop f).1 = some fd)
    (hn : s.vnodes.get fd.vnode = some n) (s' : Vfs τ ι)
    (hd : Drops { s with files := (s.files.drop f).2 } fd n s') : Releases s f s'

theorem release_spec (f : Nat) :
    wp (fun e => ∀ p, e = .still_shared p → ∃ fd, (s.files.drop f).1 = some fd ∧
      Evicted s fd e) (release f)
      (fun _ s' => Releases s f s') s := by
  rw [release, wp_bind, wp_get, wp_bind, wp_set]
  split
  · rename_i fd hfd
    refine wp_imp (drop_spec fd) (fun e he _ _ => ⟨fd, hfd, he⟩) ?_
    rintro _ s' ⟨n, hn, hd⟩
    exact .last fd n hfd hn s' hd
  · rename_i hfd
    exact .shared hfd

theorem file_unlink_spec : wp NotShared (file_unlink F p)
    (fun r s' => r = (F.remove s.disk p).1 ∧ s' = { s with disk := (F.remove s.disk p).2 }) s := by
  rw [file_unlink]
  refine wp_call file_system_spec ?_
  rintro r s' ⟨rfl, _⟩
  exact ⟨rfl, rfl⟩

/-- A file system gets the free entry `i`, and a vnode for its root. -/
def registered (F : Fatfs τ ι) (s : Vfs τ ι) (p : Path) (i : Fin MAX_FILE_SYSTEM) : Vfs τ ι :=
  { s with
    FILE_SYSTEM_TABLE := Function.update s.FILE_SYSTEM_TABLE i (some ⟨p⟩)
    roots := Function.update s.roots i s.vnodes.next
    vnodes := (s.vnodes.new ⟨some i, p, F.root_dir⟩).2 }

/-- Its root takes the place of what the cache had for the path. -/
def mounted (F : Fatfs τ ι) (s : Vfs τ ι) (p : Path) (i : Fin MAX_FILE_SYSTEM) : Vfs τ ι :=
  (registered F s p i).put p (.mount_point i s.vnodes.next) s.vnodes.next

theorem regeister_file_system_spec : wp NotShared (regeister_file_system F ⟨p⟩)
    (fun _ s' => ∃ i, s.FILE_SYSTEM_TABLE i = none ∧ s' = mounted F s p i) s := by
  rw [regeister_file_system, wp_bind, wp_get, wp_bind, wp_unwrap]
  refine ⟨fun i hi => ?_, fun _ p => nofun⟩
  have hfree := List.find?_some hi
  rw [wp_bind, wp_set]
  refine wp_mono insert_vnode_spec ?_
  rintro _ s' rfl
  exact ⟨i, by simpa using hfree, rfl⟩

theorem mount_spec : wp NotShared (mount F p)
    (fun _ s' => ∃ i, s.FILE_SYSTEM_TABLE i = none ∧ s' = mounted F s p i ∧
      ∃ j fs, s.FILE_SYSTEM_TABLE j = some fs ∧ fs.mount_point.length ≤ p.length) s := by
  rw [mount]
  refine wp_call file_system_spec ?_
  rintro ⟨j, fs⟩ s' ⟨rfl, _, hfs⟩
  rw [wp_bind, wp_require]
  refine ⟨fun hlen => ?_, fun _ p => nofun⟩
  rw [wp_bind, wp_get, wp_bind, wp_unwrap]
  refine ⟨fun _ _ => wp_mono regeister_file_system_spec ?_, fun _ p => nofun⟩
  rintro _ s' ⟨i, hi, rfl⟩
  exact ⟨i, hi, rfl, j, fs, hfs, by simpa using hlen⟩

theorem umount_spec : wp NotShared (umount p : Op τ ι Unit)
    (fun _ s' => (s.FILE_SYSTEM_TABLE (filesystem_lookup s.FILE_SYSTEM_TABLE p)).isSome ∧
      s' = { s with
      FILE_SYSTEM_TABLE := Function.update s.FILE_SYSTEM_TABLE (filesystem_lookup s.FILE_SYSTEM_TABLE p) none }) s := by
  rw [umount]
  refine wp_call file_system_spec ?_
  rintro ⟨i, fs⟩ s' ⟨rfl, rfl, hfs⟩
  refine ⟨?_, rfl⟩
  dsimp only at hfs
  rw [hfs]
  rfl

/-! ## The references -/

namespace Vfs

/-- The vnodes that the cache holds. -/
def held (s : Vfs τ ι) : List Nat := s.VNODE_HASHSET.map Prod.snd

/-- The vnodes that open descriptors hold. -/
def opened (s : Vfs τ ι) : List Nat := s.files.values.map FileDescriptor.vnode

def path_of (s : Vfs τ ι) (v : Nat) : Option Path := (s.vnodes.get v).map Vnode.full_path

theorem mem_opened {fd : FileDescriptor} (hfd : fd ∈ s.files.values) : fd.vnode ∈ s.opened :=
  List.mem_map_of_mem hfd

theorem held_evict : ((s.cached p).toList ++ (s.evict p).held).Perm s.held := by
  unfold Vfs.cached
  rw [← KeyTable.remove_snd]
  exact KeyTable.remove_values

theorem held_put {k : Key} {v : Nat} :
    ((s.cached p).toList ++ (s.put p k v).held).Perm (v :: s.held) := by
  unfold Vfs.cached
  rw [← KeyTable.insert_snd (k := k) (v := v)]
  exact KeyTable.insert_values

end Vfs

theorem get_drop_old {vnodes : Arcs (Vnode ι)} {o : Option Nat} {vs : List Nat}
    {w : Nat} (h : vnodes.Counted (o.toList ++ vs)) (hw : w ∈ vs) :
    (drop_old vnodes o).get w = vnodes.get w := by
  cases o with
  | none => rfl
  | some v => exact h.get_drop hw

theorem get_of_drop_old {vnodes : Arcs (Vnode ι)} {o : Option Nat} {w : Nat}
    (h : ((drop_old vnodes o).get w).isSome) : (drop_old vnodes o).get w = vnodes.get w := by
  cases o with
  | none => rfl
  | some v => exact Arcs.get_of_drop h

/-- Each reference to a vnode is in the cache, in a descriptor, or in the hands of the code that is
running. -/
structure CacheInv (s : Vfs τ ι) (hand : List Nat) : Prop where
  counted : s.vnodes.Counted (hand ++ (s.held ++ s.opened))
  files : ∃ held, s.files.Counted held

namespace CacheInv

variable {hand : List Nat} {v w : Nat}

theorem drop (h : CacheInv s (v :: hand)) :
    CacheInv { s with vnodes := (s.vnodes.drop v).2 } hand := ⟨h.counted.drop, h.files⟩

theorem clone (h : CacheInv s hand) (hv : v ∈ hand ++ (s.held ++ s.opened)) :
    CacheInv { s with vnodes := s.vnodes.clone v } (v :: hand) := ⟨h.counted.clone hv, h.files⟩

theorem new (h : CacheInv s hand) (n : Vnode ι) :
    CacheInv { s with vnodes := (s.vnodes.new n).2 } (s.vnodes.next :: hand) :=
  ⟨h.counted.new n, h.files⟩

theorem give_up {o : Option Nat} (h : CacheInv s (o.toList ++ hand)) :
    CacheInv { s with vnodes := drop_old s.vnodes o } hand := by
  cases o with
  | none => exact h
  | some v => exact h.drop

theorem counted_evict (h : CacheInv s hand) (p : Path) :
    s.vnodes.Counted ((s.cached p).toList ++ hand ++ ((s.evict p).held ++ s.opened)) := by
  refine h.counted.perm (List.perm_iff_count.mpr fun w => ?_)
  have hw := (Vfs.held_evict (s := s) (p := p)).count_eq w
  simp only [List.count_append] at hw ⊢
  omega

theorem evict (h : CacheInv s hand) (p : Path) : CacheInv (s.evict p) hand :=
  give_up (s := { s with VNODE_HASHSET := (s.evict p).VNODE_HASHSET }) ⟨h.counted_evict p, h.files⟩

theorem get_evict (h : CacheInv s hand) (hw : w ∈ hand ++ ((s.evict p).held ++ s.opened)) :
    (s.evict p).vnodes.get w = s.vnodes.get w :=
  get_drop_old (by simpa using h.counted_evict p) hw

theorem counted_put (h : CacheInv s (v :: hand)) (p : Path) (k : Key) :
    s.vnodes.Counted ((s.cached p).toList ++ hand ++ ((s.put p k v).held ++ s.opened)) := by
  refine h.counted.perm (List.perm_iff_count.mpr fun w => ?_)
  have hw := (Vfs.held_put (s := s) (p := p) (k := k) (v := v)).count_eq w
  simp only [List.count_append, List.count_cons] at hw ⊢
  omega

theorem put (h : CacheInv s (v :: hand)) (p : Path) (k : Key) : CacheInv (s.put p k v) hand :=
  give_up (s := { s with VNODE_HASHSET := (s.put p k v).VNODE_HASHSET })
    ⟨h.counted_put p k, h.files⟩

theorem get_put {k : Key} (h : CacheInv s (v :: hand))
    (hw : w ∈ hand ++ ((s.put p k v).held ++ s.opened)) :
    (s.put p k v).vnodes.get w = s.vnodes.get w :=
  get_drop_old (by simpa using h.counted_put p k) hw

theorem append (h : CacheInv s (v :: hand)) (k : Key) :
    CacheInv { s with VNODE_HASHSET := s.VNODE_HASHSET ++ [(k, v)] } hand := by
  refine ⟨h.counted.perm (List.perm_iff_count.mpr fun w => ?_), h.files⟩
  simp only [Vfs.held, Vfs.opened, List.map_append, List.map_cons, List.map_nil, List.count_append,
    List.count_cons, List.count_nil]
  omega

theorem open_file (h : CacheInv s (v :: hand)) (flags : OpenFlags) (pos : Nat) :
    CacheInv { s with files := (s.files.new ⟨flags, pos, v⟩).2 } hand := by
  obtain ⟨held, hf⟩ := h.files
  refine ⟨h.counted.perm (List.perm_iff_count.mpr fun w => ?_), _, hf.new _⟩
  simp only [Vfs.held, Vfs.opened, Arcs.values_new, List.map_append, List.map_cons, List.map_nil,
    List.count_append, List.count_cons, List.count_nil]
  omega

theorem drop_file (h : CacheInv s hand) {f : Nat} (hf : (s.files.get f).isSome) :
    ((s.files.drop f).1 = none ∧ (s.files.drop f).2.values = s.files.values ∧
        CacheInv { s with files := (s.files.drop f).2 } hand) ∨
      ∃ fd, s.files.get f = some fd ∧ (s.files.drop f).1 = some fd ∧
        s.files.values.Perm (fd :: (s.files.drop f).2.values) ∧
        CacheInv { s with files := (s.files.drop f).2 } (fd.vnode :: hand) := by
  obtain ⟨held, hfiles⟩ := h.files
  obtain ⟨fd, hfd⟩ := Option.isSome_iff_exists.mp hf
  have hmem := (hfiles.live f).mp hf
  have hcount := hfiles.count f
  have hfiles' := (hfiles.perm (List.perm_cons_erase hmem)).drop
  have hpos := List.count_pos_iff.mpr hmem
  by_cases hone : s.files.strong_count f = 1
  · right
    have hlast := Arcs.drop_last hone
    have hvalues := Arcs.values_drop_last (hfiles.lt_next hf) hone hfd
    refine ⟨fd, hfd, hlast.1.trans hfd, hvalues, h.counted.perm ?_, _, hfiles'⟩
    have hopen : s.opened.Perm (fd.vnode :: (s.files.drop f).2.values.map FileDescriptor.vnode) :=
      hvalues.map _
    have hp := (hopen.append_left s.held).append_left hand
    exact hp.trans ((List.perm_middle.append_left hand).trans List.perm_middle)
  · left
    have hmore : 1 < s.files.strong_count f := by omega
    have hvalues := Arcs.values_drop_shared hmore
    refine ⟨(Arcs.drop_shared hmore).1, hvalues, ?_, _, hfiles'⟩
    rw [Vfs.opened]
    dsimp only
    rw [hvalues]
    exact h.counted

theorem drops {fd : FileDescriptor} {n : Vnode ι} (h : CacheInv s (fd.vnode :: hand))
    (hd : Drops s fd n s') : CacheInv s' hand := by
  cases hd with
  | keeps hc => exact h.drop
  | evicts hc h1 => exact (h.evict n.full_path).drop

theorem get_drops {fd : FileDescriptor} {n : Vnode ι} (h : CacheInv s (fd.vnode :: hand))
    (hd : Drops s fd n s') (hw : w ∈ s'.held ++ s.opened) : s'.vnodes.get w = s.vnodes.get w := by
  cases hd with
  | keeps hc => exact h.counted.get_drop (List.mem_append_right _ hw)
  | evicts hc h1 =>
    have hdrop := (h.evict n.full_path).counted.get_drop (List.mem_append_right _ hw)
    exact hdrop.trans (h.get_evict (List.mem_append_right _ hw))

theorem opens {r : Option Nat} (h : CacheInv s []) (ho : Opens F s p flags r s') :
    CacheInv s' [] := by
  cases ho with
  | cached v pos vnode hv hg =>
    obtain ⟨e, he, -, rfl⟩ := KeyTable.mem_of_lookup hv
    have hmem : e.2 ∈ s.held := List.mem_map_of_mem he
    exact (h.clone (List.mem_append_right _ (List.mem_append_left _ hmem))).open_file flags pos
  | failed hv hi => exact ⟨h.counted, h.files⟩
  | fresh pos inode hv hi =>
    have hnew := (h.new ⟨some (filesystem_lookup s.FILE_SYSTEM_TABLE p), p, inode⟩).clone
      (List.mem_append_left _ List.mem_cons_self)
    have hopen := (hnew.append (.full_path s.vnodes.next)).open_file flags pos
    exact ⟨hopen.counted, hopen.files⟩

theorem releases {f : Nat} (h : CacheInv s []) (hf : (s.files.get f).isSome)
    (hr : Releases s f s') : CacheInv s' [] := by
  rcases h.drop_file hf with ⟨hnone, _, h'⟩ | ⟨fd, _, hsome, _, h'⟩
  · cases hr with
    | shared => exact h'
    | last fd n hfd hn s' hd => simp [hnone] at hfd
  · cases hr with
    | shared hfd => simp [hsome] at hfd
    | last fd' n hfd hn s' hd =>
      obtain rfl := Option.some.inj (hsome.symm.trans hfd)
      exact h'.drops hd

theorem registered (h : CacheInv s []) (i : Fin MAX_FILE_SYSTEM) :
    CacheInv (registered F s p i) [s.vnodes.next] := by
  have hnew := h.new ⟨some i, p, F.root_dir⟩
  exact ⟨hnew.counted, hnew.files⟩

theorem mounted (h : CacheInv s []) (i : Fin MAX_FILE_SYSTEM) : CacheInv (mounted F s p i) [] :=
  (h.registered i).put p _

end CacheInv

end HectoOs.Fs
