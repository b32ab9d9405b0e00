import HectoOs.Fs.CacheKeys

/-! # The vnode cache and its reference counts

The rule in `FileDescriptor::drop` (a count of two means that this is the last descriptor) is right
as long as each open path is in the cache, under a key whose string is still there.
-/

open HectoOs.Lib

namespace HectoOs.Fs

variable {τ ι : Type} {F : Fatfs τ ι} {s s' : Vfs τ ι} {p q : Path} {flags : OpenFlags}

/-! ## Paths that are not mount points -/

/-- Every descriptor on the path holds a vnode in the cache, and a vnode with the path is there for
a descriptor. -/
structure Ordinary (s : Vfs τ ι) (p : Path) : Prop where
  held : ∀ fd ∈ s.files.values, s.path_of fd.vnode = some p → fd.vnode ∈ s.held
  used : ∀ v ∈ s.held, s.path_of v = some p → v ∈ s.opened

namespace Ordinary

variable {v : Nat}

theorem congr (h : Ordinary s p) (hf : s'.files.values = s.files.values)
    (hg : ∀ v ∈ s.opened, s'.path_of v = s.path_of v)
    (hin : ∀ v ∈ s.opened, v ∈ s.held → s.path_of v = some p → v ∈ s'.held)
    (hout : ∀ v ∈ s'.held, s'.path_of v = some p → v ∈ s.held ∧ s.path_of v = some p) :
    Ordinary s' p := by
  refine ⟨fun fd hfd hp => ?_, fun v hv hp => ?_⟩
  · rw [hf] at hfd
    have hmem := Vfs.mem_opened hfd
    rw [hg _ hmem] at hp
    exact hin _ hmem (h.held fd hfd hp) hp
  · obtain ⟨hv, hp⟩ := hout v hv hp
    unfold Vfs.opened
    rw [hf]
    exact h.used v hv hp

theorem opens {r : Option Nat} (hs : Sound s) (h : Ordinary s p) (ho : Opens F s q flags r s') :
    Ordinary s' p := by
  cases ho with
  | failed hv hinode => exact ⟨h.held, h.used⟩
  | cached v pos vnode hv hg =>
    refine ⟨fun fd hfd hp => ?_, fun w hw hp => ?_⟩
    · unfold Vfs.path_of at hp
      rw [Arcs.get_clone] at hp
      rw [Arcs.values_new, List.mem_append, List.mem_singleton] at hfd
      rcases hfd with hfd | rfl
      · exact h.held fd hfd hp
      · exact (hs.cached_iff.mp hv).1
    · unfold Vfs.path_of at hp
      rw [Arcs.get_clone] at hp
      rw [Vfs.opened, Arcs.values_new, List.map_append]
      exact List.mem_append_left _ (h.used w hw hp)
  | fresh pos inode hv hinode =>
    have hold : ∀ v ∈ s.held ++ s.opened, v ≠ s.vnodes.next := fun v hv =>
      Nat.ne_of_lt (hs.inv.counted.fresh v (List.mem_append_right _ hv))
    refine ⟨fun fd hfd hp => ?_, fun w hw hp => ?_⟩
    · rw [Vfs.held, List.map_append, List.mem_append]
      rw [Arcs.values_new, List.mem_append, List.mem_singleton] at hfd
      rcases hfd with hfd | rfl
      · unfold Vfs.path_of at hp
        have hne := hold _ (List.mem_append_right _ (Vfs.mem_opened hfd))
        rw [Arcs.get_clone, Arcs.get_new_of_ne hne] at hp
        exact .inl (h.held fd hfd hp)
      · exact .inr (List.mem_singleton.mpr rfl)
    · rw [Vfs.opened, Arcs.values_new, List.map_append, List.mem_append]
      rw [Vfs.held, List.map_append, List.mem_append] at hw
      rcases hw with hw | hw
      · unfold Vfs.path_of at hp
        have hne := hold _ (List.mem_append_left _ hw)
        rw [Arcs.get_clone, Arcs.get_new_of_ne hne] at hp
        exact .inl (h.used w hw hp)
      · exact .inr hw

theorem drops {fd : FileDescriptor} {n : Vnode ι} {files : Arcs FileDescriptor}
    (hs : Sound s) (h : Ordinary s p) (hn : s.vnodes.get fd.vnode = some n)
    (hvalues : s.files.values.Perm (fd :: files.values))
    (hi : CacheInv { s with files := files } [fd.vnode])
    (hd : Drops { s with files := files } fd n s') :
    Ordinary s' p := by
  have hopen : s.opened.Perm (fd.vnode :: files.values.map FileDescriptor.vnode) := hvalues.map _
  have hfds : ∀ g ∈ files.values, g ∈ s.files.values :=
    fun g hg => hvalues.mem_iff.mpr (List.mem_cons_of_mem _ hg)
  have hpath : ∀ v ∈ s'.held ++ files.values.map FileDescriptor.vnode, s'.path_of v = s.path_of v :=
    fun v hv => congrArg (Option.map Vnode.full_path) (hi.get_drops hd hv)
  have hfd : s.path_of fd.vnode = some n.full_path := congrArg (Option.map Vnode.full_path) hn
  -- the references to the vnode: the cache, this descriptor, and the others
  have hcount := hs.inv.counted.count fd.vnode
  rw [List.nil_append, List.count_append, hopen.count_eq, List.count_cons_self] at hcount
  have hone := List.nodup_iff_count_le_one.mp (hs.alive.held_nodup hs.keyed) fd.vnode
  have hother : ∀ v ∈ s.held, s.path_of v = some p → v ≠ fd.vnode →
      v ∈ files.values.map FileDescriptor.vnode := fun v hv hp hne =>
    (List.mem_cons.mp (hopen.mem_iff.mp (h.used v hv hp))).resolve_left hne
  cases hd with
  | keeps hc =>
    refine ⟨fun g hg hp => ?_, fun v hv hp => ?_⟩
    · rw [hpath _ (List.mem_append_right _ (List.mem_map_of_mem hg))] at hp
      exact h.held g (hfds g hg) hp
    · rw [hpath v (List.mem_append_left _ hv)] at hp
      by_cases hv' : v = fd.vnode
      · subst hv'
        have hc : s.vnodes.strong_count fd.vnode ≠ 2 := hc
        have hpos : 0 < s.held.count fd.vnode := List.count_pos_iff.mpr hv
        have hmore : 0 < (files.values.map FileDescriptor.vnode).count fd.vnode := by omega
        exact List.count_pos_iff.mp hmore
      · exact hother v hv hp hv'
  | evicts hc h1 =>
    have hcached : s.cached n.full_path = some fd.vnode := KeysAlive.cached_of_evicts hc h1
    obtain ⟨hheld, hgone⟩ := hs.alive.held_evict_of_cached hs.keyed hcached
    have hc : s.vnodes.strong_count fd.vnode = 2 := hc
    have hpos : 0 < s.held.count fd.vnode :=
      List.count_pos_iff.mpr (hs.cached_iff.mp hcached).1
    refine ⟨fun g hg hp => ?_, fun v hv hp => ?_⟩
    · rw [hpath _ (List.mem_append_right _ (List.mem_map_of_mem hg))] at hp
      have hg' := h.held g (hfds g hg) hp
      refine (List.mem_cons.mp (hheld.mem_iff.mp hg')).resolve_left fun heq => ?_
      have hmem : fd.vnode ∈ files.values.map FileDescriptor.vnode := heq ▸ List.mem_map_of_mem hg
      have hgpos := List.count_pos_iff.mpr hmem
      omega
    · rw [hpath v (List.mem_append_left _ hv)] at hp
      refine hother v (hheld.mem_iff.mpr (List.mem_cons_of_mem _ hv)) hp ?_
      rintro rfl
      exact hgone hv

theorem releases {f : Nat} (hs : Sound s) (h : Ordinary s p) (hf : (s.files.get f).isSome)
    (hr : Releases s f s') : Ordinary s' p := by
  rcases hs.inv.drop_file hf with ⟨hnone, hvalues, _⟩ | ⟨fd, _, hsome, hvalues, hi'⟩
  · cases hr with
    | shared =>
      exact h.congr hvalues (fun _ _ => rfl) (fun _ _ hv _ => hv) fun v hv hp => ⟨hv, hp⟩
    | last fd n hfd hn s' hd => simp [hnone] at hfd
  · cases hr with
    | shared hfd => simp [hsome] at hfd
    | last fd' n hfd hn s' hd =>
      obtain rfl := Option.some.inj (hsome.symm.trans hfd)
      exact h.drops hs hn hvalues hi' hd

theorem not_still_shared {f : Nat} (hs : Sound s) (h : Ordinary s p) (hf : (s.files.get f).isSome) :
    (release f : Op τ ι Unit) s ≠ .error (.still_shared p) := by
  intro he
  obtain ⟨fd, hfd, hev⟩ := wp_error (release_spec f) he p rfl
  obtain ⟨n, hn, rfl, _, hne⟩ := hev p rfl
  rcases hs.inv.drop_file hf with ⟨hnone, _⟩ | ⟨fd', _, hsome, hvalues, _⟩
  · simp [hnone] at hfd
  · obtain rfl := Option.some.inj (hsome.symm.trans hfd)
    have hpath : s.path_of fd'.vnode = some n.full_path := congrArg (Option.map Vnode.full_path) hn
    have hheld := h.held fd' (hvalues.mem_iff.mpr List.mem_cons_self) hpath
    exact hne (hs.cached_iff.mpr ⟨hheld, hpath⟩)

theorem mounted {i : Fin MAX_FILE_SYSTEM} (hs : Sound s) (h : Ordinary s p) (hpq : p ≠ q)
    (hfree : s.FILE_SYSTEM_TABLE i = none) (hq : s.cached q = none) :
    Ordinary (mounted F s q i) p := by
  rw [KeysAlive.mounted_eq (KeysAlive.cached_registered hs.keyed hfree hq hs.alive)]
  have hget : ∀ v ∈ s.held ++ s.opened,
      (s.vnodes.new ⟨some i, q, F.root_dir⟩).2.get v = s.vnodes.get v := fun v hv =>
    Arcs.get_new_of_ne (Nat.ne_of_lt (hs.inv.counted.fresh v (List.mem_append_right _ hv)))
  refine h.congr rfl (fun v hv => ?_) (fun v _ hv _ => ?_) fun v hv hp => ?_
  · exact congrArg (Option.map Vnode.full_path) (hget v (List.mem_append_right _ hv))
  · rw [Vfs.held, List.map_append]
    exact List.mem_append_left _ hv
  · rw [Vfs.held, List.map_append, List.mem_append] at hv
    unfold Vfs.path_of at hp
    rcases hv with hv | hv
    · refine ⟨hv, ?_⟩
      rwa [Fs.registered, hget v (List.mem_append_left _ hv)] at hp
    · obtain rfl := List.mem_singleton.mp hv
      have hnew : (s.vnodes.new ⟨some i, q, F.root_dir⟩).2.get s.vnodes.next = _ :=
        Arcs.get_new_self
      rw [Fs.registered, hnew] at hp
      exact absurd (Option.some.inj hp).symm hpq

end Ordinary

/-! ## Runs -/

section Run

variable {e : Event} {o : Answer}

theorem step_cases (h : step F s e = .ok (s', o)) :
    match e with
    | .file_open p flags => ∃ r, Opens F s p flags r s' ∧ o = .opened r
    | .share f => (s.files.get f).isSome ∧ s' = { s with files := s.files.clone f }
    | .release f => (s.files.get f).isSome ∧ Releases s f s'
    | .file_unlink p =>
      s' = { s with disk := (F.remove s.disk p).2 } ∧ o = .unlinked (F.remove s.disk p).1.isSome
    | .mount p => ∃ i, s.FILE_SYSTEM_TABLE i = none ∧ s' = mounted F s p i ∧
        ∃ j fs, s.FILE_SYSTEM_TABLE j = some fs ∧ fs.mount_point.length ≤ p.length
    | .umount p =>
      let i := filesystem_lookup s.FILE_SYSTEM_TABLE p
      s' = { s with FILE_SYSTEM_TABLE := Function.update s.FILE_SYSTEM_TABLE i none }
    | .reuse freed entries =>
      entries.Perm s.VNODE_HASHSET ∧ s' = { s with freed := freed, VNODE_HASHSET := entries } := by
  cases e with
  | file_open p flags =>
    obtain ⟨r, t, ht, heq⟩ := wp_map_ok file_open_spec h
    obtain ⟨rfl, rfl⟩ := Prod.mk.inj heq
    exact ⟨r, ht, rfl⟩
  | share f =>
    obtain ⟨hf, heq⟩ := permit_eq_ok h
    exact ⟨hf, (Prod.mk.inj heq).1.symm⟩
  | release f =>
    simp only [step] at h
    split at h
    · obtain ⟨_, t, ht, heq⟩ := wp_map_ok (release_spec f) h
      obtain ⟨rfl, _⟩ := Prod.mk.inj heq
      exact ⟨‹_›, ht⟩
    · simp at h
  | file_unlink p =>
    obtain ⟨r, t, ⟨hr, ht⟩, heq⟩ := wp_map_ok file_unlink_spec h
    obtain ⟨rfl, rfl⟩ := Prod.mk.inj heq
    exact ⟨ht, by rw [hr]⟩
  | mount p =>
    obtain ⟨_, t, ht, heq⟩ := wp_map_ok mount_spec h
    obtain ⟨rfl, _⟩ := Prod.mk.inj heq
    exact ht
  | umount p =>
    obtain ⟨_, t, ht, heq⟩ := wp_map_ok umount_spec h
    obtain ⟨rfl, _⟩ := Prod.mk.inj heq
    exact ht.2
  | reuse freed entries =>
    obtain ⟨hperm, heq⟩ := permit_eq_ok h
    exact ⟨hperm, (Prod.mk.inj heq).1.symm⟩

theorem step_cacheInv (hi : CacheInv s []) (h : step F s e = .ok (s', o)) : CacheInv s' [] := by
  have hc := step_cases h
  cases e with
  | file_open p flags =>
    obtain ⟨r, ho, _⟩ := hc
    exact hi.opens ho
  | share f =>
    obtain ⟨hf, rfl⟩ := hc
    obtain ⟨held, hfiles⟩ := hi.files
    refine ⟨?_, _, hfiles.clone ((hfiles.live f).mp hf)⟩
    unfold Vfs.opened
    rw [Arcs.values_clone]
    exact hi.counted
  | release f => exact hi.releases hc.1 hc.2
  | file_unlink p =>
    obtain ⟨rfl, _⟩ := hc
    exact ⟨hi.counted, hi.files⟩
  | mount p =>
    obtain ⟨i, _, rfl, _⟩ := hc
    exact hi.mounted i
  | umount p =>
    rw [hc]
    exact ⟨hi.counted, hi.files⟩
  | reuse freed entries =>
    obtain ⟨hperm, rfl⟩ := hc
    have hheld : (entries.map Prod.snd).Perm s.held := hperm.map _
    exact ⟨hi.counted.perm (hheld.symm.append_right s.opened), hi.files⟩

theorem step_keyed (hi : CacheInv s []) (hk : Keyed s) (h : step F s e = .ok (s', o)) :
    Keyed s' := by
  have hc := step_cases h
  cases e with
  | file_open p flags =>
    obtain ⟨r, ho, _⟩ := hc
    exact hk.opens hi ho
  | share f =>
    obtain ⟨_, rfl⟩ := hc
    exact ⟨hk.named, hk.distinct, hk.old⟩
  | release f => exact hk.releases hi hc.1 hc.2
  | file_unlink p =>
    obtain ⟨rfl, _⟩ := hc
    exact ⟨hk.named, hk.distinct, hk.old⟩
  | mount p =>
    obtain ⟨i, hfree, rfl, _⟩ := hc
    exact hk.mounted hi hfree
  | umount p =>
    rw [hc]
    exact hk.shrink (List.Subperm.refl _) (fun _ _ => string_umount) (fun _ _ => rfl) le_rfl
  | reuse freed entries =>
    obtain ⟨hperm, rfl⟩ := hc
    refine hk.shrink hperm.subperm (fun k _ => .inr ?_) (fun _ _ => rfl) le_rfl
    exact string_congr rfl rfl fun _ _ => rfl

theorem step_sound (hs : Sound s) (hk : e.keeps_strings s = true) (hb : e.keeps_borrowed s = true)
    (h : step F s e = .ok (s', o)) : Sound s' := by
  refine ⟨step_cacheInv hs.inv h, step_keyed hs.inv hs.keyed h, ?_⟩
  have hc := step_cases h
  cases e with
  | file_open p flags =>
    obtain ⟨r, ho, _⟩ := hc
    exact hs.alive.opens hs.keyed ho
  | share f =>
    obtain ⟨_, rfl⟩ := hc
    exact hs.alive
  | release f => exact hs.alive.releases hs.inv hs.keyed hc.1 hb hc.2
  | file_unlink p =>
    obtain ⟨rfl, _⟩ := hc
    exact hs.alive
  | mount p =>
    obtain ⟨i, hfree, rfl, _⟩ := hc
    exact hs.alive.mounted hs.keyed hfree (of_decide_eq_true hk)
  | umount p =>
    rw [hc]
    exact hs.alive.umounted (of_decide_eq_true hk)
  | reuse freed entries =>
    obtain ⟨hperm, rfl⟩ := hc
    refine hs.alive.of_string (fun k hk => (hperm.map Prod.fst).subset hk) fun k _ => ?_
    exact string_congr rfl rfl fun _ _ => rfl

theorem releases_own {f : Nat} (ho : Own s) (hr : Releases s f s') : Own s' := by
  cases hr with
  | shared => exact ho.subset (List.Subset.refl _)
  | last fd n hfd hn s' hd =>
    cases hd with
    | keeps hc => exact ho.subset (List.Subset.refl _)
    | evicts hc h1 => exact ho.subset KeyTable.remove_sublist.subset

theorem step_own (hs : Sound s) (ho : Own s) (hk : e.keeps_strings s = true)
    (h : step F s e = .ok (s', o)) : Own s' := by
  have hc := step_cases h
  cases e with
  | file_open p flags =>
    obtain ⟨r, hopen, _⟩ := hc
    cases hopen with
    | cached => exact ho.subset (List.Subset.refl _)
    | failed => exact ho.subset (List.Subset.refl _)
    | fresh => exact ho.append (fun w hw => Key.full_path.inj hw) rfl
  | release f => exact releases_own ho hc.2
  | mount p =>
    obtain ⟨i, hfree, rfl, _⟩ := hc
    rw [KeysAlive.mounted_eq
      (KeysAlive.cached_registered hs.keyed hfree (of_decide_eq_true hk) hs.alive)]
    exact ho.append (k := .mount_point i s.vnodes.next) (v := s.vnodes.next) (by simp) rfl
  | reuse freed entries =>
    obtain ⟨hperm, rfl⟩ := hc
    exact ho.subset hperm.subset
  | share f =>
    obtain ⟨_, rfl⟩ := hc
    exact ho.subset (List.Subset.refl _)
  | file_unlink p =>
    obtain ⟨rfl, _⟩ := hc
    exact ho.subset (List.Subset.refl _)
  | umount p =>
    rw [hc]
    exact ho.subset (List.Subset.refl _)

theorem step_sound_own (hs : Sound s ∧ Own s) (hk : e.keeps_strings s = true)
    (h : step F s e = .ok (s', o)) : Sound s' ∧ Own s' := by
  refine ⟨step_sound hs.1 hk ?_ h, step_own hs.1 hs.2 hk h⟩
  have hc := step_cases h
  cases e with
  | release f => exact hs.2.keeps_borrowed hs.1.inv hc.1
  | _ => rfl

theorem step_ordinary (hs : Sound s) (ho : Ordinary s p) (he : e ≠ .mount p)
    (hk : e.keeps_strings s = true) (h : step F s e = .ok (s', o)) : Ordinary s' p := by
  have hc := step_cases h
  cases e with
  | file_open q flags =>
    obtain ⟨r, hopen, _⟩ := hc
    exact ho.opens hs hopen
  | share f =>
    obtain ⟨_, rfl⟩ := hc
    exact ho.congr Arcs.values_clone (fun _ _ => rfl) (fun _ _ hv _ => hv) fun _ hv hp => ⟨hv, hp⟩
  | release f => exact ho.releases hs hc.1 hc.2
  | file_unlink q =>
    obtain ⟨rfl, _⟩ := hc
    exact ⟨ho.held, ho.used⟩
  | mount q =>
    obtain ⟨i, hfree, rfl, _⟩ := hc
    exact ho.mounted hs (fun hpq => he (hpq ▸ rfl)) hfree (of_decide_eq_true hk)
  | umount q =>
    rw [hc]
    exact ⟨ho.held, ho.used⟩
  | reuse freed entries =>
    obtain ⟨hperm, rfl⟩ := hc
    have hheld : (entries.map Prod.snd).Perm s.held := hperm.map _
    exact ⟨fun fd hfd hp => hheld.mem_iff.mpr (ho.held fd hfd hp),
      fun v hv hp => ho.used v (hheld.mem_iff.mp hv) hp⟩

theorem step_not_still_shared (hs : Sound s) (ho : Ordinary s p) :
    step F s e ≠ .error (.still_shared p) := by
  intro h
  cases e with
  | file_open q flags => exact wp_map_error file_open_spec h p rfl
  | release f =>
    simp only [step] at h
    split at h
    · have hne := ho.not_still_shared hs ‹_›
      have hmay : wp (fun e => e ≠ .still_shared p) (release f : Op τ ι Unit)
        (fun _ _ => True) s := by
        unfold wp
        split
        · trivial
        · rename_i e he
          rintro rfl
          exact hne he
      exact wp_map_error hmay h rfl
    · simp at h
  | file_unlink q => exact wp_map_error file_unlink_spec h p rfl
  | mount q => exact wp_map_error mount_spec h p rfl
  | umount q => exact wp_map_error umount_spec h p rfl
  | share f | reuse freed entries =>
    simp only [step, permit] at h
    split at h <;> simp at h

theorem empty_cacheInv (disk : τ) : CacheInv (Vfs.empty disk : Vfs τ ι) [] :=
  ⟨Arcs.Counted.empty, [], Arcs.Counted.empty⟩

theorem empty_sound (disk : τ) : Sound (Vfs.empty disk : Vfs τ ι) where
  inv := empty_cacheInv disk
  keyed := ⟨by simp [Vfs.empty], by simp [Vfs.empty, Vfs.keys], by simp [Vfs.empty, Vfs.keys]⟩
  alive := by simp [KeysAlive, Vfs.empty, Vfs.keys]

theorem init_cases {disk : τ} (h : init F (Vfs.empty disk) = .ok ((), s)) :
    ∃ i, s = mounted F (Vfs.empty disk) [SLASH] i := by
  obtain ⟨i, _, hs⟩ := wp_ok regeister_file_system_spec h
  exact ⟨i, hs⟩

theorem empty_mounted_sound {disk : τ} {i : Fin MAX_FILE_SYSTEM} :
    Sound (mounted F (Vfs.empty disk) p i) := by
  have he : Sound (Vfs.empty disk : Vfs τ ι) := empty_sound disk
  exact ⟨he.inv.mounted i, he.keyed.mounted he.inv rfl, he.alive.mounted he.keyed rfl rfl⟩

theorem init_sound {disk : τ} (h : init F (Vfs.empty disk) = .ok ((), s)) : Sound s ∧ Own s := by
  obtain ⟨i, rfl⟩ := init_cases h
  refine ⟨empty_mounted_sound, fun e he w hw => ?_⟩
  obtain rfl : e = (.mount_point i 0, 0) := List.mem_singleton.mp he
  simp at hw

theorem init_ordinary {disk : τ} (h : init F (Vfs.empty disk) = .ok ((), s)) (hp : p ≠ [SLASH]) :
    Ordinary s p := by
  obtain ⟨i, rfl⟩ := init_cases h
  have hempty : Ordinary (Vfs.empty disk : Vfs τ ι) p :=
    ⟨by simp [Vfs.empty, Arcs.values, Arcs.empty], by simp [Vfs.empty, Vfs.held]⟩
  exact hempty.mounted (empty_sound disk) hp rfl rfl

/-- The descriptor is open on the path. -/
def Vfs.on_path (s : Vfs τ ι) (p : Path) (fd : FileDescriptor) : Bool :=
  (s.vnodes.get fd.vnode).map Vnode.full_path = some p

/-- The cache knows exactly the open descriptors of the path. -/
structure Tracked (s : Vfs τ ι) (p : Path) : Prop where
  cached_iff : (s.cached p).isSome ↔ ∃ fd ∈ s.files.values, s.on_path p fd
  one_vnode : ∀ fd ∈ s.files.values, s.on_path p fd → s.cached p = some fd.vnode
  count : ∀ v, s.cached p = some v →
    s.vnodes.strong_count v = (s.files.values.filter (s.on_path p)).length + 1

theorem Ordinary.tracked (hs : Sound s) (h : Ordinary s p) : Tracked s p := by
  have hpath : ∀ fd, s.on_path p fd = true ↔ s.path_of fd.vnode = some p :=
    fun fd => decide_eq_true_iff
  have hone : ∀ fd ∈ s.files.values, s.on_path p fd → s.cached p = some fd.vnode := fun fd hfd hp =>
    hs.cached_iff.mpr ⟨h.held fd hfd ((hpath fd).mp hp), (hpath fd).mp hp⟩
  have hon : ∀ fd v, s.cached p = some v → fd.vnode = v → s.on_path p fd = true := by
    rintro fd v hv rfl
    exact (hpath fd).mpr (hs.cached_iff.mp hv).2
  refine ⟨⟨fun hsome => ?_, fun ⟨fd, hfd, hp⟩ => by rw [hone fd hfd hp]; rfl⟩, hone, fun v hv => ?_⟩
  · obtain ⟨v, hv⟩ := Option.isSome_iff_exists.mp hsome
    obtain ⟨hheld, hp⟩ := hs.cached_iff.mp hv
    obtain ⟨fd, hfd, rfl⟩ := List.mem_map.mp (h.used v hheld hp)
    exact ⟨fd, hfd, hon fd _ hv rfl⟩
  · have hopened : s.opened.count v = (s.files.values.filter (s.on_path p)).length := by
      rw [Vfs.opened, List.count, List.countP_map, List.countP_eq_length_filter]
      refine congrArg List.length (List.filter_congr fun fd hfd => ?_)
      rw [Bool.eq_iff_iff, Function.comp_apply, beq_iff_eq]
      exact ⟨fun heq => hon fd v hv heq, fun hp => Option.some.inj ((hone fd hfd hp).symm.trans hv)⟩
    have hheld : s.held.count v = 1 :=
      List.count_eq_one_of_mem (hs.alive.held_nodup hs.keyed) (hs.cached_iff.mp hv).1
    rw [hs.inv.counted.count, List.nil_append, List.count_append, hheld, hopened]
    omega

/-- In every run in which nobody mounts at `p` and mounts elsewhere keep the strings that the keys
borrow, the cache knows exactly the open descriptors of `p`, and the assertion in
`FileDescriptor::drop` holds for them. -/
theorem cache_tracks_open_files (F : Fatfs τ ι) (disk : τ) (s₀ : Vfs τ ι)
    (p : Path) (es : List Event) (hinit : init F (Vfs.empty disk) = .ok ((), s₀)) (hp : p ≠ [SLASH])
    (hes : Meets (step F) (fun s e => e ≠ .mount p ∧ e.keeps_strings s = true) s₀ es) :
    (∀ s os, run (step F) s₀ es = .ok (s, os) → Tracked s p) ∧
      run (step F) s₀ es ≠ .error (.still_shared p) := by
  have hstart : (Sound s₀ ∧ Own s₀) ∧ Ordinary s₀ p := ⟨init_sound hinit, init_ordinary hinit hp⟩
  have hstep : ∀ s e s' o, (Sound s ∧ Own s) ∧ Ordinary s p → e ≠ .mount p ∧
    e.keeps_strings s = true →
      step F s e = .ok (s', o) → (Sound s' ∧ Own s') ∧ Ordinary s' p :=
    fun s e s' o hs he h => ⟨step_sound_own hs.1 he.2 h, step_ordinary hs.1.1 hs.2 he.1 he.2 h⟩
  constructor
  · intro s os h
    have hs := run_invariant_of_meets (fun s => (Sound s ∧ Own s) ∧ Ordinary s p) hstep hstart hes h
    exact hs.2.tracked hs.1.1
  · intro h
    obtain ⟨t, e, _, ht, _, he⟩ :=
      run_error_step (fun s => (Sound s ∧ Own s) ∧ Ordinary s p) hstep hstart hes h
    exact step_not_still_shared ht.1.1 ht.2 he

theorem small_disk_run (es : List Event) (P : Vfs SmallDisk (Option Nat) → Prop) [DecidablePred P]
    (h : ((init SmallDisk.fat (Vfs.empty smallDisk)).bind fun r =>
      (run (step SmallDisk.fat) r.2 es).bind fun t => permit .unwrap (P t.1) ()).toOption.isSome) :
    ∃ s₀ s os, init SmallDisk.fat (Vfs.empty smallDisk) = .ok ((), s₀) ∧
      run (step SmallDisk.fat) s₀ es = .ok (s, os) ∧ P s := by
  obtain ⟨r, hinit, h⟩ := ok_of_bind h
  obtain ⟨t, hrun, h⟩ := ok_of_bind h
  obtain ⟨_, hseen⟩ := ok_of_isSome h
  exact ⟨r.2, t.1, t.2, hinit, hrun, (permit_eq_ok hseen).1⟩

/-- The file `/a` is made, opened again, and closed by one of its three holders. -/
theorem cache_tracks_two_opens :
    ∃ s₀ s os, init SmallDisk.fat (Vfs.empty smallDisk) = .ok ((), s₀) ∧
    run (step SmallDisk.fat) s₀
      [.file_open pathA ⟨64⟩, .file_open pathA ⟨0⟩, .share 0, .release 1] = .ok (s, os) ∧
    s.files.values.length = 1 ∧ Tracked s pathA := by
  obtain ⟨s₀, s, os, hinit, hrun, hlen⟩ := small_disk_run
    [.file_open pathA ⟨64⟩, .file_open pathA ⟨0⟩, .share 0, .release 1]
    (fun s => s.files.values.length = 1) (by decide +kernel)
  have hes : Meets (step SmallDisk.fat) (fun s e => e ≠ .mount pathA ∧ e.keeps_strings s = true) s₀
      [.file_open pathA ⟨64⟩, .file_open pathA ⟨0⟩, .share 0, .release 1] :=
    meets_of_forall (by simp [Event.keeps_strings]) s₀
  have h := cache_tracks_open_files SmallDisk.fat smallDisk s₀ pathA _ hinit (by decide) hes
    |>.1 s os hrun
  exact ⟨s₀, s, os, hinit, hrun, hlen, h⟩

end Run

end HectoOs.Fs
