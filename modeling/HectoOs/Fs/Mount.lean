import HectoOs.Fs.Unlink

/-! # Mount points

The root of a mounted file system is in the cache without a descriptor, so its count is one lower
than that of an open file: the first descriptor on a mount point that is closed evicts the root.
`umount` looks its entry up as `file_open` does, and leaves the cache alone; the key of the root,
which borrows the freed `mount_point`, may then spell anything.
-/

open HectoOs.Lib

namespace HectoOs.Fs

variable {τ ι : Type} {F : Fatfs τ ι} {s s' : Vfs τ ι} {p q : Path} {flags : OpenFlags}

/-! ## What `filesystem_lookup` finds -/

section Lookup

variable {table : Fin MAX_FILE_SYSTEM → Option FileSystem}

/-- The best entry among those of `l`: none of them has a mount point above the path, or it has the
longest one. -/
def Best (table : Fin MAX_FILE_SYSTEM → Option FileSystem) (p : Path)
    (l : List (Fin MAX_FILE_SYSTEM)) (best : Fin MAX_FILE_SYSTEM × Nat) : Prop :=
  (∀ j ∈ l, ∀ fs, table j = some fs → fs.contains p = true → fs.mount_point.length ≤ best.2) ∧
  (best = (0, 0) ∨ ∃ fs, best.1 ∈ l ∧ table best.1 = some fs ∧ fs.contains p = true ∧
    best.2 = fs.mount_point.length)

theorem Best.more {l : List (Fin MAX_FILE_SYSTEM)} {best : Fin MAX_FILE_SYSTEM × Nat}
    {i : Fin MAX_FILE_SYSTEM} (h : Best table p l best)
    (hi : ∀ fs, table i = some fs → fs.contains p = true → fs.mount_point.length ≤ best.2) :
    Best table p (l ++ [i]) best := by
  obtain ⟨hmax, hbest⟩ := h
  refine ⟨fun j hj fs hfs hc => ?_,
    hbest.imp_right fun ⟨fs, hmem, hfs⟩ => ⟨fs, List.mem_append_left _ hmem, hfs⟩⟩
  rcases List.mem_append.mp hj with hj | hj
  · exact hmax j hj fs hfs hc
  · obtain rfl := List.mem_singleton.mp hj
    exact hi fs hfs hc

theorem Best.next {l : List (Fin MAX_FILE_SYSTEM)} {best : Fin MAX_FILE_SYSTEM × Nat}
    (h : Best table p l best) (i : Fin MAX_FILE_SYSTEM) :
    Best table p (l ++ [i]) (lookup_entry table p best i) := by
  unfold lookup_entry
  split
  · rename_i fs hfs
    split
    · rename_i hc
      rw [Bool.and_eq_true, decide_eq_true_eq] at hc
      refine ⟨fun j hj fs' hfs' hc' => ?_,
        .inr ⟨fs, List.mem_append_right _ (List.mem_singleton.mpr rfl), hfs, hc.1, rfl⟩⟩
      rcases List.mem_append.mp hj with hj | hj
      · exact (h.1 j hj fs' hfs' hc').trans hc.2.le
      · obtain rfl := List.mem_singleton.mp hj
        obtain rfl := Option.some.inj (hfs.symm.trans hfs')
        exact le_refl _
    · rename_i hc
      refine h.more fun fs' hfs' hc' => ?_
      obtain rfl := Option.some.inj (hfs.symm.trans hfs')
      simp only [hc', Bool.true_and, decide_eq_true_eq] at hc
      omega
  · rename_i hnone
    exact h.more fun fs' hfs' _ => by simp [hnone] at hfs'

theorem filesystem_lookup_best : ∃ n, Best table p ((List.finRange MAX_FILE_SYSTEM).drop 1)
    (filesystem_lookup table p, n) := by
  have hfold : ∀ (rest done : List (Fin MAX_FILE_SYSTEM)) (best : Fin MAX_FILE_SYSTEM × Nat),
    Best table p done best →
      Best table p (done ++ rest) (rest.foldl (lookup_entry table p) best) := by
    intro rest
    induction rest with
    | nil => exact fun done best h => by simpa using h
    | cons i rest ih =>
      intro done best h
      have := ih (done ++ [i]) _ (h.next i)
      rwa [List.append_assoc] at this
  have h := hfold ((List.finRange MAX_FILE_SYSTEM).drop 1) [] (0, 0) ⟨by simp, .inl rfl⟩
  exact ⟨_, h⟩

theorem mem_entries {j : Fin MAX_FILE_SYSTEM} :
    j ∈ (List.finRange MAX_FILE_SYSTEM).drop 1 ↔ j ≠ 0 := by
  revert j
  decide

theorem contains_self (fs : FileSystem) :
    fs.contains fs.mount_point = true := by simp [FileSystem.contains]

theorem contains_eq {fs : FileSystem} (h : fs.contains p = true)
    (hlen : p.length ≤ fs.mount_point.length) :
    fs.mount_point = p := by
  simp only [FileSystem.contains, Bool.and_eq_true, decide_eq_true_eq,
    List.isPrefixOf_iff_prefix] at h
  exact h.1.2.eq_of_length (Nat.le_antisymm h.1.1 hlen)

/-- The path is the mount point of a later entry, or that of the first one and no later entry has a
mount point above it. -/
def MountedAt (table : Fin MAX_FILE_SYSTEM → Option FileSystem) (p : Path) : Prop :=
  (∃ j, j ≠ 0 ∧ table j = some ⟨p⟩) ∨
    table 0 = some ⟨p⟩ ∧ ∀ j, j ≠ 0 → ∀ fs, table j = some fs → fs.contains p = false

theorem lookup_eq_iff (hne : ∀ i fs, table i = some fs → fs.mount_point ≠ []) :
    table (filesystem_lookup table p) = some ⟨p⟩ ↔ MountedAt table p := by
  obtain ⟨n, hmax, hbest⟩ := @filesystem_lookup_best p table
  constructor
  · intro h
    by_cases h0 : filesystem_lookup table p = 0
    · refine .inr ⟨h0 ▸ h, fun j hj fs hfs => Bool.eq_false_iff.mpr fun hc => ?_⟩
      have hle := hmax j (mem_entries.mpr hj) fs hfs hc
      rcases hbest with hb | ⟨fs', hmem, _⟩
      · obtain ⟨_, rfl⟩ := Prod.mk.inj hb
        exact hne j fs hfs (List.length_eq_zero_iff.mp (Nat.le_zero.mp hle))
      · exact mem_entries.mp hmem h0
    · exact .inl ⟨_, h0, h⟩
  · rintro (⟨j, hj, hp⟩ | ⟨h0, hno⟩)
    · have hle := hmax j (mem_entries.mpr hj) ⟨p⟩ hp (contains_self ⟨p⟩)
      rcases hbest with hb | ⟨fs, _, hfs, hc, hn⟩
      · obtain ⟨_, rfl⟩ := Prod.mk.inj hb
        exact absurd (List.length_eq_zero_iff.mp (Nat.le_zero.mp hle)) (hne j ⟨p⟩ hp)
      · dsimp only at hle hn hfs
        rw [hfs, ← contains_eq hc (hn ▸ hle)]
    · rcases hbest with hb | ⟨fs, hmem, hfs, hc, _⟩
      · obtain ⟨hb, _⟩ := Prod.mk.inj hb
        rw [hb]
        exact h0
      · have := hno _ (mem_entries.mp hmem) fs hfs
        simp [hc] at this

end Lookup

/-! ## Reachable states -/

/-- No mount point is the empty path. -/
def NonEmptyMounts (s : Vfs τ ι) : Prop :=
  ∀ i fs, s.FILE_SYSTEM_TABLE i = some fs → fs.mount_point ≠ []

theorem NonEmptyMounts.mounted {i : Fin MAX_FILE_SYSTEM} (h : NonEmptyMounts s) (hp : p ≠ []) :
    NonEmptyMounts (mounted F s p i) := by
  intro j fs hfs
  change Function.update s.FILE_SYSTEM_TABLE i (some ⟨p⟩) j = some fs at hfs
  by_cases hj : j = i
  · subst hj
    rw [Function.update_self] at hfs
    exact Option.some.inj hfs ▸ hp
  · rw [Function.update_of_ne hj] at hfs
    exact h j fs hfs

theorem step_nonEmptyMounts {e : Event} {o : Answer} (h : NonEmptyMounts s)
    (hs : step F s e = .ok (s', o)) :
    NonEmptyMounts s' := by
  cases e with
  | mount p =>
    obtain ⟨i, _, rfl, j, fs, hfs, hlen⟩ := step_cases hs
    refine h.mounted ?_
    rintro rfl
    exact h j fs hfs (List.length_eq_zero_iff.mp (Nat.le_zero.mp hlen))
  | umount p =>
    have hc := step_cases hs
    dsimp only at hc
    rw [hc]
    intro j fs hfs
    by_cases hj : j = filesystem_lookup s.FILE_SYSTEM_TABLE p
    · subst hj
      simp at hfs
    · exact h j fs (by simpa [Function.update_of_ne hj] using hfs)
  | _ =>
    have ht := step_table (by trivial) hs
    unfold NonEmptyMounts
    rw [ht]
    exact h

theorem reachable_inv (h : Reachable F s) : (CacheInv s [] ∧ Keyed s) ∧ NonEmptyMounts s := by
  obtain ⟨disk, s₀, es, os, hinit, hrun⟩ := h
  refine run_invariant (fun s => (CacheInv s [] ∧ Keyed s) ∧ NonEmptyMounts s)
    (fun s e s' o hs he => ⟨⟨step_cacheInv hs.1.1 he, step_keyed hs.1.1 hs.1.2 he⟩,
      step_nonEmptyMounts hs.2 he⟩) ⟨?_, ?_⟩ hrun
  · have hs := (init_sound hinit).1
    exact ⟨hs.inv, hs.keyed⟩
  · obtain ⟨i, rfl⟩ := init_cases hinit
    have hempty : NonEmptyMounts (Vfs.empty disk : Vfs τ ι) := by simp [NonEmptyMounts, Vfs.empty]
    exact hempty.mounted (by simp)

/-! ## Opening what is in the cache -/

theorem file_open_cached {v pos : Nat} {n : Vnode ι} (hv : s.cached p = some v)
    (hn : s.vnodes.get v = some n) (hpos : open_pos F s.disk n.inode flags = some pos) :
    file_open F p flags s = .ok (some s.files.next,
      { s with vnodes := s.vnodes.clone v, files := (s.files.new ⟨flags, pos, v⟩).2 }) := by
  have hw : wp (fun _ => False) (file_open F p flags) (fun r t => r = some s.files.next ∧
      t = { s with vnodes := s.vnodes.clone v, files := (s.files.new ⟨flags, pos, v⟩).2 }) s := by
    rw [file_open, wp_bind, wp_get, hv]
    dsimp only
    rw [wp_bind, wp_unwrap]
    refine ⟨fun n' hn' => ?_, fun hnone => by simp [hn] at hnone⟩
    obtain rfl := Option.some.inj (hn.symm.trans hn')
    rw [wp_bind, wp_set, map_eq_pure_bind, wp_bind, open_descriptor, wp_bind,
      wp_get, wp_bind, wp_unwrap]
    refine ⟨fun pos' hpos' => ?_, fun hnone => by simp [hpos] at hnone⟩
    obtain rfl := Option.some.inj (hpos.symm.trans hpos')
    exact ⟨rfl, rfl⟩
  obtain ⟨r, t, ho, rfl, rfl⟩ := wp_total hw
  exact ho

/-! ## Unmounting -/

/-- The vnode of the root of the file system in entry `i`, which is mounted at `p`. -/
def IsRoot (F : Fatfs τ ι) (s : Vfs τ ι) (i : Fin MAX_FILE_SYSTEM) (p : Path) (v : Nat) : Prop :=
  s.vnodes.get v = some ⟨some i, p, F.root_dir⟩

/-- The entry `i` is cleared, and the strings that are gone then read as in `freed`. -/
def Vfs.unmounted (s : Vfs τ ι) (i : Fin MAX_FILE_SYSTEM) (freed : Key → Option Path) : Vfs τ ι :=
  { s with FILE_SYSTEM_TABLE := Function.update s.FILE_SYSTEM_TABLE i none, freed }

/-- `umount` clears one entry with this mount point and nothing else, and its root cannot be opened
any more; without such an entry, the table stays as it is. -/
def UmountExact (F : Fatfs τ ι) (s : Vfs τ ι) (p : Path) (freed : Key → Option Path) : Prop :=
  ∃ s', umount p s = .ok ((), s') ∧
    ((∃ i, s.FILE_SYSTEM_TABLE i = some ⟨p⟩) → ∃ i, s.FILE_SYSTEM_TABLE i = some ⟨p⟩ ∧
      s'.FILE_SYSTEM_TABLE = Function.update s.FILE_SYSTEM_TABLE i none ∧
      ∀ flags f t, file_open F p flags { s' with freed } = .ok (some f, t) →
        ∀ fd, t.files.get f = some fd → ¬ IsRoot F s i p fd.vnode) ∧
    ((∀ i, s.FILE_SYSTEM_TABLE i ≠ some ⟨p⟩) → s'.FILE_SYSTEM_TABLE = s.FILE_SYSTEM_TABLE)

theorem umount_eq (h : (s.FILE_SYSTEM_TABLE (filesystem_lookup s.FILE_SYSTEM_TABLE p)).isSome) :
    umount p s = .ok ((), { s with
      FILE_SYSTEM_TABLE := Function.update s.FILE_SYSTEM_TABLE (filesystem_lookup s.FILE_SYSTEM_TABLE p) none }) := by
  have hw : wp (fun _ => False) (umount p) (fun _ t => t = { s with
      FILE_SYSTEM_TABLE := Function.update s.FILE_SYSTEM_TABLE (filesystem_lookup s.FILE_SYSTEM_TABLE p) none }) s := by
    rw [umount]
    refine wp_call (file_system_total h) ?_
    rintro ⟨_, _⟩ _ ⟨rfl, rfl⟩
    exact rfl
  obtain ⟨_, t, ho, rfl⟩ := wp_total hw
  exact ho

/-- The entry that is found must be the one that is named, and the cache must not lead to its root
once the strings of the entry are freed. -/
theorem umount_exact_iff (F : Fatfs τ ι) (s : Vfs τ ι) (hs : Reachable F s) (p : Path)
    (freed : Key → Option Path) : UmountExact F s p freed ↔ MountedAt s.FILE_SYSTEM_TABLE p ∧
      ∀ v, (s.unmounted (filesystem_lookup s.FILE_SYSTEM_TABLE p) freed).cached p = some v →
        ¬ IsRoot F s (filesystem_lookup s.FILE_SYSTEM_TABLE p) p v := by
  obtain ⟨⟨hi, _⟩, hne⟩ := reachable_inv hs
  rw [← lookup_eq_iff hne]
  constructor
  · rintro ⟨s', hu, hsome, hnone⟩
    obtain ⟨hfound, rfl⟩ := wp_ok umount_spec hu
    have hentry : ∃ i, s.FILE_SYSTEM_TABLE i = some ⟨p⟩ := by
      by_contra hno
      have hsame :=
        congrFun (hnone fun i hi => hno ⟨i, hi⟩) (filesystem_lookup s.FILE_SYSTEM_TABLE p)
      simp only [Function.update_self] at hsame
      simp [← hsame] at hfound
    obtain ⟨i, hp, htable, hopen⟩ := hsome hentry
    have hii : i = filesystem_lookup s.FILE_SYSTEM_TABLE p := by
      by_contra hne
      have hsame := congrFun htable i
      dsimp only at hsame
      rw [Function.update_of_ne hne, Function.update_self, hp] at hsame
      simp at hsame
    subst hii
    refine ⟨hp, fun v hv hroot => ?_⟩
    have ho : file_open F p ⟨0⟩ (s.unmounted (filesystem_lookup s.FILE_SYSTEM_TABLE p) freed) = _ :=
      file_open_cached hv hroot rfl
    exact hopen ⟨0⟩ _ _ ho _ Arcs.get_new_self hroot
  · rintro ⟨hp, hroot⟩
    refine ⟨_, umount_eq (by rw [hp]; rfl), fun _ => ⟨_, hp, rfl, fun flags f t ho fd hfd => ?_⟩,
      fun hno => absurd hp (hno _)⟩
    have hopen := wp_ok file_open_spec ho
    cases hopen with
    | cached v pos vnode hv hg =>
      obtain rfl : _ = fd := Option.some.inj (Arcs.get_new_self.symm.trans hfd)
      exact hroot v hv
    | fresh pos inode hv hinode =>
      obtain rfl : _ = fd := Option.some.inj (Arcs.get_new_self.symm.trans hfd)
      intro hr
      have hlt := hi.counted.lt_next (hr ▸ rfl : (s.vnodes.get s.vnodes.next).isSome)
      exact absurd hlt (Nat.lt_irrefl _)

/-- `/m` is mounted. When it is unmounted, the allocator writes to the freed `mount_point`, and the
root in the cache is no longer found. -/
theorem umount_exact_evicted : ∃ s₀ s os, init SmallDisk.fat (Vfs.empty smallDisk) = .ok ((), s₀) ∧
    run (step SmallDisk.fat) s₀ [.mount pathM] = .ok (s, os) ∧
    s.FILE_SYSTEM_TABLE 1 = some ⟨pathM⟩ ∧ s.cached pathM = some 1 ∧
    UmountExact SmallDisk.fat s pathM fun _ => some [64, 17] := by
  obtain ⟨s₀, s, os, hinit, hrun, htable, hv, hgone⟩ := small_disk_run [.mount pathM]
    (fun s => s.FILE_SYSTEM_TABLE 1 = some ⟨pathM⟩ ∧ s.cached pathM = some 1 ∧
      (s.unmounted (filesystem_lookup s.FILE_SYSTEM_TABLE pathM)
        fun _ => some [64, 17]).cached pathM =
        none) (by decide +kernel)
  have hr : Reachable SmallDisk.fat s := ⟨smallDisk, s₀, _, os, hinit, hrun⟩
  refine ⟨s₀, s, os, hinit, hrun, htable, hv,
    (umount_exact_iff SmallDisk.fat s hr pathM _).mpr ⟨.inl ⟨1, by decide, htable⟩,
      fun v hv' => ?_⟩⟩
  exact absurd (hgone.symm.trans hv') (Option.some_ne_none v).symm

theorem umount_keeps_root : ∃ s, Reachable SmallDisk.fat s ∧ s.FILE_SYSTEM_TABLE 1 = some ⟨pathM⟩ ∧
    ∀ freed, ¬ UmountExact SmallDisk.fat s pathM freed := by
  obtain ⟨s₀, s, os, hinit, hrun, htable, hlookup, halive, hv, hpath, hroot⟩ := small_disk_run
    [.file_open pathM ⟨2 ^ 21⟩, .mount pathM]
    (fun s => s.FILE_SYSTEM_TABLE 1 = some ⟨pathM⟩ ∧
      filesystem_lookup s.FILE_SYSTEM_TABLE pathM = 1 ∧
      (∀ k ∈ s.keys, ((s.unmounted 1 fun _ => none).string k).isSome) ∧ 2 ∈ s.held ∧
      s.path_of 2 = some pathM ∧ s.vnodes.get 2 = some ⟨some 1, pathM, none⟩) (by decide +kernel)
  have hr : Reachable SmallDisk.fat s := ⟨smallDisk, s₀, _, os, hinit, hrun⟩
  refine ⟨s, hr, htable, fun freed h => ?_⟩
  have hcached : (s.unmounted 1 freed).cached pathM = some 2 := by
    have hk : Keyed (s.unmounted 1 freed) :=
      (reachable_inv hr).1.2.shrink (List.Subperm.refl _) (fun _ _ => string_umount)
        (fun _ _ => rfl) le_rfl
    exact (KeysAlive.cached_iff hk halive).mpr ⟨hv, hpath⟩
  have hno := ((umount_exact_iff SmallDisk.fat s hr pathM freed).mp h).2 2 (hlookup ▸ hcached)
  rw [hlookup] at hno
  exact hno hroot

/-- Nothing is mounted at `/a`: `umount` clears the entry of the root. -/
theorem umount_clears_root : (∃ s, Reachable SmallDisk.fat s ∧
    s.FILE_SYSTEM_TABLE 0 = some ⟨[SLASH]⟩ ∧ (∀ i, s.FILE_SYSTEM_TABLE i ≠ some ⟨pathA⟩) ∧
    (∃ s', umount pathA s = .ok ((), s') ∧ s'.FILE_SYSTEM_TABLE 0 = none) ∧
    ∀ freed, ¬ UmountExact SmallDisk.fat s pathA freed) ∧
    ∃ s, Reachable SmallDisk.fat s ∧ s.FILE_SYSTEM_TABLE 1 = some ⟨pathM⟩ ∧
      ∀ freed, ¬ UmountExact SmallDisk.fat s pathM freed := by
  refine ⟨?_, umount_keeps_root⟩
  obtain ⟨s₀, s, os, hinit, hrun, hroot, hno, hcleared⟩ := small_disk_run []
    (fun s => s.FILE_SYSTEM_TABLE 0 = some ⟨[SLASH]⟩ ∧
      (∀ i, s.FILE_SYSTEM_TABLE i ≠ some ⟨pathA⟩) ∧
      (umount pathA s).toOption.map (fun r => r.2.FILE_SYSTEM_TABLE 0) = some none)
    (by decide +kernel)
  obtain ⟨⟨_, s'⟩, hu, hnone⟩ := Option.map_eq_some_iff.mp hcleared
  have hu := toOption_eq_some.mp hu
  refine ⟨s, ⟨smallDisk, s₀, [], os, hinit, hrun⟩, hroot, hno, ⟨s', hu, hnone⟩, fun freed => ?_⟩
  rintro ⟨t, ht, _, hsame⟩
  obtain ⟨_, rfl⟩ := Prod.mk.inj (Except.ok.inj (hu.symm.trans ht))
  have hsame := hsame hno
  rw [hsame] at hnone
  simp [hroot] at hnone

/-! ## Opening a mount point -/

/-- The cache has the root of entry `i`. -/
def Rooted (F : Fatfs τ ι) (s : Vfs τ ι) (i : Fin MAX_FILE_SYSTEM) (p : Path) : Prop :=
  ∃ v ∈ s.held, IsRoot F s i p v

/-- No descriptor on the path is dropped while its vnode has a count of two. -/
def Event.keeps_vnode (p : Path) (s : Vfs τ ι) : Event → Bool
  | .release f => (s.files.drop f).1.all fun fd => (s.vnodes.get fd.vnode).all fun n =>
    n.full_path ≠ p || s.vnodes.strong_count fd.vnode ≠ 2
  | _ => true

namespace Rooted

variable {i : Fin MAX_FILE_SYSTEM}

theorem opens {r : Option Nat} (hi : CacheInv s []) (h : Rooted F s i p)
    (ho : Opens F s q flags r s') : Rooted F s' i p := by
  obtain ⟨v, hv, hr⟩ := h
  cases ho with
  | cached w pos vnode hw hg => exact ⟨v, hv, Arcs.get_clone.trans hr⟩
  | failed hw hinode => exact ⟨v, hv, hr⟩
  | fresh pos inode hw hinode =>
    refine ⟨v, ?_, ?_⟩
    · rw [Vfs.held, List.map_append]
      exact List.mem_append_left _ hv
    · have hlt := hi.counted.fresh v (List.mem_append_right _ (List.mem_append_left _ hv))
      exact Arcs.get_clone.trans ((Arcs.get_new_of_ne (Nat.ne_of_lt hlt)).trans hr)

theorem releases {f : Nat} (hs : Sound s) (h : Rooted F s i p) (hf : (s.files.get f).isSome)
    (hk : (Event.release f).keeps_vnode p s = true) (hr : Releases s f s') : Rooted F s' i p := by
  obtain ⟨v, hv, hroot⟩ := h
  rcases hs.inv.drop_file hf with ⟨hnone, _, _⟩ | ⟨fd, _, hsome, _, hi'⟩
  · cases hr with
    | shared => exact ⟨v, hv, hroot⟩
    | last fd n hfd hn s' hd => simp [hnone] at hfd
  · cases hr with
    | shared hfd => simp [hsome] at hfd
    | last fd' n hfd hn s' hd =>
      obtain rfl := Option.some.inj (hsome.symm.trans hfd)
      have hheld : v ∈ s'.held := by
        cases hd with
        | keeps => exact hv
        | evicts hc h1 =>
          have hcached : s.cached n.full_path = some fd.vnode := KeysAlive.cached_of_evicts hc h1
          have hperm := (hs.alive.held_evict_of_cached hs.keyed hcached).1
          refine (List.mem_cons.mp (hperm.mem_iff.mp hv)).resolve_left ?_
          rintro rfl
          obtain rfl : n = _ := Option.some.inj (hn.symm.trans hroot)
          simp [Event.keeps_vnode, hsome, hn] at hk
          exact hk hc
      have hget := hi'.get_drops hd (List.mem_append_left _ hheld)
      exact ⟨v, hheld, hget.trans hroot⟩

theorem after_step {e : Event} {o : Answer} (hs : Sound s) (h : Rooted F s i p) (he : e.Files)
    (hk : e.keeps_vnode p s = true) (hstep : step F s e = .ok (s', o)) : Rooted F s' i p := by
  have hc := step_cases hstep
  cases e with
  | file_open q flags =>
    obtain ⟨r, ho, _⟩ := hc
    exact h.opens hs.inv ho
  | share f =>
    rw [hc.2]
    exact h
  | release f => exact h.releases hs hc.1 hk hc.2
  | file_unlink q =>
    rw [hc.1]
    exact h
  | mount q | umount q => exact he.elim
  | reuse freed entries =>
    obtain ⟨hperm, rfl⟩ := hc
    obtain ⟨v, hv, hr⟩ := h
    have hheld : (entries.map Prod.snd).Perm s.held := hperm.map _
    exact ⟨v, hheld.mem_iff.mpr hv, hr⟩

theorem open_root (hs : Sound s) (h : Rooted F s i p)
    (hend : flags.APPEND = true → (F.seek_end s.disk F.root_dir).isSome) :
    ∃ f t fd, file_open F p flags s = .ok (some f, t) ∧ t.files.get f = some fd ∧
      IsRoot F t i p fd.vnode := by
  obtain ⟨v, hv, hr⟩ := h
  have hcached : s.cached p = some v :=
    hs.cached_iff.mpr ⟨hv, congrArg (Option.map Vnode.full_path) hr⟩
  have hpos : (open_pos F s.disk F.root_dir flags).isSome := by
    unfold open_pos
    split
    · exact hend ‹_›
    · rfl
  obtain ⟨pos, hpos⟩ := Option.isSome_iff_exists.mp hpos
  exact ⟨_, _, _, file_open_cached hcached hr hpos, Arcs.get_new_self, Arcs.get_clone.trans hr⟩

theorem of_mounted (hi : CacheInv s []) : Rooted F (mounted F s p i) i p := by
  have hv : s.vnodes.next ∈ (mounted F s p i).held := by
    have hperm := Vfs.held_put (s := registered F s p i) (p := p)
      (k := .mount_point i s.vnodes.next) (v := s.vnodes.next)
    have hmem := hperm.mem_iff.mpr List.mem_cons_self
    refine (List.mem_append.mp hmem).resolve_left fun hold => ?_
    -- the vnode that the cache gives up is an old one
    obtain ⟨e, he, -, hev⟩ := KeyTable.mem_of_lookup (Option.mem_toList.mp hold)
    have hheld : e.2 ∈ s.held := List.mem_map_of_mem he
    have hlt := hi.counted.fresh e.2 (List.mem_append_right _ (List.mem_append_left _ hheld))
    omega
  have hget := (hi.registered (F := F) (p := p) i).get_put (p := p)
    (k := .mount_point i s.vnodes.next) (List.mem_append_right _ (List.mem_append_left _ hv))
  exact ⟨_, hv, hget.trans Arcs.get_new_self⟩

end Rooted

/-- A file system is registered at `m` in the entry `i`, and no key has outlived its string. In
every history of opens and drops in which no descriptor on `m` is dropped while its vnode has a
count of two, and no string that a key borrows is freed, opening `m` gives its root. -/
theorem mount_point_openable (F : Fatfs τ ι) (s₀ s₁ s : Vfs τ ι) (m : Path) (es : List Event)
    (os : List Answer) (h₀ : (∃ disk, s₀ = Vfs.empty disk) ∨ Reachable F s₀)
    (hreg : regeister_file_system F ⟨m⟩ s₀ = .ok ((), s₁)) (halive : KeysAlive s₁)
    (hes : Meets (step F)
      (fun s e => e.Files ∧ e.keeps_vnode m s = true ∧ e.keeps_borrowed s = true) s₁ es)
    (hrun : run (step F) s₁ es = .ok (s, os)) :
    ∃ i, s.FILE_SYSTEM_TABLE i = some ⟨m⟩ ∧
      ∀ flags, flags.CREAT = false → (flags.APPEND = true → (F.seek_end s.disk F.root_dir).isSome) →
        ∃ f t fd, file_open F m flags s = .ok (some f, t) ∧ t.files.get f = some fd ∧
          IsRoot F t i m fd.vnode := by
  have hi₀ : CacheInv s₀ [] ∧ Keyed s₀ := by
    rcases h₀ with ⟨disk, rfl⟩ | hr
    · exact ⟨empty_cacheInv disk, (empty_sound disk).keyed⟩
    · exact (reachable_inv hr).1
  obtain ⟨i, hfree, rfl⟩ := wp_ok regeister_file_system_spec hreg
  have hstart : Sound (mounted F s₀ m i) ∧ Rooted F (mounted F s₀ m i) i m ∧
      (mounted F s₀ m i).FILE_SYSTEM_TABLE i = some ⟨m⟩ :=
    ⟨⟨hi₀.1.mounted i, hi₀.2.mounted hi₀.1 hfree, halive⟩, Rooted.of_mounted hi₀.1,
      Function.update_self _ _ _⟩
  have h := run_invariant_of_meets
    (fun s => Sound s ∧ Rooted F s i m ∧ s.FILE_SYSTEM_TABLE i = some ⟨m⟩)
    (fun s e s' o hs he hstep => ⟨step_sound hs.1 he.1.keeps_strings he.2.2 hstep,
      hs.2.1.after_step hs.1 he.1 he.2.1 hstep, by
        rw [step_table he.1 hstep]
        exact hs.2.2⟩) hstart hes hrun
  exact ⟨i, h.2.2, fun flags _ hend => h.2.1.open_root h.1 hend⟩

/-- The root is opened twice and closed once. -/
theorem mount_point_openable_twice : ∃ s₁ s os,
    regeister_file_system SmallDisk.fat ⟨[SLASH]⟩ (Vfs.empty smallDisk) = .ok ((), s₁) ∧
    run (step SmallDisk.fat) s₁
      [.file_open [SLASH] ⟨0⟩, .file_open [SLASH] ⟨0⟩, .release 0] = .ok (s, os) ∧
    ∃ i f t fd, file_open SmallDisk.fat [SLASH] ⟨0⟩ s = .ok (some f, t) ∧
      t.files.get f = some fd ∧ IsRoot SmallDisk.fat t i [SLASH] fd.vnode := by
  have heval : ((init SmallDisk.fat (Vfs.empty smallDisk)).bind fun r =>
      (permit .unwrap (Meets (step SmallDisk.fat) (fun s e => e.Files ∧
          e.keeps_vnode [SLASH] s = true ∧ e.keeps_borrowed s = true) r.2
        [.file_open [SLASH] ⟨0⟩, .file_open [SLASH] ⟨0⟩, .release 0]) ()).bind fun _ =>
          run (step SmallDisk.fat) r.2
            [.file_open [SLASH] ⟨0⟩, .file_open [SLASH] ⟨0⟩, .release 0]).toOption.isSome := by
    decide +kernel
  obtain ⟨⟨_, s₁⟩, hreg, heval⟩ := ok_of_bind heval
  obtain ⟨_, hmeets, heval⟩ := ok_of_bind heval
  obtain ⟨⟨s, os⟩, hrun⟩ := ok_of_isSome heval
  obtain ⟨i, _, hopen⟩ := mount_point_openable SmallDisk.fat _ s₁ s [SLASH] _ os
    (.inl ⟨smallDisk, rfl⟩) hreg (init_sound hreg).1.alive (permit_eq_ok hmeets).1 hrun
  exact ⟨s₁, s, os, hreg, hrun, i, hopen ⟨0⟩ rfl (by simp [OpenFlags.APPEND])⟩

/-- The root is opened and closed, and cannot be opened again. Nor can `/m`, if it was open before
it was mounted and is closed then. -/
theorem mount_point_lost : ∃ s₀ s os t s' os' t',
    init SmallDisk.fat (Vfs.empty smallDisk) = .ok ((), s₀) ∧
    run (step SmallDisk.fat) s₀ [.file_open [SLASH] ⟨0⟩, .release 0] = .ok (s, os) ∧
    s.FILE_SYSTEM_TABLE 0 = some ⟨[SLASH]⟩ ∧
    file_open SmallDisk.fat [SLASH] ⟨0⟩ s = .ok (none, t) ∧
    run (step SmallDisk.fat) s₀ [.file_open pathM ⟨2 ^ 21⟩, .mount pathM, .release 0] =
      .ok (s', os') ∧
    s'.FILE_SYSTEM_TABLE 1 = some ⟨pathM⟩ ∧
    file_open SmallDisk.fat pathM ⟨0⟩ s' = .ok (none, t') := by
  obtain ⟨s₀, s, os, hinit, hrun, htable, hnone⟩ :=
    small_disk_run [.file_open [SLASH] ⟨0⟩, .release 0]
      (fun s => s.FILE_SYSTEM_TABLE 0 = some ⟨[SLASH]⟩ ∧
        (file_open SmallDisk.fat [SLASH] ⟨0⟩ s).toOption.map Prod.fst = some none) (by decide +kernel)
  obtain ⟨s₁, s', os', hinit', hrun', htable', hnone'⟩ :=
    small_disk_run [.file_open pathM ⟨2 ^ 21⟩, .mount pathM, .release 0]
      (fun s => s.FILE_SYSTEM_TABLE 1 = some ⟨pathM⟩ ∧
        (file_open SmallDisk.fat pathM ⟨0⟩ s).toOption.map Prod.fst = some none) (by decide +kernel)
  obtain rfl : s₀ = s₁ := congrArg Prod.snd (Except.ok.inj (hinit.symm.trans hinit'))
  obtain ⟨⟨r, t⟩, ho, rfl⟩ := Option.map_eq_some_iff.mp hnone
  obtain ⟨⟨r', t'⟩, ho', hr'⟩ := Option.map_eq_some_iff.mp hnone'
  obtain rfl : r' = none := hr'
  exact ⟨s₀, s, os, t, s', os', t', hinit, hrun, htable, toOption_eq_some.mp ho, hrun', htable',
    toOption_eq_some.mp ho'⟩

end HectoOs.Fs
