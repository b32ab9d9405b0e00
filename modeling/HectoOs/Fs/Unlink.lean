import HectoOs.Fs.VnodeCache

/-! # Removed files

`file_unlink` goes to `fatfs`, and `file_open` looks into the cache first. A file is gone after
`file_unlink` if the cache does not have its path, and then it stays gone until it is created again.
-/

open HectoOs.Lib

namespace HectoOs.Fs

variable {τ ι ε φ : Type} {F : Fatfs τ ι} {s s' : Vfs τ ι} {p q : Path} {flags : OpenFlags}

/-- What the kernel relies on in `fatfs`: the disk is a tree of names, and several paths can resolve
to the same name. `made` are the files that were created so far. -/
structure Fatfs.Lawful (F : Fatfs τ ι) (resolve : Path → ε) (tree : τ → ε → Option φ) (file : ι → φ)
    (made : τ → φ → Prop) : Prop where
  open_file : ∀ d p i, F.open_file d p = some i → tree d (resolve p) = some (file i)
  open_dir : ∀ d p i, F.open_dir d p = some i → tree d (resolve p) = some (file i)
  create_file : ∀ d p i, (F.create_file d p).1 = some i →
    tree (F.create_file d p).2 (resolve p) = some (file i)
  create_new : ∀ d p i, (F.create_file d p).1 = some i → tree d (resolve p) = none →
    ¬ made d (file i)
  create_fails : ∀ d p, (F.create_file d p).1 = none → tree (F.create_file d p).2 = tree d
  create_only : ∀ d p x, x ≠ resolve p → tree (F.create_file d p).2 x = tree d x
  remove : ∀ d p, (F.remove d p).1.isSome → tree (F.remove d p).2 (resolve p) = none
  remove_only : ∀ d p x, tree d x = none → tree (F.remove d p).2 x = none
  named : ∀ d x f, tree d x = some f → made d f
  made_create : ∀ d p f, made d f → made (F.create_file d p).2 f
  made_remove : ∀ d p f, made d f → made (F.remove d p).2 f

/-! ## The table of a system without further mounts -/

section Table

variable {table : Fin MAX_FILE_SYSTEM → Option FileSystem}

theorem lookup_entry_isSome {best : Fin MAX_FILE_SYSTEM × Nat} (h : (table best.1).isSome)
    (i : Fin MAX_FILE_SYSTEM) :
    (table (lookup_entry table p best i).1).isSome := by
  unfold lookup_entry
  split
  · split
    · simp [*]
    · exact h
  · exact h

theorem filesystem_lookup_isSome (h : (table 0).isSome) :
    (table (filesystem_lookup table p)).isSome := by
  have hfold : ∀ (l : List (Fin MAX_FILE_SYSTEM)) (best : Fin MAX_FILE_SYSTEM × Nat),
    (table best.1).isSome →
      (table (l.foldl (lookup_entry table p) best).1).isSome := by
    intro l
    induction l with
    | nil => exact fun _ hb => hb
    | cons i l ih => exact fun best hb => ih _ (lookup_entry_isSome hb i)
  exact hfold _ (0, 0) h

end Table

/-- The events of a history of opens, drops and unlinks. -/
def Event.Files : Event → Prop
  | .mount _ | .umount _ => False
  | _ => True

instance : DecidablePred Event.Files := fun e => by
  cases e <;> unfold Event.Files <;> infer_instance

theorem Event.Files.keeps_strings {e : Event} (he : e.Files) : e.keeps_strings s = true := by
  cases e with
  | mount q | umount q => exact he.elim
  | _ => rfl

theorem releases_frame {f : Nat} (h : Releases s f s') :
    s'.FILE_SYSTEM_TABLE = s.FILE_SYSTEM_TABLE ∧ s'.disk = s.disk := by
  cases h with
  | shared => exact ⟨rfl, rfl⟩
  | last fd n hfd hn s' hd =>
    cases hd with
    | keeps => exact ⟨rfl, rfl⟩
    | evicts hc => exact ⟨rfl, rfl⟩

theorem step_table {e : Event} {o : Answer} (he : e.Files) (h : step F s e = .ok (s', o)) :
    s'.FILE_SYSTEM_TABLE = s.FILE_SYSTEM_TABLE := by
  have hc := step_cases h
  cases e with
  | file_open q flags =>
    obtain ⟨r, ho, _⟩ := hc
    cases ho <;> rfl
  | share f => rw [hc.2]
  | release f => exact (releases_frame hc.2).1
  | file_unlink q => rw [hc.1]
  | mount q | umount q => exact he.elim
  | reuse freed entries => rw [hc.2]

/-! ## Paths that are not in the cache -/

theorem Sound.uncached (hs : Sound s) (hs' : Sound s')
    (h : ∀ v ∈ s'.held, s'.path_of v = some p → v ∈ s.held ∧ s.path_of v = some p)
    (hp : s.cached p = none) : s'.cached p = none := by
  refine (hs'.alive.cached_none hs'.keyed).mpr fun v hv hpv => ?_
  obtain ⟨hv, hpv⟩ := h v hv hpv
  exact (hs.alive.cached_none hs.keyed).mp hp v hv hpv

theorem releases_held {f v : Nat} (hi : CacheInv s []) (hf : (s.files.get f).isSome)
    (hr : Releases s f s') (hv : v ∈ s'.held) : v ∈ s.held ∧ s'.vnodes.get v = s.vnodes.get v := by
  rcases hi.drop_file hf with ⟨hnone, _, _⟩ | ⟨fd, _, hsome, _, hi'⟩
  · cases hr with
    | shared => exact ⟨hv, rfl⟩
    | last fd n hfd hn s' hd => simp [hnone] at hfd
  · cases hr with
    | shared hfd => simp [hsome] at hfd
    | last fd' n hfd hn s' hd =>
      obtain rfl := Option.some.inj (hsome.symm.trans hfd)
      have hget := hi'.get_drops hd (List.mem_append_left _ hv)
      refine ⟨?_, hget⟩
      cases hd with
      | keeps => exact hv
      | evicts => exact ((KeyTable.remove_sublist).map Prod.snd).subset hv

/-! ## Gone files -/

section Gone

variable {resolve : Path → ε} {tree : τ → ε → Option φ} {file : ι → φ}
  {made : τ → φ → Prop} {removed : φ → Prop}

/-- The path is neither in the cache nor on the disk; `removed` was its file. -/
structure Gone (resolve : Path → ε) (tree : τ → ε → Option φ) (made : τ → φ → Prop) (s : Vfs τ ι)
    (p : Path) (removed : φ → Prop) : Prop where
  sound : Sound s ∧ Own s
  table : (s.FILE_SYSTEM_TABLE 0).isSome
  uncached : s.cached p = none
  absent : tree s.disk (resolve p) = none
  old_made : ∀ f, removed f → made s.disk f

/-- The event created what the path names. -/
def Recreates (resolve : Path → ε) (p : Path) (e : Event) (o : Answer) : Prop :=
  ∃ q flags f, e = .file_open q flags ∧ flags.CREAT = true ∧ resolve q = resolve p ∧
  o = .opened (some f)

theorem open_inode_existing (hF : F.Lawful resolve tree file made) {d : τ}
    {i : ι} (hc : flags.CREAT = false) (h : (open_inode F d p flags).1 = some i) :
    tree d (resolve p) = some (file i) := by
  unfold open_inode at h
  rw [if_neg (by simp [hc])] at h
  split at h
  · exact hF.open_dir d p i h
  · exact hF.open_file d p i h

theorem open_inode_disk {d : τ} (hc : flags.CREAT = false) : (open_inode F d p flags).2 = d := by
  unfold open_inode
  rw [if_neg (by simp [hc])]
  split <;> rfl

theorem open_inode_create {d : τ} (hc : flags.CREAT = true) :
    open_inode F d p flags = F.create_file d p := by
  unfold open_inode
  rw [if_pos hc]

theorem Gone.absent_of_open (hF : F.Lawful resolve tree file made)
    (h : Gone resolve tree made s p removed)
    (hno : flags.CREAT = true → (open_inode F s.disk q flags).1.isSome → resolve p ≠ resolve q) :
    tree (open_inode F s.disk q flags).2 (resolve p) = none ∧
      ∀ f, removed f → made (open_inode F s.disk q flags).2 f := by
  by_cases hc : flags.CREAT = true
  · rw [open_inode_create hc] at hno ⊢
    refine ⟨?_, fun f hf => hF.made_create _ _ _ (h.old_made f hf)⟩
    cases hi : (F.create_file s.disk q).1 with
    | none =>
      rw [hF.create_fails _ _ hi]
      exact h.absent
    | some i =>
      rw [hF.create_only _ _ _ (hno hc (hi ▸ rfl))]
      exact h.absent
  · rw [open_inode_disk (Bool.eq_false_iff.mpr hc)]
    exact ⟨h.absent, h.old_made⟩

theorem Gone.opens {r : Option Nat} (hF : F.Lawful resolve tree file made)
    (h : Gone resolve tree made s p removed) (hs' : Sound s' ∧ Own s') (ho : Opens F s q flags r s')
    (hno : ¬ Recreates resolve p (.file_open q flags) (.opened r)) :
    Gone resolve tree made s' p removed := by
  cases ho with
  | cached v pos vnode hv hg =>
    refine ⟨hs', h.table, h.sound.1.uncached hs'.1 (fun w hw hp => ⟨hw, ?_⟩) h.uncached, h.absent,
      h.old_made⟩
    unfold Vfs.path_of at hp
    rwa [Arcs.get_clone] at hp
  | failed hv hi =>
    have hne : flags.CREAT = true → (open_inode F s.disk q flags).1.isSome →
      resolve p ≠ resolve q :=
      fun _ hsome => by simp [hi] at hsome
    obtain ⟨habsent, hmade⟩ := h.absent_of_open hF hne
    exact ⟨hs', h.table, h.uncached, habsent, hmade⟩
  | fresh pos inode hv hi =>
    have hne : flags.CREAT = true → resolve p ≠ resolve q := fun hc he =>
      hno ⟨q, flags, _, rfl, hc, he.symm, rfl⟩
    have hpq : p ≠ q := by
      rintro rfl
      by_cases hc : flags.CREAT = true
      · exact hne hc rfl
      · have hthere := open_inode_existing hF (Bool.eq_false_iff.mpr hc) hi
        simp [h.absent] at hthere
    obtain ⟨habsent, hmade⟩ := h.absent_of_open hF fun hc _ => hne hc
    refine ⟨hs', h.table, h.sound.1.uncached hs'.1 (fun w hw hp => ?_) h.uncached, habsent, hmade⟩
    rw [Vfs.held, List.map_append, List.mem_append] at hw
    unfold Vfs.path_of at hp
    rw [Arcs.get_clone] at hp
    rcases hw with hw | hw
    · have hlt :=
        h.sound.1.inv.counted.fresh w (List.mem_append_right _ (List.mem_append_left _ hw))
      rw [Arcs.get_new_of_ne (Nat.ne_of_lt hlt)] at hp
      exact ⟨hw, hp⟩
    · obtain rfl := List.mem_singleton.mp hw
      have hself : (s.vnodes.new ⟨some (filesystem_lookup s.FILE_SYSTEM_TABLE q), q, inode⟩).2.get
          s.vnodes.next = _ := Arcs.get_new_self
      rw [hself] at hp
      exact absurd (Option.some.inj hp).symm hpq

theorem Gone.after_step {e : Event} {o : Answer} (hF : F.Lawful resolve tree file made)
    (h : Gone resolve tree made s p removed) (he : e.Files) (hno : ¬ Recreates resolve p e o)
    (hs : step F s e = .ok (s', o)) : Gone resolve tree made s' p removed := by
  have hs' := step_sound_own h.sound he.keeps_strings hs
  have hc := step_cases hs
  cases e with
  | file_open q flags =>
    obtain ⟨r, ho, rfl⟩ := hc
    exact h.opens hF hs' ho hno
  | share f =>
    obtain ⟨_, rfl⟩ := hc
    exact ⟨hs', h.table, h.uncached, h.absent, h.old_made⟩
  | release f =>
    obtain ⟨ht, hd⟩ := releases_frame hc.2
    refine ⟨hs', ht ▸ h.table, h.sound.1.uncached hs'.1 (fun w hw hp => ?_) h.uncached,
      hd ▸ h.absent, hd ▸ h.old_made⟩
    obtain ⟨hw, hget⟩ := releases_held h.sound.1.inv hc.1 hc.2 hw
    unfold Vfs.path_of at hp ⊢
    exact ⟨hw, hget ▸ hp⟩
  | file_unlink q =>
    obtain ⟨rfl, _⟩ := hc
    exact ⟨hs', h.table, h.uncached, hF.remove_only _ _ _ h.absent,
      fun f hf => hF.made_remove _ _ _ (h.old_made f hf)⟩
  | mount q | umount q => exact he.elim
  | reuse freed entries =>
    obtain ⟨hperm, rfl⟩ := hc
    have hheld : (entries.map Prod.snd).Perm s.held := hperm.map _
    exact ⟨hs', h.table, h.sound.1.uncached hs'.1
      (fun w hw hp => ⟨hheld.mem_iff.mp hw, hp⟩) h.uncached,
      h.absent, h.old_made⟩

theorem Gone.after_run (hF : F.Lawful resolve tree file made) {es : List Event} {os : List Answer}
    (h : Gone resolve tree made s p removed) (hes : ∀ e ∈ es, e.Files)
    (hno : ∀ x ∈ es.zip os, ¬ Recreates resolve p x.1 x.2) (hr : run (step F) s es = .ok (s', os)) :
    Gone resolve tree made s' p removed := by
  induction es generalizing s os with
  | nil =>
    simp only [Lib.run, Except.ok.injEq, Prod.mk.injEq] at hr
    exact hr.1 ▸ h
  | cons e es ih =>
    obtain ⟨t, o, os', ht, hrest, rfl⟩ := run_cons hr
    have hstep := h.after_step hF (hes e List.mem_cons_self) (hno (e, o) List.mem_cons_self) ht
    exact ih hstep (fun e he => hes e (List.mem_cons_of_mem _ he))
      (fun x hx => hno x (List.mem_cons_of_mem _ hx)) hrest

theorem Gone.open_existing (hF : F.Lawful resolve tree file made)
    (h : Gone resolve tree made s p removed) (hc : flags.CREAT = false) :
    ∃ t, file_open F p flags s = .ok (none, t) := by
  have hfs : (s.FILE_SYSTEM_TABLE (filesystem_lookup s.FILE_SYSTEM_TABLE p)).isSome :=
    filesystem_lookup_isSome h.table
  have hnone : (open_inode F s.disk p flags).1 = none := by
    refine Option.eq_none_iff_forall_ne_some.mpr fun i hi => ?_
    have := open_inode_existing hF hc hi
    simp [h.absent] at this
  refine ⟨{ s with disk := (open_inode F s.disk p flags).2 }, ?_⟩
  have hw : wp (fun _ => False) (file_open F p flags)
      (fun r t => r = none ∧ t = { s with disk := (open_inode F s.disk p flags).2 }) s := by
    rw [file_open, wp_bind, wp_get, h.uncached]
    refine wp_call (file_system_total hfs) ?_
    rintro ⟨_, _⟩ _ ⟨rfl, _⟩
    dsimp only
    rw [hnone]
    exact ⟨rfl, rfl⟩
  obtain ⟨r, t, ho, rfl, rfl⟩ := wp_total hw
  exact ho

theorem Gone.open_created (hF : F.Lawful resolve tree file made)
    (h : Gone resolve tree made s p removed) {f : Nat} (hc : flags.CREAT = true)
    (ho : file_open F p flags s = .ok (some f, s')) :
    ∃ fd n, s'.files.get f = some fd ∧ s'.vnodes.get fd.vnode = some n ∧
    ¬ made s.disk (file n.inode) := by
  have hopen := wp_ok file_open_spec ho
  cases hopen with
  | cached v pos vnode hv hg => simp [h.uncached] at hv
  | fresh pos inode hv hi =>
    rw [open_inode_create hc] at hi
    refine ⟨_, ⟨some (filesystem_lookup s.FILE_SYSTEM_TABLE p), p, inode⟩, Arcs.get_new_self, ?_,
      hF.create_new s.disk p inode hi h.absent⟩
    exact Arcs.get_clone.trans Arcs.get_new_self

/-- What the users of a path see after it was removed, until it is created again. -/
def GoneUntilCreated (F : Fatfs τ ι) (resolve : Path → ε) (file : ι → φ)
    (made : τ → φ → Prop) (s : Vfs τ ι) (p : Path) (removed : φ → Prop) : Prop :=
  ∀ es s' os, (∀ e ∈ es, e.Files) → run (step F) s es = .ok (s', os) →
    (∀ x ∈ es.zip os, ¬ Recreates resolve p x.1 x.2) →
    (∀ flags, flags.CREAT = false → ∃ t, file_open F p flags s' = .ok (none, t)) ∧
    ∀ flags f t, flags.CREAT = true → file_open F p flags s' = .ok (some f, t) →
      ∃ fd n, t.files.get f = some fd ∧ t.vnodes.get fd.vnode = some n ∧
      ¬ made s'.disk (file n.inode) ∧
        ¬ removed (file n.inode)

theorem Gone.until_created (hF : F.Lawful resolve tree file made)
    (h : Gone resolve tree made s p removed) :
    GoneUntilCreated F resolve file made s p removed := by
  intro es s' os hes hrun hno
  have h' := h.after_run hF hes hno hrun
  refine ⟨fun flags hc => h'.open_existing hF hc, fun flags f t hc ho => ?_⟩
  obtain ⟨fd, n, hfd, hn, hnew⟩ := h'.open_created hF hc ho
  exact ⟨fd, n, hfd, hn, hnew, fun hold => hnew (h'.old_made _ hold)⟩

theorem history_sound {disk : τ} {s₀ : Vfs τ ι} {es : List Event}
    {os : List Answer} (hinit : init F (Vfs.empty disk) = .ok ((), s₀))
    (hes : ∀ e ∈ es, e.Files) (hrun : run (step F) s₀ es = .ok (s, os)) :
    (Sound s ∧ Own s) ∧ (s.FILE_SYSTEM_TABLE 0).isSome := by
  have hmeets : Meets (step F) (fun _ e => e.Files) s₀ es :=
    meets_of_forall (fun e he _ => hes e he) s₀
  refine run_invariant_of_meets (fun s => (Sound s ∧ Own s) ∧ (s.FILE_SYSTEM_TABLE 0).isSome)
    (fun s e s' o hs he h => ⟨step_sound_own hs.1 he.keeps_strings h, ?_⟩)
    ⟨init_sound hinit, ?_⟩ hmeets hrun
  · rw [step_table he h]
    exact hs.2
  · have hfirst : init F (Vfs.empty disk) = .ok ((), mounted F (Vfs.empty disk) [SLASH] 0) := rfl
    rw [hfirst] at hinit
    obtain ⟨_, rfl⟩ := Prod.mk.inj (Except.ok.inj hinit)
    rfl

/-- After any history of opens, drops and unlinks, a file that was removed is gone for later opens
if and only if its path was not in the cache. -/
theorem unlink_visible_iff (F : Fatfs τ ι) (resolve : Path → ε)
    (tree : τ → ε → Option φ) (file : ι → φ) (made : τ → φ → Prop)
    (hF : F.Lawful resolve tree file made) (disk : τ) (s₀ s s' : Vfs τ ι)
    (es : List Event) (os : List Answer) (hinit : init F (Vfs.empty disk) = .ok ((), s₀))
    (hes : ∀ e ∈ es, e.Files) (hrun : run (step F) s₀ es = .ok (s, os))
    (p : Path) (hun : step F s (.file_unlink p) = .ok (s', .unlinked true)) :
    GoneUntilCreated F resolve file made s' p (fun f => tree s.disk (resolve p) = some f) ↔
      s.cached p = none := by
  obtain ⟨rfl, hdone⟩ := step_cases hun
  have hdone : (F.remove s.disk p).1.isSome := (Answer.unlinked.inj hdone).symm
  constructor
  · intro h
    obtain ⟨t, ht⟩ := (h [] _ [] (by simp) rfl (by simp)).1 ⟨0⟩ rfl
    have hopen := wp_ok file_open_spec ht
    cases hopen with
    | failed hv => exact hv
  · intro hv
    obtain ⟨hs, htable⟩ := history_sound hinit hes hrun
    have hgone : Gone resolve tree made { s with disk := (F.remove s.disk p).2 } p
        (fun f => tree s.disk (resolve p) = some f) :=
      ⟨step_sound_own hs (e := .file_unlink p) rfl hun, htable, hv, hF.remove _ _ hdone,
        fun f hf => hF.made_remove _ _ _ (hF.named _ _ _ hf)⟩
    exact hgone.until_created hF

end Gone

/-! ## The small disk -/

namespace SmallDisk

variable {d : SmallDisk} {x : Path}

/-- The files of the small disk are their numbers. -/
def tree (d : SmallDisk) (name : Path) : Option (Option Nat) := (d.find name).map fun e => some e.2

def Made (d : SmallDisk) (f : Option Nat) : Prop := ∀ n, f = some n → n < d.next

theorem open_as_tree {is_dir : Bool} {i : Option Nat} (h : d.open_as x is_dir = some i) :
    d.tree x = some i := by
  obtain ⟨e, he, hi⟩ := Option.bind_eq_some_iff.mp h
  split at hi
  · simp [tree, he, Option.some.inj hi]
  · simp at hi

theorem find_add_self : (d.add x).find x = some (false, d.next) := by simp [find, add]

theorem find_add_ne {name : Path} (h : x ≠ name) : (d.add name).find x = d.find x := by
  simp [find, add, Ne.symm h]

theorem find_erase_self : (d.erase x).find x = none := by
  simp [find, erase]

theorem find_erase_none {name : Path} (h : d.find x = none) : (d.erase name).find x = none := by
  simp only [find, erase, Option.map_eq_none_iff, List.find?_eq_none, decide_eq_true_eq] at h ⊢
  exact fun e he => h e (List.mem_of_mem_filter he)

theorem tree_eq_none : d.tree x = none ↔ d.find x = none := Option.map_eq_none_iff

theorem lawful : fat.Lawful resolve tree id Made where
  open_file _ _ _ h := open_as_tree h
  open_dir _ _ _ h := open_as_tree h
  create_file d p i h := by
    unfold fat at h ⊢
    dsimp only at h ⊢
    split at h
    · rw [if_pos ‹_›]
      exact open_as_tree h
    · rw [if_neg ‹_›, tree, find_add_self]
      exact h
  create_new d p i h hnone := by
    unfold fat at h
    dsimp only at h
    rw [if_neg (by simp [tree_eq_none.mp hnone])] at h
    intro hm
    exact absurd (hm d.next (Option.some.inj h).symm) (Nat.lt_irrefl _)
  create_fails d p h := by
    unfold fat at h ⊢
    dsimp only at h ⊢
    split at h
    · rw [if_pos ‹_›]
    · simp at h
  create_only d p x hx := by
    unfold fat
    dsimp only
    split
    · rfl
    · rw [tree, find_add_ne hx]
      rfl
  remove d p h := by
    unfold fat at h ⊢
    dsimp only at h ⊢
    split at h
    · rw [if_pos ‹_›, tree_eq_none, find_erase_self]
    · simp at h
  remove_only d p x h := by
    unfold fat
    dsimp only
    split
    · exact tree_eq_none.mpr (find_erase_none (tree_eq_none.mp h))
    · exact h
  named d x f h := by
    rintro n rfl
    simp only [tree, find, Option.map_eq_some_iff, Option.some.injEq] at h
    obtain ⟨_, ⟨e, he, rfl⟩, rfl⟩ := h
    exact d.below e (List.mem_of_find?_eq_some he)
  made_create d p f h := by
    unfold fat
    dsimp only
    split
    · exact h
    · exact fun n hn => Nat.lt_succ_of_lt (h n hn)
  made_remove d p f h := by
    unfold fat
    dsimp only
    split <;> exact h

end SmallDisk

/-- The file `/a` is made, closed and removed. -/
theorem unlink_visible_closed :
    ∃ s₀ s s' os, init SmallDisk.fat (Vfs.empty smallDisk) = .ok ((), s₀) ∧
    run (step SmallDisk.fat) s₀ [.file_open pathA ⟨64⟩, .release 0] = .ok (s, os) ∧
    step SmallDisk.fat s (.file_unlink pathA) = .ok (s', .unlinked true) ∧
    GoneUntilCreated SmallDisk.fat SmallDisk.resolve id SmallDisk.Made s' pathA
      (fun f => s.disk.tree (SmallDisk.resolve pathA) = some f) := by
  obtain ⟨s₀, s, os, hinit, hrun, hv, hun⟩ := small_disk_run [.file_open pathA ⟨64⟩, .release 0]
    (fun s => s.cached pathA = none ∧
      (step SmallDisk.fat s (.file_unlink pathA)).toOption.map Prod.snd = some (.unlinked true))
        (by decide +kernel)
  obtain ⟨⟨s', o⟩, hstep, rfl⟩ := Option.map_eq_some_iff.mp hun
  have hstep := toOption_eq_some.mp hstep
  have h := unlink_visible_iff SmallDisk.fat _ _ _ _ SmallDisk.lawful smallDisk s₀ s s' _ os hinit
    (by simp [Event.Files])
    hrun pathA hstep
  exact ⟨s₀, s, s', os, hinit, hrun, hstep, h.mpr hv⟩

/-- The file `/a` is removed while it is open, and can be opened again. -/
theorem unlink_not_visible : ∃ s₀ s s' os, init SmallDisk.fat (Vfs.empty smallDisk) = .ok ((), s₀) ∧
    run (step SmallDisk.fat) s₀ [.file_open pathA ⟨64⟩] = .ok (s, os) ∧
    step SmallDisk.fat s (.file_unlink pathA) = .ok (s', .unlinked true) ∧
    ¬ GoneUntilCreated SmallDisk.fat SmallDisk.resolve id SmallDisk.Made s' pathA
      (fun f => s.disk.tree (SmallDisk.resolve pathA) = some f) := by
  obtain ⟨s₀, s, os, hinit, hrun, hun, hopen⟩ := small_disk_run [.file_open pathA ⟨64⟩]
    (fun s => (step SmallDisk.fat s (.file_unlink pathA)).toOption.map Prod.snd =
      some (.unlinked true) ∧
      ∀ t ∈ (step SmallDisk.fat s (.file_unlink pathA)).toOption,
        (file_open SmallDisk.fat pathA ⟨0⟩ t.1).toOption.map Prod.fst ≠ some none)
          (by decide +kernel)
  obtain ⟨⟨s', o⟩, hstep, rfl⟩ := Option.map_eq_some_iff.mp hun
  have hopen := hopen _ hstep
  refine ⟨s₀, s, s', os, hinit, hrun, toOption_eq_some.mp hstep, fun h => ?_⟩
  obtain ⟨t, ht⟩ := (h [] s' [] (by simp) rfl (by simp)).1 ⟨0⟩ rfl
  rw [ht] at hopen
  exact hopen rfl

end HectoOs.Fs
