import HectoOs.Fs.Mount
import HectoOs.Lib.Components

/-! # Which file system a path is on

A mount point is above a path if the components of the path begin with those of the mount point.
`filesystem_lookup` compares the bytes instead.
-/

open HectoOs.Lib

namespace HectoOs.Fs

variable {τ ι : Type} {F : Fatfs τ ι} {s : Vfs τ ι} {p : Path} {fs fs' : FileSystem}
  {table : Fin MAX_FILE_SYSTEM → Option FileSystem}

namespace FileSystem

/-- The mount point is the path or a directory above it, component by component. -/
def Above (fs : FileSystem) (p : Path) : Prop :=
  components SLASH fs.mount_point <+: components SLASH p

def depth (fs : FileSystem) : Nat := (components SLASH fs.mount_point).length

/-- The path begins with the bytes of the mount point, and goes on with a slash if it goes on. -/
def Spells (fs : FileSystem) (p : Path) : Prop :=
  fs.mount_point = p ∨ fs.mount_point ++ [SLASH] <+: p

instance : Decidable (fs.Above p) := inferInstanceAs (Decidable (_ <+: _))
instance : Decidable (fs.Spells p) := inferInstanceAs (Decidable (_ ∨ _))

theorem contains_iff_spells : fs.contains p = true ↔ fs.Spells p := by
  simp only [contains, Bool.and_eq_true, Bool.or_eq_true, decide_eq_true_eq,
    List.isPrefixOf_iff_prefix, Spells]
  constructor
  · rintro ⟨⟨-, b, rfl⟩, hend⟩
    cases b with
    | nil => exact .inl (List.append_nil _).symm
    | cons c b =>
      have hc : c = SLASH := by simpa using hend
      exact .inr ⟨b, by simp [hc]⟩
  · rintro (rfl | ⟨b, rfl⟩)
    · simp
    · simp

theorem Spells.above (h : fs.Spells p) : fs.Above p := components_prefix h

theorem Spells.depth_le (h : fs.Spells p) (h' : fs'.Spells p)
    (hlen : fs.mount_point.length ≤ fs'.mount_point.length) :
    fs.depth ≤ fs'.depth := by
  refine ( components_prefix ?_).length_le
  have hp' : fs'.mount_point <+: p :=
    h'.elim (fun heq => heq ▸ List.prefix_rfl) (List.prefix_append _ _).trans
  rcases h with heq | hp
  · exact .inl ((hp'.eq_of_length_le (heq ▸ hlen)).trans heq.symm).symm
  · by_cases hlt : fs.mount_point.length < fs'.mount_point.length
    · exact .inr (List.prefix_of_prefix_length_le hp hp' (by rw [List.length_append]; exact hlt))
    · have hpre : fs.mount_point <+: fs'.mount_point :=
        List.prefix_of_prefix_length_le ((List.prefix_append _ _).trans hp) hp' hlen
      exact .inl (hpre.eq_of_length (by omega))

end FileSystem

/-- The entry `i` is above the path, no entry above the path is deeper, and the first entry is not
taken if another one is above the path. -/
def DeepestAbove (table : Fin MAX_FILE_SYSTEM → Option FileSystem) (p : Path)
    (i : Fin MAX_FILE_SYSTEM) : Prop :=
  (∃ fs, table i = some fs ∧ fs.Above p ∧ ∀ j fs', table j = some fs' →
    fs'.Above p → fs'.depth ≤ fs.depth) ∧
    (i = 0 → ∀ j, j ≠ 0 → ∀ fs, table j = some fs → ¬ fs.Above p)

/-- The path spells the mount point of a later entry that is at least `n` deep. -/
def Spelled (table : Fin MAX_FILE_SYSTEM → Option FileSystem) (p : Path) (n : Nat) : Prop :=
  ∃ i, i ≠ 0 ∧ ∃ fs, table i = some fs ∧ fs.Spells p ∧ n ≤ fs.depth

/-- For every entry above the path, the path spells a mount point as deep; only the first entry
needs no spelling, if nothing is spelled at all. -/
def SpelledOut (table : Fin MAX_FILE_SYSTEM → Option FileSystem) (p : Path) : Prop :=
  (∀ j, j ≠ 0 → ∀ fs, table j = some fs → fs.Above p → Spelled table p fs.depth) ∧
    (Spelled table p 0 → ∀ fs, table 0 = some fs → fs.Above p → Spelled table p fs.depth) ∧
    (¬ Spelled table p 0 → ∃ fs, table 0 = some fs ∧ fs.Above p)

theorem filesystem_lookup_spelled (hne : ∀ i fs, table i = some fs → fs.mount_point ≠ []) :
    (filesystem_lookup table p = 0 ∧ ∀ n, ¬ Spelled table p n) ∨
    (filesystem_lookup table p ≠ 0 ∧
      ∃ fs, table (filesystem_lookup table p) = some fs ∧ fs.Spells p ∧
      ∀ n, Spelled table p n ↔ n ≤ fs.depth) := by
  obtain ⟨n, hmax, hbest⟩ := @filesystem_lookup_best p table
  rcases hbest with hb | ⟨fs, hmem, hfs, hc, rfl⟩
  · obtain ⟨h0, rfl⟩ := Prod.mk.inj hb
    refine .inl ⟨h0, ?_⟩
    rintro m ⟨i, hi, fs, hfs, hspells, -⟩
    have hle := hmax i (mem_entries.mpr hi) fs hfs (FileSystem.contains_iff_spells.mpr hspells)
    exact hne i fs hfs (List.length_eq_zero_iff.mp (Nat.le_zero.mp hle))
  · have hspells := FileSystem.contains_iff_spells.mp hc
    refine .inr ⟨mem_entries.mp hmem, fs, hfs, hspells,
      fun m => ⟨?_, fun hm => ⟨_, mem_entries.mp hmem, fs, hfs, hspells, hm⟩⟩⟩
    rintro ⟨i, hi, fs', hfs', hspells', hm⟩
    have hle := hmax i (mem_entries.mpr hi) fs' hfs' (FileSystem.contains_iff_spells.mpr hspells')
    exact hm.trans (hspells'.depth_le hspells hle)

theorem deepest_iff_spelled_out (hne : ∀ i fs, table i = some fs → fs.mount_point ≠ []) :
    DeepestAbove table p (filesystem_lookup table p) ↔ SpelledOut table p := by
  rcases filesystem_lookup_spelled hne with ⟨h0, hno⟩ | ⟨h0, fs, hfs, hspells, hiff⟩
  · rw [h0]
    constructor
    · rintro ⟨⟨fs, hfs, habove, -⟩, hlast⟩
      exact ⟨fun j hj fs' hfs' ha => (hlast rfl j hj fs' hfs' ha).elim,
        fun h => (hno 0 h).elim, fun _ => ⟨fs, hfs, habove⟩⟩
    · rintro ⟨hlater, -, hfirst⟩
      obtain ⟨fs, hfs, habove⟩ := hfirst (hno 0)
      have hlast : ∀ j, j ≠ 0 → ∀ fs', table j = some fs' → ¬ fs'.Above p :=
        fun j hj fs' hfs' ha => hno _ (hlater j hj fs' hfs' ha)
      refine ⟨⟨fs, hfs, habove, fun j fs' hfs' ha => ?_⟩, fun _ => hlast⟩
      by_cases hj : j = 0
      · subst hj
        rw [Option.some.inj (hfs.symm.trans hfs')]
      · exact (hlast j hj fs' hfs' ha).elim
  · simp only [SpelledOut, hiff]
    constructor
    · rintro ⟨⟨fs₁, hfs₁, -, hdeep⟩, -⟩
      obtain rfl := Option.some.inj (hfs.symm.trans hfs₁)
      exact ⟨fun j _ fs' hfs' ha => hdeep j fs' hfs' ha, fun _ fs' hfs' ha => hdeep 0 fs' hfs' ha,
        fun h => (h (Nat.zero_le _)).elim⟩
    · rintro ⟨hlater, hfirst, -⟩
      refine ⟨⟨fs, hfs, hspells.above, fun j fs' hfs' ha => ?_⟩, fun h => (h0 h).elim⟩
      by_cases hj : j = 0
      · subst hj
        exact hfirst (Nat.zero_le _) fs' hfs' ha
      · exact hlater j hj fs' hfs' ha

/-! ## Reachable tables -/

theorem spelledOut_of_root (h : table 0 = some ⟨[SLASH]⟩) : SpelledOut table p ↔
    ∀ j, j ≠ 0 → ∀ fs, table j = some fs → fs.Above p → Spelled table p fs.depth := by
  have hroot : components SLASH [SLASH] = [] := by decide
  refine ⟨And.left, fun hlater => ⟨hlater, fun hs fs hfs _ => ?_, fun _ => ⟨_, h, ?_⟩⟩⟩
  · obtain rfl := Option.some.inj (h.symm.trans hfs)
    rwa [FileSystem.depth, hroot]
  · rw [FileSystem.Above, hroot]
    exact List.nil_prefix

/-- `filesystem_lookup` finds the deepest entry above the path exactly if the path spells out what
is above it. -/
theorem lookup_deepest_iff (F : Fatfs τ ι) (s : Vfs τ ι) (h : Reachable F s) (p : Path) :
    DeepestAbove s.FILE_SYSTEM_TABLE p (filesystem_lookup s.FILE_SYSTEM_TABLE p) ↔
    SpelledOut s.FILE_SYSTEM_TABLE p :=
  deepest_iff_spelled_out (reachable_inv h).2

/-- `/m` is mounted, and `/m/x` is on it. -/
theorem lookup_below_m : ∃ s, Reachable SmallDisk.fat s ∧
    DeepestAbove s.FILE_SYSTEM_TABLE (pathM ++ [47, 120])
    (filesystem_lookup s.FILE_SYSTEM_TABLE (pathM ++ [47, 120])) := by
  obtain ⟨s₀, s, os, hinit, hrun, hroot, hm, hrest⟩ := small_disk_run [.mount pathM]
    (fun s => s.FILE_SYSTEM_TABLE 0 = some ⟨[SLASH]⟩ ∧ s.FILE_SYSTEM_TABLE 1 = some ⟨pathM⟩ ∧
      ∀ j, j ≠ 0 → j ≠ 1 → s.FILE_SYSTEM_TABLE j = none) (by decide +kernel)
  have hr : Reachable SmallDisk.fat s := ⟨smallDisk, s₀, _, os, hinit, hrun⟩
  refine ⟨s, hr, (lookup_deepest_iff SmallDisk.fat s hr _).mpr
    ((spelledOut_of_root hroot).mpr fun j hj fs hfs _ => ?_)⟩
  by_cases hj1 : j = 1
  · subst hj1
    obtain rfl := Option.some.inj (hm.symm.trans hfs)
    exact ⟨1, hj, _, hm, by decide, le_rfl⟩
  · simp [hrest j hj hj1] at hfs

/-- `/m` is mounted, and `//m` is looked up in the root. -/
theorem lookup_misses_m : ∃ s, Reachable SmallDisk.fat s ∧
    ¬ DeepestAbove s.FILE_SYSTEM_TABLE (SLASH :: pathM)
    (filesystem_lookup s.FILE_SYSTEM_TABLE (SLASH :: pathM)) := by
  obtain ⟨s₀, s, os, hinit, hrun, hm, hlookup⟩ := small_disk_run [.mount pathM]
    (fun s => s.FILE_SYSTEM_TABLE 1 = some ⟨pathM⟩ ∧
      filesystem_lookup s.FILE_SYSTEM_TABLE (SLASH :: pathM) = 0)
    (by decide +kernel)
  exact ⟨s, ⟨smallDisk, s₀, _, os, hinit, hrun⟩,
    fun h => h.2 hlookup 1 (by decide) _ hm (by decide)⟩

end HectoOs.Fs
