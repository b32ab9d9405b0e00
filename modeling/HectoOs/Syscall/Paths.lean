import HectoOs.Lib.Components
import HectoOs.Syscall.Files

/-! # Path names (`syscall/fs.rs`)

`normalize_path` puts a directory in front of a relative path name, from which it has cut leading
`./` and trailing dots. What a path means is the location that its components lead to.
-/

open HectoOs.Lib HectoOs.Fs

namespace HectoOs.Files

variable {τ ι : Type} {s s' : Sys τ ι} {d p path : Path} {dirfd : Nat}

abbrev DOT : Byte := 46

/-- `sys_chdir`. -/
def sys_chdir (path : Path) : Sc τ ι Int := do
  let full_path ← normalize_path AT_FDCWD path
  modify fun s => { s with inner := { s.inner with cwd := full_path } }
  return 0

/-! ## What a path means -/

abbrev Location := List Path

/-- Where a path leads from a location. -/
def follow (l : Location) (p : Path) : Location := resolve SLASH [DOT] [DOT, DOT] l p

/-- The location of an absolute path. -/
def location (p : Path) : Location := follow [] p

/-- What a path name asks for in a directory. -/
def asked (l : Location) (p : Path) : Location :=
  if p.head? = some SLASH then location p else follow l p

/-- The last component of a relative path name is not cut: it ends in no dot, or is `.`, or is `..`
in the root. -/
def NameKept (l : Location) (p : Path) : Prop :=
  p.head? = some SLASH ∨ (name SLASH p).getLast? ≠ some DOT ∨ name SLASH p = [DOT] ∨
    name SLASH p = [DOT, DOT] ∧ follow l (parent SLASH p) = []

instance {l : Location} : Decidable (NameKept l p) :=
  inferInstanceAs (Decidable (_ ∨ _ ∨ _ ∨ _ ∧ _))

/-! ## Trimming -/

section Trim

variable {l : Location} {c u : Path}

theorem follow_dot_slash : follow l (DOT :: SLASH :: p) = follow l p :=
  (resolve_append (a := [DOT])).trans rfl

theorem trim_start_keeps : follow l (trim_start p) = follow l p ∧
    name SLASH (trim_start p) = name SLASH p ∧
    follow l (parent SLASH (trim_start p)) = follow l (parent SLASH p) := by
  fun_induction trim_start p with
  | case1 p ih =>
    obtain ⟨hname, hparent⟩ := @name_append_cons Byte _ SLASH [DOT] p
    refine ⟨ih.1.trans follow_dot_slash.symm, ih.2.1.trans hname.symm, ih.2.2.trans ?_⟩
    change _ = follow l (parent SLASH ([DOT] ++ SLASH :: p))
    rw [hparent]
    exact follow_dot_slash.symm
  | case2 p _ => exact ⟨rfl, rfl, rfl⟩

theorem trim_end_concat {b : Byte} : trim_end b (p ++ [b]) = trim_end b p := by
  simp [trim_end]

theorem trim_end_of_ne {b : Byte} (h : p.getLast? ≠ some b) : trim_end b p = p := by
  rcases List.eq_nil_or_concat p with rfl | ⟨init, a, rfl⟩
  · rfl
  · have ha : a ≠ b := by simpa using h
    simp [trim_end, ha]

theorem trim_end_ends {b : Byte} : (trim_end b p).getLast? ≠ some b := by
  induction p using List.reverseRecOn with
  | nil => simp [trim_end]
  | append_singleton p a ih =>
    by_cases ha : a = b
    · subst ha
      rwa [trim_end_concat]
    · rw [trim_end_of_ne (by simpa using ha)]
      simpa using ha

theorem trim_end_length {b : Byte} : (trim_end b p).length ≤ p.length := by
  simp only [trim_end, List.length_reverse]
  exact (List.dropWhile_suffix _).length_le.trans p.length_reverse.le

theorem trim_end_append (hu : u = [] ∨ ∃ a, u = a ++ [SLASH]) :
    trim_end DOT (u ++ c) = u ++ trim_end DOT c := by
  have hself : trim_end DOT u = u := by
    refine trim_end_of_ne ?_
    rcases hu with rfl | ⟨a, rfl⟩
    · simp
    · simp
  induction c using List.reverseRecOn with
  | nil => simpa [trim_end] using hself
  | append_singleton c a ih =>
    rw [← List.append_assoc]
    by_cases ha : a = DOT
    · subst ha
      rw [trim_end_concat, trim_end_concat, ih]
    · rw [trim_end_of_ne (by simpa using ha), trim_end_of_ne (by simpa using ha), List.append_assoc]

theorem location_trim_slash : follow (location (trim_end SLASH d)) p = follow (location d) p := by
  suffices h : location (trim_end SLASH d) = location d by rw [h]
  induction d using List.reverseRecOn with
  | nil => rfl
  | append_singleton d a ih =>
    by_cases ha : a = SLASH
    · subst ha
      rw [trim_end_concat, ih]
      exact resolve_concat.symm
    · rw [trim_end_of_ne (by simpa using ha)]

theorem enter_name (h : c ≠ [DOT]) (h' : c ≠ [DOT, DOT]) :
    enter [DOT] [DOT, DOT] l c = l ++ [c] := by
  rw [enter, if_neg h, if_neg h']

theorem enter_trim_iff (hc : c.getLast? = some DOT) :
    (if trim_end DOT c = [] then l else enter [DOT] [DOT, DOT] l (trim_end DOT c)) = enter [DOT]
    [DOT, DOT] l c ↔
      c = [DOT] ∨ c = [DOT, DOT] ∧ l = [] := by
  by_cases h₁ : c = [DOT]
  · subst h₁
    exact iff_of_true rfl (.inl rfl)
  by_cases h₂ : c = [DOT, DOT]
  · subst h₂
    change l = l.dropLast ↔ _
    have hlast : l = l.dropLast ↔ l = [] := by
      constructor
      · intro h
        have hlen := congrArg List.length h
        rw [List.length_dropLast] at hlen
        exact List.length_eq_zero_iff.mp (by omega)
      · rintro rfl
        rfl
    simp [hlast]
  obtain ⟨init, rfl⟩ := List.getLast?_eq_some_iff.mp hc
  have hlen : (trim_end DOT (init ++ [DOT])).length < (init ++ [DOT]).length := by
    rw [trim_end_concat, List.length_append]
    exact Nat.lt_succ_of_le trim_end_length
  have hends := @trim_end_ends (init ++ [DOT]) DOT
  have hne (c' : Path) (h : c'.getLast? = some DOT) : trim_end DOT (init ++ [DOT]) ≠ c' :=
    fun heq => hends (heq ▸ h)
  rw [enter_name h₁ h₂, enter_name (hne _ rfl) (hne _ rfl)]
  refine iff_of_false ?_ (by rintro (h | ⟨h, -⟩); exacts [h₁ h, h₂ h])
  split
  · intro h
    simpa using congrArg List.length h
  · intro h
    have heq : trim_end DOT (init ++ [DOT]) = init ++ [DOT] :=
      List.singleton_inj.mp (List.append_cancel_left h)
    exact hlen.ne (congrArg List.length heq)

theorem follow_trim_iff (hp : p.head? ≠ some SLASH) :
    follow l (trim_end DOT (trim_start p)) = follow l p ↔ NameKept l p := by
  obtain ⟨hfollow, hname, hparent⟩ := @trim_start_keeps p l
  rw [← hfollow, NameKept, ← hname, ← hparent]
  generalize trim_start p = q
  have hsplit := @parent_append_name Byte _ SLASH q
  have hsep := @sep_notMem_name Byte _ SLASH q
  have hends := @parent_ends Byte _ SLASH q
  generalize name SLASH q = c at hsplit hsep
  generalize parent SLASH q = u at hsplit hends
  subst hsplit
  have hsep' : SLASH ∉ trim_end DOT c := fun h =>
    hsep ((List.dropWhile_suffix _).mem (by simpa [trim_end] using h) |> List.mem_reverse.mp)
  rw [trim_end_append hends, follow, follow, resolve_name hsep' hends, resolve_name hsep hends]
  by_cases hc : c.getLast? = some DOT
  · have hne : c ≠ [] := by
      rintro rfl
      simp at hc
    rw [if_neg hne, enter_trim_iff hc]
    exact ⟨fun h => .inr (.inr h), fun h => (h.resolve_left hp).resolve_left (not_not_intro hc)⟩
  · rw [trim_end_of_ne hc]
    exact iff_of_true rfl (.inr (.inl hc))

end Trim

/-! ## The system calls -/

/-- The directory that a relative path name starts from. -/
def base_dir (s : Sys τ ι) (dirfd : Nat) : Option Path :=
  if dirfd = AT_FDCWD then some s.inner.cwd
  else do
    let f ← (← s.inner.fd_table[dirfd]?)
    let fd ← s.vfs.files.get f
    let vnode ← s.vfs.vnodes.get fd.vnode
    return vnode.full_path

/-- What `normalize_path` returns in a directory. -/
def joined (d p : Path) : Path :=
  if p.head? = some SLASH then p else trim_end SLASH d ++ SLASH :: trim_end DOT (trim_start p)

theorem joined_iff : location (joined d p) = asked (location d) p ↔ NameKept (location d) p := by
  unfold joined asked
  split
  · exact iff_of_true rfl (.inl ‹_›)
  · rename_i hp
    have happend : location (trim_end SLASH d ++ SLASH :: trim_end DOT (trim_start p)) =
        follow (location (trim_end SLASH d)) (trim_end DOT (trim_start p)) := resolve_append
    rw [happend, location_trim_slash, follow_trim_iff hp]

theorem normalize_path_eq (h : p.head? = some SLASH ∨ base_dir s dirfd = some d) :
    normalize_path dirfd p s = .ok (joined d p, s) := by
  rw [normalize_path, joined]
  split
  · rfl
  · rename_i hp
    have hd := h.resolve_left hp
    unfold base_dir at hd
    rw [exec_bind]
    show (if dirfd = AT_FDCWD then _ else _ : Sc τ ι Path) s = _
    split
    · rename_i hcwd
      rw [if_pos hcwd] at hd
      obtain rfl := Option.some.inj hd
      rfl
    · rename_i hcwd
      rw [if_neg hcwd] at hd
      simp only [Option.bind_eq_bind, Option.bind_eq_some_iff] at hd
      obtain ⟨slot, hslot, f, rfl, fd, hfd, vnode, hv, heq⟩ := hd
      obtain rfl := Option.some.inj heq
      rw [exec_bind, get_slot_eq hslot]
      show (do let vnode ← get_vnode f; pure (trim_end SLASH vnode.full_path ++ SLASH :: _) : Sc τ ι Path) s = _
      rw [exec_bind, get_vnode_eq hfd hv]
      rfl

theorem sys_chdir_eq :
    sys_chdir p s = .ok (0, { s with inner := { s.inner with cwd := joined s.inner.cwd p } }) := by
  have hd : base_dir s AT_FDCWD = some s.inner.cwd := if_pos rfl
  rw [sys_chdir, exec_bind, normalize_path_eq (.inr hd)]
  rfl

/-- What `normalize_path` returns, and what `sys_chdir` stores, means what the path name asks for
exactly if the last component of the name is kept. -/
theorem normalize_path_iff (s : Sys τ ι) (dirfd : Nat) (d p : Path)
    (h : p.head? = some SLASH ∨ base_dir s dirfd = some d) :
    (∃ full_path, normalize_path dirfd p s = .ok (full_path, s) ∧
      (location full_path = asked (location d) p ↔ NameKept (location d) p)) ∧
    ∃ s', sys_chdir p s = .ok (0, s') ∧
      (location s'.inner.cwd = asked (location s.inner.cwd) p ↔
        NameKept (location s.inner.cwd) p) :=
  ⟨⟨_, normalize_path_eq h, joined_iff⟩, _, sys_chdir_eq, joined_iff⟩

/-- The path name `./a/../b` in the root. -/
theorem normalize_path_keeps_b : let s : Sys SmallDisk (Option Nat) :=
  ⟨Vfs.empty smallDisk, ⟨[], [SLASH]⟩⟩
    ∃ full_path, normalize_path AT_FDCWD [46, 47, 97, 47, 46, 46, 47, 98] s = .ok (full_path, s) ∧
      location full_path = asked (location [SLASH]) [46, 47, 97, 47, 46, 46, 47, 98] := by
  intro s
  obtain ⟨⟨full_path, heq, hiff⟩, -⟩ :=
    normalize_path_iff s AT_FDCWD [SLASH] [46, 47, 97, 47, 46, 46, 47, 98] (.inr rfl)
  exact ⟨full_path, heq, hiff.mpr (by decide)⟩

/-- The path name `a.` in the root, which `sys_chdir` takes for `a`. -/
theorem normalize_path_loses_dot : let s : Sys SmallDisk (Option Nat) :=
  ⟨Vfs.empty smallDisk, ⟨[], [SLASH]⟩⟩
    ∃ s', sys_chdir [97, 46] s = .ok (0, s') ∧
      location s'.inner.cwd ≠ asked (location [SLASH]) [97, 46] :=
  ⟨_, sys_chdir_eq, by decide⟩

/-! ## Many directories -/

end HectoOs.Files
