import HectoOs.Syscall.Files

/-! # The descriptor table

The two allocators find the lowest empty slot from their start on, growing the table up to `MAX_FD`
slots. Every system call changes the slots that it returns, closes or is told to overwrite, and no
other.
-/

open HectoOs.Lib HectoOs.Fs

namespace HectoOs.Files

/-- What descriptor `i` names. A slot past the end of the table is empty too. -/
def slot (t : List (Option Nat)) (i : Nat) : Option Nat := t[i]?.join

section Slots

variable {t : List (Option Nat)} {i j start : Nat} {v : Option Nat}

theorem slot_of_le (h : t.length ≤ i) : slot t i = none := by
  rw [slot, List.getElem?_eq_none h]
  rfl

theorem getElem?_eq_none_iff (h : i < t.length) : t[i]? = some none ↔ slot t i = none := by
  rw [slot, List.getElem?_eq_getElem h]
  simp

theorem slot_append_none (n : Nat) : slot (t ++ List.replicate n none) j = slot t j := by
  by_cases h : j < t.length
  · rw [slot, slot, List.getElem?_append_left h]
  · rw [slot_of_le (Nat.not_lt.mp h), slot, List.getElem?_append_right (Nat.not_lt.mp h),
      List.getElem?_replicate]
    split <;> rfl

theorem slot_grow (len : Nat) : slot (grow t len) j = slot t j := slot_append_none _

theorem length_grow {len : Nat} : (grow t len).length = max t.length len := by
  rw [grow, List.length_append, List.length_replicate]
  omega

theorem slot_set_self (h : i < t.length) : slot (t.set i v) i = v := by
  rw [slot, List.getElem?_set_self h]
  rfl

theorem slot_set_ne (h : j ≠ i) : slot (t.set i v) j = slot t j := by
  rw [slot, slot, List.getElem?_set_ne (Ne.symm h)]

/-! ## The allocators -/

/-- The lowest empty slot from `start` on. -/
structure Lowest (t : List (Option Nat)) (start i : Nat) : Prop where
  start_le : start ≤ i
  empty : slot t i = none
  occupied : ∀ j, start ≤ j → j < i → (slot t j).isSome

/-- The result of an allocation from `start` on, with the new table. -/
structure Allocates (t : List (Option Nat)) (start : Nat)
    (r : Option Nat × List (Option Nat)) : Prop where
  length : t.length ≤ r.2.length ∧ r.2.length ≤ MAX_FD
  slots : ∀ j, slot r.2 j = slot t j
  found : ∀ i, r.1 = some i → Lowest t start i ∧ i < r.2.length
  full : r.1 = none → ∀ j, start ≤ j → j < MAX_FD → (slot t j).isSome

theorem first_empty_some (h : first_empty t start = some i) : Lowest t start i ∧ i < t.length := by
  obtain ⟨hi, hmem, hbefore⟩ := List.find?_range'_eq_some.mp h
  have hmem := List.mem_range'_1.mp hmem
  have hlt : i < t.length := by omega
  rw [decide_eq_true_eq, getElem?_eq_none_iff hlt] at hi
  refine ⟨⟨hmem.1, hi, fun j hj hji => ?_⟩, hlt⟩
  have hne := hbefore j hj hji
  rw [Bool.not_eq_true', decide_eq_false_iff_not, getElem?_eq_none_iff (by omega)] at hne
  exact Option.isSome_iff_ne_none.mpr hne

theorem first_empty_none (h : first_empty t start = none) (hj : start ≤ j) (hlt : j < t.length) :
    (slot t j).isSome := by
  have hne := List.find?_eq_none.mp h j (List.mem_range'_1.mpr (by omega))
  rw [decide_eq_true_eq, getElem?_eq_none_iff hlt] at hne
  exact Option.isSome_iff_ne_none.mpr hne

theorem search_allocates (hstart : start ≤ t.length) (hlen : t.length ≤ MAX_FD) :
    Allocates t start (match first_empty t start with
      | some i => (some i, t)
      | none => push_slot t) := by
  cases h : first_empty t start with
  | some i =>
    refine ⟨⟨le_refl _, hlen⟩, fun _ => rfl, fun k hk => ?_, fun hnone => by simp at hnone⟩
    obtain rfl := Option.some.inj hk
    exact first_empty_some h
  | none =>
    have hocc : ∀ j, start ≤ j → j < t.length → (slot t j).isSome :=
      fun j hj hlt => first_empty_none h hj hlt
    dsimp only
    unfold push_slot
    split
    · rename_i hfull
      refine ⟨⟨le_refl _, hlen⟩, fun _ => rfl, fun k hk => by simp at hk, fun _ j hj hlt => ?_⟩
      exact hocc j hj (by omega)
    · rename_i hroom
      refine ⟨⟨by simp, by simp; omega⟩, fun _ => slot_append_none 1, fun k hk => ?_,
        fun hnone => by simp at hnone⟩
      obtain rfl := Option.some.inj hk
      exact ⟨⟨hstart, slot_of_le (le_refl _), hocc⟩, by simp⟩

theorem fd_alloc_allocates (h3 : 3 ≤ t.length) (hlen : t.length ≤ MAX_FD) :
    Allocates t 3 (fd_alloc t) :=
  search_allocates h3 hlen

theorem fd_alloc_from_allocates (hlen : t.length ≤ MAX_FD) (min : Nat) :
    Allocates t min (fd_alloc_from t min) := by
  unfold fd_alloc_from
  split
  · rename_i hmin
    exact ⟨⟨le_refl _, hlen⟩, fun _ => rfl, fun k hk => by simp at hk, fun _ j hj hlt => by omega⟩
  · split
    · rename_i hmin hge
      refine ⟨?_, fun _ => slot_grow _, fun k hk => ?_, fun hnone => by simp at hnone⟩
      · dsimp only
        rw [length_grow]
        omega
      · obtain rfl := Option.some.inj hk
        refine ⟨⟨le_refl _, slot_of_le hge, fun j hj hlt => by omega⟩, ?_⟩
        dsimp only
        rw [length_grow]
        omega
    · exact search_allocates (by omega) hlen

end Slots

/-! ## What the system calls do to the table -/

section Calls

variable {τ ι : Type} {F : Fatfs τ ι} {I : Inodes τ ι} {s : Sys τ ι}

/-- The table in a state. -/
abbrev table (s : Sys τ ι) : List (Option Nat) := s.inner.fd_table

abbrev anyPanic : Panic → Prop := fun _ => True

theorem on_vfs_spec {α : Type} (x : Op τ ι α) :
    wp anyPanic (on_vfs x) (fun _ s' => table s' = table s) s := by
  unfold wp on_vfs
  cases x s.vfs <;> trivial

theorem get_slot_spec {may : Panic → Prop} {fd : Nat} (hmay : may .bad_index) : wp may (get_slot fd)
    (fun r s' => s' = s ∧ fd < (table s).length ∧ r = slot (table s) fd) s := by
  rw [get_slot, wp_bind, wp_get, wp_unwrap]
  refine ⟨fun r hr => ?_, fun _ => hmay⟩
  obtain ⟨hlt, _⟩ := List.getElem?_eq_some_iff.mp hr
  exact ⟨rfl, hlt, by rw [slot, hr]; rfl⟩

theorem put_slot_spec {fd : Nat} {v : Option Nat} : wp anyPanic (put_slot fd v)
    (fun _ s' => fd < (table s).length ∧ table s' = (table s).set fd v) s := by
  rw [put_slot]
  refine wp_call (get_slot_spec trivial) ?_
  rintro old s' ⟨rfl, hlt, _⟩
  rw [wp_bind, wp_get, wp_bind, set_table, wp_modify]
  split
  · refine wp_mono (on_vfs_spec _) ?_
    intro _ s'' hs
    exact ⟨hlt, hs⟩
  · exact ⟨hlt, rfl⟩

theorem install_spec {f : Nat} {r : Option Nat × List (Option Nat)} : wp anyPanic (install f r)
    (fun n s' => (∃ i, r.1 = some i ∧ n = i ∧ table s' = r.2.set i (some f)) ∨
      r.1 = none ∧ n = -1 ∧ table s' = r.2) s := by
  rw [install, wp_bind, set_table, wp_modify]
  cases hr : r.1 with
  | some i =>
    dsimp only
    refine wp_call put_slot_spec ?_
    rintro _ s' ⟨_, hs⟩
    exact .inl ⟨i, rfl, rfl, hs⟩
  | none =>
    dsimp only
    refine wp_call (on_vfs_spec _) ?_
    intro _ s' hs
    exact .inr ⟨rfl, rfl, hs⟩

/-- The answer of a call is a number; the descriptors it returns are listed beside it. -/
abbrev Answer := Int × List Nat

/-- The descriptor that a call returns, if it succeeds. -/
def returned (r : Int) : Answer := (r, if 0 ≤ r then [r.toNat] else [])

inductive Event (ι : Type) where
  | openat (dirfd : Nat) (pathname : Path) (flags : OpenFlags)
  | close (fd : Nat)
  | dup (oldfd : Nat)
  | dup3 (oldfd newfd : Nat)
  | pipe2 (read_end write_end : ι)
  | fcntl_dupfd (fd arg : Nat)

def Event.exec (F : Fatfs τ ι) : Event ι → Sc τ ι Answer
  | .openat dirfd pathname flags => returned <$> sys_openat F dirfd pathname flags
  | .close fd => (fun r => (r, [])) <$> sys_close fd
  | .dup oldfd => returned <$> sys_dup oldfd
  | .dup3 oldfd newfd => returned <$> sys_dup3 oldfd newfd
  | .pipe2 read_end write_end => sys_pipe2 read_end write_end
  | .fcntl_dupfd fd arg => returned <$> sys_fcntl fd .F_DUPFD arg

def step (F : Fatfs τ ι) (s : Sys τ ι) (e : Event ι) : Except Panic (Sys τ ι × Answer) :=
  (e.exec F s).map fun r => (r.2, r.1)

/-- Where a call searches for an empty slot. -/
def Event.start : Event ι → Option Nat
  | .openat .. | .dup _ | .pipe2 .. => some 3
  | .fcntl_dupfd _ arg => some arg
  | .close _ | .dup3 .. => none

/-- The slot that a call is told to change. -/
def Event.target : Event ι → List Nat
  | .close fd => [fd]
  | .dup3 _ newfd => [newfd]
  | _ => []

/-- Each of the descriptors is the lowest empty slot that was not taken before it. -/
def AllLowest (t : List (Option Nat)) (start : Nat) : List Nat → List Nat → Prop
  | _, [] => True
  | taken, fd :: fds => start ≤ fd ∧ slot t fd = none ∧ fd ∉ taken ∧
    (∀ j, start ≤ j → j < fd → (slot t j).isSome ∨ j ∈ taken) ∧ AllLowest t start (fd :: taken) fds

/-- What a call does to the table `t`. -/
structure Disciplined (e : Event ι) (t t' : List (Option Nat)) (a : Answer) : Prop where
  length : t.length ≤ t'.length ∧ t'.length ≤ MAX_FD
  below : ∀ fd ∈ a.2, fd < MAX_FD
  lowest : ∀ start, e.start = some start → AllLowest t start [] a.2
  frame : ∀ j, j ∉ a.2 → j ∉ e.target → slot t' j = slot t j
  failed : a.1 = -1 → ∀ j, slot t' j = slot t j

theorem Lowest.allLowest {t : List (Option Nat)} {start i : Nat} (h : Lowest t start i) :
    AllLowest t start [] [i] :=
  ⟨h.start_le, h.empty, by simp, fun j hj hlt => .inl (h.occupied j hj hlt), trivial⟩

theorem returned_ofNat (i : Nat) : returned (i : Int) = ((i : Int), [i]) := by simp [returned]

theorem Disciplined.of_failed {e : Event ι} {t t' : List (Option Nat)}
    (hl : t.length ≤ t'.length ∧ t'.length ≤ MAX_FD) (hs : ∀ j, slot t' j = slot t j) :
    Disciplined e t t' (-1, []) :=
  ⟨hl, by simp, fun _ _ => trivial, fun j _ _ => hs j, fun _ => hs⟩

theorem Disciplined.of_install {e : Event ι} {t t' : List (Option Nat)} {start f : Nat} {n : Int}
    {r : Option Nat × List (Option Nat)} (he : e.start = some start) (ha : Allocates t start r)
    (h : (∃ i, r.1 = some i ∧ n = i ∧ t' = r.2.set i (some f)) ∨ r.1 = none ∧ n = -1 ∧ t' = r.2) :
    Disciplined e t t' (returned n) := by
  rcases h with ⟨i, hi, rfl, rfl⟩ | ⟨_, rfl, rfl⟩
  · obtain ⟨hlow, hlt⟩ := ha.found i hi
    have hmax := ha.length.2
    rw [returned_ofNat]
    refine ⟨by rw [List.length_set]; exact ha.length, by simp; omega, fun start' hs => ?_,
      fun j hj _ => ?_,
      fun hneg => by simp at hneg⟩
    · obtain rfl := Option.some.inj (he.symm.trans hs)
      exact hlow.allLowest
    · rw [slot_set_ne (by simpa using hj)]
      exact ha.slots j
  · exact .of_failed ha.length ha.slots

theorem clone_file_spec {f : Nat} :
    wp anyPanic (clone_file f : Sc τ ι Unit) (fun _ s' => table s' = table s) s := by
  rw [clone_file, wp_modify]

/-- The table is as the allocators expect it. -/
def TableInv (t : List (Option Nat)) : Prop := 3 ≤ t.length ∧ t.length ≤ MAX_FD

theorem clone_install_spec {e : Event ι} {f start : Nat}
    {alloc : List (Option Nat) → Option Nat × List (Option Nat)} (he : e.start = some start)
    (ha : Allocates (table s) start (alloc (table s))) :
    wp anyPanic (do clone_file f; let s ← get; install f (alloc s.inner.fd_table) : Sc τ ι Int)
      (fun r s' => Disciplined e (table s) (table s') (returned r)) s := by
  refine wp_call clone_file_spec ?_
  intro _ s' hs
  rw [wp_bind, wp_get]
  have hs : s'.inner.fd_table = table s := hs
  rw [hs]
  refine wp_mono install_spec ?_
  intro n t ht
  exact .of_install he ha ht

theorem sys_dup_spec {oldfd : Nat} (h : TableInv (table s)) :
    wp anyPanic (sys_dup oldfd : Sc τ ι Int)
    (fun r s' => Disciplined (.dup oldfd : Event ι) (table s) (table s') (returned r)) s := by
  rw [sys_dup]
  refine wp_call (get_slot_spec trivial) ?_
  rintro old s' ⟨rfl, _, _⟩
  split
  · exact clone_install_spec rfl (fd_alloc_allocates h.1 h.2)
  · exact .of_failed ⟨le_refl _, h.2⟩ fun _ => rfl

theorem sys_fcntl_spec {fd arg : Nat} (h : TableInv (table s)) :
    wp anyPanic (sys_fcntl fd .F_DUPFD arg : Sc τ ι Int)
    (fun r s' => Disciplined (.fcntl_dupfd fd arg : Event ι) (table s)
      (table s') (returned r)) s := by
  rw [sys_fcntl]
  refine wp_call (get_slot_spec trivial) ?_
  rintro old s' ⟨rfl, _, _⟩
  split
  · exact @clone_install_spec τ ι s' _ _ arg (fd_alloc_from · arg) rfl
      (fd_alloc_from_allocates h.2 arg)
  · exact .of_failed ⟨le_refl _, h.2⟩ fun _ => rfl

theorem get_vnode_spec {f : Nat} :
    wp anyPanic (get_vnode f : Sc τ ι (Vnode ι)) (fun _ s' => s' = s) s := by
  rw [get_vnode, get_file, wp_bind, wp_bind, wp_get, wp_unwrap]
  refine ⟨fun fd _ => ?_, fun _ => trivial⟩
  rw [wp_bind, wp_get, wp_unwrap]
  exact ⟨fun _ _ => rfl, fun _ => trivial⟩

theorem normalize_path_spec {dirfd : Nat} {pathname : Path} :
    wp anyPanic (normalize_path dirfd pathname : Sc τ ι Path) (fun _ s' => s' = s) s := by
  rw [normalize_path, wp_ite]
  refine ⟨fun _ => rfl, fun _ => ?_⟩
  rw [wp_bind, wp_get, wp_ite]
  refine ⟨fun _ => rfl, fun _ => ?_⟩
  refine wp_call (get_slot_spec trivial) ?_
  rintro old s' ⟨rfl, _, _⟩
  rw [wp_bind, wp_unwrap]
  refine ⟨fun f _ => ?_, fun _ => trivial⟩
  refine wp_call get_vnode_spec ?_
  rintro vnode s'' rfl
  exact rfl

theorem sys_openat_spec {dirfd : Nat} {pathname : Path} {flags : OpenFlags}
    (h : TableInv (table s)) :
    wp anyPanic (sys_openat F dirfd pathname flags)
      (fun r s' => Disciplined (.openat dirfd pathname flags : Event ι)
        (table s) (table s') (returned r)) s := by
  rw [sys_openat]
  refine wp_call normalize_path_spec ?_
  rintro full_path s' rfl
  refine wp_call (on_vfs_spec _) ?_
  intro opened s'' hs
  split
  · rw [wp_bind, wp_get, show s''.inner.fd_table = table s' from hs]
    refine wp_mono install_spec ?_
    intro n t ht
    exact .of_install rfl (fd_alloc_allocates h.1 h.2) ht
  · rw [wp_pure, hs]
    exact .of_failed ⟨le_refl _, h.2⟩ fun _ => rfl

theorem sys_close_spec {fd : Nat} (h : TableInv (table s)) : wp anyPanic (sys_close fd : Sc τ ι Int)
    (fun r s' => Disciplined (.close fd : Event ι) (table s) (table s') (r, [])) s := by
  rw [sys_close]
  refine wp_call put_slot_spec ?_
  rintro _ s' ⟨_, hs⟩
  refine ⟨?_, by simp, fun _ _ => trivial, fun j _ hj => ?_, fun hneg => by simp at hneg⟩
  · rw [hs, List.length_set]
    exact ⟨le_refl _, h.2⟩
  · rw [hs, slot_set_ne (by simpa [Event.target] using hj)]

theorem sys_dup3_spec {oldfd newfd : Nat} (h : TableInv (table s)) :
    wp anyPanic (sys_dup3 oldfd newfd : Sc τ ι Int)
    (fun r s' => Disciplined (.dup3 oldfd newfd : Event ι) (table s) (table s')
      (returned r)) s := by
  rw [sys_dup3]
  refine wp_call (get_slot_spec trivial) ?_
  rintro old s' ⟨rfl, _, _⟩
  split
  · refine wp_call clone_file_spec ?_
    intro _ s'' hs
    rw [wp_ite]
    constructor
    · intro hlt
      rw [wp_bind, wp_get, show s''.inner.fd_table = table s' from hs,
        wp_bind, set_table, wp_modify]
      refine wp_call put_slot_spec ?_
      rintro _ t ⟨_, ht⟩
      have ht : table t = (grow (table s') (newfd + 1)).set newfd _ := ht
      have hlen := h.2
      rw [wp_pure, returned_ofNat]
      refine ⟨?_, by simpa using hlt, fun _ he => by simp [Event.start] at he,
        fun j hj _ => ?_, fun hneg => by simp at hneg⟩
      · rw [ht, List.length_set, length_grow]
        omega
      · rw [ht, slot_set_ne (by simpa using hj), slot_grow]
    · intro _
      refine wp_call (on_vfs_spec _) ?_
      intro _ t ht
      rw [wp_pure, ht, hs]
      exact .of_failed ⟨le_refl _, h.2⟩ fun _ => rfl
  · exact .of_failed ⟨le_refl _, h.2⟩ fun _ => rfl

theorem pipe_end_spec {flags : Nat} {path : Path} {inode : ι} :
    wp anyPanic (pipe_end flags path inode : Sc τ ι Nat) (fun _ s' => table s' = table s) s := by
  rw [pipe_end, wp_bind, wp_get, wp_bind, wp_set, wp_pure]

theorem release_both_spec {α : Type} {reader writer : Nat} {a : α} :
    wp anyPanic (do on_vfs (release reader); on_vfs (release writer); return a : Sc τ ι α)
      (fun r s' => r = a ∧ table s' = table s) s := by
  refine wp_call (on_vfs_spec _) ?_
  intro _ s' hs
  refine wp_call (on_vfs_spec _) ?_
  intro _ s'' hs'
  exact ⟨rfl, hs'.trans hs⟩

theorem Lowest.after {t u : List (Option Nat)} {i j reader : Nat} (hi : Lowest t 3 i)
    (hu : ∀ k, slot u k = slot t k) (hlt : i < u.length) (hj : Lowest (u.set i (some reader)) 3 j) :
    AllLowest t 3 [] [i, j] := by
  have hne : j ≠ i := by
    rintro rfl
    have := hj.empty
    rw [slot_set_self hlt] at this
    simp at this
  refine ⟨hi.start_le, hi.empty, by simp, fun k hk hki => .inl (hi.occupied k hk hki),
    hj.start_le, ?_, by simpa using hne,
    fun k hk hkj => ?_, trivial⟩
  · rw [← hu j, ← slot_set_ne hne]
    exact hj.empty
  · by_cases hki : k = i
    · exact .inr (by simp [hki])
    · have := hj.occupied k hk hkj
      rw [slot_set_ne hki, hu k] at this
      exact .inl this

theorem sys_pipe2_spec {read_end write_end : ι} (h : TableInv (table s)) :
    wp anyPanic (sys_pipe2 read_end write_end : Sc τ ι (Int × List Nat))
      (fun r s' => Disciplined (.pipe2 read_end write_end : Event ι) (table s) (table s') r) s := by
  rw [sys_pipe2]
  refine wp_call pipe_end_spec ?_
  intro reader s₁ h₁
  refine wp_call pipe_end_spec ?_
  intro writer s₂ h₂
  rw [wp_bind, wp_get, show s₂.inner.fd_table = table s from h₂.trans h₁,
    wp_bind, set_table, wp_modify]
  have hr := fd_alloc_allocates h.1 h.2
  cases hi : (fd_alloc (table s)).1 with
  | none =>
    refine wp_mono release_both_spec ?_
    rintro _ t ⟨rfl, ht⟩
    rw [show table t = (fd_alloc (table s)).2 from ht]
    exact .of_failed hr.length hr.slots
  | some i =>
    obtain ⟨hlow, hlt⟩ := hr.found i hi
    have hlen := hr.length
    dsimp only
    refine wp_call clone_file_spec ?_
    intro _ s₃ h₃
    refine wp_call put_slot_spec ?_
    rintro _ s₄ ⟨_, h₄⟩
    -- the table with the read end in its slot
    obtain ⟨u, hu⟩ : ∃ u, u = (fd_alloc (table s)).2.set i (some reader) := ⟨_, rfl⟩
    have h₄ : table s₄ = u := by rw [h₄, h₃, hu]
    have hulen : u.length = (fd_alloc (table s)).2.length := by rw [hu, List.length_set]
    have hw := @fd_alloc_allocates u (by have := h.1; omega) (by omega)
    rw [wp_bind, wp_get, show s₄.inner.fd_table = u from h₄, wp_bind, set_table, wp_modify]
    cases hj : (fd_alloc u).1 with
    | none =>
      dsimp only
      refine wp_call put_slot_spec ?_
      rintro _ s₅ ⟨_, h₅⟩
      refine wp_mono release_both_spec ?_
      rintro _ t ⟨rfl, ht⟩
      rw [show table t = (fd_alloc u).2.set i none from ht.trans h₅]
      have hwlen := hw.length
      refine .of_failed ?_ fun k => ?_
      · rw [List.length_set]
        omega
      · by_cases hk : k = i
        · subst hk
          rw [slot_set_self (by omega), hlow.empty]
        · rw [slot_set_ne hk, hw.slots, hu, slot_set_ne hk, hr.slots]
    | some j =>
      obtain ⟨hlow', hlt'⟩ := hw.found j hj
      have hwlen := hw.length
      dsimp only
      refine wp_call clone_file_spec ?_
      intro _ s₅ h₅
      refine wp_call put_slot_spec ?_
      rintro _ s₆ ⟨_, h₆⟩
      refine wp_mono release_both_spec ?_
      rintro _ t ⟨rfl, ht⟩
      rw [show table t = (fd_alloc u).2.set j (some writer) by rw [ht, h₆, h₅]]
      refine ⟨?_, ?_, fun start he => ?_, fun k hk _ => ?_, fun hneg => by simp at hneg⟩
      · rw [List.length_set]
        omega
      · simp only [List.mem_cons, List.not_mem_nil, or_false, forall_eq_or_imp, forall_eq]
        omega
      · obtain rfl := Option.some.inj he
        exact hlow.after hr.slots hlt (hu ▸ hlow')
      · simp only [List.mem_cons, List.not_mem_nil, or_false, not_or] at hk
        rw [slot_set_ne hk.2, hw.slots, hu, slot_set_ne hk.1, hr.slots]

/-! ## Runs -/

theorem step_map_spec {e : Event ι} {α : Type} {x : Sc τ ι α} {f : α → Answer}
    (h : wp anyPanic x (fun r s' => Disciplined e (table s) (table s') (f r)) s)
    {s' : Sys τ ι} {a : Answer} (hx : ((f <$> x) s).map (fun r => (r.2, r.1)) = .ok (s', a)) :
    Disciplined e (table s) (table s') a := by
  have hf : wp anyPanic (f <$> x) (fun r s' => Disciplined e (table s) (table s') r) s := by
    rw [map_eq_pure_bind, wp_bind]
    exact h
  obtain ⟨b, t, ht, heq⟩ := wp_map_ok hf hx
  cases heq
  exact ht

theorem step_disciplined {e : Event ι} {s' : Sys τ ι} {a : Answer} (h : TableInv (table s))
    (hs : step F s e = .ok (s', a)) : Disciplined e (table s) (table s') a := by
  cases e with
  | openat dirfd pathname flags => exact step_map_spec (sys_openat_spec h) hs
  | close fd => exact step_map_spec (sys_close_spec h) hs
  | dup oldfd => exact step_map_spec (sys_dup_spec h) hs
  | dup3 oldfd newfd => exact step_map_spec (sys_dup3_spec h) hs
  | pipe2 read_end write_end =>
    refine step_map_spec (x := sys_pipe2 read_end write_end) (f := id) (sys_pipe2_spec h) ?_
    rw [id_map]
    exact hs
  | fcntl_dupfd fd arg => exact step_map_spec (sys_fcntl_spec h) hs

theorem step_tableInv {e : Event ι} {s' : Sys τ ι} {a : Answer} (h : TableInv (table s))
    (hs : step F s e = .ok (s', a)) : TableInv (table s') := by
  have hl := (step_disciplined h hs).length
  have h3 := h.1
  exact ⟨by omega, hl.2⟩

/-- From the table of `Process::from_elf` on, the table stays within `MAX_FD` slots, the allocators
find the lowest empty slot or fail on a full table, and every call changes only the slots that are
its own. -/
theorem descriptor_table_disciplined (F : Fatfs τ ι) (s₀ s : Sys τ ι)
    (stdin stdout stderr : Nat) (es : List (Event ι)) (os : List Answer)
    (hstart : table s₀ = [some stdin, some stdout, some stderr])
    (hrun : run (step F) s₀ es = .ok (s, os)) :
    (table s).length ≤ MAX_FD ∧
    Allocates (table s) 3 (fd_alloc (table s)) ∧
    (∀ min, Allocates (table s) min (fd_alloc_from (table s) min)) ∧
    ∀ e s' a, step F s e = .ok (s', a) → Disciplined e (table s) (table s') a := by
  have h₀ : TableInv (table s₀) := by
    rw [hstart]
    exact ⟨le_refl _, Nat.le_of_ble_eq_true rfl⟩
  have h : TableInv (table s) :=
    run_invariant (fun s => TableInv (table s)) (fun _ _ _ _ => step_tableInv) h₀ hrun
  exact ⟨h.2, fd_alloc_allocates h.1 h.2, fd_alloc_from_allocates h.2,
    fun e s' a hs => step_disciplined h hs⟩

end Calls

/-- A process with the standard descriptors, and no other file in the system. -/
def threeDescriptors : Sys SmallDisk (Option Nat) where
  vfs :=
    { (Vfs.empty smallDisk : Vfs SmallDisk (Option Nat)) with
      vnodes := (((Arcs.empty.new ⟨none, [], none⟩).2.new ⟨none, [], none⟩).2.new
        ⟨none, [], none⟩).2
      files := (((Arcs.empty.new ⟨⟨0⟩, 0, 0⟩).2.new ⟨⟨1⟩, 0, 1⟩).2.new ⟨⟨1⟩, 0, 2⟩).2 }
  inner := ⟨[some 0, some 1, some 2], [SLASH]⟩

/-- A pipe, a duplicate far up and one in the hole below it. -/
theorem descriptor_table_disciplined_pipe : ∃ s os, run (step SmallDisk.fat) threeDescriptors
    [.pipe2 none none, .dup3 3 9, .close 3, .dup 4, .fcntl_dupfd 9 127,
      .fcntl_dupfd 9 128] = .ok (s, os) ∧
    os = [(0, [3, 4]), (9, [9]), (0, []), (3, [3]), (127, [127]), (-1, [])] ∧
    (table s).length = MAX_FD ∧ Allocates (table s) 3 (fd_alloc (table s)) := by
  obtain ⟨r, hr⟩ := ok_of_isSome (x := (run (step SmallDisk.fat) threeDescriptors
    [.pipe2 none none, .dup3 3 9, .close 3, .dup 4, .fcntl_dupfd 9 127,
      .fcntl_dupfd 9 128]).bind fun r =>
      permit .unwrap (r.2 = [(0, [3, 4]), (9, [9]), (0, []), (3, [3]), (127, [127]), (-1, [])] ∧
        (table r.1).length = MAX_FD) r) (by decide +kernel)
  obtain ⟨t, ht, hp⟩ := bind_eq_ok hr
  obtain ⟨⟨hanswers, hlen⟩, rfl⟩ := permit_eq_ok hp
  have h := descriptor_table_disciplined SmallDisk.fat threeDescriptors t.1 0 1 2 _ t.2 rfl ht
  exact ⟨t.1, t.2, ht, hanswers, hlen, h.2.1⟩

end HectoOs.Files
