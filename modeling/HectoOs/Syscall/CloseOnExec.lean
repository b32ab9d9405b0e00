import HectoOs.Syscall.Descriptors

/-! # Close-on-exec

The flag stands in the `FileDescriptor`, and `dup` and `F_DUPFD` share that object between slots. A
call that sets the flag through one number sets it for all numbers that share the object.
-/

open HectoOs.Lib HectoOs.Fs

namespace HectoOs.Files.CloseOnExec

variable {τ ι : Type}

/-- The flags behind descriptor `n`. -/
def flags (s : Sys τ ι) (n : Nat) : Option OpenFlags :=
  ((slot (table s) n).bind s.vfs.files.get).map (·.flags)

/-- The close-on-exec state of descriptor `n`; a closed one has none. -/
def cloexec (s : Sys τ ι) (n : Nat) : Bool := (flags s n).any (·.bits.testBit 19)

inductive Event where
  | dup (oldfd : Nat)
  | dupfd (fd arg : Nat)
  | dupfd_cloexec (fd arg : Nat)
  | setfd (fd arg : Nat)
  deriving DecidableEq, Repr

def Event.exec : Event → Sc τ ι Int
  | .dup oldfd => sys_dup oldfd
  | .dupfd fd arg => sys_fcntl fd .F_DUPFD arg
  | .dupfd_cloexec fd arg => sys_fcntl fd .F_DUPFD_CLOEXEC arg
  | .setfd fd arg => sys_fcntl fd .F_SETFD arg

def step (s : Sys τ ι) (e : Event) : Except Panic (Sys τ ι × Int) := (e.exec s).map Prod.swap

/-- The call with result `r` is one for the close-on-exec state of `n`. -/
def Event.Decides (r : Int) (n : Nat) : Event → Prop
  | .dup _ | .dupfd _ _ => False
  | .dupfd_cloexec _ _ => r = n
  | .setfd fd _ => n = fd

/-- What a call that leads from `s` to `s'` with the result `r` should do. `FD_CLOEXEC` is bit 0 of
the argument. -/
structure Right (s : Sys τ ι) (e : Event) (s' : Sys τ ι) (r : Int) : Prop where
  frame : ∀ n, cloexec s' n ≠ cloexec s n → e.Decides r n
  source : ∀ fd arg, e = .dupfd_cloexec fd arg → flags s' fd = flags s fd
  clears : ∀ fd arg, e = .setfd fd arg → arg.testBit 0 = false → cloexec s' fd = false
  effect : ∀ fd arg, e = .setfd fd arg → (slot (table s) fd).isSome →
    cloexec s' fd = arg.testBit 0 → r ≠ -1

def Event.fd : Event → Nat
  | .dup fd | .dupfd fd _ | .dupfd_cloexec fd _ | .setfd fd _ => fd

/-- A duplicate is of a descriptor without the flag, `F_DUPFD_CLOEXEC` finds the flag set, or the
table has no slot left. `F_SETFD` does what it should on closed descriptors only. -/
def Event.Fits (s : Sys τ ι) : Event → Prop
  | .dup oldfd => cloexec s oldfd = true → (fd_alloc (table s)).1 = none
  | .dupfd fd arg => cloexec s fd = true → (fd_alloc_from (table s) arg).1 = none
  | .dupfd_cloexec fd arg =>
    slot (table s) fd = none ∨ cloexec s fd = true ∨ (fd_alloc_from (table s) arg).1 = none
  | .setfd fd _ => slot (table s) fd = none

instance (s : Sys τ ι) (e : Event) : Decidable (e.Fits s) := by
  cases e <;> unfold Event.Fits <;> infer_instance

/-- The pointers in the table are live. -/
def Live (s : Sys τ ι) : Prop := ∀ n f, slot (table s) n = some f → 1 ≤ s.vfs.files.strong_count f

/-! ## Slots and objects -/

/-- The two allocators hand out empty slots of a table that names the same objects. -/
structure Offers (t : List (Option Nat)) (r : Option Nat × List (Option Nat)) : Prop where
  slots : ∀ j, slot r.2 j = slot t j
  empty : ∀ i, r.1 = some i → slot t i = none ∧ i < r.2.length

section Table

variable {t : List (Option Nat)}

theorem Offers.found {start i : Nat} (h : first_empty t start = some i) : Offers t (some i, t) := by
  obtain ⟨hlow, hlt⟩ := first_empty_some h
  refine ⟨fun _ => rfl, fun k hk => ?_⟩
  obtain rfl := Option.some.inj hk
  exact ⟨hlow.empty, hlt⟩

theorem Offers.push : Offers t (push_slot t) := by
  unfold push_slot
  split
  · exact ⟨fun _ => rfl, fun k hk => by simp at hk⟩
  · refine ⟨fun _ => slot_append_none 1, fun k hk => ?_⟩
    obtain rfl := Option.some.inj hk
    exact ⟨slot_of_le (le_refl _), by simp⟩

theorem fd_alloc_offers (t : List (Option Nat)) : Offers t (fd_alloc t) := by
  unfold fd_alloc
  split
  · exact .found ‹_›
  · exact .push

theorem fd_alloc_from_offers (t : List (Option Nat)) (min : Nat) :
    Offers t (fd_alloc_from t min) := by
  unfold fd_alloc_from
  split
  · exact ⟨fun _ => rfl, fun k hk => by simp at hk⟩
  · split
    · rename_i hge
      refine ⟨fun _ => slot_grow _, fun k hk => ?_⟩
      obtain rfl := Option.some.inj hk
      refine ⟨slot_of_le hge, ?_⟩
      dsimp only
      rw [length_grow]
      omega
    · split
      · exact .found ‹_›
      · exact .push

end Table

section Calls

variable {s s' : Sys τ ι} {f fd n : Nat} {e : Event}

/-- Two states in which the descriptors of a process name the same objects, with the same
contents. -/
structure Same (s s' : Sys τ ι) : Prop where
  slots : ∀ n, slot (table s') n = slot (table s) n
  get : ∀ f, s'.vfs.files.get f = s.vfs.files.get f

/-- A new number `i` for the object `f`. -/
structure Shared (s s' : Sys τ ι) (f i : Nat) : Prop where
  new : slot (table s) i = none
  self : slot (table s') i = some f
  slots : ∀ n, n ≠ i → slot (table s') n = slot (table s) n
  get : ∀ f, s'.vfs.files.get f = s.vfs.files.get f

theorem Same.flags (h : Same s s') (n : Nat) : flags s' n = flags s n := by
  unfold CloseOnExec.flags
  rw [h.slots n, show s'.vfs.files.get = s.vfs.files.get from funext h.get]

theorem Shared.flags_ne (h : Shared s s' f fd) (hn : n ≠ fd) : flags s' n = flags s n := by
  unfold CloseOnExec.flags
  rw [h.slots n hn, show s'.vfs.files.get = s.vfs.files.get from funext h.get]

theorem Shared.flags_self (h : Shared s s' f fd) {oldfd : Nat}
    (ho : slot (table s) oldfd = some f) :
    flags s' fd = flags s oldfd := by
  unfold CloseOnExec.flags
  rw [h.self, ho, show s'.vfs.files.get = s.vfs.files.get from funext h.get]

theorem cloexec_of_closed (h : slot (table s) n = none) : cloexec s n = false := by
  simp [cloexec, flags, h]

theorem Live.get (h : Live s) (hn : slot (table s) n = some f) :
    ∃ fd, s.vfs.files.get f = some fd := by
  have hc := h n f hn
  unfold Arcs.strong_count at hc
  unfold Arcs.get
  cases ho : s.vfs.files.objects f with
  | none => simp [ho] at hc
  | some o => exact ⟨o.1, rfl⟩

theorem release_shared (hc : 1 < s.vfs.files.strong_count f) :
    wp (fun _ => False) (on_vfs (release f) : Sc τ ι Unit) (fun _ s' => s'.inner = s.inner ∧
      s'.vfs.files = (s.vfs.files.drop f).2) s := by
  have hrelease : wp (fun _ => False) (release f : Op τ ι Unit)
      (fun _ v => v = { s.vfs with files := (s.vfs.files.drop f).2 }) s.vfs := by
    rw [release, wp_bind, wp_get, wp_bind, wp_set]
    dsimp only
    rw [(Arcs.drop_shared hc).1, wp_pure]
  obtain ⟨_, v, hr, rfl⟩ := wp_total hrelease
  unfold wp on_vfs
  rw [hr]
  exact ⟨rfl, rfl⟩

/-- Every number names what it named before, and the object `f` has one more reference. -/
structure Cloned (s s' : Sys τ ι) (f : Nat) : Prop extends Same s s' where
  self : s'.vfs.files.strong_count f = s.vfs.files.strong_count f + 1
  le : ∀ g, s.vfs.files.strong_count g ≤ s'.vfs.files.strong_count g

theorem Offers.cloned (h : Live s) (hn : slot (table s) n = some f)
    {r : Option Nat × List (Option Nat)} (ha : Offers (table s) r) :
    Cloned s { s with vfs := { s.vfs with files := s.vfs.files.clone f }, inner := { s.inner with
      fd_table := r.2 } } f := by
  obtain ⟨d, hd⟩ := h.get hn
  have hself := Arcs.strong_count_clone_self (h := s.vfs.files) (i := f) (by simp [hd])
  refine ⟨⟨ha.slots, fun g => Arcs.get_clone⟩, hself, fun g => ?_⟩
  by_cases hg : g = f
  · subst hg
    exact hself ▸ Nat.le_succ _
  · exact (Arcs.strong_count_clone_of_ne hg).ge

theorem put_slot_shares {s₁ : Sys τ ι} {i : Nat} (h : Live s) (hc : Cloned s s₁ f)
    (hempty : slot (table s) i = none) (hlt : i < (table s₁).length) :
    wp (fun _ => False) (put_slot i (some f) : Sc τ ι Unit)
    (fun _ s' => Live s' ∧ Shared s s' f i) s₁ := by
  have hslot : (table s₁)[i]? = some none := by
    rw [getElem?_eq_none_iff hlt, hc.slots]
    exact hempty
  have hslots : ∀ n, n ≠ i → slot ((table s₁).set i (some f)) n = slot (table s) n := by
    intro n hn
    rw [slot_set_ne hn, hc.slots]
  rw [put_slot, wp_bind, wp_iff_of_ok (get_slot_eq hslot), wp_bind, wp_get,
    wp_bind, set_table, wp_modify, wp_pure]
  refine ⟨fun n g hg => ?_, hempty, slot_set_self hlt, hslots, hc.get⟩
  by_cases hn : n = i
  · subst hn
    obtain rfl := Option.some.inj ((slot_set_self hlt).symm.trans hg)
    exact hc.self ▸ Nat.le_add_left _ _
  · exact Nat.le_trans (h n g ((hslots n hn).symm.trans hg)) (hc.le g)

theorem release_same {s₁ : Sys τ ι} (h : Live s) (hn : slot (table s) n = some f)
    (hc : Cloned s s₁ f) :
    wp (fun _ => False) (on_vfs (release f) : Sc τ ι Unit)
    (fun _ s' => Live s' ∧ Same s s') s₁ := by
  have hcount := h n f hn
  have hshared : 1 < s₁.vfs.files.strong_count f := by
    rw [hc.self]
    omega
  refine wp_mono (release_shared hshared) ?_
  rintro _ t ⟨hinner, hfiles⟩
  have htable : ∀ n, slot (table t) n = slot (table s) n := by
    intro n
    rw [table, hinner]
    exact hc.slots n
  refine ⟨fun m g hg => ?_, htable, fun g => ?_⟩
  · have hold := h m g ((htable m).symm.trans hg)
    rw [hfiles]
    by_cases hgf : g = f
    · subst hgf
      rw [Arcs.strong_count_drop_self, hc.self]
      exact hold
    · rw [Arcs.strong_count_drop_of_ne hgf]
      exact Nat.le_trans hold (hc.le g)
  · rw [hfiles, ← hc.get]
    by_cases hgf : g = f
    · subst hgf
      exact (Arcs.drop_shared hshared).2
    · exact Arcs.get_drop_of_ne hgf

theorem clone_install_shares (alloc : List (Option Nat) → Option Nat × List (Option Nat))
    (h : Live s) {oldfd : Nat} (ho : slot (table s) oldfd = some f)
    (ha : Offers (table s) (alloc (table s))) :
    wp (fun _ => False)
    (do clone_file f; let s ← get; install f (alloc s.inner.fd_table) : Sc τ ι Int)
      (fun r s' => Live s' ∧ ((∃ i : Nat, (alloc (table s)).1 = some i ∧ r = i ∧ Shared s s' f i) ∨
        (alloc (table s)).1 = none ∧ r = -1 ∧ Same s s')) s := by
  have hc := ha.cloned h ho
  rw [wp_bind, clone_file, wp_modify, wp_bind, wp_get, install, wp_bind, set_table, wp_modify]
  dsimp only
  cases hr : (alloc s.inner.fd_table).1 with
  | some i =>
    obtain ⟨hempty, hlt⟩ := ha.empty i hr
    refine wp_call (put_slot_shares h hc hempty hlt) ?_
    rintro _ t ⟨ht, hshared⟩
    exact ⟨ht, .inl ⟨i, rfl, rfl, hshared⟩⟩
  | none =>
    refine wp_call (release_same h ho hc) ?_
    rintro _ t ⟨ht, hsame⟩
    exact ⟨ht, .inr ⟨rfl, rfl, hsame⟩⟩

/-- The flag of the object `f` is set, for all numbers that share it. -/
structure Marked (s s' : Sys τ ι) (f : Nat) : Prop where
  slots : ∀ n, slot (table s') n = slot (table s) n
  self : s'.vfs.files.get f = (s.vfs.files.get f).map fun d =>
    { d with flags := ⟨d.flags.bits ||| 2 ^ 19⟩ }
  get : ∀ g, g ≠ f → s'.vfs.files.get g = s.vfs.files.get g

theorem set_cloexec_marks (h : Live s) (hn : slot (table s) n = some f) :
    wp (fun _ => False) (set_cloexec f : Sc τ ι Unit) (fun _ s' => Live s' ∧ Marked s s' f) s := by
  obtain ⟨d, hd⟩ := h.get hn
  rw [set_cloexec, wp_bind, (wp_iff_of_ok (get_file_eq hd)), set_file, wp_modify]
  refine ⟨fun m g hg => ?_, fun _ => rfl, ?_, fun g hg => ?_⟩
  · refine Nat.le_trans (h m g hg) (Nat.le_of_eq ?_)
    simp only [Arcs.strong_count]
    by_cases hgf : g = f
    · subst hgf
      rw [Function.update_self]
      cases s.vfs.files.objects g <;> rfl
    · rw [Function.update_of_ne hgf]
  · rw [hd]
    simp only [Arcs.get, Function.update_self, Option.map_map] at hd ⊢
    cases ho : s.vfs.files.objects f with
    | none => simp [ho] at hd
    | some o => rfl
  · simp only [Arcs.get]
    rw [Function.update_of_ne hg]

theorem Marked.flags_self (h : Marked s s' f) (hn : slot (table s) n = some f) :
    flags s' n = (flags s n).map fun d => ⟨d.bits ||| 2 ^ 19⟩ := by
  unfold CloseOnExec.flags
  rw [h.slots, hn, Option.bind_some, Option.bind_some, h.self, Option.map_map, Option.map_map]
  rfl

theorem Marked.flags_ne (h : Marked s s' f) (hn : slot (table s) n ≠ some f) :
    flags s' n = flags s n := by
  unfold CloseOnExec.flags
  rw [h.slots]
  cases hs : slot (table s) n with
  | none => rfl
  | some g =>
    have hg : g ≠ f := by
      rintro rfl
      exact hn hs
    rw [Option.bind_some, Option.bind_some, h.get g hg]

theorem cloexec_eq (h : flags s' n = flags s n) :
    cloexec s' n = cloexec s n := by rw [cloexec, cloexec, h]

theorem insert_eq_iff (bits : Nat) : bits ||| 2 ^ 19 = bits ↔ bits.testBit 19 = true := by
  constructor
  · intro h
    rw [← h, Nat.testBit_or, Nat.testBit_two_pow_self, Bool.or_true]
  · intro h
    refine Nat.eq_of_testBit_eq fun i => ?_
    rw [Nat.testBit_or, Nat.testBit_two_pow]
    by_cases hi : 19 = i
    · subst hi
      simp [h]
    · simp [hi]

/-! ## The calls -/

theorem Right.of_frame {r : Int} (hd : ∀ r n, ¬ e.Decides r n)
    (h : ∀ n, cloexec s' n = cloexec s n) : Right s e s' r := by
  refine ⟨fun n hn => absurd (h n) hn, ?_, ?_, ?_⟩
  · rintro fd arg rfl
    exact absurd rfl (hd 0 0)
  · rintro fd arg rfl
    exact absurd rfl (hd 0 fd)
  · rintro fd arg rfl
    exact absurd rfl (hd 0 fd)

theorem duplicate_right_iff {r : Int} {new : Option Nat} {oldfd : Nat} (hd : ∀ r n, ¬ e.Decides r n)
    (ho : slot (table s) oldfd = some f)
    (h : (∃ i : Nat, new = some i ∧ r = i ∧ Shared s s' f i) ∨ new = none ∧ r = -1 ∧ Same s s') :
    Right s e s' r ↔ (cloexec s oldfd = true → new = none) := by
  rcases h with ⟨i, rfl, rfl, hi⟩ | ⟨rfl, rfl, hsame⟩
  · have hnew : cloexec s' i = cloexec s oldfd := by rw [cloexec, cloexec, hi.flags_self ho]
    constructor
    · intro h hset
      refine absurd (h.frame i ?_) (hd _ _)
      rw [hnew, hset, cloexec_of_closed hi.new]
      decide
    · intro h
      have hclear : cloexec s oldfd = false := by
        by_contra hset
        simpa using h (by simpa using hset)
      refine .of_frame hd fun n => ?_
      by_cases hn : n = i
      · subst hn
        rw [hnew, hclear, cloexec_of_closed hi.new]
      · exact cloexec_eq (hi.flags_ne hn)
  · exact iff_of_true (.of_frame hd fun n => cloexec_eq (hsame.flags n)) fun _ => rfl

theorem Right.of_dupfd_cloexec {r : Int} {arg : Nat}
    (hframe : ∀ n : Nat, r ≠ n → cloexec s' n = cloexec s n) (hsource : flags s' fd = flags s fd) :
    Right s (.dupfd_cloexec fd arg) s' r := by
  refine ⟨fun n hn => ?_, ?_, ?_, ?_⟩
  · by_contra hdec
    exact hn (hframe n hdec)
  · rintro fd' arg' heq
    obtain ⟨rfl, rfl⟩ := Event.dupfd_cloexec.inj heq
    exact hsource
  · rintro fd' arg' heq
    cases heq
  · rintro fd' arg' heq
    cases heq

theorem marked_right_iff {s₁ : Sys τ ι} {arg i : Nat} (h : Live s) (ho : slot (table s) fd = some f)
    (hnew : Shared s s₁ f i) (hmark : Marked s₁ s' f) :
    Right s (.dupfd_cloexec fd arg) s' i ↔ cloexec s fd = true := by
  have hne : fd ≠ i := by
    rintro rfl
    simp [hnew.new] at ho
  have hopen : slot (table s₁) fd = some f := (hnew.slots fd hne).trans ho
  obtain ⟨d, hd⟩ := h.get ho
  have hflags : ∀ n, slot (table s) n = some f → flags s n = some d.flags := by
    intro n hn
    rw [flags, hn, Option.bind_some, hd, Option.map_some]
  have hsource : flags s' fd = some ⟨d.flags.bits ||| 2 ^ 19⟩ := by
    rw [hmark.flags_self hopen, hnew.flags_ne hne, hflags fd ho, Option.map_some]
  have hset : cloexec s fd = true ↔ d.flags.bits ||| 2 ^ 19 = d.flags.bits := by
    rw [insert_eq_iff, cloexec, hflags fd ho, Option.any_some]
  constructor
  · intro hr
    have hkeep := hr.source fd arg rfl
    rw [hsource, hflags fd ho, Option.some.injEq, OpenFlags.mk.injEq] at hkeep
    exact hset.mpr hkeep
  · intro hflag
    -- inserting the flag again changes no object
    have hsame : ∀ n, n ≠ i → flags s' n = flags s n := by
      intro n hn
      by_cases hnf : slot (table s₁) n = some f
      · have hold : slot (table s) n = some f := (hnew.slots n hn).symm.trans hnf
        rw [hmark.flags_self hnf, hnew.flags_ne hn, hflags n hold, Option.map_some, hset.mp hflag]
      · rw [hmark.flags_ne hnf, hnew.flags_ne hn]
    refine .of_dupfd_cloexec (fun n hn => cloexec_eq (hsame n ?_)) (hsame fd hne)
    rintro rfl
    exact hn rfl

theorem dupfd_cloexec_spec (h : Live s) {arg : Nat} (ho : slot (table s) fd = some f) :
    wp (fun _ => False) (do
        clone_file f
        let s ← get
        let newfd ← install f (fd_alloc_from s.inner.fd_table arg)
        if 0 ≤ newfd then
          set_cloexec f
          return newfd
        else
          return newfd : Sc τ ι Int)
      (fun r s' => Live s' ∧
        (Right s (.dupfd_cloexec fd arg) s' r ↔ (Event.dupfd_cloexec fd arg).Fits s)) s := by
  have hdup := clone_install_shares (fd_alloc_from · arg) h ho (fd_alloc_from_offers _ arg)
  rw [wp_bind] at hdup ⊢
  refine wp_mono hdup fun _ s₁ h₁ => ?_
  rw [wp_bind, wp_get] at h₁ ⊢
  rw [wp_bind]
  refine wp_mono h₁ ?_
  rintro newfd s₂ ⟨hlive, ⟨i, hi, rfl, hnew⟩ | ⟨hnone, rfl, hsame⟩⟩
  · have hopen : slot (table s₂) fd = some f := by
      refine (hnew.slots fd ?_).trans ho
      rintro rfl
      simp [hnew.new] at ho
    rw [if_pos (Int.natCast_nonneg i), wp_bind]
    refine wp_mono (set_cloexec_marks hlive hopen) ?_
    rintro _ t ⟨ht, hmark⟩
    rw [wp_pure, marked_right_iff h ho hnew hmark]
    refine ⟨ht, fun hflag => .inr (.inl hflag), ?_⟩
    rintro (hclosed | hflag | hfull)
    · simp [hclosed] at ho
    · exact hflag
    · simp [hi] at hfull
  · rw [if_neg (by decide), wp_pure]
    refine ⟨hlive, iff_of_true ?_ (.inr (.inr hnone))⟩
    exact .of_dupfd_cloexec (fun n _ => cloexec_eq (hsame.flags n)) (hsame.flags fd)

theorem setfd_spec (h : Live s) {arg : Nat} (ho : slot (table s) fd = some f) :
    wp (fun _ => False)
    (if arg.testBit 0 then do set_cloexec f; return -1 else return -1 : Sc τ ι Int)
      (fun r s' => Live s' ∧ (Right s (.setfd fd arg) s' r ↔ (Event.setfd fd arg).Fits s)) s := by
  have hopen : ¬ (Event.setfd fd arg).Fits s := by simp [Event.Fits, ho]
  rw [wp_ite]
  constructor
  · intro harg
    rw [wp_bind]
    refine wp_mono (set_cloexec_marks h ho) ?_
    rintro _ t ⟨ht, hmark⟩
    refine ⟨ht, iff_of_false (fun hr => ?_) hopen⟩
    obtain ⟨d, hd⟩ := h.get ho
    have hset : cloexec t fd = true := by
      rw [cloexec, hmark.flags_self ho, flags, ho, Option.bind_some, hd,
        Option.map_some, Option.map_some, Option.any_some,
        Nat.testBit_or, Nat.testBit_two_pow_self, Bool.or_true]
    exact hr.effect fd arg rfl (by simp [ho]) (hset.trans harg.symm) rfl
  · intro harg
    rw [wp_pure]
    refine ⟨h, iff_of_false (fun hr => ?_) hopen⟩
    have harg : arg.testBit 0 = false := by simpa using harg
    have hclear := hr.clears fd arg rfl harg
    exact hr.effect fd arg rfl (by simp [ho]) (hclear.trans harg.symm) rfl

theorem exec_open (h : Live s) (ho : slot (table s) e.fd = some f) :
    wp (fun _ => False) e.exec (fun r s' => Live s' ∧ (Right s e s' r ↔ e.Fits s)) s := by
  have hslot : (table s)[e.fd]? = some (some f) := by
    rw [slot] at ho
    exact Option.join_eq_some_iff.mp ho
  cases e with
  | dup oldfd =>
    refine wp_bind.mpr ((wp_iff_of_ok (get_slot_eq hslot)).mpr ?_)
    refine wp_mono (clone_install_shares fd_alloc h ho (fd_alloc_offers _)) ?_
    rintro r t ⟨ht, hr⟩
    exact ⟨ht, duplicate_right_iff (fun _ _ => id) ho hr⟩
  | dupfd fd arg =>
    refine wp_bind.mpr ((wp_iff_of_ok (get_slot_eq hslot)).mpr ?_)
    refine wp_mono (clone_install_shares (fd_alloc_from · arg) h ho (fd_alloc_from_offers _ arg)) ?_
    rintro r t ⟨ht, hr⟩
    exact ⟨ht, duplicate_right_iff (fun _ _ => id) ho hr⟩
  | dupfd_cloexec fd arg =>
    refine wp_bind.mpr ((wp_iff_of_ok (get_slot_eq hslot)).mpr ?_)
    exact dupfd_cloexec_spec h ho
  | setfd fd arg =>
    refine wp_bind.mpr ((wp_iff_of_ok (get_slot_eq hslot)).mpr ?_)
    exact setfd_spec h ho

theorem get_slot_closed {α : Type} {Q : α → Sys τ ι → Prop} {k : Option Nat → Sc τ ι α}
    (ho : slot (table s) fd = none) (hk : wp (fun p => p = .bad_index) (k none) Q s) :
    wp (fun p => p = .bad_index) (get_slot fd >>= k) Q s := by
  refine wp_call (get_slot_spec rfl) ?_
  rintro old s' ⟨rfl, -, rfl⟩
  rw [ho]
  exact hk

theorem exec_closed (ho : slot (table s) e.fd = none) :
    wp (fun p => p = .bad_index) e.exec (fun _ s' => s' = s) s := by
  cases e with
  | dup oldfd => exact get_slot_closed ho rfl
  | dupfd fd arg => exact get_slot_closed ho rfl
  | dupfd_cloexec fd arg => exact get_slot_closed ho rfl
  | setfd fd arg => exact get_slot_closed ho rfl

theorem fits_of_closed (ho : slot (table s) e.fd = none) : e.Fits s := by
  have hclear := cloexec_of_closed ho
  cases e with
  | dup oldfd => exact fun h => absurd (h.symm.trans hclear) (by decide)
  | dupfd fd arg => exact fun h => absurd (h.symm.trans hclear) (by decide)
  | dupfd_cloexec fd arg => exact .inl ho
  | setfd fd arg => exact ho

theorem right_of_closed {r : Int} (ho : slot (table s) e.fd = none) : Right s e s r := by
  refine ⟨fun n hn => absurd rfl hn, fun _ _ _ => rfl, ?_, ?_⟩
  · rintro fd arg rfl -
    exact cloexec_of_closed ho
  · rintro fd arg rfl hopen
    simp [show slot (table s) fd = none from ho] at hopen

theorem step_live {r : Int} (h : Live s) (hs : step s e = .ok (s', r)) : Live s' := by
  cases ho : slot (table s) e.fd with
  | none =>
    obtain ⟨a, t, rfl, heq⟩ := wp_map_ok (exec_closed ho) hs
    obtain ⟨rfl, _⟩ := Prod.mk.inj heq
    exact h
  | some f =>
    obtain ⟨a, t, ht, heq⟩ := wp_map_ok (exec_open h ho) hs
    obtain ⟨rfl, _⟩ := Prod.mk.inj heq
    exact ht.1

theorem step_right_iff (h : Live s) :
    (∀ s' r, step s e = .ok (s', r) → Right s e s' r) ↔ e.Fits s := by
  cases ho : slot (table s) e.fd with
  | none =>
    refine iff_of_true (fun s' r hs => ?_) (fits_of_closed ho)
    obtain ⟨a, t, rfl, heq⟩ := wp_map_ok (exec_closed ho) hs
    obtain ⟨rfl, rfl⟩ := Prod.mk.inj heq
    exact right_of_closed ho
  | some f =>
    obtain ⟨r, s', hr, -, hiff⟩ := wp_total (exec_open h ho)
    have hstep : step s e = .ok (s', r) := by
      rw [step, hr]
      rfl
    rw [← hiff]
    refine ⟨fun hall => hall s' r hstep, fun hright t r' ht => ?_⟩
    obtain ⟨rfl, rfl⟩ := Prod.mk.inj (Except.ok.inj (hstep.symm.trans ht))
    exact hright

end Calls

/-- For every descriptor table and every run: each call does what it should for the close-on-exec
states exactly if each call fits. -/
theorem close_on_exec_iff (s : Sys τ ι) (h : Live s) (es : List Event) :
    Meets step (fun s e => ∀ s' r, step s e = .ok (s', r) → Right s e s' r) s es ↔
    Meets step (fun s e => e.Fits s) s es :=
  meets_iff_meets Live (fun _ => True) (fun _ _ _ h => step_right_iff h)
    (fun _ _ _ _ _ h _ hs => step_live h hs) h
    fun _ _ => trivial

theorem threeDescriptors_live : Live threeDescriptors := by
  intro n f h
  match n with
  | 0 => cases h; decide
  | 1 => cases h; decide
  | 2 => cases h; decide
  | n + 3 => simp [slot_of_le (t := table threeDescriptors) (i := n + 3) (Nat.le_add_left 3 n)] at h

/-- Duplicates of the standard input, and calls on a number that is not open. -/
theorem close_on_exec_duplicates :
    Meets step (fun s e => ∀ s' r, step s e = .ok (s', r) → Right s e s' r) threeDescriptors
    [.dup 0, .dupfd 3 5, .setfd 4 1, .dupfd_cloexec 4 0] :=
  (close_on_exec_iff threeDescriptors threeDescriptors_live _).mpr (by decide +kernel)

/-- `F_DUPFD_CLOEXEC` sets the flag of the number that it duplicates, and `F_SETFD` without
`FD_CLOEXEC` leaves it there and answers `-1`. -/
theorem dupfd_cloexec_marks_source : Live threeDescriptors ∧
    ¬ Meets step (fun s e => ∀ s' r, step s e = .ok (s', r) → Right s e s' r) threeDescriptors
      [.dupfd_cloexec 0 3] ∧
    ∃ s₁ s₂, step threeDescriptors (.dupfd_cloexec 0 3) = .ok (s₁, 3) ∧
    step s₁ (.setfd 0 0) = .ok (s₂, -1) ∧
      flags s₁ 0 ≠ flags threeDescriptors 0 ∧ cloexec s₂ 0 = true := by
  obtain ⟨r, hr⟩ := ok_of_isSome (x := ((step threeDescriptors (.dupfd_cloexec 0 3)).bind fun r =>
    (step r.1 (.setfd 0 0)).bind fun q => permit .unwrap (r.2 = 3 ∧ q.2 = -1 ∧
      flags r.1 0 ≠ flags threeDescriptors 0 ∧ cloexec q.1 0 = true) (r.1, q.1)))
        (by decide +kernel)
  obtain ⟨⟨s₁, r₁⟩, h₁, hr⟩ := bind_eq_ok hr
  obtain ⟨⟨s₂, r₂⟩, h₂, hr⟩ := bind_eq_ok hr
  obtain ⟨⟨rfl, rfl, hflags, hset⟩, -⟩ := permit_eq_ok hr
  refine ⟨threeDescriptors_live, fun h => ?_, s₁, s₂, h₁, h₂, hflags, hset⟩
  exact hflags ((h.1 s₁ 3 h₁).source 0 3 rfl)

end HectoOs.Files.CloseOnExec
