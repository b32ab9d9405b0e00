import HectoOs.Fs.Stream

/-! # Many descriptors on one file

`file_open` finds the vnode of a path that is open already, so all descriptors on a path drive one
inode.
-/

open HectoOs.Lib HectoOs.Fs

namespace HectoOs.Stream

open Files (readable writable)

/-! ## The code -/

/-- The inode of one vnode, and the descriptors on it in the order they were opened. -/
structure Shared where
  inode : Inode
  fds : List FileDescriptor

/-- `file_open` on a path whose vnode is in the cache; the result is the new descriptor. -/
def file_open (s : Shared) (flags : OpenFlags) : Except Panic (Nat × Shared) :=
  if flags.APPEND then
    (orPanic .unwrap (s.inode.seek (.End 0))).map fun p =>
      (s.fds.length, ⟨p.2, s.fds ++ [⟨flags, p.1, 0⟩]⟩)
  else .ok (s.fds.length, ⟨s.inode, s.fds ++ [⟨flags, 0, 0⟩]⟩)

inductive Event where
  | file_open (flags : OpenFlags)
  | call (d : Nat) (c : Call)

namespace Shared

def step (s : Shared) : Event → Except Panic (Shared × Answer)
  | .file_open flags => (file_open s flags).map fun r => (r.2, .opened r.1)
  | .call d c =>
    match s.fds[d]? with
    | some fd => (call fd s.inode c).map fun r => (⟨r.2.2, s.fds.set d r.2.1⟩, r.1)
    | none => .error .no_descriptor

/-- No descriptor is past the end of the file. -/
def Valid (s : Shared) : Prop := ∀ fd ∈ s.fds, fd.pos ≤ s.inode.size

end Shared

/-! ## One call -/

/-- How many bytes a call says that it has transferred. -/
def moved_by : Answer → Nat
  | .read r => r.elim 0 List.length
  | .written r => r.getD 0
  | _ => 0

/-- The bytes that a write stores. -/
def stored (fd : FileDescriptor) (buf : List Byte) (most : Option Nat) : List Byte :=
  if writable fd.flags then most.elim [] buf.take else []

/-- What a call transfers at the position of its descriptor, in a file with `bytes` before and
`bytes'` after it. -/
def Served (fd : FileDescriptor) (bytes : List Byte) (o : Answer) (bytes' : List Byte) : Call → Prop
  | .seek _ => bytes' = bytes
  | .read count most => bytes' = bytes ∧
      o = .read (if readable fd.flags then most.map fun most =>
        (bytes.drop fd.pos).take (min count most) else none)
  | .write buf most => bytes' = splice bytes fd.pos (stored fd buf most) ∧
      o = .written
        (if writable fd.flags then most.map fun _ => (stored fd buf most).length else none)

theorem splice_nil {bytes : List Byte} {offset : Nat} : splice bytes offset [] = bytes := by
  simp [splice]

section Call

variable {fd : FileDescriptor} {inode : Inode} {c : Call}

theorem seek_bytes {pos : SeekFrom} :
    (file_seek fd inode pos).2.1 = fd ∧ (file_seek fd inode pos).2.2.bytes = inode.bytes := by
  unfold file_seek Inode.seek
  split
  · rename_i h
    split at h
    · cases h
    · cases h
      exact ⟨rfl, rfl⟩
  · exact ⟨rfl, rfl⟩

theorem call_served (h : fd.pos ≤ inode.size) : ∃ o inode', call fd inode c =
      .ok (o, { fd with pos := fd.pos + moved_by o }, inode') ∧
      Served fd inode.bytes o inode'.bytes c ∧
    fd.pos + moved_by o ≤ inode'.size ∧ inode.size ≤ inode'.size := by
  have hat : (inode.at_offset fd.pos).offset = fd.pos := Nat.min_eq_left h
  cases c with
  | seek pos =>
    obtain ⟨hfd, hbytes⟩ := @seek_bytes fd inode pos
    have hsize : (file_seek fd inode pos).2.2.size = inode.size := congrArg List.length hbytes
    refine ⟨.seeked (file_seek fd inode pos).1, (file_seek fd inode pos).2.2,
      ?_, hbytes, ?_, hsize.ge⟩
    · rw [call]
      exact congrArg Except.ok (Prod.ext rfl (Prod.ext hfd rfl))
    · rw [hsize]
      exact h
  | read count most =>
    by_cases hr : readable fd.flags = true
    · have hmoves := @read_moves (inode.at_offset fd.pos) count most
      have hin := (((inode.at_offset fd.pos).read count most).2).inside
      rw [hmoves, hat] at hin
      refine ⟨.read ((inode.at_offset fd.pos).read count most).1,
        ((inode.at_offset fd.pos).read count most).2,
        by rw [call, file_read_eq hr]; rfl, ⟨?_, ?_⟩, hin,
          (@read_size (inode.at_offset fd.pos) count most).ge⟩
      · cases most <;> rfl
      · rw [if_pos hr]
        cases most with
        | none => rfl
        | some most => simp only [Inode.read, hat, Option.map_some]; rfl
    · exact ⟨.read none, inode, by rw [call, file_read, if_neg hr]; rfl,
        ⟨rfl, by rw [if_neg hr]⟩, h, le_rfl⟩
  | write buf most =>
    by_cases hw : writable fd.flags = true
    · have hmoves := @write_moves (inode.at_offset fd.pos) most buf
      have hin := (((inode.at_offset fd.pos).write buf most).2).inside
      rw [hmoves, hat] at hin
      refine ⟨.written ((inode.at_offset fd.pos).write buf most).1,
        ((inode.at_offset fd.pos).write buf most).2,
        by rw [call, file_write_eq hw]; rfl, ⟨?_, ?_⟩, hin,
          @size_le_write (inode.at_offset fd.pos) most buf⟩
      · rw [stored, if_pos hw]
        cases most with
        | none => exact splice_nil.symm
        | some most => simp only [Inode.write, hat, Option.elim_some]; rfl
      · rw [stored, if_pos hw, if_pos hw]
        cases most <;> rfl
    · refine ⟨.written none, inode, by rw [call, file_write, if_neg hw]; rfl,
        ⟨?_, by rw [if_neg hw]⟩, h, le_rfl⟩
      rw [stored, if_neg hw, splice_nil]

end Call

/-! ## Positions of their own -/

namespace Shared

/-- A descriptor is opened at the start of the file or at its end. A call through a descriptor
serves the position of that descriptor, and moves this position only. -/
def Independent (s : Shared) : Event → Prop
  | .file_open flags => ∃ inode', inode'.bytes = s.inode.bytes ∧ s.step (.file_open flags) =
      .ok (⟨inode', s.fds ++ [⟨flags, if flags.APPEND then s.inode.size else 0, 0⟩]⟩,
        .opened s.fds.length)
  | .call d c => ∀ fd, s.fds[d]? = some fd → ∃ o inode', s.step (.call d c) =
      .ok (⟨inode', s.fds.set d { fd with pos := fd.pos + moved_by o }⟩, o) ∧
      Served fd s.inode.bytes o inode'.bytes c

/-- How far the calls through `d` have moved it. -/
def own (d : Nat) : List Event → List Answer → Nat
  | .call d' _ :: es, o :: os => (if d' = d then moved_by o else 0) + own d es os
  | _ :: es, _ :: os => own d es os
  | _, _ => 0

variable {s s' : Shared} {e : Event} {o : Answer} {flags : OpenFlags}

theorem file_open_eq : ∃ inode', inode'.bytes = s.inode.bytes ∧ s.step (.file_open flags) =
    .ok (⟨inode', s.fds ++ [⟨flags, if flags.APPEND then s.inode.size else 0, 0⟩]⟩,
      .opened s.fds.length) := by
  have hend : s.inode.seek (.End 0) = some (s.inode.size, s.inode.at_offset s.inode.size) := by
    have hneg : ¬ (s.inode.size : Int) < 0 := by omega
    simp [Inode.seek, target, hneg]
  cases hf : flags.APPEND with
  | true =>
    refine ⟨s.inode.at_offset s.inode.size, rfl, ?_⟩
    simp [step, file_open, hf, hend, orPanic, Except.map]
  | false =>
    refine ⟨s.inode, rfl, ?_⟩
    simp [step, file_open, hf, Except.map]

theorem step_independent (h : s.Valid) (e : Event) : s.Independent e := by
  cases e with
  | file_open flags => exact file_open_eq
  | call d c =>
    intro fd hd
    obtain ⟨o, inode', hcall, hserved, -⟩ :=
      @call_served fd s.inode c (h fd (List.mem_of_getElem? hd))
    refine ⟨o, inode', ?_, hserved⟩
    simp only [step, hd, hcall, Except.map]

theorem step_cases (h : s.Valid) (hs : s.step e = .ok (s', o)) :
    (∃ flags, e = .file_open flags ∧ s'.inode.bytes = s.inode.bytes ∧
      s'.fds = s.fds ++ [⟨flags, if flags.APPEND then s.inode.size else 0, 0⟩]) ∨
    ∃ d c fd, e = .call d c ∧ s.fds[d]? = some fd ∧
    s'.fds = s.fds.set d { fd with pos := fd.pos + moved_by o } ∧
      Served fd s.inode.bytes o s'.inode.bytes c ∧ fd.pos + moved_by o ≤ s'.inode.size ∧
      s.inode.size ≤ s'.inode.size := by
  cases e with
  | file_open flags =>
    obtain ⟨inode', hbytes, heq⟩ := @file_open_eq s flags
    rw [heq] at hs
    cases hs
    exact .inl ⟨flags, rfl, hbytes, rfl⟩
  | call d c =>
    cases hd : s.fds[d]? with
    | none => simp [step, hd] at hs
    | some fd =>
      obtain ⟨o', inode', hcall, hserved, hpos, hsize⟩ :=
        @call_served fd s.inode c (h fd (List.mem_of_getElem? hd))
      simp only [step, hd, hcall, Except.map] at hs
      cases hs
      exact .inr ⟨d, c, fd, rfl, hd, rfl, hserved, hpos, hsize⟩

theorem step_valid (h : s.Valid) (hs : s.step e = .ok (s', o)) : s'.Valid := by
  rcases step_cases h hs with ⟨flags, rfl, hbytes, hfds⟩ | ⟨d, c, fd, rfl, hd, hfds, -, hpos, hsize⟩
  · have hsize : s'.inode.size = s.inode.size := congrArg List.length hbytes
    intro fd hfd
    rw [hfds, List.mem_append, List.mem_singleton] at hfd
    rcases hfd with hfd | rfl
    · exact hsize ▸ h fd hfd
    · change (if flags.APPEND then s.inode.size else 0) ≤ s'.inode.size
      rw [hsize]
      split
      · exact le_rfl
      · exact Nat.zero_le _
  · intro fd' hfd'
    rw [hfds] at hfd'
    rcases List.mem_or_eq_of_mem_set hfd' with hfd' | rfl
    · exact (h fd' hfd').trans hsize
    · exact hpos

theorem step_moves (h : s.Valid) (hs : s.step e = .ok (s', o)) {d : Nat}
    {fd : FileDescriptor} (hd : s.fds[d]? = some fd) :
    s'.fds[d]? = some { fd with pos := fd.pos + own d [e] [o] } := by
  rcases step_cases h hs with ⟨flags, rfl, -, hfds⟩ | ⟨d', c, fd', rfl, hd', hfds, -⟩
  · rw [hfds, List.getElem?_append_left (List.getElem?_eq_some_iff.mp hd).1, hd]
    rfl
  · rw [hfds]
    by_cases hne : d' = d
    · subst hne
      obtain rfl : fd = fd' := Option.some.inj (hd.symm.trans hd')
      rw [List.getElem?_set_self (List.getElem?_eq_some_iff.mp hd).1]
      simp [own]
    · rw [List.getElem?_set_ne hne, hd]
      simp [own, hne]

theorem own_cons (d : Nat) (e : Event) (o : Answer) (es : List Event) (os : List Answer) :
    own d (e :: es) (o :: os) = own d [e] [o] + own d es os := by
  cases e <;> simp [own]

/-- Each descriptor of a file has a position of its own. -/
theorem positions_independent (s : Shared) (es : List Event) (h : s.Valid) :
    Meets step Independent s es ∧ ∀ s' os, run step s es = .ok (s', os) → s'.Valid ∧
      ∀ (d : Nat) (fd : FileDescriptor), s.fds[d]? = some fd →
        s'.fds[d]? = some { fd with pos := fd.pos + own d es os } := by
  induction es generalizing s with
  | nil =>
    refine ⟨trivial, fun s' os hr => ?_⟩
    cases hr
    exact ⟨h, fun d fd hd => hd⟩
  | cons e es ih =>
    refine ⟨⟨step_independent h e, fun t o ht => (ih t (step_valid h ht)).1⟩, fun s' os hr => ?_⟩
    obtain ⟨t, o, os, ht, hrun, rfl⟩ := run_cons hr
    obtain ⟨hvalid, hmoves⟩ := (ih t (step_valid h ht)).2 s' os hrun
    refine ⟨hvalid, fun d fd hd => ?_⟩
    rw [hmoves d _ (step_moves h ht hd), own_cons d e o es os]
    simp only [Nat.add_assoc]

/-- Two descriptors on one file; the first reads two bytes, the second one, the first one. -/
theorem positions_of_two : Meets step Independent ⟨⟨[1, 2, 3, 4], 0, by decide⟩, []⟩
      [.file_open ⟨0⟩, .file_open ⟨0⟩, .call 0 (.read 2 (some 2)), .call 1 (.read 1 (some 1)),
        .call 0 (.read 1 (some 1))] :=
  (positions_independent _ _ (by simp [Valid])).1

end Shared

/-! ## Appending -/

/-- The descriptors of a file in use. `behind` are those that another one has left behind by making
the file longer. -/
structure Tail where
  files : Shared
  behind : List Nat

namespace Tail

/-- Whom a call leaves behind when it makes the file longer. -/
def others (n : Nat) : Event → List Nat
  | .file_open _ => []
  | .call d _ => (List.range n).filter (· ≠ d)

def next_behind (g : Tail) (e : Event) (size : Nat) : List Nat :=
  if g.files.inode.size < size then g.behind ++ others g.files.fds.length e else g.behind

def step (g : Tail) (e : Event) : Except Panic (Tail × Answer) :=
  (g.files.step e).map fun r => (⟨r.1, g.next_behind e r.1.inode.size⟩, r.2)

/-- Files are opened and written. -/
def OpenOrWrite : Event → Prop
  | .file_open _ => True
  | .call _ (.write _ _) => True
  | _ => False

/-- A write through an `APPEND` descriptor leaves the bytes of the file as they are, and puts its
own behind them. -/
def Appends (g : Tail) : Event → Prop
  | .call d (.write buf most) => ∀ fd, g.files.fds[d]? = some fd → fd.flags.APPEND = true →
      ∃ o s', g.files.step (.call d (.write buf most)) = .ok (s', o) ∧
        s'.inode.bytes = g.files.inode.bytes ++ buf.take (moved_by o)
  | _ => True

/-- What is written through an `APPEND` descriptor left behind is empty. -/
def NotBehind (g : Tail) : Event → Prop
  | .call d (.write buf most) => ∀ fd, g.files.fds[d]? = some fd → fd.flags.APPEND = true →
      stored fd buf most ≠ [] → d ∉ g.behind
  | _ => True

/-- Where the `APPEND` descriptors are, as long as none of them has written when it was behind. -/
structure Inv (g : Tail) : Prop where
  valid : g.files.Valid
  known : ∀ d ∈ g.behind, d < g.files.fds.length
  behind : ∀ (d : Nat) (fd : FileDescriptor), g.files.fds[d]? = some fd → fd.flags.APPEND = true →
    (d ∈ g.behind ↔ fd.pos < g.files.inode.size)

variable {g g' : Tail} {e : Event} {o : Answer}

theorem splice_eq_append {bytes new : List Byte} {offset : Nat} (h : offset ≤ bytes.length) :
    splice bytes offset new = bytes ++ new ↔ new = [] ∨ offset = bytes.length := by
  constructor
  · intro heq
    have hlen := congrArg List.length heq
    rw [splice_length h, List.length_append] at hlen
    refine or_iff_not_imp_left.mpr fun hne => ?_
    have := List.length_pos_iff.mpr hne
    omega
  · rintro (rfl | rfl)
    · rw [splice_nil, List.append_nil]
    · simp [splice]

theorem moved_by_write {fd : FileDescriptor} {buf bytes bytes' : List Byte} {most : Option Nat}
    (h : Served fd bytes o bytes' (.write buf most)) :
    moved_by o = (stored fd buf most).length ∧ stored fd buf most = buf.take (moved_by o) := by
  obtain ⟨-, rfl⟩ := h
  unfold stored
  split
  · cases most with
    | none => exact ⟨rfl, rfl⟩
    | some most => simp [moved_by]
  · exact ⟨rfl, rfl⟩

theorem appends_iff_notBehind (h : g.Inv) (e : Event) : g.Appends e ↔ g.NotBehind e := by
  cases e with
  | file_open flags => exact Iff.rfl
  | call d c =>
    cases c with
    | seek pos => exact Iff.rfl
    | read count most => exact Iff.rfl
    | write buf most =>
      refine forall_congr' fun fd => forall_congr' fun hd => forall_congr' fun hf => ?_
      have hpos : fd.pos ≤ g.files.inode.size := h.valid fd (List.mem_of_getElem? hd)
      obtain ⟨o, inode', hstep, hserved⟩ :=
        Shared.step_independent h.valid (.call d (.write buf most)) fd hd
      have hlast : stored fd buf most = [] ∨ fd.pos = g.files.inode.size ↔
        (stored fd buf most ≠ [] → d ∉ g.behind) := by
        rw [h.behind d fd hd hf, or_iff_not_imp_left]
        refine forall_congr' fun _ => ?_
        omega
      have htake := (moved_by_write hserved).2
      rw [← hlast]
      refine Iff.trans ?_ (splice_eq_append hpos)
      rw [← hserved.1]
      constructor
      · rintro ⟨o', s', hs, hb⟩
        cases hstep.symm.trans hs
        rw [htake]
        exact hb
      · intro hb
        rw [htake] at hb
        exact ⟨o, _, hstep, hb⟩

theorem write_inv {s' : Shared} {d : Nat} {fd : FileDescriptor} {buf : List Byte}
    {most : Option Nat} (h : g.Inv) (hvalid : s'.Valid) (hd : g.files.fds[d]? = some fd)
    (hfds : s'.fds = g.files.fds.set d { fd with pos := fd.pos + moved_by o })
    (hserved : Served fd g.files.inode.bytes o s'.inode.bytes (.write buf most))
    (hc : fd.flags.APPEND = true → stored fd buf most ≠ [] → d ∉ g.behind) :
    Inv ⟨s', g.next_behind (.call d (.write buf most)) s'.inode.size⟩ := by
  obtain ⟨hmoved, -⟩ := moved_by_write hserved
  have hpos : fd.pos ≤ g.files.inode.size := h.valid fd (List.mem_of_getElem? hd)
  have hlt : d < g.files.fds.length := (List.getElem?_eq_some_iff.mp hd).1
  have hsize : s'.inode.size = max g.files.inode.size (fd.pos + moved_by o) := by
    rw [Inode.size, hserved.1, splice_length hpos, hmoved]
    rfl
  have hown : fd.flags.APPEND = true → moved_by o = 0 ∨ d ∉ g.behind ∧
    fd.pos = g.files.inode.size := by
    intro hf
    by_cases hn : stored fd buf most = []
    · left
      rw [hmoved, hn, List.length_nil]
    · have hnot := hc hf hn
      rw [h.behind d fd hd hf] at hnot
      exact .inr ⟨hc hf hn, by omega⟩
  refine ⟨hvalid, ?_, ?_⟩
  · intro d' hd'
    simp only [hfds, List.length_set]
    simp only [next_behind] at hd'
    split at hd'
    · rcases List.mem_append.mp hd' with hd' | hd'
      · exact h.known d' hd'
      · exact List.mem_range.mp (List.mem_filter.mp hd').1
    · exact h.known d' hd'
  · intro d' fd' hd' hf
    simp only [hfds] at hd'
    simp only [next_behind]
    by_cases hne : d = d'
    · subst hne
      rw [List.getElem?_set_self hlt] at hd'
      cases hd'
      change _ ↔ fd.pos + moved_by o < s'.inode.size
      have hb := h.behind d fd hd hf
      have := hown hf
      split
      · simp only [others, List.mem_append, List.mem_filter, ne_eq, not_true_eq_false,
          decide_false, Bool.false_eq_true,
          and_false, or_false, hb]
        omega
      · rw [hb]
        omega
    · rw [List.getElem?_set_ne hne] at hd'
      have hb := h.behind d' fd' hd' hf
      have hpos' : fd'.pos ≤ g.files.inode.size := h.valid fd' (List.mem_of_getElem? hd')
      split
      · have hmem : d' ∈ others g.files.fds.length (.call d (.write buf most)) :=
          List.mem_filter.mpr
            ⟨List.mem_range.mpr (List.getElem?_eq_some_iff.mp hd').1, by simpa using Ne.symm hne⟩
        exact iff_of_true (List.mem_append_right _ hmem) (by omega)
      · rw [hb]
        omega

theorem step_inv (h : g.Inv) (hkind : OpenOrWrite e) (hc : g.NotBehind e)
    (hs : g.step e = .ok (g', o)) : g'.Inv := by
  obtain ⟨⟨s', o'⟩, hstep, heq⟩ : ∃ r, g.files.step e = .ok r ∧
    (⟨r.1, g.next_behind e r.1.inode.size⟩, r.2) = (g', o) := by
    rw [step] at hs
    cases hr : g.files.step e with
    | error p =>
      rw [hr] at hs
      cases hs
    | ok r =>
      rw [hr] at hs
      exact ⟨r, rfl, Except.ok.inj hs⟩
  cases heq
  have hvalid : s'.Valid := Shared.step_valid h.valid hstep
  rcases Shared.step_cases h.valid hstep with ⟨flags, rfl, hbytes, hfds⟩ | ⟨d, c, fd, rfl, hd,
    hfds, hserved, hpos, hle⟩
  · have hsize : s'.inode.size = g.files.inode.size := congrArg List.length hbytes
    have hsame : g.next_behind (.file_open flags) s'.inode.size = g.behind := if_neg (by omega)
    refine ⟨hvalid, ?_, ?_⟩
    · intro d hd
      have := h.known d (hsame ▸ hd)
      simp only [hfds, List.length_append]
      omega
    · intro d fd hd hf
      simp only [hfds] at hd
      simp only [hsame]
      by_cases hlt : d < g.files.fds.length
      · rw [List.getElem?_append_left hlt] at hd
        rw [hsize]
        exact h.behind d fd hd hf
      · rw [List.getElem?_append_right (Nat.le_of_not_lt hlt), List.getElem?_singleton] at hd
        split at hd
        · cases hd
          have hnew : d ∉ g.behind := fun hmem => hlt (h.known d hmem)
          simp only [if_pos hf, hsize, lt_irrefl, hnew]
        · cases hd
  · cases c with
    | seek pos => exact hkind.elim
    | read count most => exact hkind.elim
    | write buf most => exact write_inv h hvalid hd hfds hserved (hc fd hd)

/-- Before the first write: the descriptors that are not at the end of the file are behind. -/
def start (s : Shared) : Tail :=
  ⟨s, (List.range s.fds.length).filter fun d => s.fds[d]?.any fun fd => fd.pos < s.inode.size⟩

theorem start_inv {s : Shared} (h : s.Valid) : (start s).Inv := by
  have hiff (d : Nat) : d ∈ (start s).behind ↔ ∃ fd, s.fds[d]? = some fd ∧
    fd.pos < s.inode.size := by
    simp only [start, List.mem_filter, List.mem_range, Option.any_eq_true, decide_eq_true_eq]
    refine ⟨And.right, fun hd => ⟨?_, hd⟩⟩
    obtain ⟨fd, hfd, -⟩ := hd
    exact (List.getElem?_eq_some_iff.mp hfd).1
  refine ⟨h, fun d hd => ?_, fun d fd hd hf => ?_⟩
  · obtain ⟨fd, hfd, -⟩ := (hiff d).mp hd
    exact (List.getElem?_eq_some_iff.mp hfd).1
  · change s.fds[d]? = some fd at hd
    rw [hiff, hd]
    simp [start]

/-- Append-mode writes go to the end of the file in exactly the interleavings in which no `APPEND`
descriptor is written through after another one has made the file longer. -/
theorem append_iff_not_behind (s : Shared) (es : List Event) (h : s.Valid)
    (hkind : ∀ e ∈ es, OpenOrWrite e) :
    Meets step Appends (start s) es ↔ Meets step NotBehind (start s) es :=
  meets_iff_meets Inv OpenOrWrite (fun _ e _ h => appends_iff_notBehind h e)
    (fun _ _ _ _ hk h hc hs => step_inv h hk hc hs) (start_inv h) hkind

instance (g : Tail) : (e : Event) → Decidable (g.NotBehind e)
  | .file_open _ => isTrue trivial
  | .call _ (.seek _) => isTrue trivial
  | .call _ (.read _ _) => isTrue trivial
  | .call d (.write buf most) =>
    match h : g.files.fds[d]? with
    | none => isTrue fun fd hd => by rw [h] at hd; cases hd
    | some fd =>
      decidable_of_iff (fd.flags.APPEND = true → stored fd buf most ≠ [] → d ∉ g.behind)
        ⟨fun hi fd' hd => by rw [h] at hd; cases hd; exact hi, fun hi => hi fd h⟩

/-- Two descriptors that append: the first one writes twice, and the second one is opened in
between. -/
theorem append_writes_twice : Meets step Appends (start ⟨⟨[], 0, by decide⟩, []⟩)
    [.file_open ⟨1025⟩, .call 0 (.write [7] (some 1)), .file_open ⟨1025⟩,
      .call 1 (.write [8] (some 1))] :=
  (append_iff_not_behind _ _ (by simp [Shared.Valid]) (by simp [OpenOrWrite])).mpr
    (by decide +kernel)

/-- Two descriptors that append: both are opened, and the second write overwrites the first one. -/
theorem append_overwrites : ¬ Meets step Appends (start ⟨⟨[], 0, by decide⟩, []⟩)
    [.file_open ⟨1025⟩, .file_open ⟨1025⟩, .call 0 (.write [7] (some 1)),
      .call 1 (.write [8] (some 1))] := by
  intro h
  have h₁ := h.2 _ _ rfl
  have h₂ := h₁.2 _ _ rfl
  have h₃ := h₂.2 _ _ rfl
  obtain ⟨o, s', hs, hbytes⟩ := h₃.1 _ rfl (by decide)
  cases hs
  revert hbytes
  decide +kernel

end Tail

end HectoOs.Stream
