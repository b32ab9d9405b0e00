import HectoOs.Syscall.Files

/-! # What `sys_sendfile` copies

The loop takes what was written off the count, and the source moves by what was read. The two agree
only while every write takes all that the read before it has brought.
-/

open HectoOs.Lib HectoOs.Fs

namespace HectoOs.Files

variable {τ ι : Type}

/-! ## The inodes -/

/-- What is known of the two inodes while `inv` holds of the disk: a read of `src` returns some of
the bytes of `content` behind the position, and `dst` takes some of the first bytes of a write.
`accepted` is what it has taken so far. -/
structure Streams (I : Inodes τ ι) (src dst : ι) (inv : τ → Prop) (content : List Byte)
    (accepted : τ → List Byte) :
    Prop where
  read : ∀ d pos count r d', inv d → I.read d src pos count = .ok (r, d') → inv d' ∧
    accepted d' = accepted d ∧
    ∀ bytes, r = some bytes → bytes.length ≤ count ∧ bytes <+: content.drop pos
  write : ∀ d pos bytes r d', inv d → I.write d dst pos bytes = .ok (r, d') → inv d' ∧
    accepted d' = accepted d ++ bytes.take (r.getD 0) ∧ r.getD 0 ≤ bytes.length

/-- `f` is a descriptor at `pos`. -/
def At (s : Sys τ ι) (f : Nat) (flags : OpenFlags) (pos : Nat) (inode : ι) : Prop :=
  ∃ fd vnode, s.vfs.files.get f = some fd ∧ s.vfs.vnodes.get fd.vnode = some vnode ∧
  fd.flags = flags ∧ fd.pos = pos ∧
    vnode.inode = inode

variable (I : Inodes τ ι)

/-- The inodes let `remain` bytes through without a loss, from the positions `p` and `q` on: a call
that fails is made again, and every write takes all that was read. `shared` says that both positions
are the same one, so that only empty reads do no harm. -/
inductive Lossless (src dst : ι) (shared : Prop) : τ → Nat → Nat → Nat → Prop
  | done {d : τ} {p q : Nat} : Lossless src dst shared d p q 0
  | read_fails {d d' : τ} {p q remain : Nat} (seek : (I.seek d src p).isSome)
      (read : I.read d src p (min BLK_SIZE remain) = .ok (none, d'))
        (rest : Lossless src dst shared d' p q remain) :
      Lossless src dst shared d p q remain
  | write_fails {d d' d'' : τ} {p q remain : Nat} (seek : (I.seek d src p).isSome)
      (read : I.read d src p (min BLK_SIZE remain) = .ok (some [], d'))
        (seek' : (I.seek d' dst q).isSome)
      (write : I.write d' dst q [] = .ok (none, d''))
        (rest : Lossless src dst shared d'' p q remain) :
      Lossless src dst shared d p q remain
  | last {d d' d'' : τ} {p q remain : Nat} {bytes : List Byte} (seek : (I.seek d src p).isSome)
      (read : I.read d src p (min BLK_SIZE remain) = .ok (some bytes, d'))
        (seek' : (I.seek d' dst q).isSome)
      (write : I.write d' dst q bytes = .ok (some bytes.length, d'')) (alone : shared → bytes = [])
      (short : bytes.length ≠ BLK_SIZE ∧ bytes.length ≠ min BLK_SIZE remain) :
        Lossless src dst shared d p q remain
  | next {d d' d'' : τ} {p q remain : Nat} {bytes : List Byte} (seek : (I.seek d src p).isSome)
      (read : I.read d src p (min BLK_SIZE remain) = .ok (some bytes, d'))
        (seek' : (I.seek d' dst q).isSome)
      (write : I.write d' dst q bytes = .ok (some bytes.length, d'')) (alone : shared → bytes = [])
      (full : ¬ (bytes.length ≠ BLK_SIZE ∧ bytes.length ≠ min BLK_SIZE remain))
      (rest : Lossless src dst shared d'' (p + bytes.length) (q + bytes.length)
        (remain - bytes.length)) :
      Lossless src dst shared d p q remain

/-! ## One call on a descriptor -/

section Calls

variable {I} {s s' : Sys τ ι} {f g count pos n : Nat} {flags flags' : OpenFlags}
  {inode inode' : ι} {d : τ}

/-- The descriptors after a call through `f` that moved it by `n`. -/
def moved (files : Arcs FileDescriptor) (f n : Nat) : Arcs FileDescriptor :=
  { files with
    objects := Function.update files.objects f ((files.objects f).map fun o => ({ o.1 with
    pos := o.1.pos + n }, o.2)) }

def advance (s : Sys τ ι) (f : Nat) (d : τ) (n : Nat) : Sys τ ι :=
  { s with vfs := { s.vfs with disk := d, files := moved s.vfs.files f n } }

@[simp] theorem advance_disk : (advance s f d n).vfs.disk = d := rfl

theorem advance_at (h : At s g flags pos inode) :
    At (advance s f d n) g flags (pos + if g = f then n else 0) inode := by
  obtain ⟨fd, vnode, hfd, hv, rfl, rfl, rfl⟩ := h
  unfold Arcs.get at hfd
  obtain ⟨o, ho, rfl⟩ := Option.map_eq_some_iff.mp hfd
  by_cases hg : g = f
  · subst hg
    exact ⟨{ o.1 with pos := o.1.pos + n }, vnode, by simp [advance, moved, Arcs.get, ho],
      hv, rfl, by simp, rfl⟩
  · exact ⟨o.1, vnode, by simp [advance, moved, Arcs.get, Function.update_of_ne hg, ho],
      hv, rfl, by simp [hg], rfl⟩

theorem advance_zero : advance s f d 0 = { s with vfs := { s.vfs with disk := d } } := by
  have hobj : (moved s.vfs.files f 0) = s.vfs.files := by
    unfold moved
    congr 1
    funext i
    by_cases hi : i = f
    · subst hi
      cases s.vfs.files.objects i <;> simp
    · rw [Function.update_of_ne hi]
  rw [advance, hobj]

theorem set_file_eq {fd : FileDescriptor} (hfd : s.vfs.files.get f = some fd) :
    set_file f { fd with pos := fd.pos + n }
    { s with vfs := { s.vfs with disk := d } } = .ok ((), advance s f d n) := by
  unfold Arcs.get at hfd
  obtain ⟨o, ho, rfl⟩ := Option.map_eq_some_iff.mp hfd
  simp [set_file, advance, moved, ho, modify, modifyGet, MonadStateOf.modifyGet,
    StateT.modifyGet, pure, Except.pure]

theorem transfer_eq {α : Type} {pos : Nat} {io : τ → Except Panic (Option α × τ)} {len : α → Nat}
    {k : Option α → Sc τ ι (Option α)} (hk : ∀ r d, k r { s with vfs := { s.vfs with disk := d } } =
    .ok (r, advance s f d (r.elim 0 len))) :
    (do
      let s ← get
      let _ ← Exec.unwrap .unwrap (I.seek s.vfs.disk inode pos)
      let r ← ask io
      k r : Sc τ ι (Option α)) s =
    if (I.seek s.vfs.disk inode pos).isSome then
      (io s.vfs.disk).map fun r => (r.1, advance s f r.2 (r.1.elim 0 len))
    else .error .unwrap := by
  rw [exec_bind]
  show (((Exec.unwrap .unwrap (I.seek s.vfs.disk inode pos) : Sc τ ι Nat) >>= _) s) = _
  rw [exec_bind]
  cases I.seek s.vfs.disk inode pos with
  | none => rfl
  | some _ =>
    show ((ask io >>= k : Sc τ ι (Option α)) s) = _
    rw [exec_bind, ask]
    simp only [Option.isSome_some, if_true]
    cases io s.vfs.disk with
    | error e => rfl
    | ok r => exact hk r.1 r.2

theorem file_read_eq (h : At s f flags pos inode) : file_read I f count s =
    if readable flags then
      if (I.seek s.vfs.disk inode pos).isSome then
        (I.read s.vfs.disk inode pos count).map fun r =>
          (r.1, advance s f r.2 (r.1.elim 0 List.length))
      else .error .unwrap
    else .ok (none, s) := by
  obtain ⟨fd, vnode, hfd, hv, rfl, rfl, rfl⟩ := h
  rw [file_read, exec_bind, get_file_eq hfd]
  show ((get_vnode f : Sc τ ι _) s).bind _ = _
  rw [get_vnode_eq hfd hv]
  simp only [Except.bind]
  split
  · refine transfer_eq fun r d => ?_
    cases r with
    | none => exact congrArg (fun s => Except.ok (none, s)) advance_zero.symm
    | some bytes => exact congrArg (Except.map fun r => (some bytes, r.2)) (set_file_eq hfd)
  · rfl

theorem file_write_eq {bytes : List Byte} (h : At s f flags pos inode) : file_write I f bytes s =
    if writable flags then
      if (I.seek s.vfs.disk inode pos).isSome then
        (I.write s.vfs.disk inode pos bytes).map fun r => (r.1, advance s f r.2 (r.1.elim 0 id))
      else .error .unwrap
    else .ok (none, s) := by
  obtain ⟨fd, vnode, hfd, hv, rfl, rfl, rfl⟩ := h
  rw [file_write, exec_bind, get_file_eq hfd]
  show ((get_vnode f : Sc τ ι _) s).bind _ = _
  rw [get_vnode_eq hfd hv]
  simp only [Except.bind]
  split
  · refine transfer_eq fun r d => ?_
    cases r with
    | none => exact congrArg (fun s => Except.ok (none, s)) advance_zero.symm
    | some n => exact congrArg (Except.map fun r => (some n, r.2)) (set_file_eq hfd)
  · rfl

end Calls

/-! ## The loop -/

section Loop

variable {I} {s s' : Sys τ ι} {out_f in_f fuel remain k p q : Nat} {flags flags' : OpenFlags}
  {src dst : ι} {d : τ}

/-- What the loop does once `n` of `bytes` have been written. -/
def after_write (I : Inodes τ ι) (out_f in_f fuel remain : Nat) (bytes : List Byte) (s : Sys τ ι) :
    Option Nat → Except Panic (Nat × Sys τ ι)
  | none => sendfile_loop I out_f in_f fuel remain s
  | some n =>
    if bytes.length ≠ BLK_SIZE ∧ (bytes.length ≠ min BLK_SIZE remain ∨ bytes.length ≠ n) then
      .ok (remain - n, s)
    else sendfile_loop I out_f in_f fuel (remain - n) s

theorem sendfile_loop_succ (h0 : remain ≠ 0) : sendfile_loop I out_f in_f (fuel + 1) remain s =
    (file_read I in_f (min BLK_SIZE remain) s).bind fun r =>
      match r.1 with
      | none => sendfile_loop I out_f in_f fuel remain r.2
      | some bytes => (file_write I out_f bytes r.2).bind fun w =>
        after_write I out_f in_f fuel remain bytes w.2 w.1 := by
  have hcount : (if BLK_SIZE ≤ remain then BLK_SIZE else remain) = min BLK_SIZE remain := by
    rw [Nat.min_def]
  rw [sendfile_loop, if_neg h0, hcount, exec_bind]
  congr 1
  funext r
  obtain ⟨r, s₁⟩ := r
  cases r with
  | none => rfl
  | some bytes =>
    show (file_write I out_f bytes >>= _) s₁ = _
    rw [exec_bind]
    congr 1
    funext w
    obtain ⟨w, s₂⟩ := w
    cases w with
    | none => rfl
    | some n =>
      simp only [after_write]
      split <;> rfl

theorem sendfile_loop_round (h0 : remain ≠ 0) (hin : At s in_f flags p src)
    (hout : At s out_f flags' q dst) (hr : readable flags = true) (hw : writable flags' = true)
    (hseek : (I.seek s.vfs.disk src p).isSome) {bytes : List Byte}
    (hread : I.read s.vfs.disk src p (min BLK_SIZE remain) = .ok (some bytes, d)) {q' : Nat}
    (hq : q' = q + if out_f = in_f then bytes.length else 0) (hseek' : (I.seek d dst q').isSome)
    {w : Option Nat} {d' : τ} (hwrite : I.write d dst q' bytes = .ok (w, d')) :
    sendfile_loop I out_f in_f (fuel + 1) remain s =
      after_write I out_f in_f fuel remain bytes
        (advance (advance s in_f d bytes.length) out_f d' (w.elim 0 id)) w := by
  have hout' : At (advance s in_f d bytes.length) out_f flags' q' dst := hq ▸ advance_at hout
  rw [sendfile_loop_succ h0, file_read_eq hin, if_pos hr, if_pos hseek, hread]
  show (file_write I out_f bytes (advance s in_f d bytes.length)).bind _ = _
  rw [file_write_eq hout', if_pos hw, advance_disk, if_pos hseek', hwrite]
  rfl

theorem take_add_of_prefix {α : Type} {l bytes : List α} (h : bytes <+: l.drop p) (j : Nat) :
    (l.drop p).take (bytes.length + j) = bytes ++ (l.drop (p + bytes.length)).take j := by
  obtain ⟨rest, hrest⟩ := h
  have hdrop : l.drop (p + bytes.length) = rest := by
    rw [← List.drop_drop, ← hrest, List.drop_left]
  rw [← hrest, hdrop, List.take_length_add_append]

theorem round_at {m n : Nat} {e : τ} (hin : At s in_f flags p src)
    (hout : At s out_f flags' q dst) :
    At (advance (advance s in_f d m) out_f e n) in_f flags
      (p + m + if out_f = in_f then n else 0) src ∧
    At (advance (advance s in_f d m) out_f e n) out_f flags'
      (q + (if out_f = in_f then m else 0) + n) dst := by
  have h1 : At (advance s in_f d m) in_f flags (p + m) src := by
    simpa using advance_at (f := in_f) (d := d) (n := m) hin
  have h2 := advance_at (f := out_f) (d := e) (n := n) h1
  have h3 := advance_at (f := out_f) (d := e) (n := n)
    (advance_at (f := in_f) (d := d) (n := m) hout)
  by_cases hsh : out_f = in_f
  · subst hsh
    exact ⟨by simpa using h2, by simpa using h3⟩
  · exact ⟨by simpa [hsh, Ne.symm hsh] using h2, by simpa [hsh] using h3⟩

theorem nothing_shared {bytes : List Byte} (alone : out_f = in_f → bytes = []) :
    (if out_f = in_f then bytes.length else 0) = 0 := by
  split
  · rw [alone ‹_›]
    rfl
  · rfl

/-- From `s` on, with the source at `p`, the loop ends and has copied what it counts. -/
def LoopCopies (I : Inodes τ ι) (out_f in_f : Nat) (flags : OpenFlags) (src : ι)
    (content : List Byte) (accepted : τ → List Byte) (p remain : Nat) (s : Sys τ ι) : Prop :=
  ∃ fuel k s', sendfile_loop I out_f in_f fuel remain s = .ok (k, s') ∧ k ≤ remain ∧
    At s' in_f flags (p + (remain - k)) src ∧ remain - k ≤ (content.drop p).length ∧
    accepted s'.vfs.disk = accepted s.vfs.disk ++ (content.drop p).take (remain - k)

section Copies

variable {content bytes : List Byte} {accepted : τ → List Byte} {s₁ : Sys τ ι}

theorem LoopCopies.zero (hin : At s in_f flags p src) :
    LoopCopies I out_f in_f flags src content accepted p 0 s :=
  ⟨1, 0, s, rfl, le_rfl, hin, Nat.zero_le _, by simp⟩

theorem LoopCopies.retry (hloop : ∀ fuel, sendfile_loop I out_f in_f (fuel + 1) remain s =
    sendfile_loop I out_f in_f fuel remain s₁) (hacc : accepted s₁.vfs.disk = accepted s.vfs.disk)
    (h : LoopCopies I out_f in_f flags src content accepted p remain s₁) :
    LoopCopies I out_f in_f flags src content accepted p remain s := by
  obtain ⟨fuel, k, s', hs', hk, hat, hlen, hall⟩ := h
  exact ⟨fuel + 1, k, s', (hloop fuel).trans hs', hk, hat, hlen, by rw [hall, hacc]⟩

theorem LoopCopies.last (hloop : sendfile_loop I out_f in_f 1 remain s =
    .ok (remain - bytes.length, s₁)) (hle : bytes.length ≤ remain)
    (hpre : bytes <+: content.drop p) (hin : At s₁ in_f flags (p + bytes.length) src)
    (hacc : accepted s₁.vfs.disk = accepted s.vfs.disk ++ bytes) :
    LoopCopies I out_f in_f flags src content accepted p remain s := by
  have hcount : remain - (remain - bytes.length) = bytes.length := by omega
  refine ⟨1, remain - bytes.length, s₁, hloop, Nat.sub_le _ _, ?_, ?_, ?_⟩
  · rw [hcount]
    exact hin
  · rw [hcount]
    exact hpre.length_le
  · rw [hcount, hacc, ← List.prefix_iff_eq_take.mp hpre]

theorem LoopCopies.next
    (hloop : ∀ fuel, sendfile_loop I out_f in_f (fuel + 1) remain s =
      sendfile_loop I out_f in_f fuel (remain - bytes.length) s₁)
    (hle : bytes.length ≤ remain) (hpre : bytes <+: content.drop p)
    (hacc : accepted s₁.vfs.disk = accepted s.vfs.disk ++ bytes)
    (h : LoopCopies I out_f in_f flags src content accepted (p + bytes.length)
      (remain - bytes.length) s₁) :
    LoopCopies I out_f in_f flags src content accepted p remain s := by
  obtain ⟨fuel, k, s', hs', hk, hat, hrest, hall⟩ := h
  have hcount : remain - k = bytes.length + (remain - bytes.length - k) := by omega
  have hlen := hpre.length_le
  rw [List.length_drop] at hlen hrest
  refine ⟨fuel + 1, k, s', (hloop fuel).trans hs', by omega, ?_, ?_, ?_⟩
  · rw [hcount, ← Nat.add_assoc]
    exact hat
  · rw [List.length_drop]
    omega
  · rw [hall, hacc, hcount, take_add_of_prefix hpre, List.append_assoc]

end Copies

theorem Lossless.copies {inv : τ → Prop} {content : List Byte} {accepted : τ → List Byte}
    (hS : Streams I src dst inv content accepted) (hr : readable flags = true)
    (hw : writable flags' = true) (h : Lossless I src dst (out_f = in_f) d p q remain)
    {s : Sys τ ι} (hd : s.vfs.disk = d) (hinv : inv d) (hin : At s in_f flags p src)
    (hout : At s out_f flags' q dst) :
    LoopCopies I out_f in_f flags src content accepted p remain s := by
  by_cases h0 : remain = 0
  · subst h0
    exact .zero hin
  induction h generalizing s with
  | done => exact absurd rfl h0
  | @read_fails d d' p q remain seek read rest ih =>
    subst hd
    obtain ⟨hinv', hacc, -⟩ := hS.read _ _ _ _ _ hinv read
    have hin' : At (advance s in_f d' 0) in_f flags p src := by
      simpa using advance_at (f := in_f) (d := d') (n := 0) hin
    have hout' : At (advance s in_f d' 0) out_f flags' q dst := by
      simpa using advance_at (f := in_f) (d := d') (n := 0) hout
    refine .retry (fun fuel => ?_) hacc (ih rfl hinv' hin' hout' h0)
    rw [sendfile_loop_succ h0, file_read_eq hin, if_pos hr, if_pos seek, read]
    rfl
  | @write_fails d d' d'' p q remain seek read seek' write rest ih =>
    subst hd
    obtain ⟨hinv', hacc, -⟩ := hS.read _ _ _ _ _ hinv read
    obtain ⟨hinv'', hacc', -⟩ := hS.write _ _ _ _ _ hinv' write
    obtain ⟨hin', hout'⟩ := round_at (d := d') (e := d'') (m := 0) (n := 0) hin hout
    have hrest := ih (s := advance (advance s in_f d' 0) out_f d'' 0) rfl hinv''
      (by simpa using hin') (by simpa using hout') h0
    refine .retry (fun fuel => ?_) (by rw [advance_disk, hacc', hacc]; simp) hrest
    rw [sendfile_loop_round h0 hin hout hr hw seek read (by simp) seek' write]
    rfl
  | @last d d' d'' p q remain bytes seek read seek' write alone short =>
    subst hd
    obtain ⟨hinv', hacc, hbytes⟩ := hS.read _ _ _ _ _ hinv read
    obtain ⟨hle, hpre⟩ := hbytes bytes rfl
    obtain ⟨-, hacc', -⟩ := hS.write _ _ _ _ _ hinv' write
    have hnone := nothing_shared alone
    obtain ⟨hin', -⟩ :=
      round_at (d := d') (e := d'') (m := bytes.length) (n := bytes.length) hin hout
    rw [hnone, Nat.add_zero] at hin'
    refine .last ?_ (by omega) hpre hin' (by rw [advance_disk, hacc', hacc]; simp)
    rw [sendfile_loop_round h0 hin hout hr hw seek read
      (by rw [hnone, Nat.add_zero]) seek' write, after_write,
      if_pos ⟨short.1, .inl short.2⟩]
    rfl
  | @next d d' d'' p q remain bytes seek read seek' write alone full rest ih =>
    subst hd
    obtain ⟨hinv', hacc, hbytes⟩ := hS.read _ _ _ _ _ hinv read
    obtain ⟨hle, hpre⟩ := hbytes bytes rfl
    obtain ⟨hinv'', hacc', -⟩ := hS.write _ _ _ _ _ hinv' write
    have hnone := nothing_shared alone
    obtain ⟨hin', hout'⟩ :=
      round_at (d := d') (e := d'') (m := bytes.length) (n := bytes.length) hin hout
    rw [hnone, Nat.add_zero] at hin' hout'
    have hround (fuel : Nat) : sendfile_loop I out_f in_f (fuel + 1) remain s =
        sendfile_loop I out_f in_f fuel (remain - bytes.length)
          (advance (advance s in_f d' bytes.length) out_f d'' bytes.length) := by
      rw [sendfile_loop_round h0 hin hout hr hw seek read
        (by rw [hnone, Nat.add_zero]) seek' write, after_write,
        if_neg (fun hbreak => full ⟨hbreak.1, hbreak.2.resolve_right (fun hne => hne rfl)⟩)]
      rfl
    refine .next hround (by omega) hpre (by rw [advance_disk, hacc', hacc]; simp) ?_
    by_cases hz : remain - bytes.length = 0
    · rw [hz]
      exact .zero hin'
    · exact ih rfl hinv'' hin' hout' hz

end Loop

/-! ## The call -/

/-- The first file system has a file on the path of the descriptor. The call opens it for a log
line. -/
def Opens (F : Fatfs τ ι) (s : Sys τ ι) (f : Nat) : Prop :=
  (s.vfs.FILE_SYSTEM_TABLE 0).isSome ∧ ∃ fd vnode, s.vfs.files.get f = some fd ∧
  s.vfs.vnodes.get fd.vnode = some vnode ∧
    (F.open_file s.vfs.disk vnode.full_path).isSome

/-- The call ends; of the bytes behind the position `p` of the source, the first `r` have been
accepted, and the source has moved by `r`. -/
def Copied (F : Fatfs τ ι) (I : Inodes τ ι) (content : List Byte) (accepted : τ → List Byte)
    (s : Sys τ ι) (out_fd in_fd count in_f p : Nat) : Prop :=
  ∃ fuel s', ∃ r : Nat, sys_sendfile F I fuel out_fd in_fd 0 count s = .ok (r, s') ∧ r ≤ count ∧
    r ≤ (content.drop p).length ∧
    accepted s'.vfs.disk = accepted s.vfs.disk ++ (content.drop p).take r ∧
    ∃ fd, s'.vfs.files.get in_f = some fd ∧ fd.pos = p + r

section Call

variable {F : Fatfs τ ι} {I} {s s' : Sys τ ι} {out_fd in_fd out_f in_f fuel count p q : Nat}
  {flags flags' : OpenFlags}
  {src dst : ι} {content : List Byte} {inv : τ → Prop} {accepted : τ → List Byte}

end Call

/-! ## A file with clusters of 512 bytes

One write does not go past the end of a cluster. The disk is what has been written; `false` is the
source, and `true` the file that is written.
-/

end HectoOs.Files
