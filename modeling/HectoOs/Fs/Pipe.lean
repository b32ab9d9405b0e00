import HectoOs.Lib.Exec
import HectoOs.Lib.Memory
import HectoOs.Sync.Condvar

/-! # Pipes (`fs/pipe.rs`)

One pipe and the threads that use it. `dup`, `fork` and `close` change how many handles each end
has; the object of an end lives as long as it has a handle. A call runs until it returns or yields.
-/

open HectoOs.Lib HectoOs.Sync

namespace HectoOs.Fs.Pipe

structure State where
  data : List Byte
  wait_queue : List Nat
  read_ends : Nat
  write_ends : Nat
  threads : Threads
  /-- The threads that yielded inside `PipeRead::read`, with the lengths of their buffers. -/
  readers : List (Nat × Nat)

def create_pipe_pair : State := ⟨[], [], 1, 1, fun _ => some .Ready, []⟩

inductive Event where
  | read (t len : Nat)
  /-- The scheduler dispatches a thread that yielded inside `PipeRead::read`. -/
  | resume (t : Nat)
  | write (buf : List Byte)
  | dup_read
  | dup_write
  | close_read
  | close_write
  /-- Somebody else makes the thread ready: a timer, or a child that exits. -/
  | wake (t : Nat)
  /-- The thread exits and is dropped. -/
  | exit (t : Nat)

inductive Seen where
  | nothing
  /-- `read` returned `Ok` with these bytes to the thread `t` and its buffer of length `len`. -/
  | read (t len : Nat) (bytes : List Byte)
  | wrote (buf : List Byte)
  | broken_pipe
  deriving DecidableEq

/-- The critical section of `read`: what is there is taken, and if nothing is, the thread waits. -/
def drain (s : State) (t len : Nat) : State × List Byte :=
  let buf := s.data.take len
  let s := { s with data := s.data.drop len }
  if buf.length = 0 then
    let (threads, wait_queue) := Condvar.wait s.threads s.wait_queue t
    ({ s with threads, wait_queue }, buf)
  else
    (s, buf)

/-- One turn of the loop of `read`. -/
def read_loop (s : State) (t len : Nat) : State × Seen :=
  let (s, buf) := drain s t len
  if buf.length > 0 then
    (s, .read t len buf)
  else if s.write_ends = 0 then
    (s, .read t len [])
  else
    ({ s with readers := s.readers ++ [(t, len)] }, .nothing)

def read (s : State) (t len : Nat) : State × Seen :=
  if len = 0 then (s, .read t len []) else read_loop s t len

def write (s : State) (buf : List Byte) : State × Seen :=
  if s.read_ends = 0 then
    (s, .broken_pipe)
  else
    ({ s with data := s.data ++ buf, threads := Condvar.notify_all s.threads s.wait_queue, wait_queue := [] },
      .wrote buf)

/-- The last handle of the read end takes the buffer with it. -/
def close_read (s : State) : State :=
  { s with read_ends := s.read_ends - 1, data := if s.read_ends = 1 then [] else s.data }

/-- A step, when it can happen. A thread inside `read` does nothing else; the handle it reads from
is borrowed and cannot be closed. -/
def step (s : State) : Event → Except Unit (State × Seen)
  | .read t len =>
    permit () ((s.threads t).isSome ∧ t ∉ s.readers.map (·.1) ∧ 0 < s.read_ends) (read s t len)
  | .resume t =>
    match s.readers.find? (·.1 = t) with
    | some (_, len) =>
      permit () (s.threads t = some .Ready)
        (read_loop { s with readers := s.readers.filter (·.1 ≠ t) } t len)
    | none => .error ()
  | .write buf => permit () (0 < s.write_ends) (write s buf)
  | .dup_read => permit () (0 < s.read_ends) ({ s with read_ends := s.read_ends + 1 }, .nothing)
  | .dup_write => permit () (0 < s.write_ends) ({ s with write_ends := s.write_ends + 1 }, .nothing)
  | .close_read => permit () (s.readers.length < s.read_ends) (close_read s, .nothing)
  | .close_write =>
    permit () (0 < s.write_ends) ({ s with write_ends := s.write_ends - 1 }, .nothing)
  | .wake t => .ok ({ s with threads := s.threads.set_status t .Ready }, .nothing)
  | .exit t =>
    permit () (t ∉ s.readers.map (·.1)) ({ s with threads := s.threads.drop t }, .nothing)

/-! ## What a step can do -/

variable {s s' : State} {e : Event} {o : Seen} {t len : Nat}

/-- The thread is marked as waiting and queued. -/
def marked (s : State) (t : Nat) : State :=
  { s with threads := s.threads.set_status t .Waiting, wait_queue := s.wait_queue ++ [t] }

theorem read_loop_cases (s : State) (t : Nat) (hlen : 0 < len) :
    (s.data ≠ [] ∧ read_loop s t len =
      ({ s with data := s.data.drop len }, .read t len (s.data.take len))) ∨
    (s.data = [] ∧ s.write_ends = 0 ∧ read_loop s t len = (marked s t, .read t len [])) ∨
    (s.data = [] ∧ 0 < s.write_ends ∧
      read_loop s t len = ({ marked s t with readers := s.readers ++ [(t, len)] }, .nothing)) := by
  unfold read_loop drain
  by_cases hd : s.data = []
  · right
    simp only [hd, List.take_nil, List.drop_nil, List.length_nil, if_true,
      Nat.lt_irrefl, gt_iff_lt, if_false,
      true_and]
    by_cases hw : s.write_ends = 0
    · exact .inl ⟨hw, by simp [hw, hd, Condvar.wait, marked]⟩
    · exact .inr ⟨by omega, by simp [hw, hd, Condvar.wait, marked]⟩
  · left
    have hpos : 0 < (s.data.take len).length := by
      have := List.length_pos_iff.mpr hd
      rw [List.length_take]
      omega
    have hne : ¬ (s.data.take len).length = 0 := by omega
    simp only [hne, if_false, gt_iff_lt, hpos, if_true, and_true]
    exact hd

theorem resume_eq_ok (h : step s (.resume t) = .ok (s', o)) :
    ∃ len, (t, len) ∈ s.readers ∧ s.threads t = some .Ready ∧
      read_loop { s with readers := s.readers.filter (·.1 ≠ t) } t len = (s', o) := by
  simp only [step] at h
  cases hf : s.readers.find? (·.1 = t) with
  | none => simp [hf] at h
  | some r =>
    obtain ⟨u, len⟩ := r
    rw [hf] at h
    obtain ⟨hready, hr⟩ := permit_eq_ok h
    have hu : u = t := by simpa using List.find?_some hf
    subst hu
    exact ⟨len, List.mem_of_find?_eq_some hf, hready, hr⟩

/-! ## Bytes are neither lost nor duplicated -/

def Seen.bytes_read : Seen → List Byte
  | .read _ _ bytes => bytes
  | _ => []

def Seen.bytes_written : Seen → List Byte
  | .wrote buf => buf
  | _ => []

theorem read_loop_conserves (s : State) (t len : Nat) :
    (read_loop s t len).2.bytes_read ++ (read_loop s t len).1.data = s.data ∧
      (read_loop s t len).2.bytes_written = [] ∧ (read_loop s t len).1.read_ends = s.read_ends := by
  unfold read_loop drain
  have hsplit : s.data.take len ++ s.data.drop len = s.data := List.take_append_drop len s.data
  by_cases h0 : (s.data.take len).length = 0
  · have hnil : s.data.take len = [] := List.length_eq_zero_iff.mp h0
    rw [hnil] at hsplit
    by_cases hw : s.write_ends = 0
    · simp only [h0, if_true, gt_iff_lt, Nat.lt_irrefl, if_false, hw, and_true]
      exact ⟨hsplit, rfl⟩
    · simp only [h0, if_true, gt_iff_lt, Nat.lt_irrefl, if_false, hw, and_true]
      exact ⟨hsplit, rfl⟩
  · simp only [h0, if_false, gt_iff_lt, Nat.pos_of_ne_zero h0, if_true, and_true]
    exact ⟨hsplit, rfl⟩

theorem step_conserves (h : step s e = .ok (s', o)) (halive : 0 < s'.read_ends) :
    0 < s.read_ends ∧ o.bytes_read ++ s'.data = s.data ++ o.bytes_written := by
  cases e with
  | read t len =>
    obtain ⟨⟨_, _, hends⟩, hr⟩ := permit_eq_ok h
    refine ⟨hends, ?_⟩
    unfold read at hr
    split at hr
    · obtain ⟨rfl, rfl⟩ := Prod.mk.inj hr
      simp [Seen.bytes_read, Seen.bytes_written]
    · have hc := read_loop_conserves s t len
      rw [hr] at hc
      rw [hc.1, hc.2.1, List.append_nil]
  | resume t =>
    obtain ⟨len, _, _, hr⟩ := resume_eq_ok h
    have hc := read_loop_conserves { s with readers := s.readers.filter (·.1 ≠ t) } t len
    rw [hr] at hc
    refine ⟨hc.2.2 ▸ halive, ?_⟩
    rw [hc.1, hc.2.1, List.append_nil]
  | write buf =>
    obtain ⟨_, hr⟩ := permit_eq_ok h
    unfold write at hr
    split at hr
    · obtain ⟨rfl, rfl⟩ := Prod.mk.inj hr
      omega
    · obtain ⟨rfl, rfl⟩ := Prod.mk.inj hr
      exact ⟨halive, by simp [Seen.bytes_read, Seen.bytes_written]⟩
  | close_read =>
    obtain ⟨hlt, hr⟩ := permit_eq_ok h
    obtain ⟨rfl, rfl⟩ := Prod.mk.inj hr
    have hne : s.read_ends ≠ 1 := fun h1 => by simp [close_read, h1] at halive
    exact ⟨by omega, by simp [close_read, hne, Seen.bytes_read, Seen.bytes_written]⟩
  | dup_read =>
    obtain ⟨hends, hr⟩ := permit_eq_ok h
    obtain ⟨rfl, rfl⟩ := Prod.mk.inj hr
    exact ⟨hends, by simp [Seen.bytes_read, Seen.bytes_written]⟩
  | dup_write | close_write | exit t =>
    obtain ⟨_, hr⟩ := permit_eq_ok h
    obtain ⟨rfl, rfl⟩ := Prod.mk.inj hr
    exact ⟨halive, by simp [Seen.bytes_read, Seen.bytes_written]⟩
  | wake t =>
    obtain ⟨rfl, rfl⟩ := Prod.mk.inj (Except.ok.inj h)
    exact ⟨halive, by simp [Seen.bytes_read, Seen.bytes_written]⟩

theorem run_conserves {es : List Event} {os : List Seen} (h : run step s es = .ok (s', os))
    (halive : 0 < s'.read_ends) :
    0 < s.read_ends ∧ os.flatMap Seen.bytes_read ++ s'.data = s.data ++
      os.flatMap Seen.bytes_written := by
  induction es generalizing s os with
  | nil =>
    simp only [run, Except.ok.injEq, Prod.mk.injEq] at h
    obtain ⟨rfl, rfl⟩ := h
    exact ⟨halive, by simp⟩
  | cons e es ih =>
    obtain ⟨s₁, o, os', hstep, hrun, rfl⟩ := run_cons h
    obtain ⟨halive₁, hrest⟩ := ih hrun
    obtain ⟨halive₀, hone⟩ := step_conserves hstep halive₁
    refine ⟨halive₀, ?_⟩
    rw [List.flatMap_cons, List.flatMap_cons, List.append_assoc, hrest,
      ← List.append_assoc, hone, List.append_assoc]

theorem read_zero (h : step s e = .ok (s', .read t len [])) (hlen : 0 < len) :
    s'.data = [] ∧ s'.write_ends = 0 := by
  have hloop : ∀ {r : State} {u n : Nat}, read_loop r u n = (s', .read t len []) →
      s'.data = [] ∧ s'.write_ends = 0 := by
    intro r u n hr
    obtain rfl | hn := Nat.eq_zero_or_pos n
    · -- a turn with an empty buffer returns only if there is no write end, and its length is 0
      unfold read_loop drain at hr
      simp only [List.take_zero, List.length_nil, if_true, gt_iff_lt, Nat.lt_irrefl, if_false] at hr
      split at hr
      · simp only [Prod.mk.injEq, Seen.read.injEq] at hr
        omega
      · simp at hr
    · rcases read_loop_cases r u hn with ⟨hd, hc⟩ | ⟨hd, hw, hc⟩ | ⟨hd, hw, hc⟩
      · rw [hc] at hr
        simp only [Prod.mk.injEq, Seen.read.injEq] at hr
        have := hr.2.2.2
        rw [List.take_eq_nil_iff] at this
        rcases this with h0 | h0
        · omega
        · exact absurd h0 hd
      · rw [hc] at hr
        obtain ⟨rfl, _⟩ := Prod.mk.inj hr
        exact ⟨hd, hw⟩
      · rw [hc] at hr
        simp at hr
  cases e with
  | read u n =>
    obtain ⟨_, hr⟩ := permit_eq_ok h
    unfold read at hr
    split at hr
    · simp only [Prod.mk.injEq, Seen.read.injEq] at hr
      omega
    · exact hloop hr
  | resume u =>
    obtain ⟨n, _, _, hr⟩ := resume_eq_ok h
    exact hloop hr
  | write buf =>
    obtain ⟨_, hr⟩ := permit_eq_ok h
    unfold write at hr
    split at hr <;> simp at hr
  | close_read | dup_read | dup_write | close_write | exit u =>
    obtain ⟨_, hr⟩ := permit_eq_ok h
    simp at hr
  | wake u =>
    have := Except.ok.inj h
    simp at this

theorem broken_pipe (h : step s e = .ok (s', .broken_pipe)) : s.read_ends = 0 ∧ s' = s := by
  have hloop : ∀ {r : State} {u n : Nat}, read_loop r u n ≠ (s', .broken_pipe) := by
    intro r u n hr
    unfold read_loop at hr
    dsimp only at hr
    split at hr
    · simp at hr
    · split at hr <;> simp at hr
  cases e with
  | read u n =>
    obtain ⟨_, hr⟩ := permit_eq_ok h
    unfold read at hr
    split at hr
    · simp at hr
    · exact absurd hr hloop
  | resume u =>
    obtain ⟨n, _, _, hr⟩ := resume_eq_ok h
    exact absurd hr hloop
  | write buf =>
    obtain ⟨_, hr⟩ := permit_eq_ok h
    unfold write at hr
    split at hr
    · exact ⟨‹_›, (Prod.mk.inj hr).1.symm⟩
    · simp at hr
  | close_read | dup_read | dup_write | close_write | exit u =>
    obtain ⟨_, hr⟩ := permit_eq_ok h
    simp at hr
  | wake u =>
    have := Except.ok.inj h
    simp at this

/-- In every run of a new pipe: while the read end is alive, the bytes of all reads, in the order in
which the reads returned, and then the buffer are the bytes of all writes; `Ok(0)` means the end of
the file; and a write fails only without a read end, and stores nothing. -/
theorem pipe_conserves (es : List Event) (s : State) (os : List Seen)
    (h : run step create_pipe_pair es = .ok (s, os)) :
    (0 < s.read_ends → os.flatMap Seen.bytes_read ++ s.data = os.flatMap Seen.bytes_written) ∧
    (∀ e s' t len, step s e = .ok (s', .read t len []) → 0 < len → s'.data = [] ∧
      s'.write_ends = 0) ∧
    ∀ e s', step s e = .ok (s', .broken_pipe) → s.read_ends = 0 ∧ s' = s := by
  refine ⟨fun halive => ?_, fun e s' t len he hlen => read_zero he hlen,
    fun e s' he => broken_pipe he⟩
  have := (run_conserves h halive).2
  simpa [create_pipe_pair] using this

/-- Two readers: the second one gets what the first one left. -/
theorem pipe_conserves_two_readers : ∃ s os,
    run step create_pipe_pair [.read 1 1, .read 2 4, .write [7, 8], .resume 2] = .ok (s, os) ∧
    os.flatMap Seen.bytes_read ++ s.data = [7, 8] := by
  obtain ⟨r, hr⟩ := ok_of_isSome
    (show (run step create_pipe_pair [.read 1 1, .read 2 4, .write [7, 8],
      .resume 2]).toOption.isSome by decide)
  refine ⟨r.1, r.2, hr, ?_⟩
  have hseen :
    ((run step create_pipe_pair [.read 1 1, .read 2 4, .write [7, 8], .resume 2]).toOption.map
      fun r => (r.1.read_ends, r.2.flatMap Seen.bytes_written)) = some (1, [7, 8]) := by decide
  rw [hr] at hseen
  simp only [Except.toOption, Option.map_some, Option.some.injEq, Prod.mk.injEq] at hseen
  rw [← hseen.2]
  exact (pipe_conserves _ r.1 r.2 hr).1 (by omega)

/-! ## Who waits -/

/-- The next turn of the loop of `read` finds an empty buffer and no write end. -/
def AtEof (s : State) : Event → Prop
  | .read _ len => 0 < len ∧ s.data = [] ∧ s.write_ends = 0
  | .resume _ => s.data = [] ∧ s.write_ends = 0
  | _ => False

/-- As long as no read meets the end of the file, who waits is inside `read` and queued. -/
structure Queued (s : State) : Prop where
  lens : ∀ r ∈ s.readers, 0 < r.2
  inside : ∀ t ∈ s.wait_queue, t ∈ s.readers.map (·.1)
  cleared : s.data ≠ [] → s.wait_queue = []
  waiting : ∀ t, s.threads t = some .Waiting → t ∈ s.wait_queue

theorem queued_create : Queued create_pipe_pair :=
  ⟨by simp [create_pipe_pair], by simp [create_pipe_pair], by simp [create_pipe_pair], by simp [create_pipe_pair]⟩

theorem Queued.not_waiting (h : Queued s) (ht : t ∉ s.readers.map (·.1)) :
    s.threads t ≠ some .Waiting ∧ t ∉ s.wait_queue :=
  ⟨fun hw => ht (h.inside t (h.waiting t hw)), fun hq => ht (h.inside t hq)⟩

theorem queued_taken (h : Queued s) (hd : s.data ≠ [])
    {readers : List (Nat × Nat)} (hr : ∀ r ∈ readers, r ∈ s.readers) :
    Queued { s with data := s.data.drop len, readers := readers } := by
  have hq := h.cleared hd
  exact ⟨fun r hr' => h.lens r (hr r hr'), by simp [hq], fun _ => hq, h.waiting⟩

theorem queued_blocked (h : Queued s) (hlen : 0 < len) (hd : s.data = [])
    {readers : List (Nat × Nat)} (hr : ∀ r ∈ readers, r ∈ s.readers)
    (hr' : ∀ r ∈ s.readers, r.1 ≠ t → r ∈ readers) :
    Queued { marked { s with readers := readers } t with readers := readers ++ [(t, len)] } := by
  refine ⟨fun r hm => ?_, fun u hu => ?_, fun hne => absurd hd hne, fun u hu => ?_⟩
  · rcases List.mem_append.mp hm with hm | hm
    · exact h.lens r (hr r hm)
    · obtain rfl := List.mem_singleton.mp hm
      exact hlen
  · by_cases hut : u = t
    · simp [hut]
    · have hu : u ∈ s.wait_queue := by simpa [marked, hut] using hu
      obtain ⟨r, hm, rfl⟩ := List.mem_map.mp (h.inside u hu)
      exact List.mem_map.mpr ⟨r, List.mem_append_left _ (hr' r hm hut), rfl⟩
  · by_cases hut : u = t
    · simp [marked, hut]
    · have hu : s.threads u = some .Waiting := (Threads.set_status_ne hut).symm.trans hu
      simp [marked, h.waiting u hu]

theorem queued_read_loop (h : Queued s) (hlen : 0 < len) (heof : ¬ (s.data = [] ∧ s.write_ends = 0))
    {readers : List (Nat × Nat)} (hr : ∀ r ∈ readers, r ∈ s.readers)
    (hr' : ∀ r ∈ s.readers, r.1 ≠ t → r ∈ readers) :
    Queued (read_loop { s with readers := readers } t len).1 := by
  rcases read_loop_cases { s with readers := readers } t
    hlen with ⟨hd, hc⟩ | ⟨hd, hw, _⟩ | ⟨hd, _, hc⟩
  · rw [hc]
    exact queued_taken h hd hr
  · exact absurd ⟨hd, hw⟩ heof
  · rw [hc]
    exact queued_blocked h hlen hd hr hr'

theorem step_queued (h : Queued s) (heof : ¬ AtEof s e) (hstep : step s e = .ok (s', o)) :
    Queued s' := by
  cases e with
  | read t len =>
    obtain ⟨_, hr⟩ := permit_eq_ok hstep
    unfold read at hr
    split at hr
    · obtain ⟨rfl, _⟩ := Prod.mk.inj hr
      exact h
    · have hlen : 0 < len := by omega
      have := queued_read_loop (t := t) h hlen (fun hd => heof ⟨hlen, hd⟩)
        (fun r hr => hr) (fun r hr _ => hr)
      rw [hr] at this
      exact this
  | resume t =>
    obtain ⟨len, hmem, _, hr⟩ := resume_eq_ok hstep
    have hsub : ∀ r ∈ s.readers.filter (·.1 ≠ t), r ∈ s.readers :=
      fun r hr => (List.mem_filter.mp hr).1
    have hkeep : ∀ r ∈ s.readers, r.1 ≠ t → r ∈ s.readers.filter (·.1 ≠ t) :=
      fun r hr hne => List.mem_filter.mpr ⟨hr, by simpa using hne⟩
    have := queued_read_loop h (h.lens _ hmem) heof hsub hkeep
    rw [hr] at this
    exact this
  | write buf =>
    obtain ⟨_, hr⟩ := permit_eq_ok hstep
    unfold write at hr
    split at hr
    · obtain ⟨rfl, _⟩ := Prod.mk.inj hr
      exact h
    · obtain ⟨rfl, _⟩ := Prod.mk.inj hr
      refine ⟨h.lens, by simp, fun _ => rfl, fun t ht => ?_⟩
      obtain ⟨hnot, hw⟩ := Condvar.notify_all_waiting ht
      exact absurd (h.waiting t hw) hnot
  | close_read =>
    obtain ⟨_, hr⟩ := permit_eq_ok hstep
    obtain ⟨rfl, _⟩ := Prod.mk.inj hr
    refine ⟨h.lens, h.inside, fun hd => h.cleared fun h0 => hd ?_, h.waiting⟩
    simp [close_read, h0]
  | dup_read | dup_write | close_write =>
    obtain ⟨_, hr⟩ := permit_eq_ok hstep
    obtain ⟨rfl, _⟩ := Prod.mk.inj hr
    exact ⟨h.lens, h.inside, h.cleared, h.waiting⟩
  | wake t =>
    obtain ⟨rfl, _⟩ := Prod.mk.inj (Except.ok.inj hstep)
    exact ⟨h.lens, h.inside, h.cleared,
      fun u hu => h.waiting u (Threads.set_status_eq_waiting hu).2⟩
  | exit t =>
    obtain ⟨_, hr⟩ := permit_eq_ok hstep
    obtain ⟨rfl, _⟩ := Prod.mk.inj hr
    exact ⟨h.lens, h.inside, h.cleared, fun u hu => h.waiting u (Threads.drop_eq_some hu).2⟩

/-! ## Who can wake a reader -/

/-- A thread that waits because of `read` waits for bytes, and somebody can still send them. -/
def Wakeable (s : State) : Prop :=
  ∀ t, s.threads t = some .Waiting → s.data = [] ∧ t ∈ s.wait_queue ∧ 0 < s.write_ends

/-- No read meets the end of the file, and the last write end is not closed while a reader waits. -/
def Heard (s : State) (e : Event) : Prop :=
  ¬ AtEof s e ∧ (e = .close_write → s.write_ends = 1 → ∀ t, s.threads t ≠ some .Waiting)

theorem Queued.wakeable (h : Queued s) (hw : ∀ t, s.threads t = some .Waiting → 0 < s.write_ends) :
    Wakeable s := by
  intro t ht
  have hq := h.waiting t ht
  refine ⟨?_, hq, hw t ht⟩
  by_contra hd
  rw [h.cleared hd] at hq
  simp at hq

theorem read_loop_wakeable (hlen : 0 < len) (heof : ¬ (s.data = [] ∧ s.write_ends = 0))
    (hw : ∀ u, s.threads u = some .Waiting → 0 < s.write_ends) (u : Nat) :
    (read_loop s t len).1.threads u = some .Waiting → 0 < (read_loop s t len).1.write_ends := by
  rcases read_loop_cases s t hlen with ⟨_, hc⟩ | ⟨hd, h0, _⟩ | ⟨_, hpos, hc⟩
  · rw [hc]
    exact hw u
  · exact absurd ⟨hd, h0⟩ heof
  · rw [hc]
    exact fun _ => hpos

theorem step_wakeable (h : Queued s) (hw : Wakeable s) (hc : Heard s e)
    (hstep : step s e = .ok (s', o)) :
    Wakeable s' := by
  refine (step_queued h hc.1 hstep).wakeable ?_
  have hw : ∀ u, s.threads u = some .Waiting → 0 < s.write_ends := fun u hu => (hw u hu).2.2
  intro u
  cases e with
  | read t len =>
    obtain ⟨_, hr⟩ := permit_eq_ok hstep
    unfold read at hr
    split at hr
    · obtain ⟨rfl, _⟩ := Prod.mk.inj hr
      exact hw u
    · have hlen : 0 < len := by omega
      have := read_loop_wakeable (t := t) hlen (fun hd => hc.1 ⟨hlen, hd⟩) hw u
      rwa [hr] at this
  | resume t =>
    obtain ⟨len, hmem, _, hr⟩ := resume_eq_ok hstep
    have := read_loop_wakeable (s := { s with readers := s.readers.filter (·.1 ≠ t) })
      (t := t) (h.lens _ hmem) hc.1 hw u
    rwa [hr] at this
  | write buf =>
    obtain ⟨hpos, hr⟩ := permit_eq_ok hstep
    unfold write at hr
    split at hr
    · obtain ⟨rfl, _⟩ := Prod.mk.inj hr
      exact hw u
    · obtain ⟨rfl, _⟩ := Prod.mk.inj hr
      exact fun _ => hpos
  | close_write =>
    obtain ⟨hpos, hr⟩ := permit_eq_ok hstep
    obtain ⟨rfl, _⟩ := Prod.mk.inj hr
    intro hu
    have hne : s.write_ends ≠ 1 := fun h1 => hc.2 rfl h1 u hu
    show 0 < s.write_ends - 1
    omega
  | dup_write =>
    obtain ⟨_, hr⟩ := permit_eq_ok hstep
    obtain ⟨rfl, _⟩ := Prod.mk.inj hr
    exact fun _ => Nat.succ_pos _
  | dup_read | close_read =>
    obtain ⟨_, hr⟩ := permit_eq_ok hstep
    obtain ⟨rfl, _⟩ := Prod.mk.inj hr
    exact hw u
  | wake t =>
    obtain ⟨rfl, _⟩ := Prod.mk.inj (Except.ok.inj hstep)
    exact fun hu => hw u (Threads.set_status_eq_waiting hu).2
  | exit t =>
    obtain ⟨_, hr⟩ := permit_eq_ok hstep
    obtain ⟨rfl, _⟩ := Prod.mk.inj hr
    exact fun hu => hw u (Threads.drop_eq_some hu).2

/-- In every run of a new pipe in which no read meets the end of the file and nobody closes the last
write end over a sleeping reader, every sleeping reader can be woken. -/
theorem waiting_reader_wakeable (es : List Event) (s : State) (os : List Seen)
    (hc : Meets step Heard create_pipe_pair es) (h : run step create_pipe_pair es = .ok (s, os)) :
    Wakeable s := by
  refine (run_invariant_of_meets (fun s => Queued s ∧ Wakeable s) ?_ ⟨queued_create, ?_⟩ hc h).2
  · exact fun s e s' o hi hc hstep =>
      ⟨step_queued hi.1 hc.1 hstep, step_wakeable hi.1 hi.2 hc hstep⟩
  · intro t ht
    simp [create_pipe_pair] at ht

/-- A reader sleeps, and one of two write ends is closed. -/
theorem waiting_reader_wakeable_one_writer : ∃ s os,
    run step create_pipe_pair [.read 1 1, .dup_write, .close_write] = .ok (s, os) ∧
    s.threads 1 = some .Waiting ∧ Wakeable s := by
  obtain ⟨r, hr⟩ := ok_of_isSome
    (show (run step create_pipe_pair [.read 1 1, .dup_write,
      .close_write]).toOption.isSome by decide)
  have hseen : ((run step create_pipe_pair [.read 1 1, .dup_write, .close_write]).toOption.map
      fun r => r.1.threads 1) = some (some .Waiting) := by decide
  rw [hr] at hseen
  refine ⟨r.1, r.2, hr, Option.some.inj hseen, waiting_reader_wakeable _ r.1 r.2 ?_ hr⟩
  refine ⟨⟨by simp [AtEof, create_pipe_pair], by simp⟩, fun s₁ o₁ h₁ => ?_⟩
  refine ⟨⟨by simp [AtEof], by simp⟩, fun s₂ o₂ h₂ => ?_⟩
  refine ⟨⟨by simp [AtEof], fun _ h1 => ?_⟩, fun _ _ _ => trivial⟩
  obtain ⟨_, h₂⟩ := permit_eq_ok h₂
  obtain ⟨rfl, _⟩ := Prod.mk.inj h₂
  have : s₁.write_ends = 0 := Nat.succ.inj h1
  omega

/-- The write end is closed while a reader sleeps: nobody wakes it any more. -/
theorem closed_write_end_strands_reader :
    ¬ ∀ es s os, run step create_pipe_pair es = .ok (s, os) → Wakeable s := by
  intro h
  obtain ⟨r, hr⟩ := ok_of_isSome
    (show (run step create_pipe_pair [.read 1 1, .close_write]).toOption.isSome by decide)
  have hseen : ((run step create_pipe_pair [.read 1 1, .close_write]).toOption.map
      fun r => (r.1.threads 1, r.1.write_ends)) = some (some .Waiting, 0) := by decide
  rw [hr] at hseen
  simp only [Except.toOption, Option.map_some, Option.some.injEq, Prod.mk.injEq] at hseen
  have := (h _ r.1 r.2 hr 1 hseen.1).2.2
  omega

/-! ## How a read returns -/

/-- The thread can be dispatched again: it is not marked and not queued. -/
def Dispatchable (s : State) (t : Nat) : Prop := s.threads t ≠ some .Waiting ∧ t ∉ s.wait_queue

theorem read_loop_returns (h : Queued s) (hlen : 0 < len)
    {readers : List (Nat × Nat)} {u n : Nat} {bytes : List Byte}
    (hr : read_loop { s with readers := readers } t len = (s', .read u n bytes)) :
    Dispatchable s' u ↔ ¬ (s.data = [] ∧ s.write_ends = 0) := by
  rcases read_loop_cases { s with readers := readers } t
    hlen with ⟨hd, hc⟩ | ⟨hd, h0, hc⟩ | ⟨_, _, hc⟩
  · rw [hc] at hr
    obtain ⟨rfl, _⟩ := Prod.mk.inj hr
    have hq := h.cleared hd
    refine ⟨fun _ he => hd he.1, fun _ => ⟨fun hw => ?_, ?_⟩⟩
    · have := h.waiting u hw
      simp [hq] at this
    · simp [hq]
  · rw [hc] at hr
    simp only [Prod.mk.injEq, Seen.read.injEq] at hr
    obtain ⟨rfl, rfl, _⟩ := hr
    refine ⟨fun hdis => absurd ?_ hdis.2, fun hne => absurd ⟨hd, h0⟩ hne⟩
    simp [marked]
  · rw [hc] at hr
    simp at hr

theorem step_returns (h : Queued s) {bytes : List Byte}
    (hstep : step s e = .ok (s', .read t len bytes)) :
    Dispatchable s' t ↔ ¬ AtEof s e := by
  cases e with
  | read u n =>
    obtain ⟨⟨_, hnot, _⟩, hr⟩ := permit_eq_ok hstep
    unfold read at hr
    split at hr
    · simp only [Prod.mk.injEq, Seen.read.injEq] at hr
      obtain ⟨rfl, rfl, _⟩ := hr
      refine ⟨fun _ he => ?_, fun _ => h.not_waiting hnot⟩
      have := he.1
      omega
    · have hn : 0 < n := by omega
      rw [read_loop_returns h hn hr]
      exact ⟨fun he hc => he hc.2, fun he hc => he ⟨hn, hc⟩⟩
  | resume u =>
    obtain ⟨n, hmem, _, hr⟩ := resume_eq_ok hstep
    exact read_loop_returns h (h.lens _ hmem) hr
  | write buf =>
    obtain ⟨_, hr⟩ := permit_eq_ok hstep
    unfold write at hr
    split at hr <;> simp at hr
  | close_read | dup_read | dup_write | close_write | exit u =>
    obtain ⟨_, hr⟩ := permit_eq_ok hstep
    simp at hr
  | wake u =>
    have := Except.ok.inj hstep
    simp at this

/-- After any run in which no read met the end of the file, a call of `read` that returns leaves its
thread dispatchable if and only if it does not return at the end of the file either. -/
theorem read_returns_dispatchable_iff (es : List Event) (s : State)
    (os : List Seen) (hc : Meets step (fun s e => ¬ AtEof s e) create_pipe_pair es)
    (h : run step create_pipe_pair es = .ok (s, os)) (e : Event) (s' : State)
    (t len : Nat) (bytes : List Byte) (hstep : step s e = .ok (s', .read t len bytes)) :
    Dispatchable s' t ↔ ¬ AtEof s e := by
  have hq := run_invariant_of_meets Queued
    (fun s e s' o hi hc hstep => step_queued hi hc hstep) queued_create hc h
  exact step_returns hq hstep

/-- A reader sleeps, is woken by a write and returns. -/
theorem read_returns_dispatchable_after_write : ∃ s os s',
    run step create_pipe_pair [.read 1 1, .write [7]] = .ok (s, os) ∧
    step s (.resume 1) = .ok (s', .read 1 1 [7]) ∧ Dispatchable s' 1 := by
  let woken : Threads := Condvar.notify_all (create_pipe_pair.threads.set_status 1 .Waiting) [1]
  have hrun : run step create_pipe_pair [.read 1 1, .write [7]] =
      .ok (⟨[7], [], 1, 1, woken, [(1, 1)]⟩, [.nothing, .wrote [7]]) := rfl
  have hstep : step ⟨[7], [], 1, 1, woken, [(1, 1)]⟩ (.resume 1) =
      .ok (⟨[], [], 1, 1, woken, []⟩, .read 1 1 [7]) := rfl
  refine ⟨_, _, _, hrun, hstep,
    (read_returns_dispatchable_iff _ _ _ ?_ hrun _ _ _ _ _ hstep).mpr ?_⟩
  · refine ⟨by simp [AtEof, create_pipe_pair], fun s₁ o₁ h₁ => ?_⟩
    exact ⟨by simp [AtEof], fun _ _ _ => trivial⟩
  · simp [AtEof]

/-- A read at the end of the file returns with its thread marked as waiting. -/
theorem read_at_eof_marks_reader :
    ¬ ∀ es s os e s' t len bytes, run step create_pipe_pair es = .ok (s, os) →
      step s e = .ok (s', .read t len bytes) → Dispatchable s' t := by
  intro h
  have hrun : run step create_pipe_pair [.close_write] = .ok (_, _) := rfl
  have hdis := h _ _ _ (.read 1 1) _ _ _ _ hrun rfl
  exact hdis.1 rfl

end HectoOs.Fs.Pipe
