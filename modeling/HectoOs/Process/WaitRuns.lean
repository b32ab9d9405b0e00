import HectoOs.Process.Wait

/-! # Runs of `exit` and `sys_wait4`

What is pushed to `child_exited` is taken once, a parent that sleeps has nothing to take, and a
thread number is given back once.
-/

open HectoOs.Lib HectoOs.Sync

namespace HectoOs.Wait

variable {s s' : State} {e : Event} {o : Seen} {i j : Nat} {pid wstatus : BitVec 64}

/-! ## Every exit is reported once -/

/-- The entries pushed to `child_exited` of `p`. -/
def Seen.exits (p : Nat) : Seen → List Exited
  | .exited parent child pid status => if parent = p then [⟨pid, child, status &&& 0xFF⟩] else []
  | _ => []

/-- The entries for which `sys_wait4` of `p` returned. -/
def Seen.returns (p : Nat) : Seen → List Exited
  | .waited i entry _ _ => if i = p then [entry] else []
  | _ => []

/-- No `sys_wait4` asks for a pid that two entries have. -/
def Unambiguous (s : State) : Event → Prop
  | .wait4 i pid _ => Single (s.procs i).child_exited pid
  | .resume i => ∀ w ∈ s.waiting, w.1 = i → Single (s.procs i).child_exited w.2.1
  | _ => True

instance (l : List Exited) (pid : BitVec 64) : Decidable (Single l pid) :=
  inferInstanceAs (Decidable (_ → _))

instance (s : State) (e : Event) : Decidable (Unambiguous s e) :=
  match e with
  | .wait4 i pid _ => inferInstanceAs (Decidable (Single (s.procs i).child_exited pid))
  | .resume i =>
    inferInstanceAs (Decidable (∀ w ∈ s.waiting, w.1 = i → Single (s.procs i).child_exited w.2.1))
  | .spawn | .fork _ | .exit _ _ | .drop _ | .block _ | .wake _ => isTrue trivial

theorem wait_loop_reports (hone : Single (s.procs i).child_exited pid)
    (wstatus : BitVec 64) (p : Nat) :
    ((s.procs p).child_exited ++ (wait_loop s i pid wstatus).2.exits p).Perm
      ((wait_loop s i pid wstatus).2.returns p ++
        ((wait_loop s i pid wstatus).1.procs p).child_exited) := by
  rcases wait_loop_cases s i pid wstatus with ⟨entry, rest, heq, hperm⟩ | ⟨heq, _⟩
  · rw [heq]
    by_cases hp : p = i
    · subst hp
      simpa [Seen.exits, Seen.returns] using hperm hone
    · have hne : i ≠ p := fun h => hp h.symm
      simp [Seen.exits, Seen.returns, hne, modify_ne hp]
  · rw [heq]
    by_cases hp : p = i
    · subst hp
      simp [Seen.exits, Seen.returns]
    · have hsame : (s.modify i fun p => { p with wake_callbacks := p.wake_callbacks ++ [i] }).procs
        p = s.procs p :=
        modify_ne hp
      simp [Seen.exits, Seen.returns, hsame]

theorem notify_parent_child_exited {parent : Nat} {entry : Exited} (p : Nat) :
    ((notify_parent s parent entry).procs p).child_exited =
      (s.procs p).child_exited ++ if parent = p then [entry] else [] := by
  have hsame : ∀ f : Process → Process, (f (s.procs parent)).child_exited =
    (s.procs parent).child_exited ++ [entry] →
      ((s.modify parent f).procs p).child_exited = (s.procs p).child_exited ++
        if parent = p then [entry] else [] := by
    intro f hf
    by_cases hp : p = parent
    · subst hp
      simp [hf]
    · have hne : parent ≠ p := fun h => hp h.symm
      simp [modify_ne hp, hne]
  rcases notify_parent_cases s parent entry with ⟨t, rest, _, heq⟩ | ⟨_, heq⟩
  · rw [heq]
    exact hsame (fun p => { p with
      child_exited := p.child_exited ++ [entry], wake_callbacks := rest }) rfl
  · rw [heq]
    exact hsame (fun p => { p with child_exited := p.child_exited ++ [entry] }) rfl

theorem add_child_exited (h : Placed s) (parent p : Nat) :
    ((add s parent).procs p).child_exited = (s.procs p).child_exited := by
  by_cases hp : p = s.count
  · rw [hp, h.fresh s.count (Nat.le_refl _)]
    simp [add]
  · simp [add, hp]

theorem step_reports (h : Placed s) (hc : Unambiguous s e)
    (hstep : step s e = .ok (s', o)) (p : Nat) :
    ((s.procs p).child_exited ++ o.exits p).Perm (o.returns p ++ (s'.procs p).child_exited) := by
  cases e with
  | spawn =>
    obtain ⟨rfl, rfl⟩ := Prod.mk.inj (Except.ok.inj hstep)
    rw [add_child_exited h]
    simp [Seen.exits, Seen.returns]
  | fork i =>
    obtain ⟨_, hr⟩ := permit_eq_ok hstep
    obtain ⟨rfl, rfl⟩ := Prod.mk.inj hr
    have hsame : ((fork s i).procs p).child_exited = ((add s i).procs p).child_exited := by
      by_cases hp : p = i
      · simp [fork, State.modify, hp]
      · simp [fork, State.modify, hp]
    rw [hsame, add_child_exited h]
    simp [Seen.exits, Seen.returns]
  | exit i status =>
    obtain ⟨_, hr⟩ := permit_eq_ok hstep
    rcases exit_cases s i status with ⟨parent, _, _, heq⟩ | ⟨_, heq⟩
    · rw [heq] at hr
      obtain ⟨rfl, rfl⟩ := Prod.mk.inj hr
      rw [notify_parent_child_exited]
      exact List.Perm.refl _
    · rw [heq] at hr
      obtain ⟨rfl, rfl⟩ := Prod.mk.inj hr
      simp [Seen.exits, Seen.returns, gone]
  | drop i =>
    obtain ⟨tids, _, _, _, _, rfl, rfl⟩ := drop_eq_ok hstep
    simp [Seen.exits, Seen.returns]
  | wait4 i pid wstatus =>
    obtain ⟨_, _, hr⟩ := wait4_eq_ok hstep
    have := wait_loop_reports hc wstatus p
    rwa [hr] at this
  | resume i =>
    obtain ⟨pid, wstatus, hmem, _, _, hr⟩ := resume_eq_ok hstep
    have := wait_loop_reports (s := { s with waiting := s.waiting.filter (·.1 ≠ i) })
      (hc _ hmem rfl) wstatus p
    rwa [hr] at this
  | block i =>
    obtain ⟨_, hr⟩ := permit_eq_ok hstep
    obtain ⟨rfl, rfl⟩ := Prod.mk.inj hr
    simp [Seen.exits, Seen.returns]
  | wake i =>
    obtain ⟨rfl, rfl⟩ := Prod.mk.inj (Except.ok.inj hstep)
    simp [Seen.exits, Seen.returns]

theorem run_reports {es : List Event} {os : List Seen} (h : Placed s)
    (hc : Meets step Unambiguous s es) (hrun : run step s es = .ok (s', os)) (p : Nat) :
    ((s.procs p).child_exited ++ os.flatMap (Seen.exits p)).Perm
      (os.flatMap (Seen.returns p) ++ (s'.procs p).child_exited) := by
  induction es generalizing s os with
  | nil =>
    simp only [run, Except.ok.injEq, Prod.mk.injEq] at hrun
    obtain ⟨rfl, rfl⟩ := hrun
    simp
  | cons e es ih =>
    obtain ⟨s₁, o, os', hstep, hrun', rfl⟩ := run_cons hrun
    have hone := step_reports h hc.1 hstep p
    have hrest := ih (step_placed h hstep) (hc.2 s₁ o hstep) hrun'
    rw [List.flatMap_cons, List.flatMap_cons, ← List.append_assoc]
    refine (hone.append_right _).trans ?_
    rw [List.append_assoc, List.append_assoc]
    exact hrest.append_left _

theorem step_scheduled (hstep : step s e = .ok (s', o)) :
    s.count ≤ s'.count ∧ (∀ i ∈ s'.scheduled, i ∈ s.scheduled ∨ s.count ≤ i) ∧
      ∀ p, ∀ entry ∈ o.exits p, entry.child ∈ s.scheduled ∧ entry.child ∉ s'.scheduled := by
  have hloop : ∀ {waiting pid wstatus i}, wait_loop { s with waiting } i pid wstatus = (s', o) →
      s'.count = s.count ∧ s'.scheduled = s.scheduled ∧ ∀ p, o.exits p = [] := by
    intro waiting pid wstatus i hr
    rcases wait_loop_cases { s with waiting } i pid wstatus with ⟨entry, rest, heq, _⟩ | ⟨heq, _⟩
    · rw [heq] at hr
      obtain ⟨rfl, rfl⟩ := Prod.mk.inj hr
      exact ⟨rfl, rfl, fun _ => rfl⟩
    · rw [heq] at hr
      obtain ⟨rfl, rfl⟩ := Prod.mk.inj hr
      exact ⟨rfl, rfl, fun _ => rfl⟩
  have hadd : ∀ i ∈ s.scheduled ++ [s.count], i ∈ s.scheduled ∨ s.count ≤ i := by
    intro i hi
    rcases List.mem_append.mp hi with hi | hi
    · exact .inl hi
    · exact .inr (Nat.le_of_eq (List.mem_singleton.mp hi).symm)
  cases e with
  | spawn =>
    obtain ⟨rfl, rfl⟩ := Prod.mk.inj (Except.ok.inj hstep)
    exact ⟨Nat.le_succ _, hadd, by simp [Seen.exits]⟩
  | fork i =>
    obtain ⟨_, hr⟩ := permit_eq_ok hstep
    obtain ⟨rfl, rfl⟩ := Prod.mk.inj hr
    exact ⟨Nat.le_succ _, hadd, by simp [Seen.exits]⟩
  | exit i status =>
    obtain ⟨hi, hr⟩ := permit_eq_ok hstep
    have hleft : ∀ j ∈ s.scheduled.filter (· ≠ i), j ∈ s.scheduled ∨ s.count ≤ j :=
      fun j hj => .inl (List.mem_filter.mp hj).1
    rcases exit_cases s i status with ⟨parent, _, _, heq⟩ | ⟨_, heq⟩
    · rw [heq] at hr
      obtain ⟨rfl, rfl⟩ := Prod.mk.inj hr
      have hkeep :
        (notify_parent (gone s i) parent ⟨(s.procs i).pid, i, status &&& 0xFF⟩).count = s.count ∧
          (notify_parent (gone s i) parent ⟨(s.procs i).pid, i, status &&& 0xFF⟩).scheduled =
            s.scheduled.filter (· ≠ i) := by
        rcases notify_parent_cases (gone s i) parent ⟨(s.procs i).pid, i, status &&& 0xFF⟩ with
          ⟨t, rest, _, heq⟩ | ⟨_, heq⟩
        · rw [heq]
          exact ⟨rfl, rfl⟩
        · rw [heq]
          exact ⟨rfl, rfl⟩
      rw [hkeep.1, hkeep.2]
      refine ⟨Nat.le_refl _, hleft, fun p entry hm => ?_⟩
      simp only [Seen.exits] at hm
      split at hm
      · rw [List.mem_singleton.mp hm]
        exact ⟨hi.1, by simp⟩
      · simp at hm
    · rw [heq] at hr
      obtain ⟨rfl, rfl⟩ := Prod.mk.inj hr
      exact ⟨Nat.le_refl _, hleft, by simp [Seen.exits]⟩
  | drop i =>
    obtain ⟨tids, _, _, _, _, rfl, rfl⟩ := drop_eq_ok hstep
    exact ⟨Nat.le_refl _, fun _ hi => .inl hi, by simp [Seen.exits]⟩
  | wait4 i pid wstatus =>
    obtain ⟨_, _, hr⟩ := wait4_eq_ok hstep
    obtain ⟨hcount, hsched, hnone⟩ := hloop hr
    exact ⟨by omega, fun _ hi => .inl (hsched ▸ hi), by simp [hnone]⟩
  | resume i =>
    obtain ⟨pid, wstatus, _, _, _, hr⟩ := resume_eq_ok hstep
    obtain ⟨hcount, hsched, hnone⟩ := hloop hr
    exact ⟨by omega, fun _ hi => .inl (hsched ▸ hi), by simp [hnone]⟩
  | block i =>
    obtain ⟨_, hr⟩ := permit_eq_ok hstep
    obtain ⟨rfl, rfl⟩ := Prod.mk.inj hr
    exact ⟨Nat.le_refl _, fun _ hi => .inl hi, by simp [Seen.exits]⟩
  | wake i =>
    obtain ⟨rfl, rfl⟩ := Prod.mk.inj (Except.ok.inj hstep)
    exact ⟨Nat.le_refl _, fun _ hi => .inl hi, by simp [Seen.exits]⟩

theorem run_exits_nodup {es : List Event} {os : List Seen} (h : Placed s)
    (hrun : run step s es = .ok (s', os)) (p : Nat) :
    ((os.flatMap (Seen.exits p)).map Exited.child).Nodup ∧
      ∀ entry ∈ os.flatMap (Seen.exits p), entry.child ∈ s.scheduled ∨ s.count ≤ entry.child := by
  induction es generalizing s os with
  | nil =>
    simp only [run, Except.ok.injEq, Prod.mk.injEq] at hrun
    obtain ⟨rfl, rfl⟩ := hrun
    simp
  | cons e es ih =>
    obtain ⟨s₁, o, os', hstep, hrun', rfl⟩ := run_cons hrun
    obtain ⟨hcount, hsched, hout⟩ := step_scheduled hstep
    obtain ⟨hnodup, hwhere⟩ := ih (step_placed h hstep) hrun'
    rw [List.flatMap_cons, List.map_append]
    refine ⟨List.nodup_append.mpr ⟨?_, hnodup, ?_⟩, fun entry hm => ?_⟩
    · cases o with
      | exited parent child pid status =>
        simp only [Seen.exits]
        split <;> simp
      | _ => simp [Seen.exits]
    · -- who exits in this step is below the count and no longer scheduled
      intro c hc d hd heq
      obtain ⟨entry, hm, rfl⟩ := List.mem_map.mp hc
      obtain ⟨entry', hm', rfl⟩ := List.mem_map.mp hd
      obtain ⟨hin, hnot⟩ := hout p entry hm
      have hlt := h.scheduled _ hin
      rcases hwhere entry' hm' with hw | hw
      · exact hnot (heq ▸ hw)
      · omega
    · rcases List.mem_append.mp hm with hm | hm
      · exact .inl (hout p entry hm).1
      · rcases hwhere entry hm with hw | hw
        · exact hsched _ hw
        · exact .inr (by omega)

/-- The call returns the child's own pid and stores its status. -/
def Seen.Own : Seen → Prop
  | .waited _ entry cpid stored =>
    cpid = BitVec.ofNat 64 entry.pid ∧ ∀ v ∈ stored, v = entry.status <<< 8
  | _ => True

theorem wait_loop_own (hr : wait_loop s i pid wstatus = (s', o)) : o.Own := by
  rcases wait_loop_cases s i pid wstatus with ⟨entry, rest, heq, _⟩ | ⟨heq, _⟩
  · rw [heq] at hr
    obtain ⟨_, rfl⟩ := Prod.mk.inj hr
    refine ⟨rfl, fun v hv => ?_⟩
    split at hv
    · simp at hv
    · exact (Option.mem_some_iff.mp hv).symm
  · rw [heq] at hr
    obtain ⟨_, rfl⟩ := Prod.mk.inj hr
    trivial

theorem step_own (s : State) (e : Event) (s' : State) (o : Seen)
    (hstep : step s e = .ok (s', o)) : o.Own := by
  cases e with
  | wait4 i pid wstatus => exact wait_loop_own (wait4_eq_ok hstep).2.2
  | resume i =>
    obtain ⟨pid, wstatus, _, _, _, hr⟩ := resume_eq_ok hstep
    exact wait_loop_own hr
  | exit i status =>
    obtain ⟨_, hr⟩ := permit_eq_ok hstep
    rcases exit_cases s i status with ⟨parent, _, _, heq⟩ | ⟨_, heq⟩
    all_goals
      rw [heq] at hr
      obtain ⟨_, rfl⟩ := Prod.mk.inj hr
      trivial
  | drop i =>
    obtain ⟨tids, _, _, _, _, _, rfl⟩ := drop_eq_ok hstep
    trivial
  | fork i | block i =>
    obtain ⟨_, hr⟩ := permit_eq_ok hstep
    obtain ⟨_, rfl⟩ := Prod.mk.inj hr
    trivial
  | spawn | wake i =>
    obtain ⟨_, rfl⟩ := Prod.mk.inj (Except.ok.inj hstep)
    trivial

/-- In every run in which no `sys_wait4` asks for a pid that two entries have, the entries pushed
for the children of a process are those it was told about and those that are left; no child exits
twice; and what `sys_wait4` returns is the child's own. -/
theorem exits_reported_once (es : List Event) (s : State) (os : List Seen)
    (hc : Meets step Unambiguous boot es) (h : run step boot es = .ok (s, os)) (p : Nat) :
    (os.flatMap (Seen.exits p)).Perm (os.flatMap (Seen.returns p) ++ (s.procs p).child_exited) ∧
    (os.flatMap (Seen.returns p)).length + (s.procs p).child_exited.length =
      (os.flatMap (Seen.exits p)).length ∧
    ((os.flatMap (Seen.exits p)).map Exited.child).Nodup ∧ ∀ o ∈ os, o.Own := by
  have hperm : (os.flatMap (Seen.exits p)).Perm
    (os.flatMap (Seen.returns p) ++ (s.procs p).child_exited) := by
    simpa [boot] using run_reports placed_boot hc h p
  refine ⟨hperm, ?_, (run_exits_nodup placed_boot h p).1, run_observes step_own h⟩
  rw [hperm.length_eq, List.length_append]

/-- Two children exit and the first one is waited for. -/
theorem exits_reported_once_two_children : ∃ s os,
    run step boot [.spawn, .fork 1, .fork 1, .exit 2 7, .exit 3 8, .wait4 1 2 0] = .ok (s, os) ∧
    (os.flatMap (Seen.returns 1)).length + (s.procs 1).child_exited.length = 2 := by
  obtain ⟨r, hr⟩ := ok_of_isSome
    (show (run step boot [.spawn, .fork 1, .fork 1, .exit 2 7, .exit 3 8,
      .wait4 1 2 0]).toOption.isSome by decide)
  refine ⟨r.1, r.2, hr, ?_⟩
  have hseen :
    ((run step boot [.spawn, .fork 1, .fork 1, .exit 2 7, .exit 3 8, .wait4 1 2 0]).toOption.map
      fun r => (r.2.flatMap (Seen.exits 1)).length) = some 2 := by decide
  rw [hr] at hseen
  rw [← Option.some.inj hseen]
  exact (exits_reported_once _ r.1 r.2 (by decide) hr 1).2.1

/-- A pid is recycled while its entry waits; asking for it loses one of the two entries. -/
theorem recycled_pid_loses_exit :
    ¬ ∀ es s os p, run step boot es = .ok (s, os) →
      (os.flatMap (Seen.returns p)).length + (s.procs p).child_exited.length =
        (os.flatMap (Seen.exits p)).length := by
  intro h
  obtain ⟨r, hr⟩ := ok_of_isSome (show (run step boot
    [.spawn, .fork 1, .exit 2 7, .drop 2, .fork 1, .exit 3 8,
      .wait4 1 2 0]).toOption.isSome by decide)
  have hseen : ((run step boot [.spawn, .fork 1, .exit 2 7, .drop 2, .fork 1,
    .exit 3 8, .wait4 1 2 0]).toOption.map
      fun r => ((r.2.flatMap (Seen.returns 1)).length, (r.1.procs 1).child_exited.length,
        (r.2.flatMap (Seen.exits 1)).length)) = some (1, 0, 2) := by decide
  rw [hr] at hseen
  simp only [Except.toOption, Option.map_some, Option.some.injEq, Prod.mk.injEq] at hseen
  have := h _ r.1 r.2 1 hr
  omega

/-! ## No exit is slept through -/

/-- A thread that waits because of `sys_wait4` has no entry to take, and a callback that wakes
it. -/
def Asleep (s : State) : Prop :=
  ∀ w ∈ s.waiting, s.threads w.1 = some .Waiting →
    (∀ entry ∈ (s.procs w.1).child_exited, ¬ entry.Is w.2.1) ∧ w.1 ∈ (s.procs w.1).wake_callbacks

theorem Asleep.congr (h : Asleep s) (hw : ∀ w ∈ s'.waiting, w ∈ s.waiting)
    (hp : ∀ w ∈ s'.waiting, s'.threads w.1 = some .Waiting →
      s.threads w.1 = some .Waiting ∧ (s'.procs w.1).child_exited = (s.procs w.1).child_exited ∧
        (s'.procs w.1).wake_callbacks = (s.procs w.1).wake_callbacks) : Asleep s' := by
  intro w hm ht
  obtain ⟨ht', hexit, hcb⟩ := hp w hm ht
  rw [hexit, hcb]
  exact h w (hw w hm) ht'

theorem Running.ne (h : Running s i) {w : Nat × BitVec 64 × BitVec 64}
    (hw : w ∈ s.waiting) : w.1 ≠ i :=
  fun heq => h.2 (heq ▸ List.mem_map_of_mem hw)

theorem Asleep.add (h : Asleep s) (hp : Placed s) (parent : Nat) : Asleep (add s parent) := by
  refine h.congr (fun w hw => hw) fun w hw ht => ?_
  have hne : w.1 ≠ s.count := Nat.ne_of_lt (hp.scheduled _ (hp.waiting w hw))
  have hproc : (Wait.add s parent).procs w.1 = s.procs w.1 := if_neg hne
  have hthread : (Wait.add s parent).threads w.1 = s.threads w.1 := if_neg hne
  rw [hthread] at ht
  exact ⟨ht, by rw [hproc], by rw [hproc]⟩

theorem Asleep.notify_parent (h : Asleep s) (hp : Placed s) (parent : Nat) (entry : Exited) :
    Asleep (notify_parent s parent entry) := by
  rcases notify_parent_cases s parent entry with ⟨t, rest, hcb, heq⟩ | ⟨hcb, heq⟩
  · have ht : t = parent := hp.own parent t (by simp [hcb])
    subst ht
    rw [heq]
    refine h.congr (fun w hw => hw) fun w hw hwait => ?_
    obtain ⟨hne, hwait⟩ := Threads.set_status_eq_waiting hwait
    have hproc : (s.modify t fun p => { p with
      child_exited := p.child_exited ++ [entry], wake_callbacks := rest }).procs
        w.1 = s.procs w.1 := modify_ne hne
    exact ⟨hwait, congrArg _ hproc, congrArg _ hproc⟩
  · rw [heq]
    refine h.congr (fun w hw => hw) fun w hw hwait => ?_
    have hne : w.1 ≠ parent := fun heq => by
      have := (h w hw hwait).2
      rw [heq, hcb] at this
      simp at this
    rw [modify_ne hne]
    exact ⟨hwait, rfl, rfl⟩

theorem Asleep.wait_loop (h : Asleep s) {waiting : List (Nat × BitVec 64 × BitVec 64)}
    (ho : Others s i waiting) (hr : wait_loop { s with waiting } i pid wstatus = (s', o)) :
    Asleep s' := by
  rcases wait_loop_cases { s with waiting } i pid wstatus with ⟨entry, rest, heq, _⟩ | ⟨heq, hnone⟩
  · rw [heq] at hr
    obtain ⟨rfl, _⟩ := Prod.mk.inj hr
    refine h.congr (fun w hw => (ho.1 w hw).1) fun w hw ht => ?_
    rw [modify_ne (ho.1 w hw).2]
    exact ⟨ht, rfl, rfl⟩
  · rw [heq] at hr
    obtain ⟨rfl, _⟩ := Prod.mk.inj hr
    intro w hw ht
    rcases List.mem_append.mp hw with hw | hw
    · -- the others are as they were
      obtain ⟨hin, hne⟩ := ho.1 w hw
      have hproc : (State.modify { s with waiting } i fun p =>
          { p with wake_callbacks := p.wake_callbacks ++ [i] }).procs w.1 =
            s.procs w.1 := modify_ne hne
      have ht : s.threads w.1 = some .Waiting := (Threads.set_status_ne hne).symm.trans ht
      dsimp only
      rw [hproc]
      exact h w hin ht
    · rw [List.mem_singleton.mp hw]
      dsimp only
      rw [modify_self]
      exact ⟨hnone, by simp⟩

theorem step_asleep (hp : Placed s) (h : Asleep s) (hstep : step s e = .ok (s', o)) :
    Asleep s' := by
  cases e with
  | spawn =>
    obtain ⟨rfl, _⟩ := Prod.mk.inj (Except.ok.inj hstep)
    exact h.add hp 0
  | fork i =>
    obtain ⟨hi, hr⟩ := permit_eq_ok hstep
    obtain ⟨rfl, _⟩ := Prod.mk.inj hr
    refine (h.add hp i).congr (fun w hw => hw) fun w hw ht => ?_
    have hproc : (fork s i).procs w.1 = (add s i).procs w.1 := if_neg (hi.ne hw)
    rw [hproc]
    exact ⟨(Threads.set_status_eq_waiting ht).2, rfl, rfl⟩
  | exit i status =>
    obtain ⟨hi, hr⟩ := permit_eq_ok hstep
    have hgone : Asleep (gone s i) :=
      h.congr (fun w hw => hw) fun w hw ht =>
        ⟨(Threads.set_status_ne (hi.ne hw)).symm.trans ht, rfl, rfl⟩
    rcases exit_cases s i status with ⟨parent, _, _, heq⟩ | ⟨_, heq⟩
    · rw [heq] at hr
      obtain ⟨rfl, _⟩ := Prod.mk.inj hr
      exact hgone.notify_parent (hp.gone hi) parent _
    · rw [heq] at hr
      obtain ⟨rfl, _⟩ := Prod.mk.inj hr
      exact hgone
  | drop i =>
    obtain ⟨tids, _, _, _, _, rfl, _⟩ := drop_eq_ok hstep
    exact h.congr (fun w hw => hw) fun w hw ht => ⟨(Threads.drop_eq_some ht).2, rfl, rfl⟩
  | wait4 i pid wstatus =>
    obtain ⟨_, ho, hr⟩ := wait4_eq_ok hstep
    exact h.wait_loop ho hr
  | resume i =>
    obtain ⟨pid, wstatus, _, _, ho, hr⟩ := resume_eq_ok hstep
    exact h.wait_loop ho hr
  | block i =>
    obtain ⟨hi, hr⟩ := permit_eq_ok hstep
    obtain ⟨rfl, _⟩ := Prod.mk.inj hr
    exact h.congr (fun w hw => hw) fun w hw ht =>
      ⟨(Threads.set_status_ne (hi.ne hw)).symm.trans ht, rfl, rfl⟩
  | wake i =>
    obtain ⟨rfl, _⟩ := Prod.mk.inj (Except.ok.inj hstep)
    exact h.congr (fun w hw => hw) fun w hw ht => ⟨(Threads.set_status_eq_waiting ht).2, rfl, rfl⟩

theorem exit_wakes_parent (hp : Placed s) {parent : Nat} (ht : (s.threads parent).isSome)
    (hcb : parent ∈ (s.procs parent).wake_callbacks) (hparent : (s.procs i).parent = some parent)
    {status : BitVec 32} (hstep : step s (.exit i status) = .ok (s', o)) :
    s'.threads parent = some .Ready := by
  obtain ⟨_, hr⟩ := permit_eq_ok hstep
  rcases exit_cases s i status with ⟨q, hq, _, heq⟩ | ⟨hdead, _⟩
  · obtain rfl : parent = q := Option.some.inj (hparent.symm.trans hq)
    rw [heq] at hr
    obtain ⟨rfl, _⟩ := Prod.mk.inj hr
    rcases notify_parent_cases (gone s i) parent ⟨(s.procs i).pid, i, status &&& 0xFF⟩ with
      ⟨t, rest, hrest, heq⟩ | ⟨hnil, _⟩
    · have htp : t = parent := hp.own parent t
        (by rw [show (s.procs parent).wake_callbacks = rest ++ [t] from hrest]; simp)
      subst htp
      rw [heq]
      have hsome : ((gone s i).threads t).isSome := by
        unfold gone
        rw [Threads.set_status_isSome]
        exact ht
      obtain ⟨st, hst⟩ := Option.isSome_iff_exists.mp hsome
      show (gone s i).threads.set_status t .Ready t = some .Ready
      rw [Threads.set_status_self, hst]
      rfl
    · rw [show (s.procs parent).wake_callbacks = [] from hnil] at hcb
      simp at hcb
  · exact absurd ht (hdead parent hparent)

/-- In every reachable state, a thread that waits because of `sys_wait4` has no entry to take and a
callback that wakes it, so that the next exit of a child makes it ready. -/
theorem wait4_wakeup (es : List Event) (s : State) (os : List Seen)
    (h : run step boot es = .ok (s, os)) (i : Nat) (pid wstatus : BitVec 64)
    (hw : (i, pid, wstatus) ∈ s.waiting) (ht : s.threads i = some .Waiting) :
    (∀ entry ∈ (s.procs i).child_exited, ¬ entry.Is pid) ∧ i ∈ (s.procs i).wake_callbacks ∧
    ∀ c status s' o, (s.procs c).parent = some i → step s (.exit c status) = .ok (s', o) →
      s'.threads i = some .Ready := by
  obtain ⟨hp, hasleep⟩ := run_invariant (fun s => Placed s ∧ Asleep s)
    (fun s e s' o hi hstep => ⟨step_placed hi.1 hstep, step_asleep hi.1 hi.2 hstep⟩)
    ⟨placed_boot, by simp [Asleep, boot]⟩ h
  obtain ⟨hnone, hcb⟩ := hasleep _ hw ht
  refine ⟨hnone, hcb, fun c status s' o hparent hstep => ?_⟩
  exact exit_wakes_parent hp (by rw [ht]; rfl) hcb hparent hstep

/-- The parent waits for its second child while the first one exits, and waits again. -/
theorem wait4_wakeup_second_child : ∃ s os,
    run step boot [.spawn, .fork 1, .fork 1, .wait4 1 3 0, .exit 2 7, .resume 1] = .ok (s, os) ∧
    (1, 3, 0) ∈ s.waiting ∧ s.threads 1 = some .Waiting ∧ 1 ∈ (s.procs 1).wake_callbacks := by
  obtain ⟨r, hr⟩ := ok_of_isSome (show (run step boot
    [.spawn, .fork 1, .fork 1, .wait4 1 3 0, .exit 2 7, .resume 1]).toOption.isSome by decide)
  have hseen :
    ((run step boot [.spawn, .fork 1, .fork 1, .wait4 1 3 0, .exit 2 7, .resume 1]).toOption.map
      fun r => (r.1.waiting, r.1.threads 1)) = some ([(1, 3, 0)], some .Waiting) := by decide
  rw [hr] at hseen
  simp only [Except.toOption, Option.map_some, Option.some.injEq, Prod.mk.injEq] at hseen
  have hw : (1, 3, 0) ∈ r.1.waiting := by simp [hseen.1]
  exact ⟨r.1, r.2, hr, hw, hseen.2, (wait4_wakeup _ r.1 r.2 hr 1 3 0 hw hseen.2).2.1⟩

end HectoOs.Wait
