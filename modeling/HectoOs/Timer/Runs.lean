import HectoOs.Timer

/-! # Events fire once and in time

The events of a run are numbered as they are registered. A deadline that is taken is moved past the
events that have it, so two events never share one.
-/

open HectoOs.Lib

namespace HectoOs.Timer.Runs

/-- The loop of `expire`: the events that are due, in the order in which their callbacks run, and
the others. -/
def fire (now : Nat) : Events → Events × Events
  | [] => ([], [])
  | (deadline, t) :: events =>
    if deadline > now then ([], (deadline, t) :: events)
    else ((deadline, t) :: (fire now events).1, (fire now events).2)

/-- A call of `register`: the deadline it asks for, and how many events are pending. -/
structure Request where
  deadline : Nat
  pending : Nat

/-- A callback that ran: the stored deadline and the number of its event, and the time. -/
structure Firing where
  deadline : Nat
  number : Nat
  now : Nat

structure State where
  events : Events
  now : Nat
  requests : List Request
  fired : List Firing

def boot : State := ⟨[], 0, [], []⟩

inductive Call where
  | register (deadline : Nat)
  | expire (now : Nat)
  deriving DecidableEq

def Call.now : Call → Option Nat
  | .register _ => none
  | .expire now => some now

/-- A step returns the events whose callbacks it runs. Time does not go back. -/
def step (s : State) : Call → Except Stop (State × Events)
  | .register deadline =>
    match register s.events deadline s.requests.length with
    | .ok events =>
      .ok ({ s with events, requests := s.requests ++ [⟨deadline, s.events.length⟩] }, [])
    | .error p => .error p
  | .expire now =>
    permit .impossible (s.now ≤ now)
      ({ s with
          events := (fire now s.events).2
          now
          fired := s.fired ++ (fire now s.events).1.map fun ev => ⟨ev.1, ev.2, now⟩ },
            (fire now s.events).1)

/-- An event stands for a request, whose deadline was moved by at most the number of events
pending. -/
def Stored (requests : List Request) (deadline number : Nat) : Prop :=
  ∃ r, requests[number]? = some r ∧ r.deadline ≤ deadline ∧ deadline < r.deadline + r.pending + 1

/-- Each request has fired once or is pending once, at its deadline or a little later. -/
structure Exact (s : State) : Prop where
  sorted : (s.events.map Prod.fst).Pairwise (· < ·)
  once : (s.fired.map Firing.number ++ s.events.map Prod.snd).Perm (List.range s.requests.length)
  fired : ∀ f ∈ s.fired, Stored s.requests f.deadline f.number ∧ f.deadline ≤ f.now
  pending : ∀ ev ∈ s.events, Stored s.requests ev.1 ev.2

/-- What `expire(now)` does. -/
structure Expires (s : State) (now : Nat) (s' : State) (due : Events) : Prop where
  ordered : (due.map Prod.fst).Pairwise (· < ·)
  fired : s'.fired = s.fired ++ due.map fun ev => ⟨ev.1, ev.2, now⟩
  pending : ∀ ev ∈ s'.events, now < ev.1

/-! ## Registering -/

section Register

variable {events events' : Events} {deadline d fuel t : Nat}

/-- How many events have a deadline from `deadline` on. -/
def later (events : Events) (deadline : Nat) : Nat := (events.filter (deadline ≤ ·.1)).length

theorem later_le (events : Events) (deadline : Nat) : later events deadline ≤ events.length :=
  List.length_filter_le _ _

theorem next_free_le (h : next_free events fuel deadline = .ok d) :
    deadline ≤ d ∧ d + later events d ≤ deadline + later events deadline := by
  induction fuel generalizing deadline with
  | zero => simp [next_free] at h
  | succ fuel ih =>
    unfold next_free at h
    split at h
    · rename_i htaken
      have hless : later events (deadline + 1) < later events deadline := length_filter_lt htaken
      split at h
      · rename_i deadline' hadd
        obtain ⟨_, rfl⟩ := permit_eq_ok hadd
        have := ih h
        omega
      · simp at h
    · obtain rfl := Except.ok.inj h
      exact ⟨Nat.le_refl _, Nat.le_refl _⟩

theorem next_free_panics (h : next_free events fuel deadline = .error .panic) :
    DURATION_MAX < deadline + later events deadline := by
  induction fuel generalizing deadline with
  | zero => simp [next_free] at h
  | succ fuel ih =>
    unfold next_free at h
    split at h
    · rename_i htaken
      have hless : later events (deadline + 1) < later events deadline := length_filter_lt htaken
      split at h
      · rename_i deadline' hadd
        obtain ⟨_, rfl⟩ := permit_eq_ok hadd
        have := ih h
        omega
      · rename_i p hadd
        unfold add permit at hadd
        split at hadd
        · simp at hadd
        · omega
    · simp at h

theorem register_ok (h : register events deadline t = .ok events') :
    ∃ d, deadline ≤ d ∧ d < deadline + events.length + 1 ∧ events'.Perm ((d, t) :: events) ∧
      ((events.map Prod.fst).Pairwise (· < ·) → (events'.map Prod.fst).Pairwise (· < ·)) := by
  unfold register at h
  split at h
  · rename_i d hd
    obtain rfl := Except.ok.inj h
    have hmove := next_free_le hd
    have hlen := later_le events deadline
    have hne : ∀ ev ∈ SearchTree.inorder (SearchTree.spine events), compare d ev.1 ≠ .eq := by
      intro ev hm heq
      rw [SearchTree.inorder_spine] at hm
      exact next_free_fresh hd ev hm (Nat.compare_eq_eq.mp heq).symm
    refine ⟨d, hmove.1, by omega, ?_, fun hsorted => ?_⟩
    · have hperm := SearchTree.insert_perm t hne
      rwa [SearchTree.inorder_spine] at hperm
    · rw [← SearchTree.inorder_spine events] at hsorted
      exact SearchTree.insert_pairwise (R := (· < ·)) (fun _ _ _ => Nat.lt_trans)
        (fun _ => Nat.compare_eq_lt.mp)
        (fun _ => Nat.compare_eq_gt.mp) t hsorted
  · simp at h

theorem register_total (h : deadline + events.length ≤ DURATION_MAX) :
    ∃ events', register events deadline t = .ok events' := by
  cases hr : register events deadline t with
  | ok events' => exact ⟨events', rfl⟩
  | error p =>
    have hlen := later_le events deadline
    cases p with
    | impossible => exact absurd hr register_ne_impossible
    | panic =>
      unfold register at hr
      split at hr
      · simp at hr
      · rename_i p hp
        obtain rfl := Except.error.inj hr
        have := next_free_panics hp
        omega

end Register

/-! ## Expiring -/

section Expire

variable {now : Nat} {events : Events} {threads : Sync.Threads}

theorem fire_append (now : Nat) (events : Events) :
    (fire now events).1 ++ (fire now events).2 = events := by
  induction events with
  | nil => rfl
  | cons ev events ih =>
    unfold fire
    split
    · rfl
    · simp [ih]

theorem fire_due : ∀ ev ∈ (fire now events).1, ev.1 ≤ now := by
  induction events with
  | nil => simp [fire]
  | cons ev events ih =>
    unfold fire
    split
    · simp
    · rename_i hdue
      exact List.forall_mem_cons.mpr ⟨Nat.not_lt.mp hdue, ih⟩

theorem fire_pending (h : (events.map Prod.fst).Pairwise (· < ·)) :
    ∀ ev ∈ (fire now events).2, now < ev.1 := by
  induction events with
  | nil => simp [fire]
  | cons ev events ih =>
    rw [List.map_cons, List.pairwise_cons] at h
    unfold fire
    split
    · rename_i hlater
      refine List.forall_mem_cons.mpr ⟨hlater, fun ev' hm => ?_⟩
      exact Nat.lt_trans hlater (h.1 ev'.1 (List.mem_map_of_mem hm))
    · exact ih h.2

end Expire

/-! ## Runs -/

section Runs

variable {s s' : State} {c : Call} {due : Events}

theorem Stored.append {requests : List Request} {d i : Nat} (h : Stored requests d i)
    (r : Request) :
    Stored (requests ++ [r]) d i := by
  obtain ⟨r', hr, hd⟩ := h
  exact ⟨r', List.getElem?_append_left (List.getElem?_eq_some_iff.mp hr).1 ▸ hr, hd⟩

theorem step_exact (h : Exact s) (hs : step s c = .ok (s', due)) : Exact s' := by
  cases c with
  | register deadline =>
    simp only [step] at hs
    split at hs
    · rename_i events hr
      obtain ⟨rfl, rfl⟩ := Prod.mk.inj (Except.ok.inj hs)
      obtain ⟨d, hle, hlt, hperm, hsorted⟩ := register_ok hr
      refine ⟨hsorted h.sorted, ?_, fun f hf => ?_, fun ev hm => ?_⟩
      · rw [List.length_append, List.length_singleton, List.range_succ]
        have hnew := (hperm.map Prod.snd).append_left (s.fired.map Firing.number)
        refine hnew.trans ((List.perm_append_comm_assoc _ [s.requests.length] _).trans ?_)
        exact (h.once.append_left [s.requests.length]).trans List.perm_append_comm
      · exact ⟨(h.fired f hf).1.append _, (h.fired f hf).2⟩
      · rcases List.mem_cons.mp (hperm.mem_iff.mp hm) with rfl | hm
        · exact ⟨⟨deadline, s.events.length⟩, by simp, hle, hlt⟩
        · exact (h.pending ev hm).append _
    · simp at hs
  | expire now =>
    obtain ⟨_, hr⟩ := permit_eq_ok hs
    obtain ⟨rfl, rfl⟩ := Prod.mk.inj hr
    have hsplit := fire_append now s.events
    have hpend := h.pending
    have hsorted := h.sorted
    have honce := h.once
    rw [← hsplit] at hpend hsorted honce
    rw [List.map_append] at hsorted honce
    refine ⟨(List.pairwise_append.mp hsorted).2.1, ?_, fun f hf => ?_,
      fun ev hm => hpend ev (List.mem_append_right _ hm)⟩
    · rw [List.map_append, List.map_map, List.append_assoc]
      exact honce
    · rcases List.mem_append.mp hf with hf | hf
      · exact h.fired f hf
      · obtain ⟨ev, hm, rfl⟩ := List.mem_map.mp hf
        exact ⟨hpend ev (List.mem_append_left _ hm), fire_due ev hm⟩

theorem expire_expires (h : Exact s) {now : Nat} (hs : step s (.expire now) = .ok (s', due)) :
    Expires s now s' due := by
  obtain ⟨_, hr⟩ := permit_eq_ok hs
  obtain ⟨rfl, rfl⟩ := Prod.mk.inj hr
  have hsorted := h.sorted
  rw [← fire_append now s.events, List.map_append] at hsorted
  exact ⟨(List.pairwise_append.mp hsorted).1, rfl, fire_pending h.sorted⟩

theorem step_length (hs : step s c = .ok (s', due)) : s'.events.length ≤ s.events.length + 1 := by
  cases c with
  | register deadline =>
    simp only [step] at hs
    split at hs
    · rename_i events hr
      obtain ⟨rfl, rfl⟩ := Prod.mk.inj (Except.ok.inj hs)
      obtain ⟨d, _, _, hperm, _⟩ := register_ok hr
      exact Nat.le_of_eq hperm.length_eq
    · simp at hs
  | expire now =>
    obtain ⟨_, hr⟩ := permit_eq_ok hs
    obtain ⟨rfl, rfl⟩ := Prod.mk.inj hr
    have hlen := congrArg List.length (fire_append now s.events)
    rw [List.length_append] at hlen
    dsimp only
    omega

theorem run_completes {cs : List Call} {n : Nat} (hnow : ∀ now ∈ cs.filterMap Call.now, s.now ≤ now)
    (hmono : (cs.filterMap Call.now).Pairwise (· ≤ ·))
    (hshort : ∀ d, .register d ∈ cs → d + n ≤ DURATION_MAX) (hn : s.events.length + cs.length ≤ n) :
    ∃ r, run step s cs = .ok r := by
  induction cs generalizing s with
  | nil => exact ⟨_, rfl⟩
  | cons c cs ih =>
    rw [List.length_cons] at hn
    have hstep : ∃ s' due, step s c = .ok (s', due) ∧
      ∀ now ∈ cs.filterMap Call.now, s'.now ≤ now := by
      cases c with
      | register deadline =>
        have hd := hshort deadline List.mem_cons_self
        obtain ⟨events, hr⟩ := @register_total s.events deadline s.requests.length (by omega)
        refine ⟨{ s with events, requests := s.requests ++ [⟨deadline, s.events.length⟩] },
          [], ?_, hnow⟩
        simp only [step, hr]
      | expire now =>
        have hcons : (Call.expire now :: cs).filterMap Call.now =
          now :: cs.filterMap Call.now := rfl
        rw [hcons] at hnow hmono
        refine ⟨_, _, if_pos (hnow now List.mem_cons_self), (List.pairwise_cons.mp hmono).1⟩
    obtain ⟨s', due, hs, hnow'⟩ := hstep
    have hlen := step_length hs
    have hmono' : (cs.filterMap Call.now).Pairwise (· ≤ ·) := by
      cases c with
      | register deadline => exact hmono
      | expire now => exact (List.pairwise_cons.mp hmono).2
    obtain ⟨r, hr⟩ := ih hnow' hmono' (fun d hd => hshort d (List.mem_cons_of_mem _ hd)) (by omega)
    exact ⟨(r.1, due :: r.2), by simp [run, hs, hr]⟩

/-- In every run each registered event fires at most once and is pending otherwise, never before its
deadline, and an `expire` leaves nothing behind that is due. The run is stopped only by the overflow
of a duration. -/
theorem timer_fires_once (cs : List Call) :
    (∀ s os, run step boot cs = .ok (s, os) →
      Exact s ∧ ∀ now s' due, step s (.expire now) = .ok (s', due) → Expires s now s' due) ∧
    ((cs.filterMap Call.now).Pairwise (· ≤ ·) →
      (∀ d, .register d ∈ cs → d + cs.length ≤ DURATION_MAX) →
      ∃ r, run step boot cs = .ok r) := by
  constructor
  · intro s os hrun
    have hboot : Exact boot := ⟨List.Pairwise.nil, List.Perm.refl _, by simp [boot], by simp [boot]⟩
    have h : Exact s := run_invariant Exact (fun _ _ _ _ => step_exact) hboot hrun
    exact ⟨h, fun now s' due hs => expire_expires h hs⟩
  · intro hmono hshort
    exact run_completes (fun _ _ => Nat.zero_le _) hmono hshort (by simp [boot])

end Runs

/-- Three events with the same deadline, of which two are due, and one that is late. -/
theorem timer_fires_once_equal : ∃ s os,
    run step boot [.register 5, .register 5, .register 5, .expire 6, .register 2,
      .expire 6] = .ok (s, os) ∧
    os = [[], [], [], [(5, 0), (6, 1)], [], [(2, 3)]] ∧ s.events = [(7, 2)] ∧ Exact s := by
  obtain ⟨hrun, htotal⟩ :=
    timer_fires_once [.register 5, .register 5, .register 5, .expire 6, .register 2, .expire 6]
  have hshort : ∀ d, .register d ∈ [.register 5, .register 5, .register 5,
    .expire 6, .register 2, Call.expire 6] →
      d + 6 ≤ DURATION_MAX := by
    intro d hd
    have hd : d = 5 ∨ d = 2 := by simpa using hd
    rcases hd with rfl | rfl <;> decide
  obtain ⟨⟨s, os⟩, h⟩ := htotal (by decide) hshort
  have hseen : ((run step boot [.register 5, .register 5, .register 5,
    .expire 6, .register 2, .expire 6]).toOption.map
      fun r => (r.2, r.1.events)) =
        some ([[], [], [], [(5, 0), (6, 1)], [], [(2, 3)]], [(7, 2)]) := by decide
  rw [h] at hseen
  obtain ⟨hos, hev⟩ := Prod.mk.inj (Option.some.inj hseen)
  exact ⟨s, os, h, hos, hev, (hrun s os h).1⟩

end HectoOs.Timer.Runs
