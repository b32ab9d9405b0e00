import Mathlib.Algebra.Group.Nat.Defs
import HectoOs.Lib.Exec
import HectoOs.Lib.SearchTree
import HectoOs.Sync.Condvar

/-! # Timers and `sys_nanosleep` (`timer.rs`, `syscall/misc.rs`)

System calls run with interrupts enabled, so a timer interrupt may come between any two critical
sections. A duration is a number of nanoseconds.
-/

open HectoOs.Lib HectoOs.Sync

namespace HectoOs.Timer

/-- `Duration::MAX`. -/
def DURATION_MAX : Nat := 2 ^ 64 * 1000000000 - 1

/-- `events`, in the order of the deadlines. A callback is the thread that it makes ready. -/
abbrev Events := List (Nat × Nat)

inductive Stop where
  | impossible
  | panic
  deriving DecidableEq

/-- An addition of durations panics when it overflows. -/
def add (a b : Nat) : Except Stop Nat := permit .panic (a + b ≤ DURATION_MAX) (a + b)

def contains_key (events : Events) (deadline : Nat) : Bool := events.any (·.1 = deadline)

/-- The loop of `register`: the first deadline that is not taken. -/
def next_free (events : Events) : Nat → Nat → Except Stop Nat
  | 0, _ => .error .impossible
  | fuel + 1, deadline =>
    if contains_key events deadline then
      match add deadline 1 with
      | .ok deadline => next_free events fuel deadline
      | .error p => .error p
    else
      .ok deadline

def register (events : Events) (deadline t : Nat) : Except Stop Events :=
  match next_free events (events.length + 1) deadline with
  | .ok deadline => .ok (SearchTree.insert compare deadline t (SearchTree.spine events)).1
  | .error p => .error p

/-- `expire`: the callbacks of the events that are due are called, the earliest first. -/
def expire (now : Nat) : Events → Threads → Events × Threads
  | [], threads => ([], threads)
  | (deadline, t) :: events, threads =>
    if deadline > now then ((deadline, t) :: events, threads)
    else expire now events (threads.set_status t .Ready)

/-! ## The system -/

structure State where
  now : Nat
  events : Events
  threads : Threads
  /-- The threads that have registered their event and not yet stored `Waiting`. -/
  registered : List Nat
  /-- The threads that have stored `Waiting` and not yet returned from `sys_nanosleep`. -/
  sleeping : List Nat

def boot : State := ⟨0, [], fun _ => some .Ready, [], []⟩

inductive Event where
  /-- The first critical section of `sys_nanosleep`. -/
  | nanosleep (t req : Nat)
  /-- The second one: the thread is marked, and yields. -/
  | mark (t : Nat)
  /-- The scheduler dispatches a thread that yielded inside `sys_nanosleep`, which returns. -/
  | resume (t : Nat)
  /-- A timer interrupt. -/
  | tick
  | elapse (d : Nat)
  /-- The thread waits for something else, such as a pipe or a child. -/
  | block (t : Nat)
  | wake (t : Nat)
  | exit (t : Nat)

/-- The thread is not inside `sys_nanosleep`. -/
def Outside (s : State) (t : Nat) : Prop := t ∉ s.registered ∧ t ∉ s.sleeping

instance (s : State) (t : Nat) : Decidable (Outside s t) := inferInstanceAs (Decidable (_ ∧ _))

def nanosleep (s : State) (t req : Nat) : Except Stop State :=
  match add req s.now with
  | .ok deadline =>
    match register s.events deadline t with
    | .ok events => .ok { s with events, registered := t :: s.registered }
    | .error p => .error p
  | .error p => .error p

def tick (s : State) : State :=
  let (events, threads) := expire s.now s.events s.threads
  { s with events, threads }

/-- A step, when it can happen. -/
def step (s : State) : Event → Except Stop (State × Unit)
  | .nanosleep t req =>
    if Outside s t then
      match nanosleep s t req with
      | .ok s' => .ok (s', ())
      | .error p => .error p
    else
      .error .impossible
  | .mark t =>
    permit .impossible (t ∈ s.registered)
      ({ s with
          threads := s.threads.set_status t .Waiting
          registered := s.registered.filter (· ≠ t)
          sleeping := t :: s.sleeping }, ())
  | .resume t =>
    permit .impossible (t ∈ s.sleeping ∧ s.threads t = some .Ready)
      ({ s with sleeping := s.sleeping.filter (· ≠ t) }, ())
  | .tick => .ok (tick s, ())
  | .elapse d => .ok ({ s with now := s.now + d }, ())
  | .block t =>
    permit .impossible (Outside s t) ({ s with threads := s.threads.set_status t .Waiting }, ())
  | .wake t => .ok ({ s with threads := s.threads.set_status t .Ready }, ())
  | .exit t => permit .impossible (Outside s t) ({ s with threads := s.threads.drop t }, ())

/-! ## Registering and expiring -/

variable {s s' : State} {e : Event} {t : Nat} {events : Events}

theorem length_filter_lt {deadline : Nat} (h : contains_key events deadline) :
    (events.filter (deadline + 1 ≤ ·.1)).length < (events.filter (deadline ≤ ·.1)).length := by
  have hfilter : events.filter (deadline + 1 ≤ ·.1) =
    (events.filter (deadline ≤ ·.1)).filter (deadline + 1 ≤ ·.1) := by
    rw [List.filter_filter]
    congr 1
    funext ev
    by_cases hle : deadline + 1 ≤ ev.1
    · have : deadline ≤ ev.1 := by omega
      simp [hle, this]
    · simp [hle]
  obtain ⟨ev, hm, heq⟩ := List.any_eq_true.mp h
  have heq : ev.1 = deadline := by simpa using heq
  rw [hfilter, List.length_filter_lt_length_iff_exists]
  exact ⟨ev, List.mem_filter.mpr ⟨hm, by simp [heq]⟩, by simp [heq]⟩

theorem next_free_ne_impossible {fuel deadline : Nat}
    (h : (events.filter (deadline ≤ ·.1)).length < fuel) :
    next_free events fuel deadline ≠ .error .impossible := by
  induction fuel generalizing deadline with
  | zero => omega
  | succ fuel ih =>
    unfold next_free
    split
    · rename_i htaken
      unfold add permit
      by_cases hmax : deadline + 1 ≤ DURATION_MAX
      · simp only [if_pos hmax]
        apply ih
        have := length_filter_lt htaken
        omega
      · simp only [if_neg hmax]
        simp
    · simp

theorem next_free_fresh {fuel deadline d : Nat} (h : next_free events fuel deadline = .ok d) :
    ∀ ev ∈ events, ev.1 ≠ d := by
  induction fuel generalizing deadline with
  | zero => simp [next_free] at h
  | succ fuel ih =>
    unfold next_free at h
    split at h
    · split at h
      · exact ih h
      · simp at h
    · rename_i hfree
      obtain rfl := Except.ok.inj h
      intro ev hm heq
      exact hfree (List.any_eq_true.mpr ⟨ev, hm, by simpa using heq⟩)

theorem register_spec {deadline : Nat} {events' : Events}
    (h : register events deadline t = .ok events') :
    (∃ d, (d, t) ∈ events') ∧ ∀ ev ∈ events, ev ∈ events' := by
  unfold register at h
  split at h
  · rename_i d hd
    have hne : ∀ ev ∈ events, compare d ev.1 ≠ .eq := by
      intro ev hm heq
      exact next_free_fresh hd ev hm (Nat.compare_eq_eq.mp heq).symm
    rw [← SearchTree.inorder_spine events] at hne ⊢
    obtain ⟨l₁, l₂, hin, hi⟩ := SearchTree.insert_of_ne t hne
    rw [hi] at h
    rw [hin]
    obtain rfl := Except.ok.inj h
    exact ⟨⟨d, by simp⟩, by grind⟩
  · simp at h

theorem register_ne_impossible {deadline : Nat} :
    register events deadline t ≠ .error .impossible := by
  have hfuel : (events.filter (deadline ≤ ·.1)).length < events.length + 1 :=
    Nat.lt_succ_of_le (List.length_filter_le _ _)
  have hne := next_free_ne_impossible hfuel
  unfold register
  split
  · simp
  · rename_i p hp
    intro h
    rw [hp] at hne
    exact hne (by rw [Except.error.inj h])

theorem nanosleep_eq_ok {req : Nat} (h : nanosleep s t req = .ok s') :
    ∃ events deadline, register s.events deadline t = .ok events ∧
      s' = { s with events, registered := t :: s.registered } := by
  unfold nanosleep at h
  split at h
  · split at h
    · exact ⟨_, _, ‹_›, (Except.ok.inj h).symm⟩
    · simp at h
  · simp at h

theorem expire_spec {now : Nat} {threads : Threads} :
    (∀ u, (expire now events threads).2 u = some .Waiting →
      threads u = some .Waiting ∧ ∀ d, (d, u) ∈ events → (d, u) ∈ (expire now events threads).1) ∧
    ∀ ev ∈ events, now < ev.1 → ev ∈ (expire now events threads).1 := by
  induction events generalizing threads with
  | nil => simp [expire]
  | cons ev events ih =>
    obtain ⟨deadline, t⟩ := ev
    unfold expire
    by_cases hdue : deadline > now
    · simp only [if_pos hdue]
      exact ⟨fun u hu => ⟨hu, fun d hd => hd⟩, fun ev hm _ => hm⟩
    · simp only [if_neg hdue]
      obtain ⟨hwait, hlater⟩ := @ih (threads.set_status t .Ready)
      refine ⟨fun u hu => ?_, fun ev hm hnow => ?_⟩
      · obtain ⟨hu', hkeep⟩ := hwait u hu
        obtain ⟨hne, hu'⟩ := Threads.set_status_eq_waiting hu'
        refine ⟨hu', fun d hd => hkeep d ?_⟩
        rcases List.mem_cons.mp hd with heq | hd
        · exact absurd (Prod.mk.inj heq).2 hne
        · exact hd
      · rcases List.mem_cons.mp hm with rfl | hm
        · exact absurd hnow hdue
        · exact hlater ev hm hnow

/-! ## Nobody sleeps for ever -/

def Pending (s : State) (t : Nat) : Prop := ∃ d, (d, t) ∈ s.events

/-- No interrupt comes between the two critical sections of a thread's `sys_nanosleep` when all
events of the thread are due. -/
def Punctual (s : State) : Event → Prop
  | .tick => ∀ t ∈ s.registered, ∃ ev ∈ s.events, ev.2 = t ∧ s.now < ev.1
  | _ => True

structure Armed (s : State) : Prop where
  registered : ∀ t ∈ s.registered, Pending s t
  sleeping : ∀ t ∈ s.sleeping, s.threads t = some .Waiting → Pending s t

theorem Armed.congr (h : Armed s) (hev : s'.events = s.events)
    (hreg : ∀ t ∈ s'.registered, t ∈ s.registered)
    (hsleep : ∀ t ∈ s'.sleeping, s'.threads t = some .Waiting →
      t ∈ s.registered ∨ t ∈ s.sleeping ∧ s.threads t = some .Waiting) : Armed s' := by
  have hsame : ∀ t, Pending s t → Pending s' t := fun t => by
    unfold Pending
    rw [hev]
    exact id
  refine ⟨fun t ht => hsame t (h.registered t (hreg t ht)), fun t ht hw => hsame t ?_⟩
  rcases hsleep t ht hw with hr | ⟨hs, hw⟩
  · exact h.registered t hr
  · exact h.sleeping t hs hw

theorem step_armed (h : Armed s) (hc : Punctual s e) {o : Unit} (hstep : step s e = .ok (s', o)) :
    Armed s' := by
  cases e with
  | nanosleep t req =>
    simp only [step] at hstep
    split at hstep
    · split at hstep
      · rename_i s₁ hr
        obtain ⟨rfl, _⟩ := Prod.mk.inj (Except.ok.inj hstep)
        obtain ⟨events, deadline, hreg, rfl⟩ := nanosleep_eq_ok hr
        obtain ⟨hnew, hkeep⟩ := register_spec hreg
        refine ⟨fun u hu => ?_, fun u hu hw => ?_⟩
        · rcases List.mem_cons.mp hu with rfl | hu
          · exact hnew
          · obtain ⟨d, hd⟩ := h.registered u hu
            exact ⟨d, hkeep _ hd⟩
        · obtain ⟨d, hd⟩ := h.sleeping u hu hw
          exact ⟨d, hkeep _ hd⟩
      · simp at hstep
    · simp at hstep
  | mark t =>
    obtain ⟨ht, hr⟩ := permit_eq_ok hstep
    obtain ⟨rfl, _⟩ := Prod.mk.inj hr
    refine h.congr rfl (fun u hu => (List.mem_filter.mp hu).1) fun u hu hw => ?_
    by_cases hut : u = t
    · exact .inl (hut ▸ ht)
    · rcases List.mem_cons.mp hu with hu | hu
      · exact absurd hu hut
      · exact .inr ⟨hu, (Threads.set_status_ne hut).symm.trans hw⟩
  | resume t =>
    obtain ⟨_, hr⟩ := permit_eq_ok hstep
    obtain ⟨rfl, _⟩ := Prod.mk.inj hr
    exact h.congr rfl (fun u hu => hu) fun u hu hw => .inr ⟨(List.mem_filter.mp hu).1, hw⟩
  | tick =>
    obtain ⟨rfl, _⟩ := Prod.mk.inj (Except.ok.inj hstep)
    obtain ⟨hwait, hlater⟩ := @expire_spec s.events s.now s.threads
    refine ⟨fun t ht => ?_, fun t ht hw => ?_⟩
    · obtain ⟨⟨d, u⟩, hm, rfl, hnow⟩ := hc t ht
      exact ⟨d, hlater _ hm hnow⟩
    · obtain ⟨hw, hkeep⟩ := hwait t hw
      obtain ⟨d, hd⟩ := h.sleeping t ht hw
      exact ⟨d, hkeep d hd⟩
  | elapse d =>
    obtain ⟨rfl, _⟩ := Prod.mk.inj (Except.ok.inj hstep)
    exact h.congr rfl (fun u hu => hu) fun u hu hw => .inr ⟨hu, hw⟩
  | block t =>
    obtain ⟨hout, hr⟩ := permit_eq_ok hstep
    obtain ⟨rfl, _⟩ := Prod.mk.inj hr
    refine h.congr rfl (fun u hu => hu) fun u hu hw => .inr ⟨hu, ?_⟩
    have hne : u ≠ t := fun heq => hout.2 (heq ▸ hu)
    exact (Threads.set_status_ne hne).symm.trans hw
  | wake t =>
    obtain ⟨rfl, _⟩ := Prod.mk.inj (Except.ok.inj hstep)
    exact h.congr rfl (fun u hu => hu) fun u hu hw =>
      .inr ⟨hu, (Threads.set_status_eq_waiting hw).2⟩
  | exit t =>
    obtain ⟨_, hr⟩ := permit_eq_ok hstep
    obtain ⟨rfl, _⟩ := Prod.mk.inj hr
    exact h.congr rfl (fun u hu => hu) fun u hu hw => .inr ⟨hu, (Threads.drop_eq_some hw).2⟩

/-- In every run in which no interrupt comes between a thread's two critical sections when its
events are due, a thread that waits because of `sys_nanosleep` has a pending event that wakes it. -/
theorem nanosleep_wakeup (es : List Event) (s : State) (os : List Unit)
    (hc : Meets step Punctual boot es) (h : run step boot es = .ok (s, os))
    (t : Nat) (ht : t ∈ s.sleeping) (hw : s.threads t = some .Waiting) :
    Pending s t := by
  have harmed := run_invariant_of_meets Armed (fun _ _ _ _ h hc hstep => step_armed h hc hstep)
    ⟨by simp [boot], by simp [boot]⟩ hc h
  exact harmed.sleeping t ht hw

instance (s : State) (e : Event) : Decidable (Punctual s e) :=
  match e with
  | .tick =>
    inferInstanceAs (Decidable (∀ t ∈ s.registered, ∃ ev ∈ s.events, ev.2 = t ∧ s.now < ev.1))
  | .nanosleep _ _ | .mark _ | .resume _ | .elapse _ | .block _ | .wake _ | .exit _ =>
    isTrue trivial

/-- An interrupt comes in between, but the event is not yet due. -/
theorem nanosleep_wakeup_later :
    ∃ s os, run step boot [.nanosleep 1 5, .elapse 3, .tick, .mark 1] = .ok (s, os) ∧
    s.threads 1 = some .Waiting ∧ Pending s 1 := by
  obtain ⟨r, hr⟩ := ok_of_isSome
    (show (run step boot [.nanosleep 1 5, .elapse 3, .tick, .mark 1]).toOption.isSome by decide)
  have hseen : ((run step boot [.nanosleep 1 5, .elapse 3, .tick, .mark 1]).toOption.map
      fun r => (r.1.sleeping, r.1.threads 1)) = some ([1], some .Waiting) := by decide
  rw [hr] at hseen
  simp only [Except.toOption, Option.map_some, Option.some.injEq, Prod.mk.injEq] at hseen
  have ht : 1 ∈ r.1.sleeping := by simp [hseen.1]
  exact ⟨r.1, r.2, hr, hseen.2, nanosleep_wakeup _ r.1 r.2 (by decide) hr 1 ht hseen.2⟩

/-- A sleep of no length whose event fires before the thread is marked. -/
theorem early_interrupt_loses_wakeup :
    ¬ ∀ es s os t, run step boot es = .ok (s, os) → t ∈ s.sleeping → s.threads t = some .Waiting →
    Pending s t := by
  intro h
  obtain ⟨r, hr⟩ :=
    ok_of_isSome (show (run step boot [.nanosleep 1 0, .tick, .mark 1]).toOption.isSome by decide)
  have hseen : ((run step boot [.nanosleep 1 0, .tick, .mark 1]).toOption.map
      fun r => (r.1.sleeping, r.1.threads 1, r.1.events)) =
        some ([1], some .Waiting, []) := by decide
  rw [hr] at hseen
  simp only [Except.toOption, Option.map_some, Option.some.injEq, Prod.mk.injEq] at hseen
  obtain ⟨d, hd⟩ := h _ r.1 r.2 1 hr (by simp [hseen.1]) hseen.2.1
  simp [hseen.2.2] at hd

end HectoOs.Timer
