import HectoOs.Lib.Exec

/-! # Locks that turn interrupts off (`sync/spinlock.rs`)

One thread of one processor. A lock is a number, and a lock that another processor holds is waited
for. Every guard brings back the bit that it found: the one that was taken with interrupts on turns
them on again, whatever else is still locked.
-/

open HectoOs.Lib

namespace HectoOs.Sync.SpinLock

/-- A `LockGuard`, or what `critical_section` keeps in its frame. -/
structure Guard where
  lock : Nat
  /-- The register before interrupts were turned off. -/
  sstatus : BitVec 64
  deriving DecidableEq

structure State where
  sstatus : BitVec 64
  /-- The guards that are alive. -/
  guards : List Guard
  /-- The critical sections that are entered, the innermost first. -/
  sections : List Guard

/-- No lock is held. -/
def start (sstatus : BitVec 64) : State := ⟨sstatus, [], []⟩

def State.all (s : State) : List Guard := s.guards ++ s.sections

def State.held (s : State) : List Nat := s.all.map Guard.lock

/-- The bit `SIE` of `sstatus`. -/
def SIE (sstatus : BitVec 64) : Bool := sstatus.getLsbD 1

/-- The mask of the bit. -/
def SIE_MASK : BitVec 64 := 1 <<< 1

/-- `csrrci $0, sstatus, 1 << 1`. -/
def csrrci (s : State) : State := { s with sstatus := s.sstatus &&& ~~~ SIE_MASK }

/-- `csrs sstatus, $0`. -/
def csrs (bits : BitVec 64) (s : State) : State := { s with sstatus := s.sstatus ||| bits }

inductive Stop where
  /-- The thread waits for a lock that it holds itself. -/
  | spins
  /-- There is no such guard, or no critical section. -/
  | impossible
  deriving DecidableEq

inductive Event where
  | lock (l : Nat)
  /-- The guard of a lock is dropped. -/
  | drop (l : Nat)
  /-- `critical_section`, up to the call of `f`. -/
  | enter (l : Nat)
  /-- The innermost `critical_section`, from the return of `f` on. -/
  | leave
  deriving DecidableEq

/-- A step returns the states that it comes by, the last one included. -/
def step (s : State) : Event → Except Stop (State × List State)
  | .lock l =>
    let s₁ := csrrci s
    let s₂ := { s₁ with guards := ⟨l, s.sstatus⟩ :: s₁.guards }
    permit .spins (l ∉ s.held) (s₂, [s₁, s₂])
  | .drop l =>
    match s.guards.find? fun g => g.lock = l with
    | some g =>
      -- `self.guard.take()`, then the bit
      let s₁ := { s with guards := s.guards.erase g }
      let s₂ := csrs (g.sstatus &&& 2) s₁
      .ok (s₂, [s₁, s₂])
    | none => .error .impossible
  | .enter l =>
    let s₁ := csrrci s
    let s₂ := { s₁ with sections := ⟨l, s.sstatus⟩ :: s₁.sections }
    permit .spins (l ∉ s.held) (s₂, [s₁, s₂])
  | .leave =>
    match s.sections with
    | g :: sections =>
      let s₁ := { s with sections }
      let s₂ := csrs (g.sstatus &&& 2) s₁
      .ok (s₂, [s₁, s₂])
    | [] => .error .impossible

/-- Interrupts are off as long as a lock is held. -/
def State.Quiet (s : State) : Prop := s.held ≠ [] → SIE s.sstatus = false

/-- A step of a run that started with the bit `sie`: interrupts are off at every moment at which a
lock is held, and as they were when the last one is released. -/
def Right (sie : Bool) (s : State) (e : Event) : Prop :=
  ∀ s' moments, step s e = .ok (s', moments) → (∀ m ∈ moments, m.Quiet) ∧
  (s'.held = [] → SIE s'.sstatus = sie)

/-- The guard that a step drops. -/
def released (s : State) : Event → Option Guard
  | .drop l => s.guards.find? fun g => g.lock = l
  | .leave => s.sections.head?
  | .lock _ | .enter _ => none

/-- Whoever has found interrupts on is released when nothing else is held. -/
def Fits (s : State) (e : Event) : Prop :=
  ∀ g ∈ released s e, SIE g.sstatus = true → s.held.length = 1

instance (s : State) (e : Event) : Decidable (Fits s e) :=
  inferInstanceAs (Decidable (∀ g ∈ released s e, _))

/-! ## What a step does -/

section Steps

variable {s s' : State} {e : Event} {ms : List State} {sie : Bool}

/-- A lock is taken. -/
structure Takes (s s' : State) (ms : List State) (g : Guard) : Prop where
  saved : g.sstatus = s.sstatus
  sstatus : s'.sstatus = s.sstatus &&& ~~~ SIE_MASK
  all : s'.all.Perm (g :: s.all)
  moments : ms = [csrrci s, s']

/-- A lock is released. -/
structure Releases (s s' : State) (ms : List State) (g : Guard) : Prop where
  all : s.all.Perm (g :: s'.all)
  sstatus : s'.sstatus = s.sstatus ||| (g.sstatus &&& 2)
  moments : ms = [{ s' with sstatus := s.sstatus }, s']

theorem step_cases (h : step s e = .ok (s', ms)) :
    (released s e = none ∧ ∃ g, Takes s s' ms g) ∨ ∃ g, released s e = some g ∧
    Releases s s' ms g := by
  cases e with
  | lock l =>
    obtain ⟨_, hr⟩ := permit_eq_ok h
    obtain ⟨rfl, rfl⟩ := Prod.mk.inj hr
    exact .inl ⟨rfl, ⟨l, s.sstatus⟩, rfl, rfl, List.Perm.refl _, rfl⟩
  | enter l =>
    obtain ⟨_, hr⟩ := permit_eq_ok h
    obtain ⟨rfl, rfl⟩ := Prod.mk.inj hr
    exact .inl ⟨rfl, ⟨l, s.sstatus⟩, rfl, rfl, List.perm_middle, rfl⟩
  | drop l =>
    simp only [step] at h
    split at h
    · rename_i g hg
      obtain ⟨rfl, rfl⟩ := Prod.mk.inj (Except.ok.inj h)
      have hperm := List.perm_cons_erase (List.mem_of_find?_eq_some hg)
      exact .inr ⟨g, hg, hperm.append_right _, rfl, rfl⟩
    · simp at h
  | leave =>
    simp only [step] at h
    split at h
    · rename_i g sections hs
      obtain ⟨rfl, rfl⟩ := Prod.mk.inj (Except.ok.inj h)
      refine .inr ⟨g, by simp [released, hs], ?_, rfl, rfl⟩
      rw [State.all, hs]
      exact List.perm_middle
    · simp at h

theorem step_released {g : Guard} (h : released s e = some g) :
    ∃ s' ms, step s e = .ok (s', ms) := by
  cases e with
  | drop l =>
    have h : s.guards.find? (fun g => g.lock = l) = some g := h
    simp only [step, h]
    exact ⟨_, _, rfl⟩
  | leave =>
    obtain ⟨sections, hs⟩ := List.head?_eq_some_iff.mp h
    simp only [step, hs]
    exact ⟨_, _, rfl⟩
  | lock l => simp [released] at h
  | enter l => simp [released] at h

theorem SIE_clear (x : BitVec 64) : SIE (x &&& ~~~ SIE_MASK) = false := by
  simp [SIE, SIE_MASK]

theorem SIE_restore (x y : BitVec 64) : SIE (x ||| (y &&& 2)) = (SIE x || SIE y) := by
  simp [SIE]

theorem held_eq_nil : s.held = [] ↔ s.all = [] := List.map_eq_nil_iff

/-- The bit is set or kept in a guard if and only if it was set at the start. -/
def Balanced (sie : Bool) (s : State) : Prop :=
  (SIE s.sstatus || s.all.any fun g => SIE g.sstatus) = sie

theorem step_balanced (h : Balanced sie s) (hs : step s e = .ok (s', ms)) : Balanced sie s' := by
  unfold Balanced at h ⊢
  rcases step_cases hs with ⟨-, g, ht⟩ | ⟨g, -, hr⟩
  · rw [ht.sstatus, SIE_clear, ht.all.any_eq, List.any_cons, ht.saved, Bool.false_or]
    exact h
  · rw [hr.all.any_eq, List.any_cons] at h
    rw [hr.sstatus, SIE_restore, Bool.or_assoc]
    exact h

theorem Balanced.restored (h : Balanced sie s) (hnone : s.held = []) : SIE s.sstatus = sie := by
  unfold Balanced at h
  rw [held_eq_nil.mp hnone, List.any_nil, Bool.or_false] at h
  exact h

theorem Releases.length {g : Guard} (h : Releases s s' ms g) :
    s.held.length = s'.held.length + 1 := by
  rw [State.held, State.held, List.length_map, List.length_map, h.all.length_eq, List.length_cons]

theorem Releases.held {g : Guard} (h : Releases s s' ms g) : s.held ≠ [] := by
  intro hnil
  have hlen := h.length
  rw [hnil, List.length_nil] at hlen
  omega

theorem step_right_iff (hb : Balanced sie s) (hq : s.Quiet) : Right sie s e ↔ Fits s e := by
  constructor
  · intro h g hg hset
    obtain ⟨s', ms, hs⟩ := step_released hg
    have hr : Releases s s' ms g := by
      rcases step_cases hs with ⟨hnone, _⟩ | ⟨g', hg', hr⟩
      · simp [hnone] at hg
      · obtain rfl := Option.some.inj (hg.symm.trans hg')
        exact hr
    -- the guard turns interrupts on, so nothing else is held
    have hquiet := (h s' ms hs).1 s' (by simp [hr.moments])
    have hnone : s'.held = [] := by
      by_contra hne
      have hoff := hquiet hne
      rw [hr.sstatus, SIE_restore, hset, Bool.or_true] at hoff
      simp at hoff
    rw [hr.length, hnone, List.length_nil]
  · intro h s' ms hs
    refine ⟨?_, (step_balanced hb hs).restored⟩
    rcases step_cases hs with ⟨-, g, ht⟩ | ⟨g, hg, hr⟩
    · rw [ht.moments]
      refine List.forall_mem_cons.mpr ⟨fun _ => SIE_clear _,
        List.forall_mem_singleton.mpr fun _ => ?_⟩
      rw [ht.sstatus, SIE_clear]
    · rw [hr.moments]
      refine List.forall_mem_cons.mpr ⟨fun hne => hq hr.held,
        List.forall_mem_singleton.mpr fun hne => ?_⟩
      have hoff : SIE g.sstatus = false := by
        by_contra hset
        have hone := h g hg (by simpa using hset)
        rw [hr.length] at hone
        exact hne (List.length_eq_zero_iff.mp (by omega))
      rw [hr.sstatus, SIE_restore, hoff, hq hr.held]
      rfl

end Steps

/-- Whatever the register is at the start: in every run interrupts are off while a lock is held, and
as they were when none is, exactly if no guard that found them on is released while another lock is
held. -/
theorem interrupts_off_iff (sstatus : BitVec 64) (es : List Event) :
    Meets step (Right (SIE sstatus)) (start sstatus) es ↔ Meets step Fits (start sstatus) es := by
  have hstart : Balanced (SIE sstatus) (start sstatus) ∧ (start sstatus).Quiet :=
    ⟨by simp [Balanced, start, State.all],
    fun h => absurd rfl h⟩
  refine meets_iff_meets (fun s => Balanced (SIE sstatus) s ∧ s.Quiet) (fun _ => True)
    (fun s e _ h => step_right_iff h.1 h.2) ?_ hstart fun _ _ => trivial
  intro s e s' ms _ h hfit hs
  have hright := (step_right_iff h.1 h.2).mpr hfit s' ms hs
  refine ⟨step_balanced h.1 hs, hright.1 s' ?_⟩
  rcases step_cases hs with ⟨-, g, ht⟩ | ⟨g, -, hr⟩
  · simp [ht.moments]
  · simp [hr.moments]

theorem sie_restored (sstatus : BitVec 64) (es : List Event) (s : State) (os : List (List State))
    (hrun : run step (start sstatus) es = .ok (s, os)) (hnone : s.held = []) :
    SIE s.sstatus = SIE sstatus := by
  have hstart : Balanced (SIE sstatus) (start sstatus) := by simp [Balanced, start, State.all]
  have h : Balanced (SIE sstatus) s :=
    run_invariant (Balanced (SIE sstatus)) (fun _ _ _ _ => step_balanced) hstart hrun
  exact h.restored hnone

/-- A guard and a section inside it, released in the right order. -/
example : Meets step Fits (start 2) [.lock 0, .enter 1, .leave, .drop 0] := by decide

/-- Two guards, of which the first one is dropped first. -/
theorem first_guard_first : ¬ Meets step (Right (SIE 2)) (start 2) [.lock 0, .lock 1, .drop 0] ∧
    ∃ s os, run step (start 2) [.lock 0, .lock 1, .drop 0] = .ok (s, os) ∧
    s.held = [1] ∧ SIE s.sstatus = true := by
  refine ⟨fun h => ?_, _, _, rfl, rfl, by decide⟩
  have hdrop := ((h.2 _ _ rfl).2 _ _ rfl).1 _ _ rfl
  have hquiet := hdrop.1 _ (List.mem_cons_of_mem _ List.mem_cons_self) (by decide)
  exact absurd hquiet (by decide)

end HectoOs.Sync.SpinLock
