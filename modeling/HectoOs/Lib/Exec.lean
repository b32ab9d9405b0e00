import Mathlib.Logic.Basic
import Mathlib.Data.List.Basic

/-! # Computations that can panic, and runs of a state machine

`Exec π σ α` reads and writes a state `σ`, or stops with a panic `π`. `wp may x Q s` says that `x`,
started in `s`, ends in `Q` or with a panic that `may` allows: with `may := fun _ => True` this is
partial correctness, with `may := fun _ => False` nothing panics.
-/

namespace HectoOs.Lib

abbrev Exec (π σ : Type) := StateT σ (Except π)

namespace Exec

variable {π σ α β : Type}

def panic (e : π) : Exec π σ α := fun _ => .error e

/-- A check that panics with `e` when it fails. -/
def require (e : π) (c : Bool) : Exec π σ Unit := fun s => if c then .ok ((), s) else .error e

/-- `Option::unwrap`. -/
def unwrap (e : π) (o : Option α) : Exec π σ α := fun s =>
  match o with
  | some a => .ok (a, s)
  | none => .error e

end Exec

/-- The outcome of a function whose panic carries no reason. -/
def orPanic {π α : Type} (e : π) (o : Option α) : Except π α := o.elim (.error e) .ok

theorem orPanic_eq_ok {π α : Type} {e : π} {o : Option α} {a : α} :
    orPanic e o = .ok a ↔ o = some a := by
  cases o <;> simp [orPanic]

theorem ok_of_isSome {π α : Type} {x : Except π α} (h : x.toOption.isSome) : ∃ a, x = .ok a := by
  cases x with
  | error e => simp [Except.toOption] at h
  | ok a => exact ⟨a, rfl⟩

theorem toOption_eq_some {π α : Type} {x : Except π α} {a : α} :
    x.toOption = some a ↔ x = .ok a := by
  cases x <;> simp [Except.toOption]

/-- A computation ends in the panic `p`. -/
def panics {π α : Type} [DecidableEq π] (p : π) : Except π α → Bool
  | .error q => q = p
  | .ok _ => false

theorem panics_iff {π α : Type} [DecidableEq π] {p : π} {x : Except π α} :
    panics p x = true ↔ x = .error p := by
  cases x <;> simp [panics]

theorem bind_eq_ok {π α β : Type} {x : Except π α} {f : α → Except π β}
    {b : β} (h : x.bind f = .ok b) :
    ∃ a, x = .ok a ∧ f a = .ok b := by
  cases x with
  | error e => simp [Except.bind] at h
  | ok a => exact ⟨a, rfl, h⟩

theorem bind_eq_error {π α β : Type} {x : Except π α} {f : α → Except π β}
    {p : π} (h : x.bind f = .error p) :
    x = .error p ∨ ∃ a, x = .ok a ∧ f a = .error p := by
  cases x with
  | error e =>
    cases h
    exact .inl rfl
  | ok a => exact .inr ⟨a, rfl, h⟩

theorem ok_of_bind {π α β : Type} {x : Except π α} {f : α → Except π β}
    (h : (x.bind f).toOption.isSome) :
    ∃ a, x = .ok a ∧ (f a).toOption.isSome := by
  cases x with
  | error e => simp [Except.bind, Except.toOption] at h
  | ok a => exact ⟨a, rfl, h⟩

theorem exec_bind {π σ α β : Type} {x : Exec π σ α} {k : α → Exec π σ β} {s : σ} :
    (x >>= k) s = (x s).bind fun r => k r.1 r.2 := rfl

/-! ## Weakest preconditions -/

section Wp

variable {π σ α β : Type} {may : π → Prop} {Q Q' : α → σ → Prop} {s : σ}

def wp (may : π → Prop) (x : Exec π σ α) (Q : α → σ → Prop) (s : σ) : Prop :=
  match x s with
  | .ok (a, s') => Q a s'
  | .error e => may e

theorem wp_ok {x : Exec π σ α} {a : α} {s' : σ} (h : wp may x Q s)
    (hx : x s = .ok (a, s')) : Q a s' := by
  simpa only [wp, hx] using h

theorem wp_iff_of_ok {x : Exec π σ α} {a : α} {s' : σ} (hx : x s = .ok (a, s')) :
    wp may x Q s ↔ Q a s' := by
  rw [wp, hx]

theorem wp_error {x : Exec π σ α} {e : π} (h : wp may x Q s) (hx : x s = .error e) : may e := by
  simpa only [wp, hx] using h

theorem wp_map_ok {x : Exec π σ α} {f : α × σ → β} {b : β} (h : wp may x Q s)
    (hx : (x s).map f = .ok b) :
    ∃ a s', Q a s' ∧ f (a, s') = b := by
  cases hs : x s with
  | error e => simp [hs, Except.map] at hx
  | ok r =>
    simp only [hs, Except.map, Except.ok.injEq] at hx
    exact ⟨r.1, r.2, wp_ok h hs, hx⟩

theorem wp_map_error {x : Exec π σ α} {f : α × σ → β} {e : π} (h : wp may x Q s)
    (hx : (x s).map f = .error e) : may e := by
  cases hs : x s with
  | error e' =>
    simp only [hs, Except.map, Except.error.injEq] at hx
    exact hx ▸ wp_error h hs
  | ok r => simp [hs, Except.map] at hx

/-- A computation that may not panic has a result. -/
theorem wp_total {x : Exec π σ α}
    (h : wp (fun _ => False) x Q s) : ∃ a s', x s = .ok (a, s') ∧ Q a s' := by
  unfold wp at h
  split at h
  · exact ⟨_, _, ‹_›, h⟩
  · exact h.elim

theorem wp_mono {x : Exec π σ α} (h : wp may x Q s) (hQ : ∀ a s', Q a s' → Q' a s') :
    wp may x Q' s := by
  unfold wp at h ⊢
  split
  · rename_i heq
    rw [heq] at h
    exact hQ _ _ h
  · rename_i heq
    rw [heq] at h
    exact h

theorem wp_any (x : Exec π σ α) : wp (fun _ => True) x (fun _ _ => True) s := by
  unfold wp
  split <;> trivial

/-- The rule of consequence, for the results and for the panics. -/
theorem wp_imp {may' : π → Prop} {x : Exec π σ α} (h : wp may x Q s) (hm : ∀ e, may e → may' e)
    (hQ : ∀ a s', Q a s' → Q' a s') : wp may' x Q' s := by
  unfold wp at h ⊢
  split at h
  · exact hQ _ _ h
  · exact hm _ h

/-- Two specifications of the same computation. -/
theorem wp_and {x : Exec π σ α} (h : wp may x Q s) (h' : wp may x Q' s) :
    wp may x (fun a s' => Q a s' ∧ Q' a s') s := by
  unfold wp at h h' ⊢
  split
  · rename_i heq
    rw [heq] at h h'
    exact ⟨h, h'⟩
  · rename_i heq
    rw [heq] at h
    exact h

theorem wp_bind {x : Exec π σ α} {f : α → Exec π σ β} {R : β → σ → Prop} :
    wp may (x >>= f) R s ↔ wp may x (fun a => wp may (f a) R) s := by
  unfold wp
  simp only [bind, StateT.bind]
  cases x s <;> rfl

/-- How a caller uses the specification of `x`. -/
theorem wp_call {x : Exec π σ α} {f : α → Exec π σ β} {R : β → σ → Prop} (hx : wp may x Q s)
    (hf : ∀ a s', Q a s' → wp may (f a) R s') : wp may (x >>= f) R s :=
  wp_bind.mpr (wp_mono hx hf)

theorem wp_pure {a : α} : wp may (pure a) Q s ↔ Q a s := (Iff.rfl)

theorem wp_map {x : Exec π σ α} {g : α → β} {R : β → σ → Prop} :
    wp may (g <$> x) R s ↔ wp may x (fun a => R (g a)) s := by
  unfold wp
  simp only [Functor.map, StateT.map]
  cases x s <;> rfl

theorem wp_get {R : σ → σ → Prop} : wp may (get : Exec π σ σ) R s ↔ R s s := (Iff.rfl)

theorem wp_set {t : σ} {R : PUnit → σ → Prop} :
    wp may (set t : Exec π σ PUnit) R s ↔ R ⟨⟩ t := (Iff.rfl)

theorem wp_modify {f : σ → σ} {R : PUnit → σ → Prop} :
    wp may (modify f : Exec π σ PUnit) R s ↔ R ⟨⟩ (f s) := (Iff.rfl)

theorem wp_require {e : π} {c : Bool} {R : Unit → σ → Prop} :
    wp may (Exec.require e c) R s ↔ (c = true → R () s) ∧ (c = false → may e) := by
  cases c <;> simp [wp, Exec.require]

theorem require_true {e : π} {k : Unit → Exec π σ α} : (Exec.require e true >>= k) = k () := rfl

theorem wp_ite {c : Prop} [Decidable c] {x y : Exec π σ α} :
    wp may (if c then x else y) Q s ↔ (c → wp may x Q s) ∧ (¬ c → wp may y Q s) := by
  by_cases hc : c <;> simp [hc]

theorem wp_unwrap {e : π} {o : Option α} :
    wp may (Exec.unwrap e o) Q s ↔ (∀ a, o = some a → Q a s) ∧ (o = none → may e) := by
  cases o <;> simp [wp, Exec.unwrap]

/-- The rule for a loop over a list: `I` speaks about the part that has been visited. -/
theorem wp_foldlM {f : β → α → Exec π σ β} {l : List α} {b : β} (I : List α → β → σ → Prop)
    (h0 : I [] b s) (hstep : ∀ done a rest b s, l = done ++ a :: rest →
    I done b s → wp may (f b a) (I (done ++ [a])) s) :
    wp may (l.foldlM f b) (I l) s := by
  suffices h : ∀ rest done b s, l = done ++ rest → I done b s →
    wp may (rest.foldlM f b) (I l) s from
    h l [] b s rfl h0
  intro rest
  induction rest with
  | nil =>
    intro done b s hl hI
    rw [hl, List.append_nil]
    exact hI
  | cons a rest ih =>
    intro done b s hl hI
    rw [List.foldlM_cons]
    refine wp_call (hstep done a rest b s hl hI) fun b' s' hI' => ?_
    exact ih (done ++ [a]) b' s' (by rw [hl, List.append_assoc]; rfl) hI'

end Wp

/-- A loop commutes with a map of its states that commutes with its body. -/
theorem foldlM_hom {m : Type → Type} [Monad m] [LawfulMonad m] {α β : Type}
    (g : β → β) {f : β → α → m β} {l : List α} {b : β} (h : ∀ b a, f (g b) a = g <$> f b a) :
    l.foldlM f (g b) = g <$> l.foldlM f b := by
  induction l generalizing b with
  | nil => simp
  | cons a l ih => simp only [List.foldlM_cons, h, map_bind, bind_map_left, ih]

/-! ## Runs -/

section Run

variable {π σ τ ε ο : Type}

/-- Applies the events in order and collects what each of them shows to the outside. The run stops
where a step does. -/
def run (step : σ → ε → Except π (σ × ο)) : σ → List ε → Except π (σ × List ο)
  | s, [] => .ok (s, [])
  | s, e :: es =>
    match step s e with
    | .error p => .error p
    | .ok (s', o) =>
      match run step s' es with
      | .error p => .error p
      | .ok (s'', os) => .ok (s'', o :: os)

/-- A step that can happen only under a condition. -/
def permit {α : Type} (p : π) (c : Prop) [Decidable c] (a : α) : Except π α :=
  if c then .ok a else .error p

theorem permit_eq_ok {α : Type} {p : π} {c : Prop} [Decidable c] {a b : α}
    (h : permit p c a = .ok b) : c ∧ a = b := by
  unfold permit at h
  split at h
  · exact ⟨‹_›, Except.ok.inj h⟩
  · simp at h

theorem run_cons {step : σ → ε → Except π (σ × ο)} {s s'' : σ} {e : ε} {es : List ε} {os : List ο}
    (h : run step s (e :: es) = .ok (s'', os)) :
    ∃ s' o os', step s e = .ok (s', o) ∧ run step s' es = .ok (s'', os') ∧ os = o :: os' := by
  unfold run at h
  split at h
  · simp at h
  · split at h
    · simp at h
    · simp only [Except.ok.injEq, Prod.mk.injEq] at h
      obtain ⟨rfl, rfl⟩ := h
      exact ⟨_, _, _, ‹_›, ‹_›, rfl⟩

theorem run_cons_error {step : σ → ε → Except π (σ × ο)} {s : σ} {e : ε} {es : List ε} {p : π}
    (h : run step s (e :: es) = .error p) :
    step s e = .error p ∨ ∃ s' o, step s e = .ok (s', o) ∧ run step s' es = .error p := by
  unfold run at h
  split at h
  · rename_i heq
    exact .inl (heq.trans (by simpa using h))
  · split at h
    · rename_i heq
      exact .inr ⟨_, _, ‹_›, heq.trans (by simpa using h)⟩
    · simp at h

/-- Every step of the run meets the condition `cond` in the state it starts from. -/
def Meets (step : σ → ε → Except π (σ × ο)) (cond : σ → ε → Prop) : σ → List ε → Prop
  | _, [] => True
  | s, e :: es => cond s e ∧ ∀ s' o, step s e = .ok (s', o) → Meets step cond s' es

theorem meets_of_forall {step : σ → ε → Except π (σ × ο)} {cond : σ → ε → Prop} {es : List ε}
    (h : ∀ e ∈ es, ∀ s, cond s e) (s : σ) : Meets step cond s es := by
  induction es generalizing s with
  | nil => trivial
  | cons e es ih =>
    exact ⟨h e List.mem_cons_self s,
      fun s' _ _ => ih (fun e he => h e (List.mem_cons_of_mem _ he)) s'⟩

theorem meets_singleton {step : σ → ε → Except π (σ × ο)} {cond : σ → ε → Prop} {s : σ} {e : ε} :
    Meets step cond s [e] ↔ cond s e := ⟨fun h => h.1, fun h => ⟨h, fun _ _ _ => trivial⟩⟩

instance Meets.decidable {step : σ → ε → Except π (σ × ο)} {cond : σ → ε → Prop}
    [h : ∀ s e, Decidable (cond s e)] :
    ∀ s es, Decidable (Meets step cond s es)
  | _, [] => isTrue trivial
  | s, e :: es =>
    match hs : step s e with
    | .ok (s', o) =>
      have : Decidable (Meets step cond s' es) := Meets.decidable s' es
      decidable_of_iff (cond s e ∧ Meets step cond s' es)
        ⟨fun hm => ⟨hm.1, fun s'' o'' h' => by rw [hs] at h'; cases h'; exact hm.2⟩,
          fun hm => ⟨hm.1, hm.2 s' o hs⟩⟩
    | .error p =>
      decidable_of_iff (cond s e) ⟨fun hm => ⟨hm, fun s' o h' => by rw [hs] at h'; cases h'⟩,
        fun hm => hm.1⟩

/-- The run comes by a state with the property `P`. -/
def Visits (step : σ → ε → Except π (σ × ο)) (P : σ → Prop) : σ → List ε → Prop
  | s, [] => P s
  | s, e :: es => P s ∨ ∃ s' o, step s e = .ok (s', o) ∧ Visits step P s' es

/-- Every state that the run comes by has the property `P`. -/
def Always (step : σ → ε → Except π (σ × ο)) (P : σ → Prop) : σ → List ε → Prop
  | s, [] => P s
  | s, e :: es => P s ∧ ∀ s' o, step s e = .ok (s', o) → Always step P s' es

section Invariant

variable {step : σ → ε → Except π (σ × ο)} {cond : σ → ε → Prop} (Inv : σ → Prop)

/-- A property that steps keep under a condition, and that a step without it destroys, holds all
along a run exactly if all steps meet the condition. -/
theorem always_iff_meets {P : σ → Prop} (hP : ∀ s, Inv s → P s)
    (hstep : ∀ s e s' o, Inv s → cond s e → step s e = .ok (s', o) → Inv s')
    (hbad : ∀ s e, Inv s → ¬ cond s e → ∃ s' o, step s e = .ok (s', o) ∧ ¬ P s')
    {s : σ} {es : List ε} (hs : Inv s) : Always step P s es ↔ Meets step cond s es := by
  induction es generalizing s with
  | nil => exact ⟨fun _ => trivial, fun _ => hP s hs⟩
  | cons e es ih =>
    constructor
    · rintro ⟨_, hall⟩
      have hc : cond s e := by
        by_contra hno
        obtain ⟨t, o, ht, hbad⟩ := hbad s e hs hno
        have := hall t o ht
        cases es with
        | nil => exact hbad this
        | cons _ _ => exact hbad this.1
      exact ⟨hc, fun t o ht => (ih (hstep s e t o hs hc ht)).mp (hall t o ht)⟩
    · rintro ⟨hc, hall⟩
      exact ⟨hP s hs, fun t o ht => (ih (hstep s e t o hs hc ht)).mpr (hall t o ht)⟩

/-- Two conditions that agree under an invariant, in a run whose steps meet a third one. -/
theorem meets_iff_meets_along {cond' kind : σ → ε → Prop}
    (hiff : ∀ s e, kind s e → Inv s → (cond s e ↔ cond' s e))
    (hstep : ∀ s e s' o, kind s e → Inv s → cond' s e → step s e = .ok (s', o) → Inv s')
    {s : σ} {es : List ε} (hs : Inv s) (hes : Meets step kind s es) :
    Meets step cond s es ↔ Meets step cond' s es := by
  induction es generalizing s with
  | nil => exact Iff.rfl
  | cons e es ih =>
    obtain ⟨he, hes⟩ := hes
    have hhead := hiff s e he hs
    have htail : cond' s e → ∀ s' o, step s e = .ok (s', o) →
      (Meets step cond s' es ↔ Meets step cond' s' es) :=
      fun hc s' o ho => ih (hstep s e s' o he hs hc ho) (hes s' o ho)
    constructor
    · rintro ⟨hc, hall⟩
      have hc' := hhead.mp hc
      exact ⟨hc', fun s' o ho => (htail hc' s' o ho).mp (hall s' o ho)⟩
    · rintro ⟨hc', hall⟩
      exact ⟨hhead.mpr hc', fun s' o ho => (htail hc' s' o ho).mpr (hall s' o ho)⟩

/-- Two conditions that agree under an invariant, for the events of a kind. -/
theorem meets_iff_meets {cond' : σ → ε → Prop} (kind : ε → Prop)
    (hiff : ∀ s e, kind e → Inv s → (cond s e ↔ cond' s e))
    (hstep : ∀ s e s' o, kind e → Inv s → cond' s e → step s e = .ok (s', o) → Inv s')
    {s : σ} {es : List ε} (hs : Inv s) (hes : ∀ e ∈ es, kind e) :
    Meets step cond s es ↔ Meets step cond' s es := by
  have hkind : Meets step (fun _ e => kind e) s es := meets_of_forall (fun e he _ => hes e he) s
  exact meets_iff_meets_along Inv hiff hstep hs hkind

/-- What one step keeps under a condition, a run keeps whose steps all meet the condition. -/
theorem run_invariant_of_meets
    (hstep : ∀ s e s' o, Inv s → cond s e → step s e = .ok (s', o) → Inv s')
    {s s' : σ} {es : List ε} {os : List ο} (hs : Inv s) (hc : Meets step cond s es)
    (h : run step s es = .ok (s', os)) : Inv s' := by
  induction es generalizing s os with
  | nil =>
    simp only [run, Except.ok.injEq, Prod.mk.injEq] at h
    rw [← h.1]
    exact hs
  | cons e es ih =>
    obtain ⟨t, o, os', ht, hr, _⟩ := run_cons h
    exact ih (hstep s e t o hs hc.1 ht) (hc.2 t o ht) hr

theorem meets_true (s : σ) (es : List ε) : Meets step (fun _ _ => True) s es :=
  meets_of_forall (fun _ _ _ => trivial) s

/-- What every step shows, a run shows all along. -/
theorem run_observes_of_meets {P : ο → Prop}
    (hstep : ∀ s e s' o, Inv s → cond s e → step s e = .ok (s', o) → Inv s' ∧ P o)
    {s s' : σ} {es : List ε} {os : List ο} (hs : Inv s) (hc : Meets step cond s es)
    (h : run step s es = .ok (s', os)) : ∀ o ∈ os, P o := by
  induction es generalizing s os with
  | nil =>
    simp only [run, Except.ok.injEq, Prod.mk.injEq] at h
    simp [← h.2]
  | cons e es ih =>
    obtain ⟨t, o, os', ht, hr, rfl⟩ := run_cons h
    obtain ⟨hi, ho⟩ := hstep s e t o hs hc.1 ht
    exact List.forall_mem_cons.mpr ⟨ho, ih hi (hc.2 t o ht) hr⟩

theorem run_observes {P : ο → Prop} (hstep : ∀ s e s' o, step s e = .ok (s', o) → P o)
    {s s' : σ} {es : List ε} {os : List ο} (h : run step s es = .ok (s', os)) : ∀ o ∈ os, P o := by
  have hm : Meets step (fun _ _ => True) s es := meets_true s es
  exact run_observes_of_meets (fun _ => True)
    (fun s e s' o _ _ ht => ⟨trivial, hstep s e s' o ht⟩) trivial hm h

/-- What every step keeps, a run keeps. -/
theorem run_invariant (hstep : ∀ s e s' o, Inv s → step s e = .ok (s', o) → Inv s') {s s' : σ}
    {es : List ε} {os : List ο} (hs : Inv s) (h : run step s es = .ok (s', os)) : Inv s' := by
  have hm : Meets step (fun _ _ => True) s es := meets_true s es
  exact run_invariant_of_meets Inv (fun s e s' o hi _ => hstep s e s' o hi) hs hm h

/-- A run that panics does so in one of its steps. -/
theorem run_error_step (hstep : ∀ s e s' o, Inv s → cond s e → step s e = .ok (s', o) → Inv s')
    {s : σ} {es : List ε} {p : π} (hs : Inv s) (hc : Meets step cond s es)
    (h : run step s es = .error p) :
    ∃ t, ∃ e ∈ es, Inv t ∧ cond t e ∧ step t e = .error p := by
  induction es generalizing s with
  | nil => simp [run] at h
  | cons e es ih =>
    rcases run_cons_error h with he | ⟨t, o, ht, hr⟩
    · exact ⟨s, e, List.mem_cons_self, hs, hc.1, he⟩
    · obtain ⟨u, e', he', hu⟩ := ih (hstep s e t o hs hc.1 ht) (hc.2 t o ht) hr
      exact ⟨u, e', List.mem_cons_of_mem _ he', hu⟩

/-- A run panics only in the ways its steps do. -/
theorem run_error_of_meets {may : π → Prop}
    (hstep : ∀ s e s' o, Inv s → cond s e → step s e = .ok (s', o) → Inv s')
    (hpanic : ∀ s e p, Inv s → cond s e → step s e = .error p → may p)
    {s : σ} {es : List ε} {p : π} (hs : Inv s) (hc : Meets step cond s es)
    (h : run step s es = .error p) : may p := by
  obtain ⟨t, e, -, ht, hce, he⟩ := run_error_step Inv hstep hs hc h
  exact hpanic t e p ht hce he

/-- An error that no step ends in, no run ends in. -/
theorem run_ne_error {bad : π} (hstep : ∀ s e s' o, Inv s → step s e = .ok (s', o) → Inv s')
    (hsafe : ∀ s e, Inv s → step s e ≠ .error bad) {s : σ} {es : List ε} (hs : Inv s) :
    run step s es ≠ .error bad := by
  intro h
  have hm : Meets step (fun _ _ => True) s es := meets_true s es
  have hne := @run_error_of_meets _ _ _ _ step (fun _ _ => True) Inv (fun p => p ≠ bad)
    (fun s e s' o hi _ => hstep s e s' o hi) (fun s e p hi _ he => ?_) s es bad hs hm h
  · exact hne rfl
  · rintro rfl
    exact hsafe s e hi he

/-- What a step leaves true only where it was true before, was true at the start of the run. -/
theorem run_backward {H : σ → Prop} (hstep : ∀ s e s' o, Inv s → step s e = .ok (s', o) → Inv s')
    (hback : ∀ s e s' o, Inv s → step s e = .ok (s', o) → H s' → H s) {s s' : σ} {es : List ε}
    {os : List ο} (hs : Inv s) (h : run step s es = .ok (s', os)) (hend : H s') : H s := by
  induction es generalizing s os with
  | nil =>
    simp only [run, Except.ok.injEq, Prod.mk.injEq] at h
    rw [h.1]
    exact hend
  | cons e es ih =>
    obtain ⟨t, o, os', ht, hr, _⟩ := run_cons h
    exact hback s e t o hs ht (ih (hstep s e t o hs ht) hr)

/-- The same holds wherever the run comes by. -/
theorem visits_backward {P H : σ → Prop} (hstep : ∀ s e s' o, Inv s → step s e = .ok (s', o) →
    Inv s') (hback : ∀ s e s' o, Inv s → step s e = .ok (s', o) → H s' → H s)
    {s s' : σ} {es : List ε} {os : List ο} (hs : Inv s) (hv : Visits step P s es)
    (h : run step s es = .ok (s', os)) (hend : H s') : ∃ t, Inv t ∧ P t ∧ H t := by
  induction es generalizing s os with
  | nil => exact ⟨s, hs, hv, run_backward Inv hstep hback hs h hend⟩
  | cons e es ih =>
    rcases hv with hP | ⟨t, o, ht, hv⟩
    · exact ⟨s, hs, hP, run_backward Inv hstep hback hs h hend⟩
    · obtain ⟨t', o', os', ht', hr, _⟩ := run_cons h
      obtain ⟨rfl, rfl⟩ := Prod.mk.inj (Except.ok.inj (ht.symm.trans ht'))
      exact ih (hstep s e t o hs ht) hv hr

end Invariant

/-- A step-by-step simulation gives equal observations along a whole run. -/
theorem run_simulation {step : σ → ε → Except π (σ × ο)} {ref : τ → ε → τ × ο} (R : σ → τ → Prop)
    (hstep : ∀ s t e s' o, R s t → step s e = .ok (s', o) → (ref t e).2 = o ∧ R s' (ref t e).1)
    {s s' : σ} {t : τ} {es : List ε} {os : List ο} (hs : R s t)
    (h : run step s es = .ok (s', os)) :
    ∃ t', run (fun t e => (.ok (ref t e) : Except π (τ × ο))) t es = .ok (t', os) ∧ R s' t' := by
  induction es generalizing s t os with
  | nil =>
    simp only [run, Except.ok.injEq, Prod.mk.injEq] at h
    obtain ⟨rfl, rfl⟩ := h
    exact ⟨t, rfl, hs⟩
  | cons e es ih =>
    obtain ⟨u, o, os', hu, hr, rfl⟩ := run_cons h
    obtain ⟨ho, hR⟩ := hstep s t e u o hs hu
    obtain ⟨t', ht', hR'⟩ := ih hR hr
    refine ⟨t', ?_, hR'⟩
    simp [run, ht', ho]

/-! ### Requests that are served in part -/

/-- The requests one after the other, each with how much of it is served: the state at the end, and
the answers. -/
def serve (ref : Nat → τ → ε → τ × ο) : τ → List (ε × Nat) → τ × List ο
  | t, [] => (t, [])
  | t, (e, k) :: es =>
    let r := ref k t e
    ((serve ref r.1 es).1, r.2 :: (serve ref r.1 es).2)

end Run

/-! ## One computation goes wrong more often than another -/

section Refines

variable {π σ α β : Type}

/-- Where `x` has a result, `y` has the same one. -/
def Refines (x y : Exec π σ α) : Prop := ∀ s r, x s = .ok r → y s = .ok r

theorem Refines.refl (x : Exec π σ α) : Refines x x := fun _ _ h => h

theorem Refines.bind {x y : Exec π σ α} {f g : α → Exec π σ β} (h : Refines x y)
    (hf : ∀ a, Refines (f a) (g a)) :
    Refines (x >>= f) (y >>= g) := by
  intro s r hr
  rw [exec_bind] at hr ⊢
  obtain ⟨⟨a, s'⟩, hx, hfa⟩ := bind_eq_ok hr
  rw [h s _ hx]
  exact hf a s' r hfa

theorem refines_after {x : Exec π σ α} {f g : α → Exec π σ β} (hf : ∀ a, Refines (f a) (g a)) :
    Refines (x >>= f) (x >>= g) := (Refines.refl x).bind hf

theorem Refines.ite {p : Prop} [Decidable p] {x x' y y' : Exec π σ α} (h : Refines x y)
    (h' : Refines x' y') :
    Refines (if p then x else x') (if p then y else y') := by
  split
  · exact h
  · exact h'

end Refines

end HectoOs.Lib
