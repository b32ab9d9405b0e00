import HectoOs.Lib.Exec

/-! # Computations that return a `Result`

A `Fallible` computation ends in a value, in an error, or in a panic. An error keeps the state it
happened in, a panic does not. `Returns x Q s` says that `x`, started in `s`, returns a value.
-/

namespace HectoOs.Lib

abbrev Fallible (π ε σ : Type) := ExceptT ε (Exec π σ)

section Rules

variable {π ε σ α β : Type} {x : Fallible π ε σ α} {f : α → Fallible π ε σ β} {Q Q' : α → σ → Prop}
  {R : β → σ → Prop} {s s' : σ} {a : α} {e : ε}

def Returns (x : Fallible π ε σ α) (Q : α → σ → Prop) (s : σ) : Prop :=
  ∃ a s', x s = .ok (.ok a, s') ∧ Q a s'

/-- The outcome of `x` as a value, for a caller that handles both cases. -/
def attempt (x : Fallible π ε σ α) : Fallible π ε σ (Except ε α) :=
  fun s => (x s).map fun r => (.ok r.1, r.2)

theorem attempt_eq {r : Except ε α} (h : x s = .ok (r, s')) : attempt x s = .ok (.ok r, s') := by
  rw [attempt, h]
  rfl

theorem bind_of_ok (h : x s = .ok (.ok a, s')) : (x >>= f) s = f a s' := by
  simp only [bind, ExceptT.bind, ExceptT.mk, StateT.bind, h, Except.bind, ExceptT.bindCont]

theorem bind_of_error (h : x s = .ok (.error e, s')) : (x >>= f) s = .ok (.error e, s') := by
  simp only [bind, ExceptT.bind, ExceptT.mk, StateT.bind, h, Except.bind, ExceptT.bindCont]
  rfl

theorem catch_of_ok {k : ε → Fallible π ε σ α} (h : x s = .ok (.ok a, s')) :
    tryCatch x k s = .ok (.ok a, s') := by
  simp only [tryCatch, tryCatchThe, MonadExceptOf.tryCatch, ExceptT.tryCatch,
    ExceptT.mk, bind, StateT.bind, h, Except.bind]
  rfl

theorem catch_of_error {k : ε → Fallible π ε σ α} (h : x s = .ok (.error e, s')) :
    tryCatch x k s = k e s' := by
  simp only [tryCatch, tryCatchThe, MonadExceptOf.tryCatch, ExceptT.tryCatch,
    ExceptT.mk, bind, StateT.bind, h, Except.bind]

theorem Returns.mono (h : Returns x Q s) (hQ : ∀ a s', Q a s' → Q' a s') : Returns x Q' s := by
  obtain ⟨a, s', hx, hq⟩ := h
  exact ⟨a, s', hx, hQ a s' hq⟩

theorem returns_bind (h : Returns x Q s) (hf : ∀ a s', Q a s' → Returns (f a) R s') :
    Returns (x >>= f) R s := by
  obtain ⟨a, s', hx, hq⟩ := h
  obtain ⟨b, s'', hb, hr⟩ := hf a s' hq
  exact ⟨b, s'', (bind_of_ok hx).trans hb, hr⟩

theorem returns_pure (h : Q a s) : Returns (pure a : Fallible π ε σ α) Q s := ⟨a, s, rfl, h⟩

end Rules

/-! ## What a computation does to the state -/

section Keeping

variable {π ε σ α β : Type} {R : σ → σ → Prop} {x : Fallible π ε σ α} {f : α → Fallible π ε σ β}

/-- However `x` ends without a panic, the state has changed only as `R` allows. -/
def Keeps (R : σ → σ → Prop) (x : Fallible π ε σ α) : Prop := ∀ s r s', x s = .ok (r, s') → R s s'

theorem Keeps.bind (ht : ∀ {a b c}, R a b → R b c → R a c) (hx : Keeps R x)
    (hf : ∀ a, Keeps R (f a)) : Keeps R (x >>= f) := by
  intro s r s' h
  cases hrun : x s with
  | error p =>
    simp only [Bind.bind, ExceptT.bind, ExceptT.mk, StateT.bind, hrun, Except.bind] at h
    cases h
  | ok p =>
    obtain ⟨r₁, s₁⟩ := p
    have h₁ := hx s r₁ s₁ hrun
    cases r₁ with
    | error e =>
      rw [bind_of_error hrun] at h
      cases h
      exact h₁
    | ok a =>
      rw [bind_of_ok hrun] at h
      exact ht h₁ (hf a s₁ r s' h)

end Keeping

end HectoOs.Lib
