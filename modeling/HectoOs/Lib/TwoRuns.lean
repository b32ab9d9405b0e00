import HectoOs.Lib.Exec
import HectoOs.Lib.Memory
import Mathlib.Data.Set.Basic

/-! # Two runs of a computation

`wp2 x y Q s t` says that `x`, started in `s`, and `y`, started in `t`, end alike: with the same
result and states in `Q`, or with the same panic. What a computation does not read it cannot show,
and two memories that differ in the bytes `D` differ in what is left of `D` after the same stores.
-/

namespace HectoOs.Lib

section Wp2

variable {π σ α β : Type} {Q Q' : α → σ → σ → Prop} {s t : σ}

def wp2 (x y : Exec π σ α) (Q : α → σ → σ → Prop) (s t : σ) : Prop :=
  match x s, y t with
  | .ok (a, s'), .ok (b, t') => a = b ∧ Q a s' t'
  | .error e, .error e' => e = e'
  | _, _ => False

theorem wp2_ok {x y : Exec π σ α} {a : α} {s' : σ} (h : wp2 x y Q s t) (hx : x s = .ok (a, s')) :
    ∃ t', y t = .ok (a, t') ∧ Q a s' t' := by
  unfold wp2 at h
  rw [hx] at h
  split at h
  · rename_i heq hy
    obtain ⟨rfl, rfl⟩ := Prod.mk.inj (Except.ok.inj heq)
    obtain ⟨rfl, hQ⟩ := h
    exact ⟨_, hy, hQ⟩
  · simp at *
  · exact h.elim

theorem wp2_error {x y : Exec π σ α} {e : π} (h : wp2 x y Q s t) (hx : x s = .error e) :
    y t = .error e := by
  unfold wp2 at h
  rw [hx] at h
  split at h
  · simp at *
  · rename_i heq hy
    rw [hy, ← h, Except.error.inj heq]
  · exact h.elim

theorem wp2_mono {x y : Exec π σ α} (h : wp2 x y Q s t) (hQ : ∀ a s' t', Q a s' t' → Q' a s' t') :
    wp2 x y Q' s t := by
  unfold wp2 at h ⊢
  split at h
  · exact ⟨h.1, hQ _ _ _ h.2⟩
  · exact h
  · exact h.elim

/-- What is known about the first run alone. -/
theorem wp2_and {may : π → Prop} {P : α → σ → Prop} {x y : Exec π σ α}
    (hx : wp may x P s) (h : wp2 x y Q s t) :
    wp2 x y (fun a s' t' => P a s' ∧ Q a s' t') s t := by
  unfold wp2 at h ⊢
  split at h
  · rename_i hs ht
    exact ⟨h.1, wp_ok hx hs, h.2⟩
  · exact h
  · exact h.elim

theorem wp2_bind {x y : Exec π σ α} {f g : α → Exec π σ β} {R : β → σ → σ → Prop}
    (h : wp2 x y (fun a => wp2 (f a) (g a) R) s t) : wp2 (x >>= f) (y >>= g) R s t := by
  unfold wp2 at h ⊢
  simp only [bind, StateT.bind]
  split at h
  · rename_i hx hy
    obtain ⟨rfl, h⟩ := h
    rw [hx, hy]
    exact h
  · rename_i hx hy
    rw [hx, hy]
    exact h
  · exact h.elim

/-- How a caller uses the specification of a callee in both runs. -/
theorem wp2_call {x y : Exec π σ α} {f g : α → Exec π σ β} {R : β → σ → σ → Prop}
    (hx : wp2 x y Q s t) (hf : ∀ a s' t', Q a s' t' → wp2 (f a) (g a) R s' t') :
    wp2 (x >>= f) (y >>= g) R s t :=
  wp2_bind (wp2_mono hx hf)

theorem wp2_pure {a : α} (h : Q a s t) : wp2 (pure a : Exec π σ α) (pure a) Q s t := ⟨rfl, h⟩

theorem wp2_get {f g : σ → Exec π σ β} {R : β → σ → σ → Prop} (h : wp2 (f s) (g t) R s t) :
    wp2 (get >>= f) (get >>= g) R s t := h

theorem wp2_set {s' t' : σ} {R : PUnit → σ → σ → Prop} (h : R ⟨⟩ s' t') :
    wp2 (set s' : Exec π σ PUnit) (set t') R s t := ⟨rfl, h⟩

theorem wp2_modify {f g : σ → σ} {R : PUnit → σ → σ → Prop} (h : R ⟨⟩ (f s) (g t)) :
    wp2 (modify f : Exec π σ PUnit) (modify g) R s t := ⟨rfl, h⟩

theorem wp2_require {e : π} {c : Bool} {R : Unit → σ → σ → Prop} (h : c = true → R () s t) :
    wp2 (Exec.require e c) (Exec.require e c) R s t := by
  cases c with
  | true => exact ⟨rfl, h rfl⟩
  | false => rfl

theorem wp2_ite {c : Prop} [Decidable c] {x y x' y' : Exec π σ α} (h : c → wp2 x y Q s t)
    (h' : ¬ c → wp2 x' y' Q s t) : wp2 (if c then x else x') (if c then y else y') Q s t := by
  by_cases hc : c
  · rw [if_pos hc, if_pos hc]
    exact h hc
  · rw [if_neg hc, if_neg hc]
    exact h' hc

theorem wp2_unwrap {e : π} {o : Option α} (h : ∀ a, o = some a → Q a s t) :
    wp2 (Exec.unwrap e o) (Exec.unwrap e o) Q s t := by
  cases o with
  | some a => exact ⟨rfl, h a rfl⟩
  | none => rfl

/-- The rule for a loop over a list: `I` speaks about the part that both runs have visited. -/
theorem wp2_foldlM {f g : β → α → Exec π σ β} {l : List α} {b : β} (I : List α → β → σ → σ → Prop)
    (h0 : I [] b s t) (hstep : ∀ done a rest b s t, l = done ++ a :: rest →
    I done b s t → wp2 (f b a) (g b a) (I (done ++ [a])) s t) :
    wp2 (l.foldlM f b) (l.foldlM g b) (I l) s t := by
  suffices h : ∀ rest done b s t, l = done ++ rest → I done b s t →
      wp2 (rest.foldlM f b) (rest.foldlM g b) (I l) s t from h l [] b s t rfl h0
  intro rest
  induction rest with
  | nil =>
    intro done b s t hl hI
    rw [hl, List.append_nil]
    exact wp2_pure hI
  | cons a rest ih =>
    intro done b s t hl hI
    rw [List.foldlM_cons, List.foldlM_cons]
    refine wp2_call (hstep done a rest b s t hl hI) fun b' s' t' hI' => ?_
    exact ih (done ++ [a]) b' s' t' (by rw [hl, List.append_assoc]; rfl) hI'

end Wp2

/-! ## Memories that differ in some bytes -/

section Differ

/-- The memories differ in the bytes `D` and in no other. -/
def DifferOn (D : Set Nat) (m m' : Mem) : Prop := ∀ a, m' a ≠ m a ↔ a ∈ D

variable {D : Set Nat} {m m' n n' : Mem} {a b : Nat}

theorem DifferOn.sameOn (h : DifferOn D m m') (hD : ∀ x ∈ D, x < a ∨ b ≤ x) : SameOn m m' a b := by
  intro x ha hb
  by_contra hne
  have := hD x ((h x).mp hne)
  omega

/-- Both write the same bytes from `a` to `b`. -/
theorem DifferOn.store (h : DifferOn D m m') (hm : SameOff m n a b) (hm' : SameOff m' n' a b)
    (hn : SameOn n n' a b) :
    DifferOn (D \ Set.Ico a b) n n' := by
  intro x
  rw [Set.mem_sdiff, Set.mem_Ico]
  by_cases hx : a ≤ x ∧ x < b
  · simp [hx, hn x hx.1 hx.2]
  · rw [hm x (by omega), hm' x (by omega), h x]
    simp [hx]

/-- Both write the same bytes to a place where they do not differ. -/
theorem DifferOn.store_apart (h : DifferOn D m m') (hm : SameOff m n a b) (hm' : SameOff m' n' a b)
    (hn : SameOn n n' a b) (hD : ∀ x ∈ D, x < a ∨ b ≤ x) : DifferOn D n n' := by
  intro x
  rw [h.store hm hm' hn x, Set.mem_sdiff, Set.mem_Ico]
  refine and_iff_left_of_imp fun hx => ?_
  have := hD x hx
  omega

end Differ

end HectoOs.Lib
