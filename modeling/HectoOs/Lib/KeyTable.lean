import Mathlib.Data.List.Perm.Basic

/-! # A hash table whose keys can change under it

The table is the list of its entries in the order in which a probe meets them. `found k` says that
the key `k` compares equal to the one that is looked for. Nothing is assumed about `found`, so the
lemmas hold for keys that borrow bytes which are written to, and for two keys that compare equal.
-/

namespace HectoOs.Lib

namespace KeyTable

variable {κ ν : Type} (found : κ → Bool)

def lookup (l : List (κ × ν)) : Option ν := (l.find? fun e => found e.1).map Prod.snd

/-- `HashMap::insert`: a key that is found stays, and its value is returned. -/
def insert (k : κ) (v : ν) : List (κ × ν) → List (κ × ν) × Option ν
  | [] => ([(k, v)], none)
  | e :: l =>
    if found e.1 then ((e.1, v) :: l, some e.2)
    else
      let r := insert k v l
      (e :: r.1, r.2)

/-- `HashMap::remove`. -/
def remove : List (κ × ν) → List (κ × ν) × Option ν
  | [] => ([], none)
  | e :: l =>
    if found e.1 then (l, some e.2)
    else
      let r := remove l
      (e :: r.1, r.2)

variable {found} {l : List (κ × ν)} {k : κ} {v : ν} {e : κ × ν}

theorem lookup_cons_pos (h : found e.1 = true) : lookup found (e :: l) = some e.2 := by
  simp [lookup, List.find?_cons_of_pos, h]

theorem lookup_cons_neg (h : ¬ found e.1 = true) : lookup found (e :: l) = lookup found l := by
  simp [lookup, List.find?_cons_of_neg, h]

theorem lookup_eq_none : lookup found l = none ↔ ∀ e ∈ l, found e.1 = false := by
  simp [lookup, List.find?_eq_none]

theorem mem_of_lookup (h : lookup found l = some v) : ∃ e ∈ l, found e.1 = true ∧ e.2 = v := by
  obtain ⟨e, he, rfl⟩ := Option.map_eq_some_iff.mp h
  exact ⟨e, List.mem_of_find?_eq_some he, List.find?_some (p := fun e : κ × ν => found e.1) he, rfl⟩

/-! ## Insertion -/

theorem insert_snd : (insert found k v l).2 = lookup found l := by
  induction l with
  | nil => rfl
  | cons e l ih =>
    by_cases h : found e.1 = true
    · rw [insert, if_pos h, lookup_cons_pos h]
    · rw [insert, if_neg h, lookup_cons_neg h]
      exact ih

theorem insert_new (h : lookup found l = none) : (insert found k v l).1 = l ++ [(k, v)] := by
  induction l with
  | nil => rfl
  | cons e l ih =>
    have hno := lookup_eq_none.mp h
    have he : ¬ found e.1 = true := by simp [hno e List.mem_cons_self]
    rw [lookup_cons_neg he] at h
    rw [insert, if_neg he, List.cons_append, ← ih h]

theorem insert_values : ((insert found k v l).2.toList ++ (insert found k v l).1.map Prod.snd).Perm
    (v :: l.map Prod.snd) := by
  induction l with
  | nil => exact List.Perm.refl _
  | cons e l ih =>
    by_cases h : found e.1 = true
    · simp only [insert, if_pos h]
      exact List.Perm.swap _ _ _
    · simp only [insert, if_neg h]
      exact List.perm_middle.trans ((ih.cons e.2).trans (List.Perm.swap _ _ _))

theorem insert_keys (h : lookup found l ≠ none) :
    (insert found k v l).1.map Prod.fst = l.map Prod.fst := by
  induction l with
  | nil => exact absurd rfl h
  | cons e l ih =>
    by_cases he : found e.1 = true
    · rw [insert, if_pos he]
      rfl
    · rw [lookup_cons_neg he] at h
      rw [insert, if_neg he]
      exact congrArg (e.1 :: ·) (ih h)

theorem mem_insert (h : e ∈ (insert found k v l).1) :
    e ∈ l ∨ e = (k, v) ∧ lookup found l = none ∨ e.2 = v ∧ found e.1 = true := by
  induction l with
  | nil => exact .inr (.inl ⟨List.mem_singleton.mp h, rfl⟩)
  | cons a l ih =>
    by_cases ha : found a.1 = true
    · rw [insert, if_pos ha] at h
      rcases List.mem_cons.mp h with rfl | h
      · exact .inr (.inr ⟨rfl, ha⟩)
      · exact .inl (List.mem_cons_of_mem _ h)
    · rw [insert, if_neg ha] at h
      rw [lookup_cons_neg ha]
      rcases List.mem_cons.mp h with rfl | h
      · exact .inl List.mem_cons_self
      · exact (ih h).imp_left (List.mem_cons_of_mem _)

/-! ## Removal -/

theorem remove_snd : (remove found l).2 = lookup found l := by
  induction l with
  | nil => rfl
  | cons e l ih =>
    by_cases h : found e.1 = true
    · rw [remove, if_pos h, lookup_cons_pos h]
    · rw [remove, if_neg h, lookup_cons_neg h]
      exact ih

theorem remove_none (h : lookup found l = none) : (remove found l).1 = l := by
  induction l with
  | nil => rfl
  | cons e l ih =>
    have hno := lookup_eq_none.mp h
    have he : ¬ found e.1 = true := by simp [hno e List.mem_cons_self]
    rw [lookup_cons_neg he] at h
    rw [remove, if_neg he]
    exact congrArg (e :: ·) (ih h)

theorem remove_some (h : lookup found l = some v) :
    ∃ k, found k = true ∧ l.Perm ((k, v) :: (remove found l).1) := by
  induction l with
  | nil => simp [lookup] at h
  | cons e l ih =>
    by_cases he : found e.1 = true
    · rw [lookup_cons_pos he] at h
      obtain rfl := Option.some.inj h
      exact ⟨e.1, he, by rw [remove, if_pos he]⟩
    · rw [lookup_cons_neg he] at h
      obtain ⟨k, hk, hp⟩ := ih h
      refine ⟨k, hk, ?_⟩
      rw [remove, if_neg he]
      exact (hp.cons e).trans (List.Perm.swap _ _ _)

theorem remove_sublist : ((remove found l).1).Sublist l := by
  induction l with
  | nil => exact List.Sublist.refl _
  | cons e l ih =>
    by_cases h : found e.1 = true
    · rw [remove, if_pos h]
      exact List.sublist_cons_self e l
    · rw [remove, if_neg h]
      exact ih.cons_cons e

theorem remove_values :
    ((remove found l).2.toList ++ (remove found l).1.map Prod.snd).Perm (l.map Prod.snd) := by
  rw [remove_snd]
  cases hl : lookup found l with
  | none =>
    rw [remove_none hl]
    exact List.Perm.refl _
  | some v =>
    obtain ⟨k, -, hp⟩ := remove_some hl
    exact (hp.map Prod.snd).symm

end KeyTable

end HectoOs.Lib
