import Mathlib.Data.List.Induction

/-! # Radix trees over a shared store

Tables live in a store `read`, and an entry may point to another table (`child`). `Radix` says that
the tables `own` form one tree under `root`: `path` gives each of them the indices that lead to it,
so no table is reached on two paths. Entries of the root outside `mine` belong to somebody else.
-/

namespace HectoOs.Lib

variable {T I E V : Type} {child : E → Option T} {read read' : T → I → E} {root : T}
  {own : T → Prop} {mine : I → Prop} {depth : Nat} {path : T → List I}

/-- The table at the end of a path. -/
def walk (child : E → Option T) (read : T → I → E) : T → List I → Option T
  | t, [] => some t
  | t, i :: is => (child (read t i)).bind fun t' => walk child read t' is

theorem walk_snoc (t : T) (is : List I) (i : I) :
    walk child read t (is ++ [i]) = (walk child read t is).bind fun u => child (read u i) := by
  induction is generalizing t with
  | nil => simp [walk]
  | cons j is ih =>
    simp only [List.cons_append, walk]
    cases child (read t j) with
    | none => rfl
    | some u => exact ih u

/-- The value of the entry that a path and a last index lead to. -/
def find (child : E → Option T) (leaf : E → Option V) (read : T → I → E)
    (root : T) (is : List I) (i : I) :
    Option V := (walk child read root is).bind fun t => leaf (read t i)

/-- The path starts in the part of the root that belongs to the tree. -/
def Inside (mine : I → Prop) : List I → Prop
  | [] => True
  | i :: _ => mine i

theorem Inside.of_append {is js : List I} (h : Inside mine (is ++ js)) : Inside mine is := by
  cases is with
  | nil => trivial
  | cons i is => exact h

structure Radix (child : E → Option T) (read : T → I → E) (root : T) (own : T → Prop)
    (mine : I → Prop) (depth : Nat) (path : T → List I) : Prop where
  root_own : own root
  root_path : path root = []
  root_unique : ∀ t, own t → path t = [] → t = root
  down : ∀ t i t', own t → (path t).length < depth → (path t = [] → mine i) →
    child (read t i) = some t' → own t' ∧ path t' = path t ++ [i]

namespace Radix

variable (h : Radix child read root own mine depth path)
include h

/-- A root with the entries of another root, where they are not its own, is the root of both
trees. -/
theorem join [DecidablePred own] {own' : T → Prop} {root' : T} {path' : T → List I}
    (h' : Radix child read root' own' (fun _ => True) depth path') (hdepth : 0 < depth)
    (hshared : ∀ i, ¬ mine i → read root i = read root' i) (hapart : ∀ t, own t → ¬ own' t) :
    Radix child read root (fun t => own t ∨ own' t ∧ t ≠ root') (fun _ => True) depth
      (fun t => if own t then path t else path' t) := by
  have hnot : ∀ t, own' t → ¬ own t := fun t ht ht' => hapart t ht' ht
  have hne : ∀ t is i, path' t = is ++ [i] → t ≠ root' := by
    rintro t is i hp rfl
    rw [h'.root_path] at hp
    simp at hp
  refine ⟨.inl h.root_own, by rw [if_pos h.root_own, h.root_path], fun t ht hnil => ?_,
    fun t i t' ht hlen _ hc => ?_⟩
  · rcases ht with ht | ⟨ht, hroot⟩
    · rw [if_pos ht] at hnil
      exact h.root_unique t ht hnil
    · rw [if_neg (hnot t ht)] at hnil
      exact absurd (h'.root_unique t ht hnil) hroot
  · rcases ht with ht | ⟨ht, _⟩
    · rw [if_pos ht] at hlen ⊢
      by_cases hmine : path t = [] → mine i
      · obtain ⟨hown, hp⟩ := h.down t i t' ht hlen hmine hc
        exact ⟨.inl hown, by rw [if_pos hown, hp]⟩
      · -- an entry of the other root
        obtain ⟨hnil, hi⟩ := Classical.not_imp.mp hmine
        obtain rfl := h.root_unique t ht hnil
        rw [hshared i hi] at hc
        have hlen' : (path' root').length < depth := by rw [h'.root_path]; exact hdepth
        obtain ⟨hown, hp⟩ := h'.down root' i t' h'.root_own hlen' (fun _ => trivial) hc
        rw [if_neg (hnot t' hown), hnil, hp, h'.root_path]
        exact ⟨.inr ⟨hown, hne t' _ i hp⟩, rfl⟩
    · rw [if_neg (hnot t ht)] at hlen ⊢
      obtain ⟨hown, hp⟩ := h'.down t i t' ht hlen (fun _ => trivial) hc
      rw [if_neg (hnot t' hown)]
      exact ⟨.inr ⟨hown, hne t' _ i hp⟩, hp⟩

/-- A walk stays in the tree and arrives at a table whose path is the one taken. -/
theorem walk_own {is : List I} {t : T} (hlen : is.length ≤ depth) (hin : Inside mine is)
    (hw : walk child read root is = some t) : own t ∧ path t = is := by
  induction is using List.reverseRecOn generalizing t with
  | nil =>
    obtain rfl := Option.some.inj hw
    exact ⟨h.root_own, h.root_path⟩
  | append_singleton is i ih =>
    rw [List.length_append, List.length_singleton] at hlen
    rw [walk_snoc, Option.bind_eq_some_iff] at hw
    obtain ⟨u, hu, hchild⟩ := hw
    obtain ⟨hown, hpath⟩ := ih (by omega) hin.of_append hu
    have hmine : path u = [] → mine i := by
      intro hnil
      rw [hpath] at hnil
      subst hnil
      exact hin
    have := h.down u i t hown (by rw [hpath]; omega) hmine hchild
    rwa [hpath] at this

/-- Only the inner tables of the tree matter for a walk. -/
theorem walk_congr (hsame : ∀ t i, own t → (path t).length < depth → read' t i = read t i)
    {is : List I} (hlen : is.length ≤ depth) (hin : Inside mine is) :
    walk child read' root is = walk child read root is := by
  induction is using List.reverseRecOn with
  | nil => rfl
  | append_singleton is i ih =>
    rw [List.length_append, List.length_singleton] at hlen
    rw [walk_snoc, walk_snoc, ih (by omega) hin.of_append]
    cases hu : walk child read root is with
    | none => rfl
    | some u =>
      obtain ⟨hown, hpath⟩ := h.walk_own (by omega) hin.of_append hu
      rw [Option.bind_some, Option.bind_some, hsame u i hown (by rw [hpath]; omega)]

theorem congr (hsame : ∀ t i, own t → (path t).length < depth → read' t i = read t i) :
    Radix child read' root own mine depth path where
  root_own := h.root_own
  root_path := h.root_path
  root_unique := h.root_unique
  down t i t' hown hlen hmine hchild := by
    rw [hsame t i hown hlen] at hchild
    exact h.down t i t' hown hlen hmine hchild

/-- A part of the entries of the root. -/
theorem mono {mine' : I → Prop} (hm : ∀ i, mine' i → mine i) :
    Radix child read root own mine' depth path where
  root_own := h.root_own
  root_path := h.root_path
  root_unique := h.root_unique
  down t i t' hown hlen hmine := h.down t i t' hown hlen fun hnil => hm i (hmine hnil)

theorem find_congr {leaf : E → Option V} (hsame : ∀ t i, own t → read' t i = read t i)
    {is : List I} {i : I} (hlen : is.length ≤ depth) (hin : Inside mine is) :
    find child leaf read' root is i = find child leaf read root is i := by
  unfold find
  rw [h.walk_congr (fun t i ht _ => hsame t i ht) hlen hin]
  cases hu : walk child read root is with
  | none => rfl
  | some u => rw [Option.bind_some, Option.bind_some, hsame u i (h.walk_own hlen hin hu).1]

/-! ## A new table -/

section Grow

variable {t₀ n : T} {i₀ : I} (hnew : child (read t₀ i₀) = none) (hn : child (read' t₀ i₀) = some n)
  (hempty : ∀ i, child (read' n i) = none)
  (hsame : ∀ t i, own t → ¬ (t = t₀ ∧ i = i₀) → read' t i = read t i)
include hn hempty hsame

theorem grow [DecidableEq T] (hfresh : ¬ own n) :
    Radix child read' root (fun t => own t ∨ t = n) mine depth
      (fun t => if t = n then path t₀ ++ [i₀] else path t) := by
  have hne : ∀ t, own t → t ≠ n := fun t ht he => hfresh (he ▸ ht)
  refine ⟨.inl h.root_own, ?_, ?_, ?_⟩
  · simp only [if_neg (hne root h.root_own), h.root_path]
  · rintro t (hown | rfl) hnil
    · rw [if_neg (hne t hown)] at hnil
      exact h.root_unique t hown hnil
    · simp at hnil
  · rintro t i t' (hown | rfl) hlen hmine hchild
    · simp only [if_neg (hne t hown)] at hlen hmine ⊢
      by_cases ht : t = t₀ ∧ i = i₀
      · obtain ⟨rfl, rfl⟩ := ht
        obtain rfl := Option.some.inj (hn.symm.trans hchild)
        simp
      · rw [hsame t i hown ht] at hchild
        obtain ⟨hown', hpath'⟩ := h.down t i t' hown hlen hmine hchild
        exact ⟨.inl hown', by rw [if_neg (hne t' hown'), hpath']⟩
    · rw [hempty i] at hchild
      simp at hchild

include hnew

theorem walk_grow [DecidableEq I] (hreach : walk child read root (path t₀) = some t₀)
    {is : List I} (hlen : is.length ≤ depth) (hin : Inside mine is) :
    walk child read' root is =
      if is = path t₀ ++ [i₀] then some n else walk child read root is := by
  induction is using List.reverseRecOn with
  | nil => simp [walk]
  | append_singleton is i ih =>
    rw [List.length_append, List.length_singleton] at hlen
    rw [walk_snoc, walk_snoc, ih (by omega) hin.of_append]
    by_cases hnode : is = path t₀ ++ [i₀]
    · -- the path runs through the new table, which is empty
      have hold : walk child read root is = none := by
        rw [hnode, walk_snoc, hreach]
        exact hnew
      have hlong : is ++ [i] ≠ path t₀ ++ [i₀] := by
        intro he
        have := congrArg List.length he
        rw [hnode] at this
        simp at this
      rw [if_pos hnode, if_neg hlong, hold]
      exact hempty i
    · rw [if_neg hnode]
      cases hu : walk child read root is with
      | none =>
        have : is ++ [i] ≠ path t₀ ++ [i₀] := by
          intro he
          rw [(List.append_inj' he rfl).1, hreach] at hu
          simp at hu
        rw [if_neg this, Option.bind_none, Option.bind_none]
      | some u =>
        obtain ⟨hown, hpath⟩ := h.walk_own (by omega) hin.of_append hu
        rw [Option.bind_some, Option.bind_some]
        by_cases ht : u = t₀ ∧ i = i₀
        · obtain ⟨rfl, rfl⟩ := ht
          rw [if_pos (by rw [hpath]), hn]
        · have : is ++ [i] ≠ path t₀ ++ [i₀] := by
            intro he
            obtain ⟨h1, h2⟩ := List.append_inj' he rfl
            rw [h1, hreach] at hu
            exact ht ⟨(Option.some.inj hu).symm, by simpa using h2⟩
          rw [if_neg this, hsame u i hown ht]

/-- A new table changes no entry that is found. -/
theorem find_grow [DecidableEq I] {leaf : E → Option V} (hleaf : ∀ i, leaf (read' n i) = none)
    (hshort : (path t₀).length < depth) (hreach : walk child read root (path t₀) = some t₀)
    {is : List I} {i : I} (hlen : is.length = depth) (hin : Inside mine is) :
    find child leaf read' root is i = find child leaf read root is i := by
  unfold find
  rw [h.walk_grow hnew hn hempty hsame hreach (Nat.le_of_eq hlen) hin]
  by_cases hnode : is = path t₀ ++ [i₀]
  · rw [if_pos hnode, hnode, walk_snoc, hreach, Option.bind_some, Option.bind_some, hnew, hleaf i]
    rfl
  · rw [if_neg hnode]
    cases hu : walk child read root is with
    | none => rfl
    | some u =>
      obtain ⟨hown, hpath⟩ := h.walk_own (Nat.le_of_eq hlen) hin hu
      have hu0 : ¬ (u = t₀ ∧ i = i₀) := by
        rintro ⟨rfl, _⟩
        rw [hpath] at hshort
        omega
      rw [Option.bind_some, Option.bind_some, hsame u i hown hu0]

end Grow

/-! ## A new value -/

/-- Writing the entry of one key changes what is found for that key only. -/
theorem find_set [DecidableEq I] {leaf : E → Option V} {t₀ : T} {is₀ : List I}
    {i₀ : I} (hlen₀ : is₀.length = depth) (hin₀ : Inside mine is₀)
    (hreach : walk child read root is₀ = some t₀) (hsame : ∀ t i, own t → ¬ (t = t₀ ∧ i = i₀) →
    read' t i = read t i) {is : List I} {i : I} (hlen : is.length = depth) (hin : Inside mine is) :
    find child leaf read' root is i =
      if is = is₀ ∧ i = i₀ then leaf (read' t₀ i₀) else find child leaf read root is i := by
  have hpath₀ := (h.walk_own (Nat.le_of_eq hlen₀) hin₀ hreach).2
  have hinner : ∀ t i, own t → (path t).length < depth → read' t i = read t i := by
    intro t i hown hlt
    refine hsame t i hown ?_
    rintro ⟨rfl, _⟩
    rw [hpath₀] at hlt
    omega
  unfold find
  rw [h.walk_congr hinner (Nat.le_of_eq hlen) hin]
  by_cases hkey : is = is₀ ∧ i = i₀
  · obtain ⟨rfl, rfl⟩ := hkey
    rw [if_pos ⟨rfl, rfl⟩, hreach, Option.bind_some]
  · rw [if_neg hkey]
    cases hu : walk child read root is with
    | none => rfl
    | some u =>
      obtain ⟨hown, hpath⟩ := h.walk_own (Nat.le_of_eq hlen) hin hu
      rw [Option.bind_some, Option.bind_some, hsame u i hown]
      rintro ⟨rfl, rfl⟩
      exact hkey ⟨hpath.symm.trans hpath₀, rfl⟩

end Radix

end HectoOs.Lib
