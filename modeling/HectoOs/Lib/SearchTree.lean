import Mathlib.Data.Tree.Basic

/-! # Maps that search a tree

The keys of a node of a B-tree are scanned from the left until one is not less than the key that is
looked for. Such a node is the right spine of binary nodes, so a binary tree stands for every
B-tree. The comparison need not be an order: the lemmas say what a search does with any comparison,
and for which entries the shape of the tree does not matter.
-/

namespace HectoOs.Lib.SearchTree

open BinaryTree (nil node)

variable {α κ ν : Type}

def inorder : BinaryTree α → List α
  | .nil => []
  | .node a l r => inorder l ++ a :: inorder r

/-! ## Operations -/

section Operations

variable (cmp : κ → κ → Ordering)

/-- The entry at which the search ends, between those that are in front of it and behind it. -/
def locate (k : κ) : BinaryTree (κ × ν) → Option (List (κ × ν) × (κ × ν) × List (κ × ν))
  | .nil => none
  | .node e l r =>
    match cmp k e.1 with
    | .lt => (locate k l).map fun x => (x.1, x.2.1, x.2.2 ++ e :: inorder r)
    | .eq => some (inorder l, e, inorder r)
    | .gt => (locate k r).map fun x => (inorder l ++ e :: x.1, x.2)

/-- Where the search ends that finds nothing: the entries in front of the place and behind it. -/
def gap (k : κ) : BinaryTree (κ × ν) → List (κ × ν) × List (κ × ν)
  | .nil => ([], [])
  | .node e l r =>
    match cmp k e.1 with
    | .lt => ((gap k l).1, (gap k l).2 ++ e :: inorder r)
    | _ => (inorder l ++ e :: (gap k r).1, (gap k r).2)

/-- `get_key_value`. -/
def find (k : κ) (t : BinaryTree (κ × ν)) : Option (κ × ν) := (locate cmp k t).map fun x => x.2.1

/-- `remove_entry`: the entry, and the others in order. -/
def remove (k : κ) (t : BinaryTree (κ × ν)) : Option ((κ × ν) × List (κ × ν)) :=
  (locate cmp k t).map fun x => (x.2.1, x.1 ++ x.2.2)

/-- `insert`: the entries, and the value that was replaced. The old key stays. -/
def insert (k : κ) (v : ν) (t : BinaryTree (κ × ν)) : List (κ × ν) × Option ν :=
  match locate cmp k t with
  | some (l₁, e, l₂) => (l₁ ++ (e.1, v) :: l₂, some e.2)
  | none => ((gap cmp k t).1 ++ (k, v) :: (gap cmp k t).2, none)

/-- Assignment through `get_mut`. -/
def update (k : κ) (v : ν) (t : BinaryTree (κ × ν)) : List (κ × ν) :=
  match locate cmp k t with
  | some (l₁, e, l₂) => l₁ ++ (e.1, v) :: l₂
  | none => inorder t

end Operations

/-! ## Shapes -/

/-- All entries in one node. -/
def spine : List α → BinaryTree α
  | [] => .nil
  | a :: l => .node a .nil (spine l)

/-- The shape of a tree: each node names the place of its entry among the entries of its part. A
place behind the last of them is no entry; it can mark where a node of a B-tree ends. -/
abbrev Shape := BinaryTree Nat

/-- A tree of the shape with the entries of a list. A part without a shape is one node. -/
def fill : Shape → List α → BinaryTree α
  | .nil, l => spine l
  | .node i s₁ s₂, l =>
    match l.drop i with
    | [] => fill s₁ l
    | a :: l₂ => .node a (fill s₁ (l.take i)) (fill s₂ l₂)

/-- How the shape of a map changes when a key comes or goes, given the keys that the map has. -/
structure Balance (κ : Type) where
  inserted : Shape → List κ → κ → Shape
  removed : Shape → List κ → κ → Shape

/-- A map that stays one node. -/
def Balance.flat : Balance κ := ⟨fun _ _ _ => .nil, fun _ _ _ => .nil⟩

@[simp]
theorem inorder_spine (l : List α) : inorder (spine l) = l := by
  induction l with
  | nil => rfl
  | cons a l ih => simp [spine, inorder, ih]

@[simp]
theorem inorder_fill (s : Shape) (l : List α) : inorder (fill s l) = l := by
  induction s generalizing l with
  | nil => exact inorder_spine l
  | node i s₁ s₂ ih₁ ih₂ =>
    rw [fill]
    split
    · exact ih₁ l
    · rename_i a l₂ hdrop
      rw [inorder, ih₁, ih₂, ← hdrop, List.take_append_drop]

/-! ## What a search does -/

variable {cmp : κ → κ → Ordering} {k : κ} {v : ν} {e : κ × ν} {l l₁ l₂ : List (κ × ν)}
  {t : BinaryTree (κ × ν)}

theorem locate_spec (h : locate cmp k t = some (l₁, e, l₂)) :
    inorder t = l₁ ++ e :: l₂ ∧ cmp k e.1 = .eq := by
  induction t generalizing l₁ l₂ with
  | nil => simp [locate] at h
  | node e' l r ihl ihr =>
    rw [locate] at h
    cases hc : cmp k e'.1 with
    | lt =>
      simp only [hc, Option.map_eq_some_iff, Prod.mk.injEq] at h
      obtain ⟨⟨a₁, a, a₂⟩, hl, rfl, rfl, rfl⟩ := h
      obtain ⟨hin, he⟩ := ihl hl
      exact ⟨by simp [inorder, hin], he⟩
    | eq =>
      simp only [hc, Option.some.injEq, Prod.mk.injEq] at h
      obtain ⟨rfl, rfl, rfl⟩ := h
      exact ⟨rfl, hc⟩
    | gt =>
      simp only [hc, Option.map_eq_some_iff, Prod.mk.injEq] at h
      obtain ⟨⟨a₁, a, a₂⟩, hr, rfl, rfl, rfl⟩ := h
      obtain ⟨hin, he⟩ := ihr hr
      exact ⟨by simp [inorder, hin], he⟩

theorem gap_spec (cmp : κ → κ → Ordering) (k : κ) (t : BinaryTree (κ × ν)) :
    inorder t = (gap cmp k t).1 ++ (gap cmp k t).2 := by
  induction t with
  | nil => rfl
  | node e l r ihl ihr =>
    rw [inorder, gap]
    cases cmp k e.1 with
    | lt =>
      dsimp only
      rw [ihl, List.append_assoc]
    | eq | gt =>
      dsimp only
      rw [ihr, List.append_assoc, List.cons_append]

theorem find_spec (h : find cmp k t = some e) :
    ∃ l₁ l₂, inorder t = l₁ ++ e :: l₂ ∧ cmp k e.1 = .eq ∧
    ∀ v, update cmp k v t = l₁ ++ (e.1, v) :: l₂ := by
  rw [find, Option.map_eq_some_iff] at h
  obtain ⟨⟨l₁, e, l₂⟩, hl, rfl⟩ := h
  obtain ⟨hin, he⟩ := locate_spec hl
  exact ⟨l₁, l₂, hin, he, fun v => by simp [update, hl]⟩

theorem remove_spec (h : remove cmp k t = some (e, l)) :
    ∃ l₁ l₂, inorder t = l₁ ++ e :: l₂ ∧ l = l₁ ++ l₂ ∧ cmp k e.1 = .eq := by
  rw [remove, Option.map_eq_some_iff] at h
  obtain ⟨⟨l₁, e, l₂⟩, hl, heq⟩ := h
  obtain ⟨rfl, rfl⟩ := Prod.mk.inj heq
  obtain ⟨hin, he⟩ := locate_spec hl
  exact ⟨l₁, l₂, hin, rfl, he⟩

theorem insert_spec (cmp : κ → κ → Ordering) (k : κ) (v : ν) (t : BinaryTree (κ × ν)) :
    (∃ l₁ l₂, inorder t = l₁ ++ l₂ ∧ insert cmp k v t = (l₁ ++ (k, v) :: l₂, none)) ∨
    (∃ l₁ k' v' l₂, inorder t = l₁ ++ (k', v') :: l₂ ∧
      insert cmp k v t = (l₁ ++ (k', v) :: l₂, some v') ∧ cmp k k' = .eq) := by
  rw [insert]
  cases hl : locate cmp k t with
  | none => exact .inl ⟨_, _, gap_spec cmp k t, rfl⟩
  | some x =>
    obtain ⟨hin, he⟩ := locate_spec hl
    exact .inr ⟨x.1, x.2.1.1, x.2.1.2, x.2.2, hin, rfl, he⟩

theorem insert_mem (cmp : κ → κ → Ordering) (k : κ) (v : ν) (t : BinaryTree (κ × ν)) :
    ∃ k', (k', v) ∈ (insert cmp k v t).1 := by
  rcases insert_spec cmp k v t with ⟨l₁, l₂, _, hi⟩ | ⟨l₁, k', v', l₂, _, hi, _⟩
  · exact ⟨k, by simp [hi]⟩
  · exact ⟨k', by simp [hi]⟩

theorem mem_insert (h : e ∈ (insert cmp k v t).1) : e.1 = k ∨ ∃ e' ∈ inorder t, e.1 = e'.1 := by
  rcases insert_spec cmp k v t with ⟨l₁, l₂, hin, hi⟩ | ⟨l₁, k', v', l₂, hin, hi, _⟩
  all_goals
    rw [hi] at h
    simp only [hin, List.mem_append, List.mem_cons] at h ⊢
    rcases h with h | rfl | h
  · exact .inr ⟨e, .inl h, rfl⟩
  · exact .inl rfl
  · exact .inr ⟨e, .inr h, rfl⟩
  · exact .inr ⟨e, .inl h, rfl⟩
  · exact .inr ⟨(k', v'), .inr (.inl rfl), rfl⟩
  · exact .inr ⟨e, .inr (.inr h), rfl⟩

theorem insert_of_ne (v : ν) (h : ∀ e ∈ inorder t, cmp k e.1 ≠ .eq) :
    ∃ l₁ l₂, inorder t = l₁ ++ l₂ ∧ insert cmp k v t = (l₁ ++ (k, v) :: l₂, none) := by
  rcases insert_spec cmp k v t with hi | ⟨l₁, k', v', l₂, hin, _, he⟩
  · exact hi
  · exact absurd he (h (k', v') (by simp [hin]))

theorem insert_perm (v : ν) (h : ∀ e ∈ inorder t, cmp k e.1 ≠ .eq) :
    (insert cmp k v t).1.Perm ((k, v) :: inorder t) := by
  obtain ⟨l₁, l₂, hin, hi⟩ := insert_of_ne v h
  rw [hi, hin]
  exact List.perm_middle

theorem remove_perm (h : remove cmp k t = some (e, l)) : (inorder t).Perm (e :: l) := by
  obtain ⟨l₁, l₂, hin, rfl, _⟩ := remove_spec h
  rw [hin]
  exact List.perm_middle

/-! ## Keys in order -/

section Sorted

variable {R : κ → κ → Prop} (htrans : ∀ a b c, R a b → R b c → R a c)
  (hlt : ∀ a, cmp k a = .lt → R k a) (hgt : ∀ a, cmp k a = .gt → R a k)
include htrans hlt hgt

theorem gap_divides (hnone : locate cmp k t = none) (h : ((inorder t).map Prod.fst).Pairwise R) :
    (∀ x ∈ (gap cmp k t).1, R x.1 k) ∧ ∀ x ∈ (gap cmp k t).2, R k x.1 := by
  induction t with
  | nil => simp [gap]
  | node e l r ihl ihr =>
    simp only [inorder, List.map_append, List.map_cons, List.pairwise_append,
      List.pairwise_cons, List.mem_cons,
      List.mem_map, forall_exists_index, and_imp] at h
    obtain ⟨hl, ⟨he, hr⟩, hlr⟩ := h
    rw [locate] at hnone
    rw [gap]
    cases hc : cmp k e.1 with
    | lt =>
      simp only [hc, Option.map_eq_none_iff] at hnone
      obtain ⟨h₁, h₂⟩ := ihl hnone hl
      refine ⟨h₁, fun x hx => ?_⟩
      rcases List.mem_append.mp hx with hx | hx
      · exact h₂ x hx
      · rcases List.mem_cons.mp hx with rfl | hx
        · exact hlt _ hc
        · exact htrans _ _ _ (hlt _ hc) (he x.1 x hx rfl)
    | eq => simp [hc] at hnone
    | gt =>
      simp only [hc, Option.map_eq_none_iff] at hnone
      obtain ⟨h₁, h₂⟩ := ihr hnone hr
      refine ⟨fun x hx => ?_, h₂⟩
      rcases List.mem_append.mp hx with hx | hx
      · exact htrans _ _ _ (hlr x.1 x hx rfl e.1 (.inl rfl)) (hgt _ hc)
      · rcases List.mem_cons.mp hx with rfl | hx
        · exact hgt _ hc
        · exact h₁ x hx

theorem insert_pairwise (v : ν) (h : ((inorder t).map Prod.fst).Pairwise R) :
    ((insert cmp k v t).1.map Prod.fst).Pairwise R := by
  rw [insert]
  cases hl : locate cmp k t with
  | none =>
    obtain ⟨h₁, h₂⟩ := gap_divides htrans hlt hgt hl h
    rw [gap_spec cmp k t] at h
    simp only [List.map_append, List.map_cons, List.pairwise_append, List.pairwise_cons,
      List.mem_cons, List.mem_map,
      forall_exists_index, and_imp] at h ⊢
    obtain ⟨hp₁, hp₂, hp⟩ := h
    refine ⟨hp₁, ⟨fun _ x hx hxk => hxk ▸ h₂ x hx, hp₂⟩, ?_⟩
    rintro _ x hx rfl _ (rfl | ⟨y, hy, rfl⟩)
    · exact h₁ x hx
    · exact hp _ x hx rfl _ y hy rfl
  | some x =>
    obtain ⟨hin, _⟩ := locate_spec hl
    rw [hin] at h
    simpa using h

end Sorted

/-! ## Keys that divide the entries -/

theorem locate_of_divides (ht : inorder t = l₁ ++ e :: l₂) (hgt : ∀ x ∈ l₁, cmp k x.1 = .gt)
    (he : cmp k e.1 = .eq) (hlt : ∀ x ∈ l₂, cmp k x.1 = .lt) :
    locate cmp k t = some (l₁, e, l₂) := by
  induction t generalizing l₁ l₂ with
  | nil => simp [inorder] at ht
  | node e' l r ihl ihr =>
    rw [inorder] at ht
    rcases List.append_eq_append_iff.mp ht with ⟨a, rfl, hr⟩ | ⟨b, hl, hb⟩
    · cases a with
      | nil =>
        obtain ⟨rfl, rfl⟩ := List.cons.inj hr
        simp [locate, he]
      | cons x a =>
        -- the entry lies in the right subtree
        rw [List.cons_append] at hr
        obtain ⟨rfl, hrest⟩ := List.cons.inj hr
        have hgt' := hgt e' (by simp)
        have ih := ihr hrest (fun x hx => hgt x (by simp [hx])) hlt
        simp [locate, hgt', ih]
    · cases b with
      | nil =>
        obtain ⟨rfl, rfl⟩ := List.cons.inj hb
        rw [List.append_nil] at hl
        simp [locate, he, hl]
      | cons x b =>
        rw [List.cons_append] at hb
        obtain ⟨rfl, rfl⟩ := List.cons.inj hb
        have hlt' := hlt e' (by simp)
        have ih := ihl hl hgt fun x hx => hlt x (by simp [hx])
        simp [locate, hlt', ih]

theorem find_of_divides (ht : inorder t = l₁ ++ e :: l₂) (hgt : ∀ x ∈ l₁, cmp k x.1 = .gt)
    (he : cmp k e.1 = .eq) (hlt : ∀ x ∈ l₂, cmp k x.1 = .lt) : find cmp k t = some e := by
  rw [find, locate_of_divides ht hgt he hlt, Option.map_some]

theorem remove_of_divides (ht : inorder t = l₁ ++ e :: l₂) (hgt : ∀ x ∈ l₁, cmp k x.1 = .gt)
    (he : cmp k e.1 = .eq) (hlt : ∀ x ∈ l₂, cmp k x.1 = .lt) :
    remove cmp k t = some (e, l₁ ++ l₂) := by
  rw [remove, locate_of_divides ht hgt he hlt, Option.map_some]

theorem insert_last (v : ν) (hgt : ∀ x ∈ inorder t, cmp k x.1 = .gt) :
    insert cmp k v t = (inorder t ++ [(k, v)], none) := by
  have hlocate : locate cmp k t = none ∧ gap cmp k t = (inorder t, []) := by
    induction t with
    | nil => exact ⟨rfl, rfl⟩
    | node e l r _ ihr =>
      have he := hgt e (by simp [inorder])
      obtain ⟨hr, hg⟩ := ihr fun x hx => hgt x (by simp [inorder, hx])
      exact ⟨by simp [locate, he, hr], by simp [gap, he, hg, inorder]⟩
  rw [insert, hlocate.1, hlocate.2]

end HectoOs.Lib.SearchTree
