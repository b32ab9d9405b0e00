import HectoOs.Lib.Memory
import HectoOs.Lib.Chain
import Mathlib.Data.Fintype.Card

/-! # The intrusive list (`linked_list/forward_list.rs`)

A `ForwardListNode` starts with its `next` field. A list is its head pointer; the nodes live in
memory that somebody else owns.
-/

open HectoOs.Lib

namespace HectoOs.ForwardList

/-- `push_front`: the new memory and the new head. -/
def push_front (m : Mem) (head new : Nat) : Mem × Nat := (store64 m new head, new)

/-- `pop_front`: the removed node gets a null link. -/
def pop_front (m : Mem) (head : Nat) : Mem × Nat := (store64 m head 0, load64 m head)

/-- Writes `*prev`: the new memory and the new head. -/
def set (m : Mem) (head : Nat) : Link → Nat → Mem × Nat
  | .head, v => (m, v)
  | .node a, v => (store64 m a v, head)

/-- The loop of `remove`, at the link `prev`. It reads through null where the list ends without the
node, and then there is no result. -/
def remove_loop (m : Mem) (head node : Nat) : Nat → Link → Option (Mem × Nat)
  | 0, _ => none
  | fuel + 1, prev =>
    let iter := linkValue head (load64 m) prev
    if iter = node then some (set m head prev (load64 m node))
    else if iter = 0 then none
    else remove_loop m head node fuel (.node iter)

/-- `remove`. A walk with more steps than there are addresses never ends. -/
def remove (m : Mem) (head node : Nat) : Option (Mem × Nat) :=
  remove_loop m head node (2 ^ 64) .head

/-- The head of `m` starts a list with the nodes `l`. -/
abbrev IsList (m : Mem) (head : Nat) (l : List Nat) : Prop := Chain (load64 m) head l

theorem isList_head_lt {m : Mem} {head : Nat} {l : List Nat} (h : IsList m head l)
    (hl : ∀ a ∈ l, a < 2 ^ 64) : head < 2 ^ 64 := by
  cases l with
  | nil =>
    have h0 : head = 0 := h
    omega
  | cons a l =>
    rw [h.1]
    exact hl a List.mem_cons_self

theorem isList_same {m m' : Mem} {head : Nat} {l : List Nat} (h : IsList m head l)
    (hs : ∀ a ∈ l, SameOn m m' a (a + 8)) : IsList m' head l :=
  h.congr fun a ha => load64_same (hs a ha)

theorem push_front_spec {m : Mem} {head new : Nat} {l : List Nat} (h : IsList m head l)
    (hnew : new ≠ 0) (hlt : ∀ a ∈ l, a < 2 ^ 64) (hap : ∀ a ∈ l, a + 8 ≤ new ∨ new + 8 ≤ a) :
    IsList (push_front m head new).1 (push_front m head new).2 (new :: l) :=
  Chain.push h hnew (load64_store64_same _ _ _ (isList_head_lt h hlt))
    fun a ha => load64_store64_ne _ _ _ _ (hap a ha)

theorem pop_front_spec {m : Mem} {head : Nat} {l : List Nat} (h : IsList m head (head :: l))
    (hap : ∀ a ∈ l, a + 8 ≤ head ∨ head + 8 ≤ a) :
    IsList (pop_front m head).1 (pop_front m head).2 l := by
  have htail : Chain (load64 m) (load64 m head) l := h.2.2
  exact htail.congr fun a ha => load64_store64_ne _ _ _ _ (hap a ha)

/-! ## `remove` -/

section Remove

variable {m : Mem} {head node : Nat} {l₁ l₂ : List Nat}

theorem remove_loop_eq (h : IsList m head (l₁ ++ node :: l₂)) (hnode : node ∉ l₁) :
    ∀ todo done fuel, l₁ = done ++ todo → todo.length < fuel →
      remove_loop m head node fuel (linkAfter done) =
        some (set m head (linkAfter l₁) (load64 m node)) := by
  intro todo
  induction todo with
  | nil =>
    intro done fuel hl hfuel
    obtain ⟨fuel, rfl⟩ : ∃ n, fuel = n + 1 := ⟨fuel - 1, by simp at hfuel; omega⟩
    rw [List.append_nil] at hl
    subst hl
    obtain ⟨q, hseg, rfl, _⟩ := segment_append.mp h
    simp only [remove_loop, linkValue_linkAfter hseg, ↓reduceIte]
  | cons a todo ih =>
    intro done fuel hl hfuel
    obtain ⟨fuel, rfl⟩ : ∃ n, fuel = n + 1 := ⟨fuel - 1, by simp at hfuel; omega⟩
    have hne : a ≠ node := by
      rintro rfl
      exact hnode (by simp [hl])
    rw [hl, List.append_assoc] at h
    obtain ⟨q, hseg, rfl, h0, _⟩ := segment_append.mp h
    simp only [remove_loop, linkValue_linkAfter hseg, if_neg hne, if_neg h0]
    rw [← linkAfter_concat done q]
    exact ih (done ++ [q]) fuel (by simp [hl]) (by simpa using hfuel)

theorem isList_length_le {l : List Nat} (h : IsList m head l) (hlt : ∀ a ∈ l, a < 2 ^ 64) :
    l.length ≤ 2 ^ 64 := by
  have hnd : (l.attach.map fun a => (⟨a.1, hlt a.1 a.2⟩ : Fin (2 ^ 64))).Nodup := by
    refine List.Nodup.map ?_ (List.nodup_attach.mpr h.nodup)
    intro a b hab
    exact Subtype.ext (Fin.mk.inj hab)
  have hcard := hnd.length_le_card
  simpa using hcard

theorem remove_spec {l : List Nat} (h : IsList m head l) (hmem : node ∈ l)
    (hlt : ∀ a ∈ l, a < 2 ^ 64) (hap : ∀ a ∈ l, ∀ b ∈ l, a ≠ b → a + 8 ≤ b ∨ b + 8 ≤ a) :
    ∃ m' head', remove m head node = some (m', head') ∧ IsList m' head' (l.erase node) ∧
      ∀ x, (∀ a ∈ l, a ≠ node → x < a ∨ a + 8 ≤ x) → m' x = m x := by
  obtain ⟨l₁, l₂, rfl, hn1⟩ := List.eq_append_cons_of_mem hmem
  have hnd := List.nodup_append.mp h.nodup
  have hlen : l₁.length < 2 ^ 64 := by
    have := isList_length_le h hlt
    simp only [List.length_append, List.length_cons] at this
    omega
  have herase : (l₁ ++ node :: l₂).erase node = l₁ ++ l₂ := by
    rw [List.erase_append_right _ hn1, List.erase_cons_head]
  obtain ⟨q, hseg, rfl, hq0, htail⟩ := segment_append.mp h
  rw [remove, herase, ← linkAfter_nil, remove_loop_eq h hn1 l₁ [] _ rfl hlen]
  refine ⟨_, _, rfl, ?_, ?_⟩
  · cases hlink : linkAfter l₁ with
    | head =>
      obtain rfl := nil_of_linkAfter hlink
      exact htail
    | node a =>
      have ha := mem_of_linkAfter hlink
      have hsame : ∀ b ∈ l₁ ++ q :: l₂, b ≠ a → load64 (store64 m a (load64 m q)) b = load64 m b :=
        fun b hb hne => load64_store64_ne _ _ _ _ (hap b hb a (List.mem_append_left _ ha) hne)
      refine segment_append.mpr ⟨load64 m q, ?_, ?_⟩
      · refine Segment.redirect hseg hnd.1 ?_ (fun _ => rfl) ?_
        · rw [hlink]
          exact load64_store64_same _ _ _ (load64_lt m q)
        · intro b hb hne
          refine hsame b (List.mem_append_left _ hb) ?_
          rintro rfl
          exact hne hlink
      · refine Chain.congr htail fun b hb => hsame b (by simp [hb]) ?_
        rintro rfl
        exact hnd.2.2 b ha b (by simp [hb]) rfl
  · intro x hx
    cases hlink : linkAfter l₁ with
    | head => rfl
    | node a =>
      have ha := mem_of_linkAfter hlink
      refine store64_sameOff m a _ x (hx a (List.mem_append_left _ ha) ?_)
      rintro rfl
      exact hn1 ha

end Remove

end HectoOs.ForwardList
