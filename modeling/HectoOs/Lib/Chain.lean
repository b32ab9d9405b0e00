import Mathlib.Data.List.Nodup
import Mathlib.Data.List.Induction

/-! # Null-terminated chains of links

`next` says what the link stored at an address holds, and address 0 is null. The logical list
is a separate argument, so a proof about a loop over the links is an induction over it.
-/

namespace HectoOs.Lib

/-- Following `next` from `p` visits the addresses of `l` and arrives at `q`. -/
def Segment (next : Nat → Nat) : Nat → List Nat → Nat → Prop
  | p, [], q => p = q
  | p, a :: l, q => p = a ∧ a ≠ 0 ∧ Segment next (next a) l q

/-- Following `next` from `p` visits the addresses of `l` and ends at null. -/
def Chain (next : Nat → Nat) (p : Nat) (l : List Nat) : Prop := Segment next p l 0

variable {next next' : Nat → Nat} {p q a : Nat} {l l₁ l₂ : List Nat}

theorem Segment.congr (h : Segment next p l q) (hn : ∀ a ∈ l, next' a = next a) :
    Segment next' p l q := by
  induction l generalizing p with
  | nil => exact h
  | cons a l ih =>
    obtain ⟨rfl, h0, hl⟩ := h
    refine ⟨rfl, h0, ?_⟩
    rw [hn p List.mem_cons_self]
    exact ih hl fun b hb => hn b (List.mem_cons_of_mem _ hb)

theorem segment_append : Segment next p (l₁ ++ l₂) q ↔ ∃ r, Segment next p l₁ r ∧
    Segment next r l₂ q := by
  induction l₁ generalizing p with
  | nil => simp [Segment]
  | cons a l₁ ih =>
    simp only [List.cons_append, Segment, ih]
    constructor
    · rintro ⟨h1, h2, r, h3, h4⟩
      exact ⟨r, ⟨h1, h2, h3⟩, h4⟩
    · rintro ⟨r, ⟨h1, h2, h3⟩, h4⟩
      exact ⟨h1, h2, r, h3, h4⟩

namespace Chain

theorem congr (h : Chain next p l) (hn : ∀ a ∈ l, next' a = next a) : Chain next' p l :=
  Segment.congr h hn

theorem nil_iff : Chain next p [] ↔ p = 0 := Iff.rfl

theorem cons_iff : Chain next p (a :: l) ↔ p = a ∧ a ≠ 0 ∧ Chain next (next a) l := Iff.rfl

theorem eq_nil (h : Chain next 0 l) : l = [] := by
  cases l with
  | nil => rfl
  | cons a l =>
    obtain ⟨h1, h2, _⟩ := h
    exact absurd h1.symm h2

theorem exists_cons (h : Chain next p l) (hp : p ≠ 0) :
    ∃ l', l = p :: l' ∧ Chain next (next p) l' := by
  cases l with
  | nil => exact absurd h hp
  | cons a l =>
    obtain ⟨rfl, _, hl⟩ := h
    exact ⟨l, rfl, hl⟩

theorem unique (h₁ : Chain next p l₁) (h₂ : Chain next p l₂) : l₁ = l₂ := by
  induction l₁ generalizing p l₂ with
  | nil =>
    rw [nil_iff] at h₁
    subst h₁
    exact h₂.eq_nil.symm
  | cons a l₁ ih =>
    obtain ⟨rfl, h0, hl⟩ := h₁
    obtain ⟨l', rfl, hl'⟩ := h₂.exists_cons h0
    rw [ih hl hl']

theorem nodup (h : Chain next p l) : l.Nodup := by
  induction l generalizing p with
  | nil => exact List.nodup_nil
  | cons a l ih =>
    obtain ⟨rfl, h0, hl⟩ := h
    refine List.nodup_cons.mpr ⟨?_, ih hl⟩
    intro hmem
    obtain ⟨l₁, l₂, rfl⟩ := List.append_of_mem hmem
    obtain ⟨r, _, hr⟩ := segment_append.mp hl
    obtain ⟨rfl, _, hl₂⟩ := hr
    -- The tail after the second visit is also the tail after the first one.
    have := congrArg List.length (unique hl₂ hl)
    simp at this
    omega

theorem push (h : Chain next p l) (ha : a ≠ 0) (hn : next' a = p) (hs : ∀ b ∈ l, next' b = next b) :
    Chain next' a (a :: l) := by
  refine ⟨rfl, ha, ?_⟩
  rw [hn]
  exact h.congr hs

end Chain

/-! ## Links -/

/-- Where a pointer of a chain is stored: the head of the list, or a node. -/
inductive Link where
  | head
  | node (a : Nat)
  deriving DecidableEq

/-- The link that is followed after the nodes `l`. -/
def linkAfter (l : List Nat) : Link := (l.getLast?).elim .head .node

theorem linkAfter_nil : linkAfter [] = .head := rfl

theorem linkAfter_concat (l : List Nat) (a : Nat) : linkAfter (l ++ [a]) = .node a := by
  simp [linkAfter]

theorem mem_of_linkAfter (h : linkAfter l = .node a) : a ∈ l := by
  cases l using List.reverseRecOn with
  | nil => simp [linkAfter_nil] at h
  | append_singleton l b =>
    rw [linkAfter_concat, Link.node.injEq] at h
    simp [h]

theorem nil_of_linkAfter (h : linkAfter l = .head) : l = [] := by
  cases l using List.reverseRecOn with
  | nil => rfl
  | append_singleton l b => simp [linkAfter_concat] at h

/-- The value of a link, given the head pointer and the `next` fields. -/
def linkValue (p : Nat) (next : Nat → Nat) : Link → Nat
  | .head => p
  | .node a => next a

theorem linkValue_linkAfter (h : Segment next p l q) : linkValue p next (linkAfter l) = q := by
  induction l using List.reverseRecOn with
  | nil => exact h
  | append_singleton l a _ =>
    obtain ⟨r, _, rfl, _, hq⟩ := segment_append.mp h
    rw [linkAfter_concat]
    exact hq

theorem Segment.redirect {p' c : Nat} (h : Segment next p l q) (hnd : l.Nodup)
    (hv : linkValue p' next' (linkAfter l) = c) (hp : linkAfter l ≠ .head → p' = p)
    (hs : ∀ b ∈ l, linkAfter l ≠ .node b → next' b = next b) : Segment next' p' l c := by
  induction l using List.reverseRecOn generalizing c with
  | nil => exact hv
  | append_singleton l a _ =>
    rw [linkAfter_concat] at hv hp hs
    obtain ⟨r, h1, rfl, h0, _⟩ := segment_append.mp h
    rw [hp (by simp)]
    refine segment_append.mpr ⟨r, ?_, rfl, h0, hv⟩
    refine h1.congr fun b hb => hs b (List.mem_append_left _ hb) ?_
    simp only [ne_eq, Link.node.injEq]
    rintro rfl
    exact (List.nodup_append.mp hnd).2.2 r hb r (by simp) rfl

end HectoOs.Lib
