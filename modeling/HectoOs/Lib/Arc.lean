import Mathlib.Data.List.Perm.Basic
import Mathlib.Data.List.Range
import Mathlib.Logic.Function.Basic

/-! # Shared objects with reference counts

`Arcs α` holds the objects behind the `Arc<α>` pointers of a program, each with its strong count. A
pointer is a number and is never used again after its object is gone. `Counted h held` ties the
counts to the references that exist: `held` lists them, one entry for each.
-/

namespace HectoOs.Lib

structure Arcs (α : Type) where
  next : Nat
  objects : Nat → Option (α × Nat)

namespace Arcs

variable {α : Type}

def empty : Arcs α := ⟨0, fun _ => none⟩

variable (h : Arcs α)

/-- The object behind the pointer `i`. -/
def get (i : Nat) : Option α := (h.objects i).map Prod.fst

def strong_count (i : Nat) : Nat := (h.objects i).elim 0 Prod.snd

/-- `Arc::new`. -/
def new (a : α) : Nat × Arcs α :=
  (h.next, ⟨h.next + 1, Function.update h.objects h.next (some (a, 1))⟩)

/-- `Arc::clone`. -/
def clone (i : Nat) : Arcs α :=
  { h with objects := Function.update h.objects i ((h.objects i).map fun o => (o.1, o.2 + 1)) }

/-- Dropping a reference: the object comes with it if the reference was the last one. -/
def drop (i : Nat) : Option α × Arcs α :=
  match h.objects i with
  | none => (none, h)
  | some (a, n) =>
    if n ≤ 1 then (some a, { h with objects := Function.update h.objects i none })
    else (none, { h with objects := Function.update h.objects i (some (a, n - 1)) })

/-- The objects that are alive, in the order they were made. -/
def values : List α := (List.range h.next).filterMap h.get

variable {h} {a b : α} {i j : Nat}

/-! ## What the operations do to the objects -/

theorem get_new_self : (h.new a).2.get (h.new a).1 = some a := by simp [get, new]

theorem get_new_of_ne (hj : j ≠ h.next) : (h.new a).2.get j = h.get j := by
  simp [get, new, Function.update_of_ne hj]

@[simp] theorem get_clone : (h.clone i).get j = h.get j := by
  unfold get clone
  by_cases hj : j = i
  · subst hj
    simp [Option.map_map, Function.comp_def]
  · simp [Function.update_of_ne hj]

theorem get_drop_of_ne (hj : j ≠ i) : (h.drop i).2.get j = h.get j := by
  unfold get drop
  split
  · rfl
  · split <;> simp [Function.update_of_ne hj]

theorem get_of_drop (hj : ((h.drop i).2.get j).isSome) : (h.drop i).2.get j = h.get j := by
  by_cases hij : j = i
  · subst hij
    unfold drop get at hj ⊢
    cases ho : h.objects j with
    | none => simp [ho]
    | some o =>
      by_cases hn : o.2 ≤ 1
      · simp [ho, hn] at hj
      · simp [hn]
  · exact get_drop_of_ne hij

theorem strong_count_clone_self (hi : (h.get i).isSome) :
    (h.clone i).strong_count i = h.strong_count i + 1 := by
  obtain ⟨o, ho⟩ := Option.isSome_iff_exists.mp (Option.isSome_map ▸ hi : (h.objects i).isSome)
  simp [strong_count, clone, ho]

theorem strong_count_clone_of_ne (hj : j ≠ i) : (h.clone i).strong_count j = h.strong_count j := by
  simp [strong_count, clone, Function.update_of_ne hj]

theorem strong_count_drop_of_ne (hj : j ≠ i) : (h.drop i).2.strong_count j = h.strong_count j := by
  unfold strong_count drop
  split
  · rfl
  · split <;> simp [Function.update_of_ne hj]

theorem strong_count_drop_self : (h.drop i).2.strong_count i = h.strong_count i - 1 := by
  unfold strong_count drop
  cases ho : h.objects i with
  | none => simp [ho]
  | some o =>
    dsimp only
    split
    · simp only [Function.update_self, Option.elim_none, Option.elim_some]
      omega
    · simp

@[simp] theorem next_clone : (h.clone i).next = h.next := rfl

theorem next_drop : (h.drop i).2.next = h.next := by
  unfold drop
  split
  · rfl
  · split <;> rfl

theorem drop_last (hi : h.strong_count i = 1) :
    (h.drop i).1 = h.get i ∧ (h.drop i).2.get i = none := by
  unfold strong_count at hi
  unfold get drop
  cases ho : h.objects i with
  | none => simp [ho] at hi
  | some o =>
    have hn : o.2 ≤ 1 := by
      simp only [ho, Option.elim_some] at hi
      omega
    simp [hn]

theorem drop_shared (hi : 1 < h.strong_count i) :
    (h.drop i).1 = none ∧ (h.drop i).2.get i = h.get i := by
  unfold strong_count at hi
  unfold get drop
  cases ho : h.objects i with
  | none => simp [ho] at hi
  | some o =>
    have hn : ¬ o.2 ≤ 1 := by
      simp only [ho, Option.elim_some] at hi
      omega
    simp [hn]

/-! ## Counts and references -/

/-- `held` lists the references, and an object is there as long as it has one. -/
structure Counted (h : Arcs α) (held : List Nat) : Prop where
  count : ∀ i, h.strong_count i = held.count i
  live : ∀ i, (h.get i).isSome ↔ i ∈ held
  fresh : ∀ i ∈ held, i < h.next

namespace Counted

variable {held held' : List Nat}

theorem perm (hc : h.Counted held) (hp : held.Perm held') : h.Counted held' :=
  ⟨fun i => (hc.count i).trans (hp.count_eq i), fun i => (hc.live i).trans hp.mem_iff,
    fun i hi => hc.fresh i (hp.mem_iff.mpr hi)⟩

theorem empty : (Arcs.empty : Arcs α).Counted [] :=
  ⟨fun _ => rfl, fun _ => by simp [get, Arcs.empty], by simp⟩

theorem lt_next (hc : h.Counted held) (hi : (h.get i).isSome) : i < h.next :=
  hc.fresh i ((hc.live i).mp hi)

theorem new (hc : h.Counted held) (a : α) : (h.new a).2.Counted (h.next :: held) := by
  have hnext : h.next ∉ held := fun hm => absurd (hc.fresh _ hm) (Nat.lt_irrefl _)
  refine ⟨fun i => ?_, fun i => ?_, fun i hi => ?_⟩
  · by_cases hi : i = h.next
    · subst hi
      simp [strong_count, Arcs.new, List.count_eq_zero.mpr hnext]
    · rw [List.count_cons_of_ne (Ne.symm hi), ← hc.count i]
      simp [strong_count, Arcs.new, Function.update_of_ne hi]
  · by_cases hi : i = h.next
    · subst hi
      have := @get_new_self α h a
      rw [Arcs.new] at this
      simp [Arcs.new, this]
    · rw [get_new_of_ne hi, hc.live i]
      simp [hi]
  · rcases List.mem_cons.mp hi with rfl | hi
    · exact Nat.lt_succ_self _
    · exact Nat.lt_succ_of_lt (hc.fresh i hi)

theorem clone (hc : h.Counted held) (hi : i ∈ held) : (h.clone i).Counted (i :: held) := by
  refine ⟨fun j => ?_, fun j => ?_, fun j hj => ?_⟩
  · by_cases hj : j = i
    · subst hj
      rw [strong_count_clone_self ((hc.live j).mpr hi), hc.count, List.count_cons_self]
    · rw [strong_count_clone_of_ne hj, hc.count, List.count_cons_of_ne (Ne.symm hj)]
  · rw [get_clone, hc.live]
    simp only [List.mem_cons, iff_or_self]
    rintro rfl
    exact hi
  · rcases List.mem_cons.mp hj with rfl | hj
    · exact hc.fresh j hi
    · exact hc.fresh j hj

theorem drop (hc : h.Counted (i :: held)) : (h.drop i).2.Counted held := by
  have hcount := hc.count i
  rw [List.count_cons_self] at hcount
  refine ⟨fun j => ?_, fun j => ?_, fun j hj => ?_⟩
  · by_cases hj : j = i
    · subst hj
      rw [strong_count_drop_self, hcount]
      omega
    · rw [strong_count_drop_of_ne hj, hc.count, List.count_cons_of_ne (Ne.symm hj)]
  · by_cases hj : j = i
    · subst hj
      by_cases hm : j ∈ held
      · have hpos := List.count_pos_iff.mpr hm
        have hlive := (hc.live j).mpr List.mem_cons_self
        rw [(drop_shared (by omega)).2]
        exact iff_of_true hlive hm
      · have hzero := List.count_eq_zero.mpr hm
        rw [(drop_last (by omega)).2]
        simpa using hm
    · rw [get_drop_of_ne hj, hc.live]
      simp [hj]
  · rw [next_drop]
    exact hc.fresh j (List.mem_cons_of_mem _ hj)

theorem drop_fst (hc : h.Counted (i :: held)) :
    (h.drop i).1 = if i ∈ held then none else h.get i := by
  have hcount := hc.count i
  rw [List.count_cons_self] at hcount
  split
  · have hpos := List.count_pos_iff.mpr ‹_›
    exact (drop_shared (by omega)).1
  · have hzero := List.count_eq_zero.mpr ‹_›
    exact (drop_last (by omega)).1

theorem get_drop (hc : h.Counted (i :: held)) (hj : j ∈ held) : (h.drop i).2.get j = h.get j := by
  by_cases hji : j = i
  · subst hji
    have hcount := hc.count j
    have hpos := List.count_pos_iff.mpr hj
    rw [List.count_cons_self] at hcount
    exact (drop_shared (by omega)).2
  · exact get_drop_of_ne hji

end Counted

/-! ## The list of objects -/

theorem values_new : (h.new a).2.values = h.values ++ [a] := by
  have hself := @get_new_self α h a
  have hold : ∀ j ∈ List.range h.next, (h.new a).2.get j = h.get j :=
    fun j hj => get_new_of_ne (Nat.ne_of_lt (List.mem_range.mp hj))
  have hnext : (h.new a).2.next = h.next + 1 := rfl
  rw [values, hnext, List.range_succ, List.filterMap_append, List.filterMap_congr hold]
  rw [Arcs.new] at hself
  simp [values, Arcs.new, hself]

@[simp] theorem values_clone : (h.clone i).values = h.values := by simp [values]

theorem values_drop_shared (hi : 1 < h.strong_count i) : (h.drop i).2.values = h.values := by
  rw [values, values, next_drop]
  refine List.filterMap_congr fun j _ => ?_
  by_cases hj : j = i
  · rw [hj, (drop_shared hi).2]
  · exact get_drop_of_ne hj

theorem values_drop_last (hlt : i < h.next) (hi : h.strong_count i = 1) (ha : h.get i = some a) :
    h.values.Perm (a :: (h.drop i).2.values) := by
  obtain ⟨l₁, l₂, hl⟩ := List.append_of_mem (List.mem_range.mpr hlt)
  have hnodup := @List.nodup_range h.next
  rw [hl] at hnodup
  have hout : ∀ j ∈ l₁ ++ l₂, (h.drop i).2.get j = h.get j := by
    intro j hj
    refine get_drop_of_ne ?_
    rintro rfl
    exact (List.nodup_cons.mp (List.perm_middle.nodup_iff.mp hnodup)).1 hj
  rw [values, values, next_drop, hl, List.filterMap_append, List.filterMap_append,
    List.filterMap_cons_some ha,
    List.filterMap_cons_none (drop_last hi).2,
    List.filterMap_congr fun j hj => hout j (List.mem_append_left _ hj),
    List.filterMap_congr fun j hj => hout j (List.mem_append_right _ hj)]
  exact List.perm_middle

theorem eq_of_nodup_map {κ : Type} {f : α → κ} {held : List Nat} (hc : h.Counted held)
    (hn : (h.values.map f).Nodup) (hi : h.get i = some a) (hj : h.get j = some b)
    (hab : f a = f b) : i = j := by
  rw [values, List.map_filterMap, List.Nodup, List.pairwise_filterMap] at hn
  by_contra hne
  have hlt : ∀ k c, h.get k = some c → k ∈ List.range h.next :=
    fun k c hk => List.mem_range.mpr (hc.lt_next (hk ▸ rfl))
  have hsymm : Std.Symm fun i j => ∀ x, (h.get i).map f = some x →
    ∀ y, (h.get j).map f = some y → x ≠ y :=
    ⟨fun i j hij x hx y hy hxy => hij y hy x hx hxy.symm⟩
  have hne := hn.forall (hlt i a hi) (hlt j b hj) hne (f a) (by rw [hi]; rfl)
    (f b) (by rw [hj]; rfl)
  exact hne hab

end Arcs

end HectoOs.Lib
