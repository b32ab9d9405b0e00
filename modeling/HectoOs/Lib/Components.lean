import Mathlib.Data.List.DropRight
import Mathlib.Data.List.Infix

/-! # Paths and their components

A path is a list of letters, and its components are the pieces between separators that are not
empty. A path leads from one location to another: `here` stays, `up` leaves the last component, and
every other component is entered.
-/

namespace HectoOs.Lib

variable {α : Type} [DecidableEq α] (sep : α)

def components (path : List α) : List (List α) := (path.splitOn sep).filter (· ≠ [])

/-- What follows the last separator. -/
def name (path : List α) : List α := path.rtakeWhile (· ≠ sep)

def parent (path : List α) : List α := path.rdropWhile (· ≠ sep)

section Components

variable {sep} {a b path : List α}

@[simp]
theorem components_nil : components sep ([] : List α) = [] := by
  simp [components]

theorem components_append :
    components sep (a ++ sep :: b) = components sep a ++ components sep b := by
  simp only [components, List.splitOn_append_cons_self, List.filter_append]

theorem components_concat : components sep (a ++ [sep]) = components sep a := by
  rw [components_append, components_nil, List.append_nil]

theorem components_of_notMem (h : sep ∉ a) : components sep a = if a = [] then [] else [a] := by
  rw [components, List.splitOn_eq_singleton h]
  by_cases ha : a = [] <;> simp [ha]

theorem components_prefix (h : a = path ∨ a ++ [sep] <+: path) :
    components sep a <+: components sep path := by
  rcases h with rfl | ⟨b, rfl⟩
  · exact List.prefix_rfl
  · rw [List.append_assoc, List.singleton_append, components_append]
    exact List.prefix_append _ _

theorem parent_append_name : parent sep path ++ name sep path = path :=
  List.rdropWhile_append_rtakeWhile

theorem sep_notMem_name : sep ∉ name sep path := fun h => by
  simpa using List.mem_rtakeWhile_imp h

theorem parent_ends : parent sep path = [] ∨ ∃ a, parent sep path = a ++ [sep] := by
  refine or_iff_not_imp_left.mpr fun hne => ?_
  have hlast := List.rdropWhile_last_not (· ≠ sep) path hne
  have hsep : (parent sep path).getLast hne = sep := by
    by_contra h
    exact hlast (decide_eq_true h)
  exact ⟨_, hsep ▸ (List.dropLast_append_getLast hne).symm⟩

theorem name_append (h : sep ∉ b) (ha : a = [] ∨ ∃ a', a = a' ++ [sep]) :
    name sep (a ++ b) = b ∧ parent sep (a ++ b) = a := by
  have hb : ∀ x ∈ b.reverse, decide (x ≠ sep) = true := fun x hx =>
    decide_eq_true fun heq => h (heq ▸ List.mem_reverse.mp hx)
  constructor
  · rw [name, List.rtakeWhile, List.reverse_append, List.takeWhile_append_of_pos hb]
    rcases ha with rfl | ⟨a', rfl⟩ <;> simp
  · rw [parent, List.rdropWhile, List.reverse_append, List.dropWhile_append_of_pos hb]
    rcases ha with rfl | ⟨a', rfl⟩ <;> simp

theorem name_append_cons : name sep (a ++ sep :: b) = name sep b ∧
    parent sep (a ++ sep :: b) = a ++ sep :: parent sep b := by
  have hsplit : a ++ sep :: b = (a ++ sep :: parent sep b) ++ name sep b := by
    rw [List.append_assoc, List.cons_append, parent_append_name]
  rw [hsplit]
  refine name_append sep_notMem_name (.inr ?_)
  rcases @parent_ends α _ sep b with hp | ⟨b', hp⟩
  · exact ⟨a, by rw [hp]⟩
  · exact ⟨a ++ sep :: b', by simp [hp]⟩

end Components

/-! ## Locations -/

section Locations

variable (here up : List α)

/-- A location is the list of the components below the root. -/
def enter (location : List (List α)) (c : List α) : List (List α) :=
  if c = here then location else if c = up then location.dropLast else location ++ [c]

def resolve (location : List (List α)) (path : List α) : List (List α) :=
  (components sep path).foldl (enter here up) location

variable {sep here up} {a b path : List α} {location : List (List α)}

theorem resolve_append : resolve sep here up location (a ++ sep :: b) =
    resolve sep here up (resolve sep here up location a) b := by
  rw [resolve, components_append, List.foldl_append]
  rfl

theorem resolve_concat :
    resolve sep here up location (a ++ [sep]) = resolve sep here up location a := by
  rw [resolve, components_concat]
  rfl

theorem resolve_name (h : sep ∉ b) (ha : a = [] ∨ ∃ a', a = a' ++ [sep]) :
    resolve sep here up location (a ++ b) =
    if b = [] then resolve sep here up location a
      else enter here up (resolve sep here up location a) b := by
  have hb : resolve sep here up (resolve sep here up location a) b =
      if b = [] then resolve sep here up location a
      else enter here up (resolve sep here up location a) b := by
    rw [resolve, components_of_notMem h]
    by_cases hnil : b = [] <;> simp [hnil]
  rw [← hb]
  rcases ha with rfl | ⟨a', rfl⟩
  · simp [resolve]
  · rw [List.append_assoc, List.singleton_append, resolve_append, resolve_concat]

end Locations

end HectoOs.Lib
