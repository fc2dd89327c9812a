import TableScript.Proofs.Run.Stored
import TableScript.Proofs.Values.Scalars

/-!
# Proper lists

A list value stands for several values together.  A list of one value or of none could not be told
from the value, or from nothing, when it is printed; so no run makes one.  A value is *proper* if it
and all lists inside it have at least two items, and a state is if everything stored in it is.

This module says what properness means, and why the text of a proper value is that of its items put
together (`Value.Proper.text_eq`).
-/

namespace TableScript

/-! ## Values -/

namespace Value

/-- Every list in a value has at least two items. -/
inductive Proper : Value → Prop where
  | single {value : Value} (hsingle : value.isList = false) : Proper value
  | list {items : List Value} (hlength : 2 ≤ items.length)
      (hitems : ∀ item ∈ items, Proper item) : Proper (.list items)

theorem proper_of_isScalar {value : Value} (hscalar : value.isScalar = true) : Proper value := by
  cases value with
  | table identity | list items => cases hscalar
  | _ => exact .single rfl

@[simp] theorem proper_list_iff {items : List Value} :
    Proper (.list items) ↔ 2 ≤ items.length ∧ ∀ item ∈ items, item.Proper := by
  constructor
  · intro hproper
    cases hproper with
    | single hsingle => cases hsingle
    | list hlength hitems => exact ⟨hlength, hitems⟩
  · exact fun hproper => .list hproper.1 hproper.2

/-- A proper list has a first item. -/
theorem Proper.exists_cons {items : List Value} (hproper : Proper (.list items)) :
    ∃ item rest, items = item :: rest := by
  have hlength : 2 ≤ items.length := (proper_list_iff.mp hproper).1
  cases items with
  | nil => simp at hlength
  | cons item rest => exact ⟨item, rest, rfl⟩

/-! ### The text of a proper value -/

mutual

/-- The values in a value that are no lists, in order. -/
def leaves : Value → List Value
  | .list items => leavesOfEach items
  | value => [value]

/-- The values in several values that are no lists, in order. -/
def leavesOfEach : List Value → List Value
  | [] => []
  | first :: rest => leaves first ++ leavesOfEach rest

end

@[simp] theorem leavesOfEach_eq_flatMap (values : List Value) :
    leavesOfEach values = values.flatMap leaves := by
  induction values with
  | nil => rfl
  | cons first rest ih => rw [leavesOfEach, ih, List.flatMap_cons]

theorem leaves_of_not_isList {value : Value} (hsingle : value.isList = false) :
    value.leaves = [value] := by
  cases value with
  | list items => cases hsingle
  | _ => rfl

end Value

/-- Tabulating rows and then their texts is tabulating all of them at once.  An empty row would have
a tabulator more. -/
theorem tabulate_map_tabulate {rows : List (List String)} (hrows : ∀ row ∈ rows, row ≠ []) :
    tabulate (rows.map tabulate) = tabulate rows.flatten := by
  induction rows with
  | nil => rfl
  | cons row rest ih =>
      obtain ⟨hrow, hrest⟩ := List.forall_mem_cons.mp hrows
      by_cases hlast : rest = []
      · subst hlast
        simp [tabulate]
      · have hmap : rest.map tabulate ≠ [] := by simpa using hlast
        have hflat : rest.flatten ≠ [] := by
          intro hempty
          obtain ⟨other, hother⟩ := List.exists_mem_of_ne_nil rest hlast
          exact hrest other hother (List.flatten_eq_nil_iff.mp hempty other hother)
        calc tabulate (tabulate row :: rest.map tabulate)
            = tabulate row ++ "\t" ++ tabulate (rest.map tabulate) :=
              String.intercalate_cons_of_ne_nil hmap
          _ = tabulate row ++ "\t" ++ tabulate rest.flatten := by rw [ih hrest]
          _ = tabulate (row ++ rest.flatten) :=
              (String.intercalate_append_of_ne_nil hrow hflat).symm

namespace Value

theorem Proper.leaves_ne_nil {value : Value} (hproper : value.Proper) : value.leaves ≠ [] := by
  induction hproper with
  | single hsingle =>
      rw [leaves_of_not_isList hsingle]
      exact List.cons_ne_nil _ _
  | @list items hlength hitems ih =>
      obtain ⟨item, rest, rfl⟩ := (Proper.list hlength hitems).exists_cons
      rw [leaves, leavesOfEach]
      exact List.append_ne_nil_of_left_ne_nil (ih item List.mem_cons_self) _

/-- The texts of values, tabulated, are the texts of what is in them, if each of these values is
written as what is in it. -/
theorem tabulate_texts_of_leaves {values : List Value}
    (hvalues : ∀ value ∈ values, value.Proper)
    (htext : ∀ value ∈ values, value.text = tabulate (value.leaves.map text)) :
    tabulate (values.map text) = tabulate ((values.flatMap leaves).map text) := by
  have hrows : values.map text = (values.map fun value => value.leaves.map text).map tabulate := by
    rw [List.map_map]
    exact List.map_congr_left htext
  rw [hrows, tabulate_map_tabulate, List.map_flatMap, List.flatMap_def]
  intro row hrow
  obtain ⟨value, hvalue, rfl⟩ := List.mem_map.mp hrow
  simpa using (hvalues value hvalue).leaves_ne_nil

/-- **A proper value is written as what is in it**, with tabulators in between. -/
theorem Proper.text_eq {value : Value} (hproper : value.Proper) :
    value.text = tabulate (value.leaves.map text) := by
  induction hproper with
  | single hsingle =>
      rw [leaves_of_not_isList hsingle]
      exact String.intercalate_singleton.symm
  | list hlength hitems ih =>
      rw [text, texts_eq_map, leaves, leavesOfEach_eq_flatMap]
      exact tabulate_texts_of_leaves hitems ih

/-- So are several of them. -/
theorem tabulate_texts {values : List Value} (hvalues : ∀ value ∈ values, value.Proper) :
    tabulate (texts values) = tabulate ((values.flatMap leaves).map text) := by
  rw [texts_eq_map]
  exact tabulate_texts_of_leaves hvalues fun value hvalue => (hvalues value hvalue).text_eq

end Value

/-! ## States -/

/-- All that a state binds and all that is in its tables is proper. -/
abbrev State.Proper (state : State) : Prop := state.Each Value.Proper

end TableScript
