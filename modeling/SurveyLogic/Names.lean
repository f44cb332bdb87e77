import SurveyLogic.Keyed

/-!
# Sets of names

A set of names is the list of its members in ascending order, each once: the names of entries with
nothing in them.
-/

namespace SurveyLogic

/-- A set of names, in strictly ascending order. -/
abbrev Names := List String

namespace Names

/-- The names of a list, sorted and without repetition. -/
def ofList (names : List String) : Names :=
  (Keyed.ofList (names.map fun name => (name, ()))).map (·.1)

@[simp] theorem mem_ofList {name : String} {names : List String} :
    name ∈ ofList names ↔ name ∈ names := by
  unfold ofList
  rw [Keyed.mem_names_ofList, List.map_map]
  simp

end Names

end SurveyLogic
