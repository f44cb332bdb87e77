import SurveyLogic.Compiled
import SurveyLogic.Survey.Definition

/-!
# Questions and their changes

A question of a loaded survey, with its title as it is rendered now and whether it is visible now.
Refreshing a question brings one of the two up to date and reports what changed.
-/

namespace SurveyLogic

structure Question where
  name : String
  /-- The place in the survey, counted from zero. -/
  index : Nat
  title : Title
  condition : Option Compiled
  rendered : String
  visible : Bool

/-! ## Reports -/

/-- A condition that could not be evaluated. -/
structure Failure where
  question : String
  error : RuntimeError
deriving DecidableEq

def Failure.toText (failure : Failure) : String := s!"{failure.question}: {failure.error.message}"

/-- What an operation on a survey changed: new titles, new visibility, and the conditions that
failed. -/
structure Report where
  titles : List (String × String) := []
  visibility : List (String × Bool) := []
  failures : List Failure := []
deriving DecidableEq

namespace Report

def isEmpty (report : Report) : Bool :=
  report.titles.isEmpty && report.visibility.isEmpty && report.failures.isEmpty

/-- One report after another. -/
def append (a b : Report) : Report :=
  ⟨a.titles ++ b.titles, a.visibility ++ b.visibility, a.failures ++ b.failures⟩

instance : Append Report := ⟨append⟩

end Report

/-! ## Refreshing -/

namespace Question

/-- The question with its title rendered anew. -/
def refreshTitle (env : Environment) (fallback : Fallback) (question : Question) :
    Question × Report :=
  let rendered := question.title.render env fallback
  if rendered = question.rendered then (question, {})
  else ({ question with rendered := rendered }, { titles := [(question.name, rendered)] })

/-- The question with its condition evaluated anew.  Without a condition nothing happens; a
condition that fails leaves the visibility as it is. -/
def refreshVisibility (env : Environment) (question : Question) : Question × Report :=
  match question.condition with
  | none => (question, {})
  | some condition =>
    match (condition.evaluate env).1 with
    | .error error => (question, { failures := [⟨question.name, error⟩] })
    | .ok value =>
      if value.isTruthy = question.visible then (question, {})
      else ({ question with visible := value.isTruthy },
        { visibility := [(question.name, value.isTruthy)] })

/-- Refreshes the questions that are due, in survey order. -/
def refreshDue (due : List Nat) (refresh : Question → Question × Report) :
    List Question → List Question × Report
  | [] => ([], {})
  | question :: questions =>
    let (refreshed, change) := if question.index ∈ due then refresh question else (question, {})
    let (others, changes) := refreshDue due refresh questions
    (refreshed :: others, change ++ changes)

end Question

end SurveyLogic
