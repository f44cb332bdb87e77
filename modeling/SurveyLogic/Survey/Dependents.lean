import SurveyLogic.Survey.Question

/-!
# Dependents

Which questions have to be looked at when an answer changes: under every name the questions whose
title or whose condition reads it, by their index and in survey order.
-/

namespace SurveyLogic

structure Dependents where
  titles : List (String × List Nat)
  visibility : List (String × List Nat)
deriving DecidableEq

namespace Dependents

/-- Notes that a question reads a name, unless that was noted last. -/
def register (index : Nat) (entries : List (String × List Nat)) (name : String) :
    List (String × List Nat) :=
  let noted := (Keyed.get? name entries).getD []
  if noted.getLast? = some index then entries else Keyed.insert name (noted ++ [index]) entries

/-- The dependents of the given questions. -/
def ofQuestions (questions : List Question) : Dependents :=
  questions.foldl (fun dependents question =>
    { titles := question.title.roots.foldl (register question.index) dependents.titles
      visibility := match question.condition with
        | some condition =>
          condition.roots.foldl (register question.index) dependents.visibility
        | none => dependents.visibility }) ⟨[], []⟩

/-- The questions whose title reads the root of a path. -/
def ofTitle (dependents : Dependents) (path : String) : List Nat :=
  (Keyed.get? (Text.root path) dependents.titles).getD []

/-- The questions whose condition reads the root of a path. -/
def ofVisibility (dependents : Dependents) (path : String) : List Nat :=
  (Keyed.get? (Text.root path) dependents.visibility).getD []

end Dependents

end SurveyLogic
