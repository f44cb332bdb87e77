import SurveyLogic.Text.Blank
import SurveyLogic.Title

/-!
# Survey definitions

What a survey is before it is loaded: the questions in order, each with a title and perhaps a
condition for being visible, and the options of the survey.
-/

namespace SurveyLogic

structure Options where
  placeholderFallback : Fallback := .empty
deriving DecidableEq, Inhabited

structure QuestionDefinition where
  name : String
  title : String
  visibleWhen : Option String := none
deriving DecidableEq, Inhabited

/-- The condition of a question without the blanks around it; a blank one is none. -/
def QuestionDefinition.condition? (question : QuestionDefinition) : Option String :=
  (question.visibleWhen.map Text.trim).filter (· ≠ "")

structure Definition where
  options : Options := {}
  questions : List QuestionDefinition := []
deriving DecidableEq, Inhabited

end SurveyLogic
