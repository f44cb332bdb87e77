import SurveyLogic.Expr.Basic
import SurveyLogic.Value.Basic

/-!
# Evaluation errors

Why a tree has no value in some environment, and where.
-/

namespace SurveyLogic

/-- Values of kinds that an operation cannot take. -/
inductive KindMismatch
  | arithmetic (operator : BinaryOperator) (left right : Value.Kind)
  | ordering (left right : Value.Kind)
  | notANumber (found : Value.Kind)
deriving DecidableEq

def KindMismatch.text : KindMismatch → String
  | .arithmetic operator left right =>
    s!"cannot apply '{operator.spelling}' to {left.name} and {right.name}"
  | .ordering left right => s!"cannot order {left.name} and {right.name}"
  | .notANumber found => s!"expected a number, found {found.name}"

inductive RuntimeError
  | undefinedVariable (word : String) (position : Nat)
  | divisionByZero (position : Nat)
  | kindMismatch (mismatch : KindMismatch) (position : Nat)
  /-- An operator was applied as one of a family that it does not belong to. -/
  | unsupportedOperator (operator : BinaryOperator) (position : Nat)
  /-- An assignment to something that is neither a name nor a member chain. -/
  | unsupportedTarget (position : Nat)
deriving DecidableEq

namespace RuntimeError

/-- The byte offset of the error. -/
def position : RuntimeError → Nat
  | undefinedVariable _ position => position
  | divisionByZero position => position
  | kindMismatch _ position => position
  | unsupportedOperator _ position => position
  | unsupportedTarget position => position

def message : RuntimeError → String
  | undefinedVariable word position => s!"Error at {position}: Undefined variable '{word}'."
  | divisionByZero position => s!"Error at {position}: Division by zero."
  | kindMismatch mismatch position => s!"Error at {position}: Type error: {mismatch.text}."
  | unsupportedOperator operator position =>
    s!"Error at {position}: Operator '{operator.spelling}' is not supported here."
  | unsupportedTarget position => s!"Error at {position}: Operator '=' is not supported here."

end RuntimeError

end SurveyLogic
