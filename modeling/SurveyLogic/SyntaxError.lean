import SurveyLogic.Token

/-!
# Syntax errors

Why a source is no condition, and where.
-/

namespace SurveyLogic

/-- What the grammar calls for at some point of a source. -/
inductive Expectation
  | expression
  | propertyName
  | token (expected : Token)
  /-- After an element of an array: a further element or the end. -/
  | elementEnd
deriving DecidableEq

def Expectation.text : Expectation → String
  | .expression => "expression"
  | .propertyName => "property name"
  | .token expected => expected.describe
  | .elementEnd => (Token.symbol .comma).describe ++ " or " ++ (Token.symbol .closeBracket).describe

inductive SyntaxError
  /-- The quote at `position` has no partner. -/
  | unterminatedString (position : Nat)
  | unexpectedToken (found : Token) (expected : Expectation) (position : Nat)
  | unexpectedEnd (expected : Expectation)
  /-- A whole expression is followed by more tokens. -/
  | trailingTokens (first : Token) (position : Nat)
  | invalidAssignmentTarget (position : Nat)
  | nestingTooDeep (position : Nat)
deriving DecidableEq

namespace SyntaxError

/-- The byte offset of the error; an early end has none. -/
def position? : SyntaxError → Option Nat
  | unterminatedString position => some position
  | unexpectedToken _ _ position => some position
  | unexpectedEnd _ => none
  | trailingTokens _ position => some position
  | invalidAssignmentTarget position => some position
  | nestingTooDeep position => some position

def message : SyntaxError → String
  | unterminatedString position => s!"Error at {position}: Unterminated string literal."
  | unexpectedToken found expected position =>
    s!"Error at {position}: Expected {expected.text}, found {found.describe}."
  | unexpectedEnd expected => s!"Unexpected end of input: expected {expected.text}."
  | trailingTokens first position =>
    s!"Error at {position}: Extra tokens after expression, starting with {first.describe}."
  | invalidAssignmentTarget position =>
    s!"Error at {position}: Only identifiers and member paths can be assigned to."
  | nestingTooDeep position => s!"Error at {position}: Expression is nested too deeply."

end SyntaxError

end SurveyLogic
