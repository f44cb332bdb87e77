import SurveyLogic.Number.Text

/-!
# Tokens

The tokens of the condition language.  A token placed at its offset in the source is a `Lexeme`.
-/

namespace SurveyLogic

/-- The reserved words besides the two truth values. -/
inductive Keyword
  | and | or | not | contains | within | is
deriving DecidableEq

inductive Symbol
  | dot | plus | minus | star | slash | caret
  | openParen | closeParen | openBracket | closeBracket | comma
  | assign | equal | notEqual | lessEqual | greaterEqual | less | greater | bang
deriving DecidableEq

inductive Token
  | number (value : Number)
  | text (value : String)
  | truth (value : Bool)
  | name (word : String)
  | keyword (word : Keyword)
  | symbol (sign : Symbol)
deriving DecidableEq

/-- A token and the byte offset at which it starts. -/
structure Lexeme where
  token : Token
  position : Nat
deriving DecidableEq

/-- The spelling used in messages; a source may also write `AND`, `OR` or `NOT`. -/
def Keyword.spelling : Keyword → String
  | .and => "and"
  | .or => "or"
  | .not => "not"
  | .contains => "contains"
  | .within => "in"
  | .is => "is"

def Symbol.spelling : Symbol → String
  | .dot => "."
  | .plus => "+"
  | .minus => "-"
  | .star => "*"
  | .slash => "/"
  | .caret => "^"
  | .openParen => "("
  | .closeParen => ")"
  | .openBracket => "["
  | .closeBracket => "]"
  | .comma => ","
  | .assign => "="
  | .equal => "=="
  | .notEqual => "!="
  | .lessEqual => "<="
  | .greaterEqual => ">="
  | .less => "<"
  | .greater => ">"
  | .bang => "!"

/-- How a message names a token. -/
def Token.describe : Token → String
  | .number value => "number " ++ value.toText
  | .text value => "string '" ++ value ++ "'"
  | .truth value => "boolean " ++ (if value then "true" else "false")
  | .name word => "identifier '" ++ word ++ "'"
  | .keyword word => "'" ++ word.spelling ++ "'"
  | .symbol sign => "'" ++ sign.spelling ++ "'"

end SurveyLogic
