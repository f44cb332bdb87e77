import SurveyLogic.Number.Text

/-!
# Expression trees

The trees of conditions and bindings.  Every node carries the byte offset of the token it stems
from: the operator of an operation, the dot of a member access, the opening bracket of a group or an
array, the `is` of a range test.
-/

namespace SurveyLogic

/-! ## Operators -/

inductive UnaryOperator
  | negate | not
deriving DecidableEq

inductive LogicalOperator
  | and | or
deriving DecidableEq

inductive BinaryOperator
  | add | subtract | multiply | divide | power
  | equal | notEqual
  | less | lessEqual | greater | greaterEqual
  | contains | within
deriving DecidableEq

/-- The spelling in front of the operand. -/
def UnaryOperator.spelling : UnaryOperator → String
  | .negate => "-"
  | .not => "not "

def LogicalOperator.spelling : LogicalOperator → String
  | .and => "and"
  | .or => "or"

def BinaryOperator.spelling : BinaryOperator → String
  | .add => "+"
  | .subtract => "-"
  | .multiply => "*"
  | .divide => "/"
  | .power => "^"
  | .equal => "=="
  | .notEqual => "!="
  | .less => "<"
  | .lessEqual => "<="
  | .greater => ">"
  | .greaterEqual => ">="
  | .contains => "contains"
  | .within => "in"

/-! ## Trees -/

inductive Expr
  | number (value : Number) (position : Nat)
  | text (value : String) (position : Nat)
  | truth (value : Bool) (position : Nat)
  | name (word : String) (position : Nat)
  | member (object : Expr) (property : String) (position : Nat)
  | array (elements : List Expr) (position : Nat)
  | unary (operator : UnaryOperator) (operand : Expr) (position : Nat)
  | binary (operator : BinaryOperator) (left right : Expr) (position : Nat)
  | logical (operator : LogicalOperator) (left right : Expr) (position : Nat)
  | group (inner : Expr) (position : Nat)
  | assign (target value : Expr) (position : Nat)
  /-- The test `subject is between lower and upper`. -/
  | between (subject lower upper : Expr) (position : Nat)
deriving Inhabited

namespace Expr

/-- The byte offset of a tree's own token. -/
def position : Expr → Nat
  | number _ position => position
  | text _ position => position
  | truth _ position => position
  | name _ position => position
  | member _ _ position => position
  | array _ position => position
  | unary _ _ position => position
  | binary _ _ _ position => position
  | logical _ _ _ position => position
  | group _ position => position
  | assign _ _ position => position
  | between _ _ _ position => position

/-- The segments of a name or a member chain that starts with a name. -/
def path? : Expr → Option (List String)
  | name word _ => some [word]
  | member object property _ => object.path?.map (· ++ [property])
  | _ => none

/-! ## Text -/

/-- The quote around a text literal: the single one, unless it occurs inside. -/
def quoteFor (value : String) : String := if '\'' ∈ value.toList then "\"" else "'"

mutual

/-- A tree written out.  Grouping is a node of its own, so no parentheses are added. -/
def toText : Expr → String
  | number value _ => value.toText
  | text value _ => quoteFor value ++ value ++ quoteFor value
  | truth value _ => if value then "true" else "false"
  | name word _ => word
  | member object property _ => object.toText ++ "." ++ property
  | array elements _ => "[" ++ String.intercalate ", " (toTexts elements) ++ "]"
  | unary operator operand _ => operator.spelling ++ operand.toText
  | binary operator left right _ => left.toText ++ " " ++ operator.spelling ++ " " ++ right.toText
  | logical operator left right _ => left.toText ++ " " ++ operator.spelling ++ " " ++ right.toText
  | group inner _ => "(" ++ inner.toText ++ ")"
  | assign target value _ => target.toText ++ " = " ++ value.toText
  | between subject lower upper _ =>
    subject.toText ++ " is between " ++ lower.toText ++ " and " ++ upper.toText

def toTexts : List Expr → List String
  | [] => []
  | tree :: trees => tree.toText :: toTexts trees

end

end Expr

end SurveyLogic
