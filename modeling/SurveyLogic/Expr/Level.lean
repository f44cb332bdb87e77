import SurveyLogic.Expr.Basic
import SurveyLogic.Token

/-!
# The levels of the grammar

From the loosest to the tightest: `or`, `and`, equality, relational, additive, multiplicative, power
and unary.  The first six are chains: operands of the next level, joined by links, grouped from the
left.  A link is an operator or the opening `is between` of a range test.  `is` by itself belongs to
the equality level, and to `!=` when `not` follows; directly before the name `between` it is the
relational level that takes it.
-/

namespace SurveyLogic

inductive Level
  | or | and | equality | relational | additive | multiplicative | power | unary
deriving DecidableEq

/-- The distance to the tightest level. -/
def Level.looseness : Level → Nat
  | or => 7
  | and => 6
  | equality => 5
  | relational => 4
  | additive => 3
  | multiplicative => 2
  | power => 1
  | unary => 0

/-- The level of the operands of a chain. -/
def Level.operand : Level → Level
  | or => and
  | and => equality
  | equality => relational
  | relational => additive
  | additive => multiplicative
  | multiplicative => power
  | power => unary
  | unary => unary

/-- The level on which an operator joins its operands. -/
def BinaryOperator.level : BinaryOperator → Level
  | .equal | .notEqual => .equality
  | .less | .lessEqual | .greater | .greaterEqual | .contains | .within => .relational
  | .add | .subtract => .additive
  | .multiply | .divide => .multiplicative
  | .power => .power

/-- The binary operator that a token writes by itself. -/
def Token.operator? : Token → Option BinaryOperator
  | .symbol .plus => some .add
  | .symbol .minus => some .subtract
  | .symbol .star => some .multiply
  | .symbol .slash => some .divide
  | .symbol .caret => some .power
  | .symbol .assign => some .equal
  | .symbol .equal => some .equal
  | .symbol .notEqual => some .notEqual
  | .symbol .less => some .less
  | .symbol .lessEqual => some .lessEqual
  | .symbol .greater => some .greater
  | .symbol .greaterEqual => some .greaterEqual
  | .keyword .contains => some .contains
  | .keyword .within => some .within
  | _ => none

/-- What joins two operands of a chain, or opens the bounds of a range test. -/
inductive Link
  | logical (operator : LogicalOperator)
  | binary (operator : BinaryOperator)
  | range
deriving DecidableEq

/-- The link of the given level in front of the tokens: the link, its position, and the tokens after
it. -/
def Level.link? : Level → List Lexeme → Option (Link × Nat × List Lexeme)
  | or, ⟨.keyword .or, position⟩ :: tokens => some (.logical .or, position, tokens)
  | and, ⟨.keyword .and, position⟩ :: tokens => some (.logical .and, position, tokens)
  | equality, ⟨.keyword .is, position⟩ :: ⟨.keyword .not, _⟩ :: tokens =>
    some (.binary .notEqual, position, tokens)
  | equality, ⟨.keyword .is, position⟩ :: tokens => some (.binary .equal, position, tokens)
  | relational, ⟨.keyword .is, position⟩ :: ⟨.name "between", _⟩ :: tokens =>
    some (.range, position, tokens)
  | level, ⟨token, position⟩ :: tokens =>
    match token.operator? with
    | some operator =>
      if operator.level = level then some (.binary operator, position, tokens) else none
    | none => none
  | _, [] => none

/-- A link takes at least one token. -/
theorem Level.length_lt_of_link? {level : Level} {tokens rest : List Lexeme} {link : Link}
    {position : Nat} (h : level.link? tokens = some (link, position, rest)) :
    rest.length < tokens.length := by
  unfold link? at h
  split at h
  case h_1 | h_2 | h_3 | h_4 | h_5 =>
    obtain ⟨rfl, rfl, rfl⟩ := by simpa using h
    simp only [List.length_cons]
    omega
  · split at h
    · split at h
      · obtain ⟨rfl, rfl, rfl⟩ := by simpa using h
        simp
      · simp at h
    · simp at h
  · simp at h

end SurveyLogic
