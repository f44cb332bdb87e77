import SurveyLogic.Expr.Level
import SurveyLogic.Expr.Shape

/-!
# The grammar of conditions

Which token lists are conditions, and with which trees, said without any reading order:

```text
or             := and ("or" and)*
and            := equality ("and" equality)*
equality       := relational (("=" | "==" | "!=" | "is" | "is not") relational)*
relational     := additive (("<" | "<=" | ">" | ">=" | "contains" | "in") additive
                           | "is" "between" additive "and" additive)*
additive       := multiplicative (("+" | "-") multiplicative)*
multiplicative := power (("*" | "/") power)*
power          := unary ("^" power)?
unary          := ("-" | "!" | "not") unary | NUMBER | TEXT | TRUTH | member
                | "(" or ")" | "[" (or ("," or)*)? "]"
member         := NAME ("." NAME)*
```

The chains group from the left and powers from the right, which the rules say by the levels of the
two operands.  `is` directly before `not` is one operator with it, and directly before the name
`between` it opens a range; the rule for `is` alone leaves these to the other two.

A tree in a rule carries the position of its own token.

The grammar has tables of its own for the order of the levels (`Level.tighter?`), for the operators
of each level (`Level.operators`) and for their spellings.  That they agree with the tables a reader
goes by is a theorem (`Level.tighter?_eq_some_iff`, `Level.mem_operators_iff`).
-/

namespace SurveyLogic

/-! ## Levels -/

/-- The level of which the phrases of a level are made. -/
def Level.tighter? : Level → Option Level
  | .or => some .and
  | .and => some .equality
  | .equality => some .relational
  | .relational => some .additive
  | .additive => some .multiplicative
  | .multiplicative => some .power
  | .power => some .unary
  | .unary => none

/-- The binary operators that make chains of a level. -/
def Level.operators : Level → List BinaryOperator
  | .equality => [.equal, .notEqual]
  | .relational => [.less, .lessEqual, .greater, .greaterEqual, .contains, .within]
  | .additive => [.add, .subtract]
  | .multiplicative => [.multiply, .divide]
  | .or | .and | .power | .unary => []

theorem Level.tighter?_eq_some_iff {level inner : Level} :
    level.tighter? = some inner ↔ level ≠ .unary ∧ level.operand = inner := by
  cases level <;> simp [tighter?, operand]

theorem BinaryOperator.level_ne_unary (operator : BinaryOperator) : operator.level ≠ .unary := by
  cases operator <;> decide

theorem Level.mem_operators_iff {level : Level} {operator : BinaryOperator} :
    operator ∈ level.operators ↔ operator ≠ .power ∧ operator.level = level := by
  cases level <;> cases operator <;> decide

/-! ## Spellings -/

/-- The token sequences that write an operator. -/
def BinaryOperator.spellings : BinaryOperator → List (List Token)
  | .add => [[.symbol .plus]]
  | .subtract => [[.symbol .minus]]
  | .multiply => [[.symbol .star]]
  | .divide => [[.symbol .slash]]
  | .power => [[.symbol .caret]]
  | .equal => [[.symbol .assign], [.symbol .equal], [.keyword .is]]
  | .notEqual => [[.symbol .notEqual], [.keyword .is, .keyword .not]]
  | .less => [[.symbol .less]]
  | .lessEqual => [[.symbol .lessEqual]]
  | .greater => [[.symbol .greater]]
  | .greaterEqual => [[.symbol .greaterEqual]]
  | .contains => [[.keyword .contains]]
  | .within => [[.keyword .within]]

/-- The tokens that write a unary operator. -/
def UnaryOperator.spellings : UnaryOperator → List Token
  | .negate => [.symbol .minus]
  | .not => [.symbol .bang, .keyword .not]

/-- `is` by itself stands neither before `not` nor before `between`. -/
def LoneIs (sign operand : List Lexeme) : Prop :=
  sign.map (·.token) = [.keyword .is] →
    ∀ next ∈ operand.head?, next.token ≠ .keyword .not ∧ next.token ≠ .name "between"

/-! ## Derivations -/

/-- A name and any number of properties. -/
inductive DerivesMember : List Lexeme → Expr → Prop
  | name (word : String) (position : Nat) :
    DerivesMember [⟨.name word, position⟩] (.name word position)
  | property {tokens : List Lexeme} {object : Expr} (property : String) (position after : Nat) :
    DerivesMember tokens object →
    DerivesMember (tokens ++ [⟨.symbol .dot, position⟩, ⟨.name property, after⟩])
      (.member object property position)

mutual

/-- The tokens are a phrase of the level, and this is its tree. -/
inductive Derives : Level → List Lexeme → Expr → Prop
  | number (value : Number) (position : Nat) :
    Derives .unary [⟨.number value, position⟩] (.number value position)
  | text (value : String) (position : Nat) :
    Derives .unary [⟨.text value, position⟩] (.text value position)
  | truth (value : Bool) (position : Nat) :
    Derives .unary [⟨.truth value, position⟩] (.truth value position)
  | member {tokens : List Lexeme} {tree : Expr} :
    DerivesMember tokens tree → Derives .unary tokens tree
  | group {tokens : List Lexeme} {inner : Expr} (position close : Nat) :
    Derives .or tokens inner →
    Derives .unary (⟨.symbol .openParen, position⟩ :: tokens ++ [⟨.symbol .closeParen, close⟩])
      (.group inner position)
  | emptyArray (position close : Nat) :
    Derives .unary [⟨.symbol .openBracket, position⟩, ⟨.symbol .closeBracket, close⟩]
      (.array [] position)
  | array {tokens : List Lexeme} {elements : List Expr} (position close : Nat) :
    DerivesAll tokens elements →
    Derives .unary
      (⟨.symbol .openBracket, position⟩ :: tokens ++ [⟨.symbol .closeBracket, close⟩])
      (.array elements position)
  | unary {operator : UnaryOperator} {sign : Lexeme} {tokens : List Lexeme} {operand : Expr} :
    sign.token ∈ operator.spellings → Derives .unary tokens operand →
    Derives .unary (sign :: tokens) (.unary operator operand sign.position)
  | power {before after : List Lexeme} {base exponent : Expr} (position : Nat) :
    Derives .unary before base → Derives .power after exponent →
    Derives .power (before ++ ⟨.symbol .caret, position⟩ :: after)
      (.binary .power base exponent position)
  | binary {level inner : Level} {operator : BinaryOperator} {sign : Lexeme}
    {more before after : List Lexeme} {left right : Expr} :
    operator ∈ level.operators → level.tighter? = some inner →
    (sign :: more).map (·.token) ∈ operator.spellings → LoneIs (sign :: more) after →
    Derives level before left → Derives inner after right →
    Derives level (before ++ sign :: more ++ after) (.binary operator left right sign.position)
  | between {before first second : List Lexeme} {subject lower upper : Expr}
    (position atBetween atAnd : Nat) :
    Derives .relational before subject → Derives .additive first lower →
    Derives .additive second upper →
    Derives .relational
      (before ++ ⟨.keyword .is, position⟩ :: ⟨.name "between", atBetween⟩ :: first ++
        ⟨.keyword .and, atAnd⟩ :: second)
      (.between subject lower upper position)
  | and {before after : List Lexeme} {left right : Expr} (position : Nat) :
    Derives .and before left → Derives .equality after right →
    Derives .and (before ++ ⟨.keyword .and, position⟩ :: after) (.logical .and left right position)
  | or {before after : List Lexeme} {left right : Expr} (position : Nat) :
    Derives .or before left → Derives .and after right →
    Derives .or (before ++ ⟨.keyword .or, position⟩ :: after) (.logical .or left right position)
  /-- A phrase of the next tighter level by itself. -/
  | operand {level inner : Level} {tokens : List Lexeme} {tree : Expr} :
    level.tighter? = some inner → Derives inner tokens tree → Derives level tokens tree

/-- One or more conditions with commas between them. -/
inductive DerivesAll : List Lexeme → List Expr → Prop
  | one {tokens : List Lexeme} {tree : Expr} : Derives .or tokens tree → DerivesAll tokens [tree]
  | more {first others : List Lexeme} {tree : Expr} {trees : List Expr} (position : Nat) :
    Derives .or first tree → DerivesAll others trees →
    DerivesAll (first ++ ⟨.symbol .comma, position⟩ :: others) (tree :: trees)

end

/-- A token list is a condition with the given tree. -/
def Sentence (tokens : List Lexeme) (tree : Expr) : Prop := Derives .or tokens tree

/-- An operator that one token writes, other than `is`, asks nothing of its right operand. -/
theorem Derives.binary_of_token {level inner : Level} {before after : List Lexeme}
    {left right : Expr} (operator : BinaryOperator) (sign : Lexeme)
    (hoperator : operator ∈ level.operators) (htighter : level.tighter? = some inner)
    (hspelled : [sign.token] ∈ operator.spellings) (his : sign.token ≠ .keyword .is)
    (hleft : Derives level before left) (hright : Derives inner after right) :
    Derives level (before ++ sign :: after) (.binary operator left right sign.position) := by
  have hspelled' : [sign].map (·.token) ∈ operator.spellings := hspelled
  have hlone : LoneIs [sign] after := fun heq => absurd (List.cons.inj heq).1 his
  simpa using Derives.binary hoperator htighter hspelled' hlone hleft hright

/-- What a reader takes for an operand of a level is a phrase of the level. -/
theorem Derives.of_operand {level : Level} {tokens : List Lexeme} {tree : Expr}
    (h : Derives level.operand tokens tree) : Derives level tokens tree := by
  by_cases hunary : level = .unary
  · -- the tightest level is its own operand
    subst hunary
    exact h
  · exact .operand (Level.tighter?_eq_some_iff.mpr ⟨hunary, rfl⟩) h

/-- What a reader joins by an operator is a phrase of the operator's level. -/
theorem Derives.joined {operator : BinaryOperator} {sign : Lexeme}
    {more before after : List Lexeme} {left right : Expr} (hpower : operator ≠ .power)
    (hspelled : (sign :: more).map (·.token) ∈ operator.spellings)
    (hlone : LoneIs (sign :: more) after) (hleft : Derives operator.level before left)
    (hright : Derives operator.level.operand after right) :
    Derives operator.level (before ++ sign :: more ++ after)
      (.binary operator left right sign.position) :=
  .binary (Level.mem_operators_iff.mpr ⟨hpower, rfl⟩)
    (Level.tighter?_eq_some_iff.mpr ⟨operator.level_ne_unary, rfl⟩) hspelled hlone hleft hright

theorem DerivesMember.exists_cons {tokens : List Lexeme} {tree : Expr}
    (h : DerivesMember tokens tree) :
    ∃ word position more, tokens = ⟨.name word, position⟩ :: more := by
  induction h with
  | name word position => exact ⟨word, position, [], rfl⟩
  | property _ _ _ _ ih =>
      obtain ⟨word, position, more, rfl⟩ := ih
      exact ⟨word, position, _, rfl⟩

/-- A phrase may start with the token: it is a leaf, an opening bracket or a unary operator. -/
def Token.opens : Token → Bool
  | number _ | text _ | truth _ | name _ => true
  | keyword word => word = .not
  | symbol sign => sign ∈ [.openParen, .openBracket, .minus, .bang]

theorem UnaryOperator.opens_of_mem {operator : UnaryOperator} {token : Token}
    (h : token ∈ operator.spellings) : token.opens = true := by
  have hall : ∀ token ∈ operator.spellings, token.opens = true := by cases operator <;> decide
  exact hall token h

mutual

/-- Every phrase has a first token, and that opens it. -/
theorem Derives.exists_cons {level : Level} {tokens : List Lexeme} {tree : Expr} :
    Derives level tokens tree →
      ∃ first more, tokens = first :: more ∧ first.token.opens = true
  | .number .. | .text .. | .truth .. | .group .. | .emptyArray .. | .array .. =>
    ⟨_, _, rfl, by simp [Token.opens]⟩
  | .member h => by
    obtain ⟨word, position, more, rfl⟩ := h.exists_cons
    exact ⟨_, more, rfl, rfl⟩
  | @Derives.unary operator sign tokens operand hsign _ =>
    ⟨sign, tokens, rfl, UnaryOperator.opens_of_mem hsign⟩
  | .power _ h _ | .binary _ _ _ _ h _ | .between _ _ _ h _ _ | .and _ h _ | .or _ h _ => by
    obtain ⟨first, more, rfl, hfirst⟩ := h.exists_cons
    exact ⟨first, _, rfl, hfirst⟩
  | .operand _ h => h.exists_cons

theorem DerivesAll.exists_cons {tokens : List Lexeme} {trees : List Expr} :
    DerivesAll tokens trees →
      ∃ first more, tokens = first :: more ∧ first.token.opens = true
  | .one h => h.exists_cons
  | .more _ h _ => by
    obtain ⟨first, more, rfl, hfirst⟩ := h.exists_cons
    exact ⟨first, _, rfl, hfirst⟩

end

theorem Derives.ne_nil {level : Level} {tokens : List Lexeme} {tree : Expr}
    (h : Derives level tokens tree) : tokens ≠ [] := by
  obtain ⟨first, more, rfl, -⟩ := h.exists_cons
  simp

end SurveyLogic
