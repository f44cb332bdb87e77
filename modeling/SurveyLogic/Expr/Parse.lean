import SurveyLogic.Expr.Level
import SurveyLogic.Expr.Shape
import SurveyLogic.Reading
import SurveyLogic.SyntaxError

/-!
# Trees of token lists

A token list is read level by level, each level in terms of the next tighter one.  Trees are limited
to `Expr.maxHeight` levels: a tree is read with some room, which is the height it may have, and what
stands behind an operator or inside brackets is read with one less.  What an operand of a chain has
in height is known only when it has been read, so a node built around it is measured as well.

Reading with some room needs only reading with less, besides the tighter levels, so the definition
recurses over the room.  Each step hands on a rest that is shorter than the tokens it was given,
which bounds the loops over links, array elements and property names.
-/

namespace SurveyLogic

/-- Reads something from the front of a token list. -/
abbrev Reader (α : Type) := (tokens : List Lexeme) → Except SyntaxError (Reading α tokens)

/-- The height that no tree may exceed. -/
def Expr.maxHeight : Nat := 64

namespace Reader

/-- The token that has to come next. -/
def expect (expected : Token) : Reader Unit
  | [] => .error (.unexpectedEnd (.token expected))
  | ⟨token, position⟩ :: rest =>
    if token = expected then .ok (.first () _ rest)
    else .error (.unexpectedToken token (.token expected) position)

/-- Lets a node pass that fits into the room; `position` is that of its own token. -/
def fit (room : Nat) (tree : Expr) (position : Nat) : Except SyntaxError Expr :=
  if tree.height ≤ room then .ok tree else .error (.nestingTooDeep position)

/-- The reader of a level with less room, unless there is none left below the token at
`position`. -/
def descend (deeper : Option (Level → Reader Expr)) (level : Level) (position : Nat) :
    Reader Expr :=
  fun tokens =>
    match deeper with
    | none => .error (.nestingTooDeep position)
    | some read => read level tokens

/-! ## Names, arrays and groups -/

/-- The property access in front of the tokens, if there is a dot: the name, the position of the
dot, and the tokens after the name. -/
def property? : List Lexeme → Except SyntaxError (Option (String × Nat × List Lexeme))
  | ⟨.symbol .dot, position⟩ :: ⟨.name property, _⟩ :: rest => .ok (some (property, position, rest))
  | ⟨.symbol .dot, _⟩ :: ⟨token, position⟩ :: _ =>
    .error (.unexpectedToken token .propertyName position)
  | [⟨.symbol .dot, _⟩] => .error (.unexpectedEnd .propertyName)
  | _ => .ok none

/-- A property access takes a dot and a name. -/
theorem length_lt_of_property? {tokens rest : List Lexeme} {property : String} {position : Nat}
    (h : property? tokens = .ok (some (property, position, rest))) :
    rest.length < tokens.length := by
  unfold property? at h
  split at h
  · obtain ⟨rfl, rfl, rfl⟩ := by simpa using h
    simp only [List.length_cons]
    omega
  · simp at h
  · simp at h
  · simp at h

/-- Goes on with the property names of a member chain. -/
def members (room : Nat) {whole : List Lexeme} (object : Reading Expr whole) :
    Except SyntaxError (Reading Expr whole) :=
  match hproperty : property? object.rest with
  | .error error => .error error
  | .ok none => .ok object
  | .ok (some (property, position, rest)) => do
    have shorter := length_lt_of_property? hproperty
    let node ← fit room (.member object.result property position) position
    members room ⟨node, rest, Nat.lt_trans shorter object.shorter⟩
termination_by object.rest.length

/-- The elements of an array up to the closing bracket, at least one. -/
def elements (element : Reader Expr) (tokens : List Lexeme) :
    Except SyntaxError (Reading (List Expr) tokens) := do
  let first ← element tokens
  match hrest : first.rest with
  | [] => .error (.unexpectedEnd (.token (.symbol .closeBracket)))
  | ⟨.symbol .closeBracket, _⟩ :: rest =>
    .ok ⟨[first.result], rest, by have := first.shorter; simp_all; omega⟩
  | ⟨.symbol .comma, _⟩ :: rest =>
    have shorter : rest.length < tokens.length := by have := first.shorter; simp_all; omega
    let others ← elements element rest
    .ok (others.within (first.result :: others.result) (Nat.le_of_lt shorter))
  | ⟨token, position⟩ :: _ => .error (.unexpectedToken token .elementEnd position)
termination_by tokens.length

/-- A literal, a member chain, a group or an array. -/
def primary (room : Nat) (deeper : Option (Level → Reader Expr)) : Reader Expr
  | [] => .error (.unexpectedEnd .expression)
  | ⟨.number value, position⟩ :: rest => .ok (.first (.number value position) _ rest)
  | ⟨.text value, position⟩ :: rest => .ok (.first (.text value position) _ rest)
  | ⟨.truth value, position⟩ :: rest => .ok (.first (.truth value position) _ rest)
  | ⟨.name word, position⟩ :: rest =>
    members room (.first (.name word position) _ rest)
  | ⟨.symbol .openParen, position⟩ :: tokens => do
    let inner ← descend deeper .or position tokens
    let close ← expect (.symbol .closeParen) inner.rest
    .ok ⟨.group inner.result position, close.rest,
      Nat.lt_succ_of_lt (Nat.lt_trans close.shorter inner.shorter)⟩
  | ⟨.symbol .openBracket, position⟩ :: tokens =>
    match deeper, tokens with
    -- an empty array, too, needs room below its bracket
    | none, _ => .error (.nestingTooDeep position)
    | some _, ⟨.symbol .closeBracket, _⟩ :: rest =>
      .ok ⟨.array [] position, rest, by simp only [List.length_cons]; omega⟩
    | some read, tokens => do
      let inner ← elements (read .or) tokens
      .ok (inner.within (.array inner.result position) (Nat.le_succ _))
  | ⟨token, position⟩ :: _ => .error (.unexpectedToken token .expression position)

/-! ## Prefix operators and powers -/

/-- The unary operator that a token writes. -/
def unaryOperator? : Token → Option UnaryOperator
  | .symbol .minus => some .negate
  | .symbol .bang | .keyword .not => some .not
  | _ => none

def unary (room : Nat) (deeper : Option (Level → Reader Expr)) : Reader Expr
  | [] => primary room deeper []
  | ⟨token, position⟩ :: tokens =>
    match unaryOperator? token with
    | some operator => do
      let operand ← descend deeper .unary position tokens
      .ok (operand.within (.unary operator operand.result position) (Nat.le_succ _))
    | none => primary room deeper (⟨token, position⟩ :: tokens)

/-- Powers group from the right. -/
def power (room : Nat) (deeper : Option (Level → Reader Expr)) : Reader Expr :=
  fun tokens => do
    let base ← unary room deeper tokens
    match hrest : base.rest with
    | ⟨.symbol .caret, position⟩ :: rest =>
      have shorter : rest.length ≤ tokens.length := by have := base.shorter; simp_all; omega
      let exponent ← descend deeper .power position rest
      -- the base was read with the whole room, so the node around it may be too high
      let node ← fit room (.binary .power base.result exponent.result position) position
      .ok (exponent.within node shorter)
    | _ => .ok base

/-! ## Chains -/

/-- What a link asks for: one more operand, or the two bounds of a range test.  The node joins it to
what stands on the left. -/
def linked (link : Link) (operand : Reader Expr) (left : Expr) (position : Nat) : Reader Expr :=
  fun tokens => do
    let first ← operand tokens
    match link with
    | .logical operator =>
      .ok (first.within (.logical operator left first.result position) (Nat.le_refl _))
    | .binary operator =>
      .ok (first.within (.binary operator left first.result position) (Nat.le_refl _))
    | .range =>
      let and ← expect (.keyword .and) first.rest
      let upper ← operand and.rest
      .ok (upper.within (.between left first.result upper.result position)
        (Nat.le_of_lt (Nat.lt_trans and.shorter first.shorter)))

/-- Goes on with the links of a chain. -/
def links (level : Level) (room : Nat) (deeper : Option (Level → Reader Expr))
    {whole : List Lexeme} (left : Reading Expr whole) : Except SyntaxError (Reading Expr whole) :=
  match hlink : level.link? left.rest with
  | none => .ok left
  | some (link, position, tokens) => do
    have shorter := Level.length_lt_of_link? hlink
    let joined ← linked link (descend deeper level.operand position) left.result position tokens
    let node ← fit room joined.result position
    have := joined.shorter
    links level room deeper
      (joined.within node (Nat.le_of_lt (Nat.lt_trans shorter left.shorter)))
termination_by left.rest.length
decreasing_by
  simp only [Reading.within]
  omega

/-- A chain: an operand of the next level, then links. -/
def chain (level : Level) (room : Nat) (deeper : Option (Level → Reader Expr))
    (operand : Reader Expr) : Reader Expr :=
  fun tokens => do links level room deeper (← operand tokens)

/-! ## All levels -/

/-- The reader of a level, from the readers with less room. -/
def ofLevel (room : Nat) (deeper : Option (Level → Reader Expr)) (level : Level) : Reader Expr :=
  match level with
  | .unary => unary room deeper
  | .power => power room deeper
  | .multiplicative =>
    chain .multiplicative room deeper (ofLevel room deeper .power)
  | .additive => chain .additive room deeper (ofLevel room deeper .multiplicative)
  | .relational => chain .relational room deeper (ofLevel room deeper .additive)
  | .equality => chain .equality room deeper (ofLevel room deeper .relational)
  | .and => chain .and room deeper (ofLevel room deeper .equality)
  | .or => chain .or room deeper (ofLevel room deeper .and)
termination_by level.looseness
decreasing_by all_goals decide

/-- The reader of a level for trees that fit into the given room. -/
def withRoom : (room : Nat) → Level → Reader Expr
  | 0 => ofLevel 0 none
  | 1 => ofLevel 1 none
  | room + 2 => ofLevel (room + 2) (some (withRoom (room + 1)))

end Reader

/-! ## Conditions and bindings -/

namespace Expr

/-- Nothing may follow. -/
def finish {whole : List Lexeme} (reading : Reading Expr whole) : Except SyntaxError Expr :=
  match reading.rest with
  | [] => .ok reading.result
  | ⟨token, position⟩ :: _ => .error (.trailingTokens token position)

/-- The tree of a condition. -/
def parse (tokens : List Lexeme) : Except SyntaxError Expr := do
  finish (← Reader.withRoom maxHeight .or tokens)

/-- An assignment; the target has to be a name or a member chain. -/
def assignment (target value : Expr) (position : Nat) : Except SyntaxError Expr :=
  if target.path?.isSome then .ok (.assign target value position)
  else .error (.invalidAssignmentTarget target.position)

/-- Whether a member chain is followed by a single `=`: its position and the tokens after it.  The
tokens are those behind the first name. -/
def assignSign? : List Lexeme → Option (Nat × List Lexeme)
  | ⟨.symbol .dot, _⟩ :: ⟨.name _, _⟩ :: tokens => assignSign? tokens
  | ⟨.symbol .assign, position⟩ :: tokens => some (position, tokens)
  | _ => none

/-- The tree of a binding: an assignment to a leading member chain, or a condition. -/
def parseBinding : List Lexeme → Except SyntaxError Expr
  | ⟨.name word, start⟩ :: tokens =>
    match assignSign? tokens with
    | some (position, rest) => do
      -- target and value stand one level below the assignment
      let target : Reading Expr (⟨.name word, start⟩ :: tokens) ←
        Reader.members (maxHeight - 1) (.first (.name word start) _ tokens)
      let value ← Reader.withRoom (maxHeight - 1) .or rest
      finish (value.within (← assignment target.result value.result position) (Nat.le_refl _))
    | none => parse (⟨.name word, start⟩ :: tokens)
  | tokens => parse tokens

end Expr

end SurveyLogic
