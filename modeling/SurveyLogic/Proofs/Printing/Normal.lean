import SurveyLogic.Expr.Parse
import SurveyLogic.Proofs.Grammar.Link
import SurveyLogic.Proofs.Grammar.Room
import SurveyLogic.Token.Scan

/-!
# Trees in normal form

A tree is written out without parentheses of its own, so it can be read back only if every operand
sits at a level that its place allows, if names and texts can be written, and if no number has a
sign.  These trees are the writable ones (`Expr.writableRoot`).  A writable tree is in normal form
if its numbers are finite and it is not too high (`Expr.NormalForm`).

Trees are compared up to positions by removing these (`Expr.bare`, `Expr.sameStructure_iff`).  A
writable tree may hold infinity, which is written as the word `inf`; what such a tree is read back
as is `Expr.reread`.
-/

namespace SurveyLogic

/-! ## Levels of trees -/

def LogicalOperator.level : LogicalOperator → Level
  | .or => .or
  | .and => .and

/-- The level of the operand in front of the operator. -/
def BinaryOperator.leftLevel (operator : BinaryOperator) : Level :=
  if operator = .power then .unary else operator.level

/-- The level of the operand behind the operator; only powers group from the right. -/
def BinaryOperator.rightLevel (operator : BinaryOperator) : Level :=
  if operator = .power then .power else operator.level.operand

/-- The tightest level at which a tree is a phrase. -/
def Expr.level : Expr → Level
  | binary operator _ _ _ => operator.level
  | logical operator _ _ _ => operator.level
  | between _ _ _ _ => .relational
  | _ => .unary

/-- Whether a tree may stand where a phrase of the level is expected. -/
def Expr.sitsAt (tree : Expr) (level : Level) : Bool := decide (tree.level.Within level)

/-! ## Writable trees -/

/-- Whether a token that carries a value can be written: a number has no sign, a text leaves one of
the quotes free, a name is not reserved. -/
def Token.writable : Token → Bool
  | number value => !value.isNaN && !value.isNegative
  | text value => !(value.toList.contains '"' && value.toList.contains '\'')
  | name word => Text.isName word.toList && decide (Token.ofWord word = .name word)
  | truth _ | keyword _ | symbol _ => true

namespace Expr

mutual

/-- Whether a condition can be written and read back node by node. -/
def writable : Expr → Bool
  | number value _ => (Token.number value).writable
  | text value _ => (Token.text value).writable
  | truth _ _ => true
  | name word _ => (Token.name word).writable
  | member object property _ =>
    object.path?.isSome && object.writable && (Token.name property).writable
  | array elements _ => allWritable elements
  | unary _ operand _ => operand.sitsAt .unary && operand.writable
  | binary operator left right _ =>
    left.sitsAt operator.leftLevel && right.sitsAt operator.rightLevel &&
      left.writable && right.writable
  | logical operator left right _ =>
    left.sitsAt operator.level && right.sitsAt operator.level.operand &&
      left.writable && right.writable
  | group inner _ => inner.writable
  | assign _ _ _ => false
  | between subject lower upper _ =>
    subject.sitsAt .relational && lower.sitsAt .additive && upper.sitsAt .additive &&
      subject.writable && lower.writable && upper.writable

def allWritable : List Expr → Bool
  | [] => true
  | tree :: trees => tree.writable && allWritable trees

end

/-- Whether a binding can be written and read back: an assignment stands at the root only, and its
target is a member chain. -/
def writableRoot : Expr → Bool
  | assign target value _ => target.path?.isSome && target.writable && value.writable
  | tree => tree.writable

mutual

/-- Whether every number in the tree is finite. -/
def numbersFinite : Expr → Bool
  | number value _ => value.isFinite
  | text _ _ | truth _ _ | name _ _ => true
  | member object _ _ => object.numbersFinite
  | array elements _ => allNumbersFinite elements
  | unary _ operand _ => operand.numbersFinite
  | binary _ left right _ | logical _ left right _ | assign left right _ =>
    left.numbersFinite && right.numbersFinite
  | group inner _ => inner.numbersFinite
  | between subject lower upper _ =>
    subject.numbersFinite && lower.numbersFinite && upper.numbersFinite

def allNumbersFinite : List Expr → Bool
  | [] => true
  | tree :: trees => tree.numbersFinite && allNumbersFinite trees

end

/-- Operands at their levels, an assignment at most at the root, names and texts that can be
written, finite numbers without a sign, and one level less than the greatest height, or just that
height if no array is empty. -/
structure NormalForm (tree : Expr) : Prop where
  writable : tree.writableRoot = true
  finite : tree.numbersFinite = true
  fits : tree.height < maxHeight ∨ tree.height = maxHeight ∧ tree.NoEmptyArray

/-! ## Relabelled trees -/

section Relabel

variable (leaf : Number → Nat → Expr) (place : Nat → Nat)

mutual

/-- The tree with other trees for its numbers, and other positions. -/
def relabel : Expr → Expr
  | number value position => leaf value (place position)
  | text value position => text value (place position)
  | truth value position => truth value (place position)
  | name word position => name word (place position)
  | member object property position => member object.relabel property (place position)
  | array elements position => array (relabelAll elements) (place position)
  | unary operator operand position => unary operator operand.relabel (place position)
  | binary operator left right position =>
    binary operator left.relabel right.relabel (place position)
  | logical operator left right position =>
    logical operator left.relabel right.relabel (place position)
  | group inner position => group inner.relabel (place position)
  | assign target value position => assign target.relabel value.relabel (place position)
  | between subject lower upper position =>
    between subject.relabel lower.relabel upper.relabel (place position)

def relabelAll : List Expr → List Expr
  | [] => []
  | tree :: trees => tree.relabel :: relabelAll trees

end

end Relabel

/-- The tree with all its positions set to zero. -/
def bare : Expr → Expr := relabel number fun _ => 0

/-- What a number is read back as: infinity is written as a word and read as a name. -/
def rereadNumber (value : Number) (position : Nat) : Expr :=
  if value.isFinite then number value position else name "inf" position

/-- What a tree is read back as. -/
def reread : Expr → Expr := relabel rereadNumber id

variable {leaf : Number → Nat → Expr} {place : Nat → Nat}

mutual

theorem height_relabel (hleaf : ∀ value position, (leaf value position).height = 1) :
    ∀ tree : Expr, (tree.relabel leaf place).height = tree.height
  | number value position => hleaf value (place position)
  | text _ _ | truth _ _ | name _ _ => rfl
  | member object _ _ | unary _ object _ | group object _ => by
    simp only [relabel, height, height_relabel hleaf object]
  | array elements _ => by
    simp only [relabel, height, heightOfAll_relabelAll hleaf elements]
  | binary _ left right _ | logical _ left right _ | assign left right _ => by
    simp only [relabel, height, height_relabel hleaf left, height_relabel hleaf right]
  | between subject lower upper _ => by
    simp only [relabel, height, height_relabel hleaf subject, height_relabel hleaf lower,
      height_relabel hleaf upper]

theorem heightOfAll_relabelAll (hleaf : ∀ value position, (leaf value position).height = 1) :
    ∀ trees : List Expr, heightOfAll (relabelAll leaf place trees) = heightOfAll trees
  | [] => rfl
  | tree :: trees => by
    simp only [relabelAll, heightOfAll, height_relabel hleaf tree,
      heightOfAll_relabelAll hleaf trees]

end

mutual

/-- Relabelling changes nothing about the room, as long as numbers become leaves. -/
theorem roomNeeded_relabel (hleaf : ∀ value position, (leaf value position).height = 1)
    (hroom : ∀ value position, (leaf value position).roomNeeded = 1) :
    ∀ tree : Expr, (tree.relabel leaf place).roomNeeded = tree.roomNeeded
  | number value position => hroom value (place position)
  | text _ _ | truth _ _ | name _ _ => rfl
  | member object _ _ => by
    simp only [relabel, roomNeeded, roomNeeded_relabel hleaf hroom object,
      height_relabel hleaf object]
  | unary _ operand _ | group operand _ => by
    simp only [relabel, roomNeeded, roomNeeded_relabel hleaf hroom operand]
  | array elements _ => by
    simp only [relabel, roomNeeded, roomNeededByAll_relabelAll hleaf hroom elements]
  | binary _ left right _ | logical _ left right _ | assign left right _ => by
    simp only [relabel, roomNeeded, roomNeeded_relabel hleaf hroom left,
      roomNeeded_relabel hleaf hroom right, height_relabel hleaf left]
  | between subject lower upper _ => by
    simp only [relabel, roomNeeded, roomNeeded_relabel hleaf hroom subject,
      roomNeeded_relabel hleaf hroom lower, roomNeeded_relabel hleaf hroom upper,
      height_relabel hleaf subject]

theorem roomNeededByAll_relabelAll (hleaf : ∀ value position, (leaf value position).height = 1)
    (hroom : ∀ value position, (leaf value position).roomNeeded = 1) :
    ∀ trees : List Expr, roomNeededByAll (relabelAll leaf place trees) = roomNeededByAll trees
  | [] => rfl
  | tree :: trees => by
    simp only [relabelAll, roomNeededByAll, roomNeeded_relabel hleaf hroom tree,
      roomNeededByAll_relabelAll hleaf hroom trees]

end

theorem roomNeeded_bare (tree : Expr) : tree.bare.roomNeeded = tree.roomNeeded :=
  roomNeeded_relabel (fun _ _ => rfl) (fun _ _ => rfl) tree

theorem roomNeeded_reread (tree : Expr) : tree.reread.roomNeeded = tree.roomNeeded := by
  -- a name is a leaf like the number that it stands for
  refine roomNeeded_relabel (fun value position => ?_) (fun value position => ?_) tree
  · unfold rereadNumber
    split <;> rfl
  · unfold rereadNumber
    split <;> rfl

/-! ## Trees without positions -/

mutual

/-- Two trees agree up to positions when they are the same without positions. -/
theorem sameStructure_iff : ∀ a b : Expr, a.sameStructure b = true ↔ a.bare = b.bare
  | number _ _, b | text _ _, b | truth _ _, b | name _ _, b => by
    cases b <;> simp [sameStructure, agrees, bare, relabel]
  | member object _ _, b => by
    have ih := sameStructure_iff object
    simp only [sameStructure] at ih
    cases b <;> simp [sameStructure, agrees, bare, relabel, ih, and_comm]
  | array elements _, b => by
    have ih := allAgree_iff elements
    cases b <;> simp [sameStructure, agrees, bare, relabel, ih]
  | unary _ operand _, b | group operand _, b => by
    have ih := sameStructure_iff operand
    simp only [sameStructure] at ih
    cases b <;> simp [sameStructure, agrees, bare, relabel, ih]
  | binary _ left right _, b | logical _ left right _, b | assign left right _, b => by
    have ihLeft := sameStructure_iff left
    have ihRight := sameStructure_iff right
    simp only [sameStructure] at ihLeft ihRight
    cases b <;> simp [sameStructure, agrees, bare, relabel, ihLeft, ihRight, and_assoc]
  | between subject lower upper _, b => by
    have ihSubject := sameStructure_iff subject
    have ihLower := sameStructure_iff lower
    have ihUpper := sameStructure_iff upper
    simp only [sameStructure] at ihSubject ihLower ihUpper
    cases b <;> simp [sameStructure, agrees, bare, relabel, ihSubject, ihLower, ihUpper, and_assoc]

theorem allAgree_iff : ∀ as bs : List Expr,
    allAgree (· == ·) (fun _ _ => true) as bs = true ↔
      relabelAll number (fun _ => 0) as = relabelAll number (fun _ => 0) bs
  | [], bs => by
    cases bs <;> simp [allAgree, relabelAll]
  | a :: as, bs => by
    have ih := sameStructure_iff a
    have ihs := allAgree_iff as
    simp only [sameStructure, bare] at ih
    cases bs <;> simp [allAgree, relabelAll, ih, ihs]

end

mutual

/-- A tree is read back as itself, up to positions, when its numbers are finite. -/
theorem bare_reread_iff : ∀ tree : Expr, tree.reread.bare = tree.bare ↔ tree.numbersFinite = true
  | number value _ => by
    unfold reread bare
    cases hfinite : value.isFinite <;>
      simp [relabel, rereadNumber, numbersFinite, hfinite]
  | text _ _ | truth _ _ | name _ _ => by
    simp [reread, bare, relabel, numbersFinite]
  | member object _ _ | unary _ object _ | group object _ => by
    have ih := bare_reread_iff object
    unfold reread bare at ih ⊢
    simpa [relabel, numbersFinite] using ih
  | array elements _ => by
    have ih := relabelAll_reread_iff elements
    unfold reread bare
    simpa [relabel, numbersFinite] using ih
  | binary _ left right _ | logical _ left right _ | assign left right _ => by
    have ihLeft := bare_reread_iff left
    have ihRight := bare_reread_iff right
    unfold reread bare at ihLeft ihRight ⊢
    simp [relabel, numbersFinite, ihLeft, ihRight]
  | between subject lower upper _ => by
    have ihSubject := bare_reread_iff subject
    have ihLower := bare_reread_iff lower
    have ihUpper := bare_reread_iff upper
    unfold reread bare at ihSubject ihLower ihUpper ⊢
    simp [relabel, numbersFinite, ihSubject, ihLower, ihUpper, and_assoc]

theorem relabelAll_reread_iff : ∀ trees : List Expr,
    relabelAll number (fun _ => 0) (relabelAll rereadNumber id trees) =
      relabelAll number (fun _ => 0) trees ↔ allNumbersFinite trees = true
  | [] => by
    simp [relabelAll, allNumbersFinite]
  | tree :: trees => by
    have ih := bare_reread_iff tree
    have ihs := relabelAll_reread_iff trees
    unfold reread bare at ih
    simp [relabelAll, allNumbersFinite, ih, ihs]

end

end Expr

end SurveyLogic
