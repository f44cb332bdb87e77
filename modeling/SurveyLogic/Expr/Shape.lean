import SurveyLogic.Expr.Basic
import SurveyLogic.Names

/-!
# Measures and comparisons of trees

* `Expr.height` counts the levels of a tree, leaves included.
* `Expr.roots` are the names that evaluating a tree can read.
* `Expr.sameStructure` compares trees and leaves their positions out; `Expr.same` takes the
  positions in, and compares numbers as numbers.
-/

namespace SurveyLogic

namespace Expr

/-! ## Height -/

mutual

/-- The number of levels; an empty array has one, like a leaf. -/
def height : Expr → Nat
  | number _ _ | text _ _ | truth _ _ | name _ _ => 1
  | member object _ _ => object.height + 1
  | array elements _ => heightOfAll elements + 1
  | unary _ operand _ => operand.height + 1
  | binary _ left right _ => max left.height right.height + 1
  | logical _ left right _ => max left.height right.height + 1
  | group inner _ => inner.height + 1
  | assign target value _ => max target.height value.height + 1
  | between subject lower upper _ =>
    max subject.height (max lower.height upper.height) + 1

def heightOfAll : List Expr → Nat
  | [] => 0
  | tree :: trees => max tree.height (heightOfAll trees)

end

theorem height_pos (tree : Expr) : 0 < tree.height := by
  cases tree <;> simp [height]

/-! ## Roots -/

mutual

/-- The names in a tree from left to right, apart from the targets of assignments, which are
written and not read. -/
def namesRead : Expr → List String
  | number _ _ | text _ _ | truth _ _ => []
  | name word _ => [word]
  | member object _ _ => object.namesRead
  | array elements _ => namesReadByAll elements
  | unary _ operand _ => operand.namesRead
  | binary _ left right _ => left.namesRead ++ right.namesRead
  | logical _ left right _ => left.namesRead ++ right.namesRead
  | group inner _ => inner.namesRead
  | assign _ value _ => value.namesRead
  | between subject lower upper _ => subject.namesRead ++ (lower.namesRead ++ upper.namesRead)

def namesReadByAll : List Expr → List String
  | [] => []
  | tree :: trees => tree.namesRead ++ namesReadByAll trees

end

/-- The set of names that a tree reads. -/
def roots (tree : Expr) : Names := Names.ofList tree.namesRead

/-! ## Comparison -/

section Comparison

variable (sameNumber : Number → Number → Bool) (samePosition : Nat → Nat → Bool)

mutual

/-- Whether two trees agree node by node, for a given comparison of numbers and of positions. -/
def agrees : Expr → Expr → Bool
  | number a p, number b q => sameNumber a b && samePosition p q
  | text a p, text b q => a == b && samePosition p q
  | truth a p, truth b q => a == b && samePosition p q
  | name a p, name b q => a == b && samePosition p q
  | member a property p, member b property' q =>
    property == property' && agrees a b && samePosition p q
  | array as p, array bs q => allAgree as bs && samePosition p q
  | unary operator a p, unary operator' b q =>
    operator == operator' && agrees a b && samePosition p q
  | binary operator a₁ a₂ p, binary operator' b₁ b₂ q =>
    operator == operator' && agrees a₁ b₁ && agrees a₂ b₂ && samePosition p q
  | logical operator a₁ a₂ p, logical operator' b₁ b₂ q =>
    operator == operator' && agrees a₁ b₁ && agrees a₂ b₂ && samePosition p q
  | group a p, group b q => agrees a b && samePosition p q
  | assign a₁ a₂ p, assign b₁ b₂ q => agrees a₁ b₁ && agrees a₂ b₂ && samePosition p q
  | between a₁ a₂ a₃ p, between b₁ b₂ b₃ q =>
    agrees a₁ b₁ && agrees a₂ b₂ && agrees a₃ b₃ && samePosition p q
  | _, _ => false

def allAgree : List Expr → List Expr → Bool
  | [], [] => true
  | a :: as, b :: bs => agrees a b && allAgree as bs
  | _, _ => false

end

end Comparison

/-- Equal up to positions, numbers bit for bit. -/
def sameStructure : Expr → Expr → Bool := agrees (· == ·) fun _ _ => true

/-- Equal with positions, numbers by numeric equality. -/
def same : Expr → Expr → Bool := agrees Number.equals (· == ·)

end Expr

end SurveyLogic
