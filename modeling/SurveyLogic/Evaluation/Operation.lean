import SurveyLogic.Value.Order

/-!
# Operators applied to values

Each family of operators has its own rule; `BinaryOperator.apply` picks the rule of an operator's
family.
-/

namespace SurveyLogic

namespace BinaryOperator

/-- Arithmetic takes numbers only. -/
def applyArithmetic (operator : BinaryOperator) (left right : Value) (position : Nat) :
    Except RuntimeError Value :=
  match left, right with
  | .number a, .number b =>
    match operator with
    | add => .ok (.number (a.add b))
    | subtract => .ok (.number (a.subtract b))
    | multiply => .ok (.number (a.multiply b))
    | divide =>
      if b.equals Number.zero then .error (.divisionByZero position)
      else .ok (.number (a.divide b))
    | power => .ok (.number (a.power b))
    | other => .error (.unsupportedOperator other position)
  | left, right => .error (.kindMismatch (.arithmetic operator left.kind right.kind) position)

/-- The orderings for which an ordering operator holds. -/
def admits? : BinaryOperator → Option (Ordering → Bool)
  | less => some Ordering.isLT
  | lessEqual => some Ordering.isLE
  | greater => some Ordering.isGT
  | greaterEqual => some Ordering.isGE
  | _ => none

/-- Values without an order are in none of the four relations. -/
def applyOrdering (operator : BinaryOperator) (left right : Value) (position : Nat) :
    Except RuntimeError Value := do
  match ← left.order right position with
  | none => .ok (.truth false)
  | some ordering =>
    match operator.admits? with
    | some admits => .ok (.truth (admits ordering))
    | none => .error (.unsupportedOperator operator position)

def applyEquality (operator : BinaryOperator) (left right : Value) : Value :=
  let equal := left.looselyEquals right
  .truth (if operator = notEqual then !equal else equal)

/-- Whether an array has an element loosely equal to an item; nothing is in any other value. -/
def applyMembership (operator : BinaryOperator) (left right : Value) : Value :=
  let (collection, item) := if operator = within then (right, left) else (left, right)
  match collection with
  | .array items => .truth (items.any (·.looselyEquals item))
  | _ => .truth false

def apply (operator : BinaryOperator) (left right : Value) (position : Nat) :
    Except RuntimeError Value :=
  match operator with
  | add | subtract | multiply | divide | power => operator.applyArithmetic left right position
  | equal | notEqual => .ok (operator.applyEquality left right)
  | less | lessEqual | greater | greaterEqual => operator.applyOrdering left right position
  | contains | within => .ok (operator.applyMembership left right)

end BinaryOperator

/-- The number that a value is. -/
def Value.asNumber (value : Value) (position : Nat) : Except RuntimeError Number :=
  match value with
  | .number n => .ok n
  | _ => .error (.kindMismatch (.notANumber value.kind) position)

def UnaryOperator.apply (operator : UnaryOperator) (value : Value) (position : Nat) :
    Except RuntimeError Value :=
  match operator with
  | .negate => do .ok (.number (← value.asNumber position).negate)
  | .not => .ok (.truth (!value.isTruthy))

/-- The range test, bounds included.  The upper bound is looked at only if the lower one holds. -/
def Value.isBetween (subject lower upper : Value) (position : Nat) : Except RuntimeError Value := do
  let above ← BinaryOperator.lessEqual.applyOrdering lower subject position
  if above.isTruthy then BinaryOperator.lessEqual.applyOrdering subject upper position
  else .ok (.truth false)

end SurveyLogic
