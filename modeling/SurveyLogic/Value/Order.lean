import SurveyLogic.RuntimeError
import SurveyLogic.Value.Equality

/-!
# Order of values

Numbers are ordered as numbers and texts by their characters.  Between a number and a text, the text
is read as a number.  A missing value has no place in the order, nor has a NaN; all other pairs
cannot be ordered, and to ask for their order is an error.
-/

namespace SurveyLogic

namespace Value

/-- The order of two values, `none` where there is none. -/
def order (left right : Value) (position : Nat) : Except RuntimeError (Option Ordering) :=
  match left, right with
  | missing, _ => .ok none
  | _, missing => .ok none
  | number a, number b => .ok (a.compare? b)
  | text a, text b => .ok (some (compare a b))
  | number a, text s =>
    match Number.ofAnswer? s with
    | some b => .ok (a.compare? b)
    | none => .error (.kindMismatch (.ordering left.kind right.kind) position)
  | text s, number b =>
    match Number.ofAnswer? s with
    | some a => .ok (a.compare? b)
    | none => .error (.kindMismatch (.ordering left.kind right.kind) position)
  | _, _ => .error (.kindMismatch (.ordering left.kind right.kind) position)

end Value

end SurveyLogic
