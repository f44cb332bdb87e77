import SurveyLogic.Number.Numeral
import SurveyLogic.Value.Basic

/-!
# Equality of values

Loose equality is the equality of conditions.  Arrays are compared element by element and records
field by field; a missing value equals only another; all else is compared by what it stands for as a
single item.  There a truth value is the number one or zero, an array is the texts of its elements
joined by commas, and a number equals a text that reads as that number.  A record stands for nothing
but itself.

Strict equality never converts.
-/

namespace SurveyLogic

/-- What a value stands for next to a value of another kind. -/
inductive Scalar
  | number (value : Number)
  | text (value : String)

/-- Equality of a number and a text, the text read as a number. -/
def Number.matchesText (n : Number) (text : String) : Bool :=
  match Number.ofAnswer? text with
  | some read => read.equals n
  | none => false

def Scalar.equals : Scalar → Scalar → Bool
  | .number a, .number b => a.equals b
  | .number a, .text b => a.matchesText b
  | .text a, .number b => b.matchesText a
  | .text a, .text b => a == b

theorem Scalar.equals_comm (a b : Scalar) : a.equals b = b.equals a := by
  cases a <;> cases b <;> simp [equals, Number.equals_comm, Bool.beq_comm]

namespace Value

def scalar? : Value → Option Scalar
  | number value => some (.number value)
  | text value => some (.text value)
  | truth value => some (.number (if value then Number.one else Number.zero))
  | array items => some (.text (String.intercalate "," (toTexts items)))
  | record _ => none
  | missing => none

mutual

/-- Loose equality. -/
def looselyEquals : Value → Value → Bool
  | array items, array others => allLooselyEqual items others
  | record entries, record others =>
    entries.length == others.length && fieldsLooselyEqual entries others
  | missing, missing => true
  | a, b =>
    match a.scalar?, b.scalar? with
    | some x, some y => x.equals y
    | _, _ => false

def allLooselyEqual : List Value → List Value → Bool
  | [], [] => true
  | a :: as, b :: bs => looselyEquals a b && allLooselyEqual as bs
  | _, _ => false

/-- Whether every field has its equal among the others. -/
def fieldsLooselyEqual : List (String × Value) → List (String × Value) → Bool
  | [], _ => true
  | (name, a) :: entries, others =>
    (match Keyed.get? name others with
      | some b => looselyEquals a b
      | none => false) && fieldsLooselyEqual entries others

end

mutual

/-- Strict equality: the same kind and the same content. -/
def strictlyEquals : Value → Value → Bool
  | number a, number b => a.equals b
  | text a, text b => a == b
  | truth a, truth b => a == b
  | array items, array others => allStrictlyEqual items others
  | record entries, record others => fieldsStrictlyEqual entries others
  | missing, missing => true
  | _, _ => false

def allStrictlyEqual : List Value → List Value → Bool
  | [], [] => true
  | a :: as, b :: bs => strictlyEquals a b && allStrictlyEqual as bs
  | _, _ => false

def fieldsStrictlyEqual : List (String × Value) → List (String × Value) → Bool
  | [], [] => true
  | (name, a) :: entries, (other, b) :: others =>
    name == other && strictlyEquals a b && fieldsStrictlyEqual entries others
  | _, _ => false

end

end Value

end SurveyLogic
