import SurveyLogic.Keyed
import SurveyLogic.Number.Text

/-!
# Values

What an answer is and what a condition evaluates to.  A record holds its fields in ascending order
of their names; `Value.ofFields` makes one from fields in any order.  A missing value is what a
property of anything but a record is, and what a record has for a name that it does not hold.
-/

namespace SurveyLogic

inductive Value
  | number (value : Number)
  | text (value : String)
  | truth (value : Bool)
  | array (items : List Value)
  | record (entries : List (String × Value))
  | missing
deriving Inhabited

namespace Value

/-- A record with the given fields; of two with one name the later counts. -/
def ofFields (entries : List (String × Value)) : Value := .record (Keyed.ofList entries)

/-! ## Kinds -/

inductive Kind
  | number | text | truth | array | record | missing
deriving DecidableEq

def kind : Value → Kind
  | number _ => .number
  | text _ => .text
  | truth _ => .truth
  | array _ => .array
  | record _ => .record
  | missing => .missing

/-- How a message names a kind of value. -/
def Kind.name : Kind → String
  | .number => "number"
  | .text => "string"
  | .truth => "boolean"
  | .array => "array"
  | .record => "record"
  | .missing => "missing value"

/-- Whether a value counts as true in a condition. -/
def isTruthy : Value → Bool
  | number value => !value.isNaN && !value.equals Number.zero
  | text value => value ≠ ""
  | truth value => value
  | array _ | record _ => true
  | missing => false

/-- Whether a value counts as an answer that has not been given. -/
def isMissing : Value → Bool
  | missing => true
  | _ => false

/-! ## Fields -/

/-- The fields of a record; any other value has none. -/
def fields : Value → List (String × Value)
  | record entries => entries
  | _ => []

/-- The field with the given name. -/
def property (name : String) (value : Value) : Value :=
  (Keyed.get? name value.fields).getD missing

/-- Follows a path of field names. -/
def resolve (path : List String) (value : Value) : Value :=
  path.foldl (fun value name => value.property name) value

/-- Replaces what stands at the end of a path of field names.  Whatever is on the way and is no
record is replaced by a record. -/
def assign (path : List String) (value : Value) (old : Value) : Value :=
  match path with
  | [] => value
  | name :: path => record (Keyed.insert name (assign path value (old.property name)) old.fields)

/-! ## Text -/

mutual

/-- The text of a value, as it stands in a title. -/
def toText : Value → String
  | number value => value.toText
  | text value => value
  | truth value => if value then "true" else "false"
  | array items => String.intercalate ", " (toTexts items)
  | record entries => "\x7b" ++ String.intercalate ", " (fieldTexts entries) ++ "\x7d"
  | missing => ""

def toTexts : List Value → List String
  | [] => []
  | value :: values => value.toText :: toTexts values

def fieldTexts : List (String × Value) → List String
  | [] => []
  | (name, value) :: entries => (name ++ ": " ++ value.toText) :: fieldTexts entries

end

end Value

end SurveyLogic
