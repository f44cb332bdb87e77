import SurveyLogic.Number.Decimal
import SurveyLogic.Text.Blank
import SurveyLogic.Text.Name

/-!
# Reading numbers

Two grammars write numbers.  A numeral of the condition language is `digits` or `digits.digits`.
The text of an answer may in addition have a sign, leave out the digits on one side of the point,
have an exponent, or name infinity or NaN; `Number.ofText?` reads that grammar, and
`Number.ofAnswer?` is the reading used wherever a text meets a number.
-/

namespace SurveyLogic

/-! ## Digits -/

def digitValue (c : Char) : Nat := c.toNat - '0'.toNat

/-- The value of a run of decimal digits. -/
def digitsValue (digits : List Char) : Nat :=
  digits.foldl (fun value c => 10 * value + digitValue c) 0

/-- The decimal written `whole.fraction`, times a power of ten. -/
def Decimal.ofDigits (whole fraction : List Char) (exponent : Int) : Decimal :=
  ⟨digitsValue (whole ++ fraction), exponent - fraction.length⟩

namespace Number

/-- The number written `whole.fraction`. -/
def ofNumeral (whole fraction : List Char) : Number :=
  (Decimal.ofDigits whole fraction 0).nearest false

/-! ## Numbers in answers -/

/-- An optional sign in front: whether it is a minus, and what follows it. -/
def splitSign : List Char → Bool × List Char
  | '-' :: cs => (true, cs)
  | '+' :: cs => (false, cs)
  | cs => (false, cs)

/-- Nothing, or `e` and a whole number up to the end. -/
def exponent? : List Char → Option Int
  | [] => some 0
  | c :: cs =>
    if c = 'e' || c = 'E' then
      let (negative, digits) := splitSign cs
      if digits ≠ [] ∧ digits.all Text.isDigit then
        some (if negative then -(digitsValue digits : Int) else digitsValue digits)
      else none
    else none

/-- Digits with an optional point, a digit on one side of it at least, and an optional exponent. -/
def unsigned? (cs : List Char) : Option Decimal :=
  let whole := cs.takeWhile Text.isDigit
  let rest := cs.dropWhile Text.isDigit
  let (fraction, rest) : List Char × List Char :=
    match rest with
    | '.' :: rest => (rest.takeWhile Text.isDigit, rest.dropWhile Text.isDigit)
    | rest => ([], rest)
  if whole = [] ∧ fraction = [] then none
  else (exponent? rest).map (Decimal.ofDigits whole fraction)

/-- Reads a number that fills the whole text. -/
def ofText? (text : String) : Option Number :=
  let (negative, cs) := splitSign text.toList
  match unsigned? cs with
  | some decimal => some (decimal.nearest negative)
  | none =>
    let word := String.ofList (cs.map Char.toLower)
    if word = "inf" ∨ word = "infinity" then some (infinity negative)
    else if word = "nan" then some (nan negative)
    else none

/-- The number that a text stands for: blanks around it do not count, a blank text is zero, and
infinity and NaN have no name. -/
def ofAnswer? (text : String) : Option Number :=
  let trimmed := Text.trim text
  if trimmed = "" then some zero else (ofText? trimmed).filter isFinite

end Number

end SurveyLogic
