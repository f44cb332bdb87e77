import SurveyLogic.Number.Shortest

/-!
# The text of a number

A finite number is written as its shortest decimal in plain positional notation, whatever its size:
no exponent, and a point only in front of digits.
-/

namespace SurveyLogic

/-- Positional notation: digits, then zeros or a point as the exponent asks. -/
def Decimal.toText (decimal : Decimal) : String :=
  let digits := Nat.toDigits 10 decimal.coefficient
  match decimal.exponent with
  | .ofNat exponent => String.ofList (digits ++ List.replicate exponent '0')
  | .negSucc exponent =>
    let places := exponent + 1
    let padded := List.replicate (places + 1 - digits.length) '0' ++ digits
    let whole := padded.length - places
    String.ofList (padded.take whole ++ '.' :: padded.drop whole)

/-- The sign is written for every negative number, the negative zero included; a NaN has none. -/
def Number.toText (n : Number) : String :=
  if n.isNaN then "NaN"
  else
    let unsigned := if n.isFinite then (Number.shortest n.magnitude).toText else "inf"
    if n.isNegative then "-" ++ unsigned else unsigned

end SurveyLogic
