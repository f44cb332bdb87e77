import SurveyLogic.Number.Basic

/-!
# Decimals and the numbers nearest to them

A decimal is a whole coefficient times a power of ten.  `Decimal.nearest` reads one as the number
nearest to it, a tie going to the even neighbour, in exact natural arithmetic.

Magnitudes count units of `2 ^ -1074`, the smallest positive number.  Below `2 ^ 53` units every
whole count is a number and the bits are the count itself.  Above, a number is
`significand * 2 ^ shift` units with `2 ^ 52 ≤ significand < 2 ^ 53`, and its bits are
`shift * 2 ^ 52 + significand`.  So one formula serves both cases, and a significand that rounds up
to `2 ^ 53` carries into the next shift by itself.
-/

namespace SurveyLogic

/-- The value `coefficient * 10 ^ exponent`. -/
structure Decimal where
  coefficient : Nat
  exponent : Int
deriving DecidableEq, Inhabited

namespace Number

/-! ## Magnitudes as counts of the smallest number -/

/-- How far the significand of a magnitude is shifted. -/
def shift (magnitude : Nat) : Nat := magnitude / 2 ^ 52 - 1

/-- The significand of a magnitude. -/
def significand (magnitude : Nat) : Nat := magnitude - shift magnitude * 2 ^ 52

/-- A finite magnitude as a count of the smallest positive number. -/
def units (magnitude : Nat) : Nat := significand magnitude * 2 ^ shift magnitude

/-! ## Rounding -/

/-- The whole number nearest to `numerator / denominator`, a tie going to the even one. -/
def roundHalfEven (numerator denominator : Nat) : Nat :=
  let quotient := numerator / denominator
  let remainder := numerator % denominator
  if 2 * remainder < denominator then quotient
  else if denominator < 2 * remainder then quotient + 1
  else quotient + quotient % 2

/-- The magnitude nearest to `numerator / denominator` units; past the largest finite one it is
infinite. -/
def nearestMagnitude (numerator denominator : Nat) : Nat :=
  let shift := (numerator / denominator).log2 - 52
  min infiniteMagnitude (shift * 2 ^ 52 + roundHalfEven numerator (denominator * 2 ^ shift))

end Number

namespace Decimal

/-- The magnitude nearest to a decimal.  A coefficient of at least one is out of range from
`10 ^ 400` on; a coefficient below `2 ^ (log2 + 1)` counts for nothing once `10 ^ (log2 + 1)` times
the power of ten is below `10 ^ -400`.  Both cases are decided before any power is computed. -/
def nearestMagnitude (decimal : Decimal) : Nat :=
  let coefficient := decimal.coefficient
  if coefficient = 0 then 0
  else match decimal.exponent with
    | .ofNat exponent =>
      if 400 < exponent then Number.infiniteMagnitude
      else Number.nearestMagnitude (coefficient * 10 ^ exponent * 2 ^ 1074) 1
    | .negSucc exponent =>
      if coefficient.log2 + 400 < exponent then 0
      else Number.nearestMagnitude (coefficient * 2 ^ 1074) (10 ^ (exponent + 1))

/-- The number nearest to a decimal with the given sign. -/
def nearest (negative : Bool) (decimal : Decimal) : Number :=
  Number.ofMagnitude negative decimal.nearestMagnitude

end Decimal

end SurveyLogic
