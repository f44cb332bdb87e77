/-!
# Numbers

The numbers of answers and conditions are 64-bit binary floating point numbers, kept as their bits.
Everything that compares numbers is defined on the bits, so that it can be reasoned about: a number
is a sign and a magnitude, and the magnitudes of the finite numbers and of infinity are ordered the
way the bits are.  Only the five arithmetic operations go through the machine.

* `Number.compare?` is the numeric order: a NaN is comparable with nothing, the two zeros are equal.
* `Number.equals` is numeric equality; equality of `Number` itself is equality bit for bit.
-/

namespace SurveyLogic

-- powers of natural numbers are the built-in ones, also where monoids have powers
attribute [instance (high), default_instance (high + 1)] instPowNat

/-- A 64-bit binary floating point number: a sign bit, eleven exponent bits, 52 fraction bits. -/
structure Number where
  bits : UInt64
deriving DecidableEq, Inhabited

namespace Number

/-! ## Sign and magnitude -/

/-- The bits of positive infinity; a larger magnitude belongs to a NaN. -/
def infiniteMagnitude : Nat := 2047 * 2 ^ 52

/-- The bits without the sign. -/
def magnitude (n : Number) : Nat := n.bits.toNat % 2 ^ 63

def isNegative (n : Number) : Bool := decide (2 ^ 63 ≤ n.bits.toNat)

def ofMagnitude (negative : Bool) (magnitude : Nat) : Number :=
  ⟨UInt64.ofNat (if negative then 2 ^ 63 + magnitude else magnitude)⟩

def isNaN (n : Number) : Bool := decide (infiniteMagnitude < n.magnitude)

def isFinite (n : Number) : Bool := decide (n.magnitude < infiniteMagnitude)

def zero : Number := ⟨0⟩

def one : Number := ⟨0x3FF0000000000000⟩

def infinity (negative : Bool) : Number := ofMagnitude negative infiniteMagnitude

/-- The quiet NaN without a payload. -/
def nan (negative : Bool) : Number := ofMagnitude negative (infiniteMagnitude + 2 ^ 51)

/-! ## The numeric order -/

/-- The place of a number on the number line: magnitudes grow with the bits, and both zeros have
place `0`.  It means nothing for a NaN. -/
def place (n : Number) : Int :=
  if n.isNegative then -(n.magnitude : Int) else n.magnitude

/-- The numeric order, which has no place for a NaN. -/
def compare? (a b : Number) : Option Ordering :=
  if a.isNaN || b.isNaN then none else some (compare a.place b.place)

/-- Numeric equality: `0` equals `-0`, and a NaN equals nothing. -/
def equals (a b : Number) : Bool := a.compare? b == some .eq

theorem equals_iff {a b : Number} :
    a.equals b = true ↔ a.isNaN = false ∧ b.isNaN = false ∧ a.place = b.place := by
  unfold equals compare?
  cases a.isNaN <;> cases b.isNaN <;> simp

theorem equals_comm (a b : Number) : a.equals b = b.equals a := by
  rw [Bool.eq_iff_iff, equals_iff, equals_iff]
  constructor <;> (rintro ⟨h₁, h₂, h₃⟩; exact ⟨h₂, h₁, h₃.symm⟩)

/-- Only a NaN differs from itself. -/
@[simp] theorem equals_self (a : Number) : a.equals a = !a.isNaN := by
  rw [Bool.eq_iff_iff, equals_iff]
  cases a.isNaN <;> simp

/-- Swapping the operands swaps the answer. -/
theorem compare?_swap (a b : Number) : b.compare? a = (a.compare? b).map Ordering.swap := by
  unfold compare?
  rw [Bool.or_comm b.isNaN a.isNaN]
  cases a.isNaN || b.isNaN
  · simp [Int.compare_swap]
  · rfl

/-! ## Arithmetic -/

def toFloat (n : Number) : Float := Float.ofBits n.bits

def ofFloat (x : Float) : Number := ⟨x.toBits⟩

def add (a b : Number) : Number := ofFloat (a.toFloat + b.toFloat)

def subtract (a b : Number) : Number := ofFloat (a.toFloat - b.toFloat)

def multiply (a b : Number) : Number := ofFloat (a.toFloat * b.toFloat)

def divide (a b : Number) : Number := ofFloat (a.toFloat / b.toFloat)

def power (a b : Number) : Number := ofFloat (Float.pow a.toFloat b.toFloat)

/-- Negation turns the sign bit over. -/
def negate (n : Number) : Number := ofMagnitude (!n.isNegative) n.magnitude

end Number

end SurveyLogic
