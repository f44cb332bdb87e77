import SurveyLogic.Number.Decimal

/-!
# The shortest decimal of a number

Many decimals are read as the same number: those between the midpoints to its two neighbours, the
midpoints included when the significand is even, because a tie goes to the even neighbour.  The
shortest decimal is the one among them on the coarsest power-of-ten grid, and of two on that grid
the nearer; between two equally near ones it is the upper.

Every finite number is a whole multiple of `10 ^ -1074`, since `2 ^ -1074` is `5 ^ 1074` of these.
On this finest grid the search ends, so it is a recursion over the grids and needs no bound.
-/

namespace SurveyLogic

namespace Number

/-! ## The decimals read as a number -/

/-- The quarter units between the lower midpoint and the number.  The lower neighbour of a power of
two is half as far away as the upper one. -/
def lowerGap (magnitude : Nat) : Nat :=
  if significand magnitude = 2 ^ 52 ∧ shift magnitude ≠ 0 then 2 ^ shift magnitude
  else 2 * 2 ^ shift magnitude

/-- The quarter units between the number and the upper midpoint. -/
def upperGap (magnitude : Nat) : Nat := 2 * 2 ^ shift magnitude

/-- Whether `point`, counted in quarters of `10 ^ -1074`, is read as the number. -/
def isReadAs (magnitude point : Nat) : Bool :=
  let scale := 5 ^ 1074
  let low := (4 * units magnitude - lowerGap magnitude) * scale
  let high := (4 * units magnitude + upperGap magnitude) * scale
  if magnitude % 2 = 0 then decide (low ≤ point ∧ point ≤ high)
  else decide (low < point ∧ point < high)

/-! ## The search over the grids -/

/-- The coefficient of the point of the grid `10 ^ (grid - 1074)` that is read as the number and
nearest to it, if the grid has one: it is the grid point below or the one above. -/
def onGrid? (magnitude grid : Nat) : Option Nat :=
  let step := 10 ^ grid
  let value := units magnitude * 5 ^ 1074
  let below := value / step
  let lower := isReadAs magnitude (4 * (below * step))
  let upper := isReadAs magnitude (4 * ((below + 1) * step))
  -- halfway between the two points the upper one counts as the nearer
  let upperIsNear := decide (step ≤ 2 * (value % step))
  if upper && (upperIsNear || !lower) then some (below + 1)
  else if lower then some below
  else none

/-- The shortest decimal on the given grid or a finer one. -/
def shortestFrom (magnitude : Nat) : (grid : Nat) → Decimal
  | 0 => ⟨units magnitude * 5 ^ 1074, -1074⟩
  | grid + 1 =>
    match onGrid? magnitude (grid + 1) with
    | some coefficient => ⟨coefficient, (grid + 1 : Nat) - 1074⟩
    | none => shortestFrom magnitude grid

/-- A grid whose step is larger than the number; `30103 / 100000` is just above the decimal
logarithm of two. -/
def coarsestGrid (magnitude : Nat) : Nat :=
  ((units magnitude * 5 ^ 1074).log2 + 1) * 30103 / 100000 + 1

/-- The shortest decimal that is read as the finite number of the given magnitude. -/
def shortest (magnitude : Nat) : Decimal :=
  if magnitude = 0 then ⟨0, 0⟩ else shortestFrom magnitude (coarsestGrid magnitude)

end Number

end SurveyLogic
