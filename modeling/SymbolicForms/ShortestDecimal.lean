import SymbolicForms.Binary64

/-!
# The shortest decimal of a double

Every real number strictly between the midpoints to a double's two neighbours
rounds to that double; the midpoints themselves do so when the mantissa is even.
Among the decimals in this interval the one with the fewest digits is chosen,
and among those the nearest to the exact value. All comparisons are made on
whole numbers.
-/

namespace SymbolicForms

/-- The positive decimal number `digits · 10 ^ exponent`. -/
structure Decimal where
  /-- The digits, read as one whole number. -/
  digits : Nat
  /-- The power of ten of the last digit. -/
  exponent : Int
  deriving DecidableEq

namespace Decimal

/-- Remove the zeros at the end of the digits. -/
def trim (digits : Nat) (exponent : Int) : Decimal :=
  if digits ≠ 0 ∧ digits % 10 = 0 then trim (digits / 10) (exponent + 1) else ⟨digits, exponent⟩
termination_by digits
decreasing_by omega

end Decimal

/-- The numbers that round to one positive double, in units of `2 ^ exponent`. -/
structure RoundingInterval where
  /-- The midpoint to the next smaller double. -/
  lower : Nat
  /-- The double itself. -/
  centre : Nat
  /-- The midpoint to the next larger double. -/
  upper : Nat
  /-- The two midpoints belong to the interval. -/
  closed : Bool
  /-- The binary exponent of the unit. -/
  exponent : Int

namespace RoundingInterval

/-- The interval of `mantissa · 2 ^ exponent`, in quarters of the last place. The neighbour below a
power of two is only half as far away as the one above it. -/
def ofBinary (mantissa : Nat) (exponent : Int) : RoundingInterval where
  lower := if mantissa = Binary64.leadingMantissa ∧ Binary64.leastExponent < exponent
    then 4 * mantissa - 1 else 4 * mantissa - 2
  centre := 4 * mantissa
  upper := 4 * mantissa + 2
  closed := mantissa % 2 == 0
  exponent := exponent - 2

/-- Membership of a point, where all four numbers are in one unit. -/
def holds (closed : Bool) (lower point upper : Nat) : Bool :=
  if closed then decide (lower ≤ point ∧ point ≤ upper) else decide (lower < point ∧ point < upper)

/-- Of two neighbouring grid points around the centre the nearer one; a tie goes to the even one. -/
def nearer (centre step below : Nat) : Nat :=
  let down := centre - below * step
  let up := (below + 1) * step - centre
  if down < up then below
  else if up < down then below + 1
  else if below % 2 = 0 then below else below + 1

/-- The multiple of `10 ^ grid` in the interval that is nearest to the double, if there is one. Only
the two multiples around the double can be. -/
def gridPoint? (interval : RoundingInterval) (grid : Int) : Option Nat :=
  let unit := Nat.pow 2 interval.exponent.toNat * Nat.pow 10 (-grid).toNat
  let step := Nat.pow 2 (-interval.exponent).toNat * Nat.pow 10 grid.toNat
  let centre := interval.centre * unit
  let below := centre / step
  let inside (multiple : Nat) : Bool :=
    holds interval.closed (interval.lower * unit) (multiple * step) (interval.upper * unit)
  if below = 0 then none
  else match inside below, inside (below + 1) with
    | true, true => some (nearer centre step below)
    | true, false => some below
    | false, true => some (below + 1)
    | false, false => none

/-- The first grid with a point in the interval, from `grid` toward finer ones. -/
def search (interval : RoundingInterval) : Nat → Int → Decimal
  | 0, grid => ⟨0, grid⟩
  | fuel + 1, grid =>
    match interval.gridPoint? grid with
    | some digits => Decimal.trim digits grid
    | none => search interval fuel (grid - 1)

/-- A grid that is at most two steps coarser than the leading digit of `mantissa · 2 ^ exponent`:
`78913 / 262144` is slightly above the decimal logarithm of two. -/
def coarsestGrid (mantissa : Nat) (exponent : Int) : Int :=
  Int.fdiv ((exponent + mantissa.log2 + 1) * 78913) 262144 + 1

/-- Grids to try: seventeen digits always suffice, after at most three grids without a digit. -/
def gridCount : Nat := 20

end RoundingInterval

/-- The shortest decimal that reads back as the positive double `mantissa · 2 ^ exponent`. -/
def shortestDecimal (mantissa : Nat) (exponent : Int) : Decimal :=
  (RoundingInterval.ofBinary mantissa exponent).search RoundingInterval.gridCount
    (RoundingInterval.coarsestGrid mantissa exponent)

end SymbolicForms
