import SymbolicForms.DecimalText
import SymbolicForms.Scalar

/-!
# Floating-point scalars

Doubles with their rounded arithmetic, a tolerance of `1e-10` and the shortest
decimal text.
-/

namespace SymbolicForms

/-- Differences below this margin are ignored. -/
def floatTolerance : Float := 1e-10

/-- Doubles as numbers of an expression. -/
instance : Scalar Float where
  ofInt := Float.ofInt
  abs := Float.abs
  floor := Float.floor
  round := Float.round
  toInt value := value.toInt64.toInt
  lt first second := decide (first < second)
  le first second := decide (first ≤ second)
  same first second := first == second
  tolerance := floatTolerance
  near first second := decide ((first - second).abs < floatTolerance)
  apart first second := decide (floatTolerance ≤ (first - second).abs)
  power := Float.pow
  hasPower base exponent := (Float.pow base exponent).isFinite
  remainder := Binary64.remainder
  decimal value := (Binary64.ofFloat value).text

/-- Doubles with the elementary functions of the floating-point unit. -/
instance : Elementary Float where
  sin := Float.sin
  cos := Float.cos
  tan := Float.tan
  exp := Float.exp
  ln := Float.log
  log := Float.log10
  sqrt := Float.sqrt
  sinh := Float.sinh
  cosh := Float.cosh
  tanh := Float.tanh
  arcsin := Float.asin
  arccos := Float.acos
  arctan := Float.atan

end SymbolicForms
