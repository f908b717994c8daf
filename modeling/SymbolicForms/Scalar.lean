/-!
# Numbers of an expression

Expressions are written over a type of numbers that is known only through the
operations below. No law is assumed, so a definition over `Scalar` says what is
done with the numbers and nothing about their exactness: the same definitions
run on floating-point numbers and are reasoned about on exact ones. Comparisons
are tests that return a `Bool`; the two tolerance tests `near` and `apart` are
separate, because a value that is not a number passes neither.

A number that is near nothing, not even itself, can still be recognised where it
is carried along unchanged. For this, numbers may know where they came into
being; the operations on places do nothing for numbers that need not know.
-/

namespace SymbolicForms

/-- A place at which a number stands. -/
structure Place where
  /-- The steps that led to the expression in which it stands, the latest one first. -/
  steps : List Nat
  /-- How many numbers stand to the left of it. -/
  index : Nat
  deriving DecidableEq

/-- The operations on numbers that simplification needs. -/
class Scalar (K : Type) extends Add K, Sub K, Mul K, Div K, Neg K where
  /-- The number that an integer denotes. -/
  ofInt : Int → K
  /-- The magnitude of a number. -/
  abs : K → K
  /-- The greatest whole number that is not above the argument. -/
  floor : K → K
  /-- The nearest whole number, a half going away from zero. -/
  round : K → K
  /-- The integer that a whole number of moderate size denotes. -/
  toInt : K → Int
  /-- Strictly below. -/
  lt : K → K → Bool
  /-- Below or equal. -/
  le : K → K → Bool
  /-- Exactly equal. -/
  same : K → K → Bool
  /-- The margin below which a difference is ignored. -/
  tolerance : K
  /-- The two numbers differ by less than the tolerance. -/
  near : K → K → Bool
  /-- The two numbers differ by the tolerance or more. -/
  apart : K → K → Bool
  /-- A base raised to an exponent. -/
  power : K → K → K
  /-- The power is a number, neither infinite nor undefined. -/
  hasPower : K → K → Bool
  /-- The remainder of a division whose quotient is rounded toward zero. -/
  remainder : K → K → K
  /-- The decimal text of a number. -/
  decimal : K → String
  /-- The two numbers count as one in a comparison of expressions: they are near each other, or they
  are the same number carried along. -/
  agree : K → K → Bool := near
  /-- A computed number as it enters an expression: it comes into being there. -/
  fresh : K → K := fun value => value
  /-- The number put at a place. -/
  putAt : Place → K → K := fun _ value => value
  /-- The steps that led to the place of a number. -/
  steps : K → List Nat := fun _ => []

/-- The elementary functions, for evaluation. -/
class Elementary (K : Type) extends Scalar K where
  /-- Sine. -/
  sin : K → K
  /-- Cosine. -/
  cos : K → K
  /-- Tangent. -/
  tan : K → K
  /-- Exponential. -/
  exp : K → K
  /-- Natural logarithm. -/
  ln : K → K
  /-- Logarithm to base ten. -/
  log : K → K
  /-- Square root. -/
  sqrt : K → K
  /-- Hyperbolic sine. -/
  sinh : K → K
  /-- Hyperbolic cosine. -/
  cosh : K → K
  /-- Hyperbolic tangent. -/
  tanh : K → K
  /-- Inverse sine. -/
  arcsin : K → K
  /-- Inverse cosine. -/
  arccos : K → K
  /-- Inverse tangent. -/
  arctan : K → K

namespace Scalar

variable {K : Type} [Scalar K]

/-- The number zero. -/
def zero : K := ofInt 0

/-- The number one. -/
def one : K := ofInt 1

/-- The number differs from zero by less than the tolerance. -/
def vanishes (value : K) : Bool := near value zero

/-- The number differs from one by less than the tolerance. -/
def isUnit (value : K) : Bool := near value one

/-- The smaller of two numbers; the first one unless the second is strictly below it. -/
def least (first second : K) : K := if lt second first then second else first

end Scalar

end SymbolicForms
