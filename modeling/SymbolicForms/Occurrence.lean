import SymbolicForms.Scalar

/-!
# Occurrences of numbers

Infinities and results that are no numbers are near nothing, so their values do
not tell whether an expression has changed. An occurrence is a number that also
knows where it stands and where it came into being. It is computed with by its
value. A computed number stands where the leftmost of its operands stands, and
it comes into being there when it enters an expression. Two occurrences agree
when their values are near each other, or when neither value is near itself and
both came into being at one place.
-/

namespace SymbolicForms

/-- A number with its place and its birth. -/
structure Occurrence (K : Type) where
  /-- The number itself. -/
  value : K
  /-- Where the number, or the number it was computed from, stands in its expression. -/
  place : Option Place
  /-- Where the number came into being. -/
  birth : Option Place

namespace Occurrence

variable {K : Type}

/-- A number that stands nowhere. -/
def ofValue (value : K) : Occurrence K := ⟨value, none, none⟩

/-- A number that is given rather than computed. Its birth lies before all steps. -/
def given (index : Nat) (value : K) : Occurrence K := ⟨value, some ⟨[0], index⟩, some ⟨[], index⟩⟩

/-- A number computed from one other. -/
def map (f : K → K) (number : Occurrence K) : Occurrence K := ⟨f number.value, number.place, none⟩

/-- A number computed from two others. -/
def combine (f : K → K → K) (first second : Occurrence K) : Occurrence K :=
  ⟨f first.value second.value, first.place.or second.place, none⟩

variable [Scalar K]

/-- The number is near nothing, because it is not even near itself. -/
def isElusive (number : Occurrence K) : Bool := !Scalar.near number.value number.value

/-- Both numbers came into being at one place. -/
def isBornWith (number other : Occurrence K) : Bool :=
  number.birth.isSome && number.birth == other.birth

/-- Occurrences as numbers of an expression. -/
instance : Scalar (Occurrence K) where
  add := combine (· + ·)
  sub := combine (· - ·)
  mul := combine (· * ·)
  div := combine (· / ·)
  neg := map (- ·)
  ofInt value := ofValue (Scalar.ofInt value)
  abs := map Scalar.abs
  floor := map Scalar.floor
  round := map Scalar.round
  toInt number := Scalar.toInt number.value
  lt first second := Scalar.lt first.value second.value
  le first second := Scalar.le first.value second.value
  same first second := Scalar.same first.value second.value
  tolerance := ofValue Scalar.tolerance
  near first second := Scalar.near first.value second.value
  apart first second := Scalar.apart first.value second.value
  power := combine Scalar.power
  hasPower base exponent := Scalar.hasPower base.value exponent.value
  remainder := combine Scalar.remainder
  decimal number := Scalar.decimal number.value
  agree first second := Scalar.near first.value second.value ||
    (first.isElusive && second.isElusive && first.isBornWith second)
  fresh number := ⟨number.value, number.place, number.place⟩
  putAt place number := ⟨number.value, some place, number.birth⟩
  steps number := (number.place.map Place.steps).getD []

/-- Occurrences with the elementary functions of their values. -/
instance {K : Type} [Elementary K] : Elementary (Occurrence K) where
  sin := map Elementary.sin
  cos := map Elementary.cos
  tan := map Elementary.tan
  exp := map Elementary.exp
  ln := map Elementary.ln
  log := map Elementary.log
  sqrt := map Elementary.sqrt
  sinh := map Elementary.sinh
  cosh := map Elementary.cosh
  tanh := map Elementary.tanh
  arcsin := map Elementary.arcsin
  arccos := map Elementary.arccos
  arctan := map Elementary.arctan

end Occurrence

end SymbolicForms
