import SymbolicForms.ShortestDecimal

/-!
# Decimal text of a double

A number of moderate size is written in positional notation, without a point
when it is whole. Others are written with one digit before the point and a
signed power of ten of at least two digits.
-/

namespace SymbolicForms

/-- The decisions that the digits leave open. -/
structure DecimalLayout where
  /-- The least power of ten of a leading digit that is written positionally. -/
  leastPositional : Int
  /-- The first power of ten of a leading digit that is written with an exponent. -/
  firstScientific : Int
  /-- The least number of digits of an exponent. -/
  exponentWidth : Nat

namespace DecimalLayout

/-- Leading digits from `10 ^ -4` up to `10 ^ 15` are positional; exponents have two digits or
more. -/
def standard : DecimalLayout := ⟨-4, 16, 2⟩

/-- A number of zeros. -/
def zeros (count : Nat) : String := String.ofList (List.replicate count '0')

/-- Digits in positional notation, where `exponent` is the power of ten of the last one. -/
def positional (digits : List Char) (exponent : Int) : String :=
  let point := exponent + digits.length
  if 0 ≤ exponent then String.ofList digits ++ zeros exponent.toNat
  else if 0 < point then
    String.ofList (digits.take point.toNat) ++ "." ++ String.ofList (digits.drop point.toNat)
  else "0." ++ zeros (-point).toNat ++ String.ofList digits

/-- An exponent with its sign, filled up with zeros on the left. -/
def exponentText (layout : DecimalLayout) (exponent : Int) : String :=
  let digits := toString exponent.natAbs
  (if exponent < 0 then "-" else "+") ++ zeros (layout.exponentWidth - digits.length) ++ digits

/-- Digits with one of them before the point, followed by the power of ten of the leading one. -/
def scientific (layout : DecimalLayout) (digits : List Char) (leading : Int) : String :=
  let rest := digits.drop 1
  let fraction := if rest.isEmpty then "" else "." ++ String.ofList rest
  String.ofList (digits.take 1) ++ fraction ++ "e" ++ layout.exponentText leading

/-- The text of a positive decimal. -/
def render (layout : DecimalLayout) (value : Decimal) : String :=
  let digits := Nat.toDigits 10 value.digits
  let leading := value.exponent + digits.length - 1
  if layout.leastPositional ≤ leading ∧ leading < layout.firstScientific then
    positional digits value.exponent
  else layout.scientific digits leading

end DecimalLayout

namespace Binary64

/-- The text of a double: the shortest digits that read back, after its sign. -/
def text : Binary64 → String
  | .nan => "nan"
  | .infinite negative => if negative then "-inf" else "inf"
  | .finite negative mantissa exponent =>
    (if negative then "-" else "") ++
      if mantissa = 0 then "0"
      else DecimalLayout.standard.render (shortestDecimal mantissa exponent)

end Binary64

end SymbolicForms
