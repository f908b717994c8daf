/-!
# Double-precision numbers as exact fractions

A finite double is a whole mantissa times a power of two. Decoding it makes its
decimal text and its remainders questions of integer arithmetic.
-/

namespace SymbolicForms

/-- The value of a double. -/
inductive Binary64 where
  /-- Not a number. -/
  | nan
  /-- An infinity of the given sign. -/
  | infinite (negative : Bool)
  /-- Sign, mantissa and binary exponent of a finite number; zero has a sign as well. -/
  | finite (negative : Bool) (mantissa : Nat) (exponent : Int)
  deriving DecidableEq

namespace Binary64

/-- The binary exponent of the smallest positive double. -/
def leastExponent : Int := -1074

/-- The mantissa of a power of two that is not subnormal. -/
def leadingMantissa : Nat := Nat.pow 2 52

/-- Read the three fields of the interchange format: one sign bit, eleven exponent bits and
fifty-two fraction bits. -/
def ofBits (bits : Nat) : Binary64 :=
  let negative := bits / Nat.pow 2 63 % 2 == 1
  let biased : Nat := bits / leadingMantissa % 2048
  let fraction : Nat := bits % leadingMantissa
  if biased = 2047 then
    if fraction = 0 then .infinite negative else .nan
  else if biased = 0 then .finite negative fraction leastExponent
  else .finite negative (leadingMantissa + fraction) ((biased : Int) - 1075)

/-- The exact value of a double. -/
def ofFloat (value : Float) : Binary64 := ofBits value.toBits.toNat

/-- The double nearest to a mantissa times a power of two. A mantissa of more than fifty-three bits
is shortened first, which is exact when the dropped bits are zero. -/
def scaled (negative : Bool) (mantissa : Nat) (exponent : Int) : Float :=
  let dropped := mantissa.log2 - 52
  let magnitude := Float.scaleB (Float.ofNat (mantissa >>> dropped)) (exponent + dropped)
  if negative then -magnitude else magnitude

/-- The remainder of two magnitudes, in units of the smaller of their last places. -/
def remainderMagnitude (mantissa : Nat) (exponent : Int) (divisor : Nat) (divisorExponent : Int) :
    Nat × Int :=
  let unit := min exponent divisorExponent
  ((mantissa <<< (exponent - unit).toNat) % (divisor <<< (divisorExponent - unit).toNat), unit)

/-- The remainder of a division whose quotient is rounded toward zero. It is exact and takes the
sign of the dividend; an infinite divisor leaves the dividend as it is. -/
def remainder (dividend divisor : Float) : Float :=
  match ofFloat dividend, ofFloat divisor with
  | .finite negative mantissa exponent, .finite _ divisorMantissa divisorExponent =>
    if divisorMantissa = 0 then 0.0 / 0.0
    else
      let rest := remainderMagnitude mantissa exponent divisorMantissa divisorExponent
      scaled negative rest.1 rest.2
  | .finite .., .infinite _ => dividend
  | _, _ => 0.0 / 0.0

end Binary64

end SymbolicForms
