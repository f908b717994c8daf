import Mathlib
import SymbolicForms.FloatScalar
import SymbolicForms.Occurrence
import SymbolicForms.Proofs.ExactNumbers

/-!
# One as a factor

A run of numbers in a product starts with the factor one. Folding a run again
relies on one thing only: neither the factor one nor entering an expression
changes whether a number is a unit. For exact numbers one is neutral, and
occurrences are units by their values. Multiplying by one returns every double bit
for bit, infinities, zeros of both signs and results that are no numbers included:
the product with the mantissa of one has zeros in all its surplus places, rounding
shifts out exactly these, and a double that is unpacked and packed again is the
same.
-/

namespace SymbolicForms

/-- Neither the factor one nor entering an expression changes whether a number is a unit. -/
class Scalar.KeepsUnits (K : Type) [Scalar K] : Prop where
  /-- The factor one leaves units and other numbers as they are. -/
  isUnit_one_mul : ∀ value : K, Scalar.isUnit (Scalar.one * value) = Scalar.isUnit value
  /-- A number that enters an expression is a unit if it was one. -/
  isUnit_fresh : ∀ value : K, Scalar.isUnit (Scalar.fresh value) = Scalar.isUnit value

/-- One is neutral among exact numbers. -/
instance {rules : Exactness} : Scalar.KeepsUnits (Exact rules) where
  isUnit_one_mul value := by rw [Exact.one_eq, one_mul]
  isUnit_fresh _ := rfl

/-- Occurrences are units by their values. -/
instance {K : Type} [Scalar K] [Scalar.KeepsUnits K] : Scalar.KeepsUnits (Occurrence K) where
  isUnit_one_mul number := Scalar.KeepsUnits.isUnit_one_mul number.value
  isUnit_fresh _ := rfl

namespace Binary64

open Float.Model Float.Model.UnpackedFloat

section Rounding

variable {format : Format}

/-- A factor of a power of two adds its exponent to the number of binary places. -/
theorem log2_two_pow_mul (places : ℕ) {mantissa : ℕ} (hpos : 0 < mantissa) :
    (2 ^ places * mantissa).log2 = mantissa.log2 + places := by
  induction places with
  | zero => rw [Nat.pow_zero, Nat.one_mul, Nat.add_zero]
  | succ places ih =>
    have hne : 2 ^ places * mantissa ≠ 0 := Nat.mul_ne_zero (Nat.two_pow_pos places).ne' hpos.ne'
    rw [Nat.pow_succ', Nat.mul_assoc, Nat.log2_two_mul hne, ih, Nat.add_assoc]

/-- Shifting out places that are all zero leaves nothing to round. -/
theorem shiftRight_two_pow_mul (places mantissa : ℕ) :
    (⟨2 ^ places * mantissa, false, false⟩ : ExtendedMantissa) >>> places =
      ⟨mantissa, false, false⟩ := by
  induction places generalizing mantissa with
  | zero => rw [Nat.pow_zero, Nat.one_mul]; rfl
  | succ places ih =>
    have hstep (em : ExtendedMantissa) : em >>> (places + 1) = (em >>> places).shiftRightOne := rfl
    -- the last place to be shifted out is that of an even number
    rw [Nat.pow_succ, Nat.mul_assoc, hstep, ih (2 * mantissa)]
    simp [ExtendedMantissa.shiftRightOne]

/-- A finite number has the exponent that its format gives to a number of its size. -/
def IsRounded (format : Format) : UnpackedFloat → Prop
  | .finite _ mantissa exponent _ =>
    format.targetExponent (totalExponent mantissa exponent) = exponent
  | _ => True

/-- A rounded number with further places that are zero is shifted back to itself. -/
theorem shiftToTargetExponent_two_pow_mul (places : ℕ) {mantissa : ℕ} {exponent : ℤ}
    (hpos : 0 < mantissa)
    (h : format.targetExponent (totalExponent mantissa exponent) = exponent) :
    shiftToTargetExponent format (2 ^ places * mantissa) (exponent - places) .exact =
      (⟨mantissa, false, false⟩, exponent) := by
  have htotal : totalExponent (2 ^ places * mantissa) (exponent - places) =
      totalExponent mantissa exponent := by
    simp only [totalExponent, log2_two_pow_mul places hpos]
    omega
  have hamount : (exponent - (exponent - places)).toNat = places := by omega
  rw [shiftToTargetExponent, htotal, h, shiftToExponent, hamount]
  exact Prod.ext (shiftRight_two_pow_mul places mantissa) (Int.sub_add_cancel _ _)

/-- A rounded number with further places that are zero is rounded to itself. -/
theorem roundWithAccuracy_two_pow_mul (sign : Sign) (places : ℕ) {mantissa : ℕ} {exponent : ℤ}
    (hpos : 0 < mantissa)
    (h : format.targetExponent (totalExponent mantissa exponent) = exponent) :
    roundWithAccuracy format sign (2 ^ places * mantissa) (exponent - places) .exact =
      .finite sign mantissa exponent hpos := by
  have hrounded : (⟨mantissa, false, false⟩ : ExtendedMantissa).roundedMantissa = mantissa := rfl
  have hagain := shiftToTargetExponent_two_pow_mul 0 hpos h
  rw [Nat.pow_zero, Nat.one_mul, Int.natCast_zero, Int.sub_zero] at hagain
  simp only [roundWithAccuracy, shiftToTargetExponent_two_pow_mul places hpos h, hrounded, hagain]
  exact dif_neg hpos.ne'

/-- One is neutral for the products of a format, whatever mantissa it is written with. -/
theorem mul_one_left (places : ℕ) {number : UnpackedFloat} (h : IsRounded format number) :
    UnpackedFloat.mul format
      (.finite .positive (2 ^ places) (-places) (Nat.two_pow_pos places)) number = number := by
  have hsign (sign : Sign) : .positive * sign = sign := by cases sign <;> rfl
  cases number with
  | infinity sign => exact congrArg _ (hsign sign)
  | notANumber => rfl
  | zero sign => exact congrArg _ (hsign sign)
  | finite sign mantissa exponent hpos =>
    rw [UnpackedFloat.mul, hsign, neg_add_eq_sub]
    exact roundWithAccuracy_two_pow_mul sign places hpos h

end Rounding

section Doubles

/-- The bias of the exponent of a double. -/
theorem exponentBias_eq : Format.binary64.exponentBias = 1023 := by rfl

/-- The mantissa of a double has fifty-three places, unless the exponent would be too small. -/
theorem targetExponent_totalExponent (mantissa : ℕ) (exponent : ℤ) :
    Format.binary64.targetExponent (totalExponent mantissa exponent) =
      max (mantissa.log2 + exponent - 52) (-1074) := by
  have hplaces : Format.binary64.mantissaBits = 53 := by rfl
  have hleast : Format.binary64.minExponent = -1074 := by rfl
  rw [Format.targetExponent, totalExponent, hplaces, hleast]
  omega

/-- A fraction has fewer places than a mantissa with its leading one. -/
theorem log2_fraction_lt {fraction : BitVec 52} (hne : fraction ≠ 0) :
    fraction.toNat.log2 < 52 :=
  (Nat.log2_lt fun hzero => hne (BitVec.eq_of_toNat_eq hzero)).mpr fraction.isLt

/-- A leading one stands in front of all places of a fraction. -/
theorem log2_leading (fraction : BitVec 52) : (1#1 ++ fraction).toNat.log2 = 52 := by
  have hvalue : (1#1 ++ fraction).toNat = 2 ^ 52 + fraction.toNat := by
    rw [BitVec.toNat_append, ← Nat.shiftLeft_add_eq_or_of_lt fraction.isLt]
    rfl
  rw [hvalue]
  exact (Nat.log2_eq_iff (by omega)).mpr (by omega)

/-- A double is unpacked to a rounded number. -/
theorem isRounded_unpack (bits : BitVec Format.binary64.numBits) :
    IsRounded .binary64 (UnpackedFloat.unpack .binary64 bits) := by
  unfold UnpackedFloat.unpack
  simp only
  split
  · split <;> trivial
  · split
    · next hsmall =>
      split
      · trivial
      · next hne =>
        have hplaces := log2_fraction_lt hne
        rw [IsRounded, targetExponent_totalExponent, exponentBias_eq, hsmall]
        simp only [BitVec.toNat_ofNat]
        omega
    · next hne =>
      have hpos : (unpackExponent bits).toNat ≠ 0 := fun hzero => hne (BitVec.eq_of_toNat_eq hzero)
      rw [IsRounded, targetExponent_totalExponent, exponentBias_eq, log2_leading]
      omega

end Doubles

/-- The double one has a mantissa of one leading place. -/
theorem unpack_one : (Float.ofInt 1).toModel.unpack =
    .finite .positive (2 ^ 52) (-(52 : ℕ)) (Nat.two_pow_pos 52) := by rfl

/-- The factor one returns every double. -/
theorem one_mul_double (value : Float) : Float.ofInt 1 * value = value := by
  have hpacked (double : Float.Model) : Float.Model.pack double.unpack = double := by
    cases double with
    | mk bits hvalid =>
      simp only [Float.Model.pack, Float.Model.unpack, pack_unpack_of_valid hvalid]
  have hproduct := mul_one_left 52 (isRounded_unpack value.toModel.toBits.toBitVec)
  have hmodel : (Float.ofInt 1).toModel.mul value.toModel = value.toModel := by
    rw [Float.Model.mul, unpack_one]
    exact (congrArg Float.Model.pack hproduct).trans (hpacked value.toModel)
  exact congrArg Float.ofModel hmodel

end Binary64

/-- The factor one returns every double, and doubles enter an expression as they are. -/
instance : Scalar.KeepsUnits Float where
  isUnit_one_mul value := congrArg Scalar.isUnit (Binary64.one_mul_double value)
  isUnit_fresh _ := rfl

end SymbolicForms
