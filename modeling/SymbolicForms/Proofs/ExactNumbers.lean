import Mathlib.Algebra.BigOperators.Ring.Finset
import Mathlib.Algebra.BigOperators.Ring.List
import Mathlib.Algebra.Ring.Subring.Basic
import Mathlib.Data.List.Sort
import Mathlib.Data.Prod.Lex
import Mathlib.Data.Rat.Floor
import Mathlib.Data.String.Basic
import Mathlib.Tactic.FieldSimp
import Mathlib.Tactic.Linarith
import Mathlib.Tactic.NormNum
import SymbolicForms.Text

/-!
# Exact numbers

Rational numbers with exact arithmetic are numbers of an expression. The four
basic operations, comparison, rounding and whole powers are those of the
rationals. What is not determined by them is left open: the margin within which
numbers count as equal, the tolerance of the other comparisons, the decimal text
of a number, and powers with exponents that are not whole. A margin below one
tells all integers apart, and a margin of zero tells all numbers apart.
-/

namespace SymbolicForms

/-- The part of exact arithmetic that is left open. -/
structure Exactness where
  /-- Numbers that differ by less than this count as equal. -/
  margin : ℚ
  /-- The margin is not negative. -/
  margin_nonneg : 0 ≤ margin
  /-- Different integers do not count as equal. -/
  margin_lt_one : margin < 1
  /-- Other comparisons ignore differences up to this. -/
  tolerance : ℚ
  /-- The tolerance is not negative. -/
  tolerance_nonneg : 0 ≤ tolerance
  /-- Differences of integers are not ignored. -/
  tolerance_lt_one : tolerance < 1
  /-- The decimal text of a number. -/
  decimal : ℚ → String
  /-- The power of a base to an exponent, if it is a number. -/
  power? : ℚ → ℚ → Option ℚ
  /-- Whole powers are exact; only zero has no negative ones. -/
  power?_intCast : ∀ (base : ℚ) (n : ℤ),
    power? base n = if base = 0 ∧ n < 0 then none else some (base ^ n)

/-- Natural powers are exact. -/
theorem Exactness.power?_natCast (rules : Exactness) (base : ℚ) (n : ℕ) :
    rules.power? base n = some (base ^ n) := by
  have h := rules.power?_intCast base n
  rw [if_neg fun h => (Int.natCast_nonneg n).not_gt h.2] at h
  simpa only [Int.cast_natCast, zpow_natCast] using h

/-- Fractions are written with a bar, only whole exponents have powers, and the margin is the
tolerance of all comparisons. -/
def Exactness.fractions (margin : ℚ) (nonneg : 0 ≤ margin) (small : margin < 1) : Exactness where
  margin := margin
  margin_nonneg := nonneg
  margin_lt_one := small
  tolerance := margin
  tolerance_nonneg := nonneg
  tolerance_lt_one := small
  decimal value := toString value
  power? base exponent :=
    if exponent.den = 1 then
      if base = 0 ∧ exponent.num < 0 then none else some (base ^ exponent.num)
    else none
  power?_intCast base n := by rw [Rat.den_intCast, if_pos rfl, Rat.num_intCast]

/-- The tolerance of the tests is a ten-billionth. -/
def Exactness.standard : Exactness := .fractions (1 / 10000000000) (by norm_num) (by norm_num)

/-- Only equal numbers count as equal, but other comparisons keep their tolerance. -/
def Exactness.strict : Exactness :=
  { Exactness.standard with margin := 0, margin_nonneg := le_rfl, margin_lt_one := zero_lt_one }

/-- Rational numbers under some rules for what exact arithmetic leaves open. -/
def Exact (_rules : Exactness) : Type := ℚ

namespace Exact

variable {rules : Exactness}

instance : Field (Exact rules) := inferInstanceAs (Field ℚ)

instance : LinearOrder (Exact rules) := inferInstanceAs (LinearOrder ℚ)

instance : IsStrictOrderedRing (Exact rules) := inferInstanceAs (IsStrictOrderedRing ℚ)

instance : FloorRing (Exact rules) := inferInstanceAs (FloorRing ℚ)

/-- The margin as an exact number. -/
def margin : Exact rules := rules.margin

/-- The tolerance as an exact number. -/
def tolerance : Exact rules := rules.tolerance

/-- The whole number next to a number on the side of zero. -/
def truncate (value : Exact rules) : Exact rules :=
  if 0 ≤ value then (⌊value⌋ : Exact rules) else (⌈value⌉ : Exact rules)

/-- Exact numbers as numbers of an expression. -/
instance : Scalar (Exact rules) where
  toAdd := inferInstance
  toSub := inferInstance
  toMul := inferInstance
  toDiv := inferInstance
  toNeg := inferInstance
  ofInt value := (value : Exact rules)
  abs value := |value|
  floor value := (⌊value⌋ : Exact rules)
  round value := truncate (if 0 ≤ value then value + 1 / 2 else value - 1 / 2)
  toInt value := ⌊value⌋
  lt first second := decide (first < second)
  le first second := decide (first ≤ second)
  same first second := decide (first = second)
  tolerance := tolerance
  near first second := decide (first = second ∨ |first - second| < margin)
  apart first second := decide (first ≠ second ∧ margin ≤ |first - second|)
  power base exponent := (rules.power? base exponent).getD 0
  hasPower base exponent := (rules.power? base exponent).isSome
  remainder first second := first - second * truncate (first / second)
  decimal value := rules.decimal value

@[simp] theorem zero_eq : (Scalar.zero : Exact rules) = 0 := Int.cast_zero

@[simp] theorem one_eq : (Scalar.one : Exact rules) = 1 := Int.cast_one

@[simp] theorem ofInt_eq (n : ℤ) : (Scalar.ofInt n : Exact rules) = n := rfl

@[simp] theorem putAt_eq (place : Place) (value : Exact rules) :
    Scalar.putAt place value = value := rfl

@[simp] theorem agree_eq (first second : Exact rules) :
    Scalar.agree first second = Scalar.near first second := rfl

@[simp] theorem tolerance_eq : (Scalar.tolerance : Exact rules) = tolerance := rfl

@[simp] theorem lt_iff (first second : Exact rules) :
    Scalar.lt first second = true ↔ first < second := decide_eq_true_iff

@[simp] theorem le_iff (first second : Exact rules) :
    Scalar.le first second = true ↔ first ≤ second := decide_eq_true_iff

@[simp] theorem same_iff (first second : Exact rules) :
    Scalar.same first second = true ↔ first = second := decide_eq_true_iff

theorem near_iff (first second : Exact rules) :
    Scalar.near first second = true ↔ first = second ∨ |first - second| < margin :=
  decide_eq_true_iff

/-- Every number is near itself. -/
@[simp] theorem near_self (value : Exact rules) : Scalar.near value value = true :=
  (near_iff value value).mpr (Or.inl rfl)

/-- Of two numbers, each is near the other. -/
theorem near_comm (first second : Exact rules) :
    Scalar.near first second = Scalar.near second first := by
  rw [Bool.eq_iff_iff, near_iff, near_iff, eq_comm, abs_sub_comm]

/-- Exact numbers are apart when they are not near each other. -/
@[simp] theorem apart_eq (first second : Exact rules) :
    Scalar.apart first second = !Scalar.near first second := by
  have h : Scalar.apart first second = decide (¬(first = second ∨ |first - second| < margin)) :=
    decide_eq_decide.mpr (by rw [not_or, not_lt])
  rw [h, decide_not]
  rfl

theorem margin_nonneg : 0 ≤ (margin : Exact rules) := rules.margin_nonneg

theorem margin_lt_one : (margin : Exact rules) < 1 := rules.margin_lt_one

theorem tolerance_nonneg : 0 ≤ (tolerance : Exact rules) := rules.tolerance_nonneg

/-- A whole number above the tolerance is positive. -/
theorem tolerance_lt_intCast (n : ℤ) : (tolerance : Exact rules) < n ↔ 0 < n := by
  constructor
  · intro h
    exact Int.cast_pos.mp (tolerance_nonneg.trans_lt h)
  · intro h
    have hone : (1 : Exact rules) ≤ n := by exact_mod_cast h
    have hlt : (tolerance : Exact rules) < 1 := rules.tolerance_lt_one
    exact hlt.trans_le hone

/-- Integers are near each other only when they are equal. -/
theorem near_intCast (m n : ℤ) :
    Scalar.near (m : Exact rules) (n : Exact rules) = true ↔ m = n := by
  rw [near_iff, Int.cast_inj, or_iff_left_iff_imp]
  intro h
  have hlt : |((m - n : ℤ) : Exact rules)| < 1 := by
    rw [Int.cast_sub]
    exact h.trans margin_lt_one
  rw [← Int.cast_abs, ← Int.cast_one, Int.cast_lt, Int.abs_lt_one_iff] at hlt
  exact sub_eq_zero.mp hlt

/-- A natural number vanishes only when it is zero. -/
theorem vanishes_natCast (n : ℕ) : Scalar.vanishes (n : Exact rules) = true ↔ n = 0 := by
  rw [Scalar.vanishes, zero_eq, ← Int.cast_zero, ← Int.cast_natCast, near_intCast,
    Int.natCast_eq_zero]

/-- One does not vanish. -/
theorem vanishes_one : Scalar.vanishes (1 : Exact rules) = false := by
  rw [← Nat.cast_one, Bool.eq_false_iff, ne_eq, vanishes_natCast]
  exact one_ne_zero

/-- Without a margin, numbers are near each other only when they are equal. -/
theorem near_iff_eq (h : rules.margin = 0) (first second : Exact rules) :
    Scalar.near first second = true ↔ first = second := by
  have hm : (margin : Exact rules) = 0 := h
  rw [near_iff, or_iff_left_iff_imp, hm]
  exact fun hlt => absurd hlt (abs_nonneg _).not_gt

/-- Without a margin, only one counts as one. -/
theorem isUnit_iff_eq (h : rules.margin = 0) (value : Exact rules) :
    Scalar.isUnit value = true ↔ value = 1 := by
  rw [Scalar.isUnit, one_eq, near_iff_eq h]

/-- A natural power is a number. -/
@[simp] theorem hasPower_natCast (base : Exact rules) (n : ℕ) :
    Scalar.hasPower base (n : Exact rules) = true :=
  congrArg Option.isSome (rules.power?_natCast base n)

/-- A natural power is the product of as many factors. -/
@[simp] theorem power_natCast (base : Exact rules) (n : ℕ) :
    Scalar.power base (n : Exact rules) = base ^ n :=
  congrArg (fun power => power.getD 0) (rules.power?_natCast base n)

@[simp] theorem floor_natCast (n : ℕ) : Scalar.floor (n : Exact rules) = n := by
  change ((⌊(n : Exact rules)⌋ : ℤ) : Exact rules) = n
  rw [Int.floor_natCast, Int.cast_natCast]

@[simp] theorem toInt_natCast (n : ℕ) : Scalar.toInt (n : Exact rules) = n :=
  Int.floor_natCast n

end Exact

end SymbolicForms
