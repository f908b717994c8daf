import SymbolicForms.Proofs.Meaning

/-!
# Meaning in a field

In a field of characteristic zero every exact number has its own value, quotients
are those of the field, and a power to a number is a power to the value of that
number. Then the value of an operator depends on the values of its operands only,
whether or not one of them is written as a number. Whatever replaces expressions
by others of the same value can therefore do so at any depth.
-/

namespace SymbolicForms

/-- Numbers of an expression without a margin between them are near each other only when they are
equal, and so only equal expressions count as the same. -/
theorem Expr.same_iff_eq_of_margin {rules : Exactness} (h : rules.margin = 0)
    {first second : Expr (Exact rules)} : first.same second = true ↔ first = second := by
  induction first generalizing second with
  | const value =>
    cases second with
    | const value' => rw [same, Exact.agree_eq, Exact.near_iff_eq h, const.injEq]
    | _ => simp [same]
  | var name => cases second <;> simp [same]
  | func name argument ih => cases second <;> simp [same, ih]
  | binary op left right ihl ihr => cases second <;> simp [same, ihl, ihr]

/-- The meaning of an operator in a field with some meaning of powers. -/
def Op.inField {F : Type*} [Field F] (power : F → F → F) : Op → F → F → F
  | .add, left, right => left + right
  | .sub, left, right => left - right
  | .mul, left, right => left * right
  | .div, left, right => left / right
  | .pow, left, right => power left right

/-- Exact numbers as elements of a field. -/
def Exact.toField {rules : Exactness} (F : Type*) [Field F] [CharZero F] : Exact rules →+* F :=
  Rat.castHom F

namespace Interpretation

variable {rules : Exactness} {F : Type*} [Field F] [CharZero F]

/-- Numbers and quotients are those of the field, and exponents count by their values. -/
structure OverField (I : Interpretation rules F) : Prop where
  /-- Numbers are rational numbers of the field. -/
  number_eq : ∀ value, I.number value = Exact.toField F value
  /-- Quotients are those of the field. -/
  quotient_eq : ∀ left right, I.quotient left right = left / right
  /-- A power to a number is the power to its value. -/
  numericPower_eq : ∀ base exponent, I.numericPower base exponent = I.power base (I.number exponent)

/-- The numbers and quotients of a field, where functions and powers may mean anything. -/
def inField (valuation : String → F) (functions : String → F → F) (power : F → F → F) :
    Interpretation rules F where
  number value := Exact.toField F value
  valuation := valuation
  functions := functions
  quotient left right := left / right
  numericPower base exponent := power base (Exact.toField F exponent)
  power := power

theorem overField_inField (valuation : String → F) (functions : String → F → F)
    (power : F → F → F) :
    (inField valuation functions power : Interpretation rules F).OverField where
  number_eq _ := rfl
  quotient_eq _ _ := rfl
  numericPower_eq _ _ := rfl

namespace OverField

variable {I : Interpretation rules F} (hI : I.OverField)
include hI

/-- The value of an operator depends on the values of its operands only. -/
theorem value_binary (op : Op) (left right : Expr (Exact rules)) :
    (Expr.binary op left right).value I = op.inField I.power (left.value I) (right.value I) := by
  cases op with
  | div => exact hI.quotient_eq _ _
  | pow =>
    cases right with
    | const exponent => exact hI.numericPower_eq _ _
    | _ => rfl
  | _ => rfl

/-- Operands may be replaced by others of the same values. -/
theorem value_binary_congr (op : Op) {left right left' right' : Expr (Exact rules)}
    (hl : left'.value I = left.value I) (hr : right'.value I = right.value I) :
    (Expr.binary op left' right').value I = (Expr.binary op left right).value I := by
  rw [hI.value_binary, hI.value_binary, hl, hr]

theorem number_intCast (n : ℤ) : I.number n = n := by rw [hI.number_eq, map_intCast]

theorem number_one : I.number 1 = 1 := by rw [hI.number_eq, map_one]

theorem number_add (a b : Exact rules) : I.number (a + b) = I.number a + I.number b := by
  rw [hI.number_eq, hI.number_eq, hI.number_eq, map_add]

theorem number_sub (a b : Exact rules) : I.number (a - b) = I.number a - I.number b := by
  rw [hI.number_eq, hI.number_eq, hI.number_eq, map_sub]

theorem number_mul (a b : Exact rules) : I.number (a * b) = I.number a * I.number b := by
  rw [hI.number_eq, hI.number_eq, hI.number_eq, map_mul]

theorem number_div (a b : Exact rules) : I.number (a / b) = I.number a / I.number b := by
  rw [hI.number_eq, hI.number_eq, hI.number_eq, map_div₀]

theorem value_int (n : ℤ) : (Expr.int n : Expr (Exact rules)).value I = n := hI.number_intCast n

/-- The value of a product is the product of the values. -/
theorem value_product (es : List (Expr (Exact rules))) :
    (Expr.product es).value I = (es.map (Expr.value I)).prod :=
  Expr.value_product_of_number_one hI.number_one es

/-- Where natural powers are those of the field, all numbers with natural exponents are
respected. -/
theorem faithful (h : rules.margin = 0)
    (hpower : ∀ (base : F) (n : ℕ), I.power base n = base ^ n) : I.Faithful (.rationals h) where
  number_intCast := hI.number_intCast
  number_add a b _ _ := hI.number_add a b
  number_mul a b _ _ := hI.number_mul a b
  numericPower_natCast base n := by
    have hn : I.number (n : Exact rules) = n := by
      rw [← Int.cast_natCast, hI.number_intCast, Int.cast_natCast]
    rw [hI.numericPower_eq, hn, hpower]
  numericPower_add _ hsigned := False.elim hsigned

end OverField

end Interpretation

end SymbolicForms
