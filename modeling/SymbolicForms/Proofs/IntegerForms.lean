import Mathlib.Analysis.SpecialFunctions.Exp
import SymbolicForms.Proofs.FactorRoundTrip
import SymbolicForms.Proofs.FormsMeaning

/-!
# Forms of integer expressions

Where all numbers are integers, the margin tells them apart, and factoring and
cancelling keep values with the margin as it is. The field may have any
characteristic, because an integer coefficient is divided only by a divisor.
Exponents may be expressions, whose powers mean anything; those that are numbers
are natural, except that an exponential, which is never zero, may have negative
ones too.
-/

namespace SymbolicForms

variable {rules : Exactness}

/-- Integers, all names and all exponents that are no numbers; an exponent that is a number is
natural or belongs to an exponential. -/
def Vocabulary.signedExponentials : Vocabulary rules where
  numbers := (Vocabulary.integers fun _ => True).numbers
  separated := (Vocabulary.integers fun _ => True).separated
  names := fun _ => True
  signed := fun name => name = Expr.exponentialName
  openPowers := True

/-- Integer coefficients can be divided by their common divisor, whatever the exponents are. -/
theorem Vocabulary.dividesOut_signedExponentials :
    (Vocabulary.signedExponentials : Vocabulary rules).DividesOut :=
  Vocabulary.dividesOut_integers fun _ => True

namespace Interpretation

variable {F : Type*} [Field F]

/-- Integers, quotients and integer powers of a field, where functions and all other powers may
mean anything. -/
def withIntegers (valuation : String → F) (functions : String → F → F) (power : F → F → F) :
    Interpretation rules F where
  number value := (⌊value⌋ : F)
  valuation := valuation
  functions := functions
  quotient left right := left / right
  numericPower base exponent := base ^ ⌊exponent⌋
  power := power

/-- Integers and their powers are respected where exponentials are not zero. -/
theorem faithful_withIntegers (valuation : String → F) {functions : String → F → F}
    (power : F → F → F) (hexp : ∀ t, functions "exp" t ≠ 0) :
    Faithful (withIntegers valuation functions power : Interpretation rules F)
      .signedExponentials where
  number_intCast n := by simp [withIntegers]
  number_add := by
    rintro _ _ ⟨m, rfl⟩ ⟨n, rfl⟩
    simp [withIntegers]
  number_mul := by
    rintro _ _ ⟨m, rfl⟩ ⟨n, rfl⟩
    simp [withIntegers, ← Int.cast_mul]
  numericPower_natCast base n := by simp [withIntegers]
  numericPower_add := by
    rintro _ rfl argument m n
    have hne : functions Expr.exponentialName argument ≠ 0 := hexp argument
    simpa only [withIntegers, Int.floor_intCast] using zpow_add₀ hne m n

end Interpretation

namespace Expr

/-- Every form of an expression of integers has its value in every field in which exponentials are
not zero. -/
theorem value_of_mem_allForms {F : Type*} [Field F] (valuation : String → F)
    {functions : String → F → F} (power : F → F → F) (hexp : ∀ t, functions "exp" t ≠ 0)
    {e : Expr (Exact rules)} (h : e.Within .signedExponentials) (threshold : LogLevel) :
    ∀ form ∈ e.allForms.value threshold,
      form.expression.value (.withIntegers valuation functions power) =
        e.value (.withIntegers valuation functions power) := by
  have hforms := haveValue_allForms
    (Interpretation.faithful_withIntegers valuation power hexp) (fun _ _ => rfl) hexp
    Vocabulary.dividesOut_signedExponentials h threshold
  exact fun form hform => (hforms form hform).2

/-- The quotient `(6 * exp(x)^2 * x^y - 4 * exp(x)) / (exp(x)^(-3) * 4)`. -/
def quotientOfSignedPowers : Expr (Exact .standard) :=
  let exponential : Expr (Exact .standard) := .func "exp" (.var "x")
  .div (.sub (.mul (.mul (.int 6) (.pow exponential (.int 2))) (.pow (.var "x") (.var "y")))
    (.mul (.int 4) exponential)) (.mul (.pow exponential (.int (-3))) (.int 4))

theorem value_of_mem_allForms_quotientOfSignedPowers :
    quotientOfSignedPowers.Within .signedExponentials ∧
      ∀ form ∈ quotientOfSignedPowers.allForms.value .off,
        form.expression.value (.withIntegers (fun _ => 2) (fun _ => Real.exp) fun _ _ => 5) =
          quotientOfSignedPowers.value
            (.withIntegers (fun _ => 2) (fun _ => Real.exp) fun _ _ => 5) := by
  have hexponential : (Expr.func "exp" (.var "x") : Expr (Exact .standard)).Within
      .signedExponentials := ⟨trivial, trivial⟩
  have hpower (n : ℤ) : (Expr.pow (.func "exp" (.var "x")) (.int n) :
      Expr (Exact .standard)).Within .signedExponentials :=
    hexponential.pow ⟨n, rfl, Or.inr rfl⟩
  have hopen : (Expr.pow (.var "x") (.var "y") : Expr (Exact .standard)).Within
      .signedExponentials := ⟨trivial, trivial, trivial⟩
  have hnumerator : (Expr.sub (.mul (.mul (.int 6) (.pow (.func "exp" (.var "x")) (.int 2)))
      (.pow (.var "x") (.var "y"))) (.mul (.int 4) (.func "exp" (.var "x"))) :
        Expr (Exact .standard)).Within .signedExponentials :=
    ⟨((within_int 6).mul (hpower 2)).mul hopen, (within_int 4).mul hexponential, trivial⟩
  have hwithin : quotientOfSignedPowers.Within .signedExponentials :=
    hnumerator.div ((hpower (-3)).mul (within_int 4))
  exact ⟨hwithin, value_of_mem_allForms _ _ Real.exp_ne_zero hwithin .off⟩

end Expr

end SymbolicForms
