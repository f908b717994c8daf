import SymbolicForms.Log
import SymbolicForms.Term

/-!
# Common factors of a sum

The common factor of a list of terms has the greatest common divisor of their
coefficients, and the smallest exponent of every variable and function that all
of them have. A sum with a common factor is written as that factor times the sum
of the quotients.
-/

namespace SymbolicForms

/-- The number of division steps after which two coefficients count as having no common divisor. -/
def divisionStepLimit : Nat := 64

namespace Scalar

variable {K : Type} [Scalar K]

/-- Repeated division with remainder, until the remainder vanishes. -/
def divisorSteps : Nat → K → K → K
  | 0, _, _ => one
  | limit + 1, first, second =>
    if vanishes second then first else divisorSteps limit second (remainder first second)

/-- The greatest common divisor of two magnitudes; one if it is not found in time. -/
def commonDivisor (first second : K) : K :=
  divisorSteps divisionStepLimit (abs first) (abs second)

end Scalar

/-- Factors in two parts: powers of functions, collected, and all others. -/
structure PowerSplit (K : Type) where
  /-- The collected powers of functions. -/
  powers : FunctionPowers K
  /-- The other factors in order. -/
  others : List (Expr K)

namespace PowerSplit

variable {K : Type} [Scalar K]

/-- A function, or a function raised to a number. -/
def functionPower? : Expr K → Option (FunctionKey K × K)
  | .func name argument => some (⟨name, argument⟩, Scalar.one)
  | .binary .pow (.func name argument) (.const exponent) => some (⟨name, argument⟩, exponent)
  | _ => none

/-- A factor is read as a power exactly where it is the function itself, which has the exponent one,
or the function raised to the exponent. -/
theorem functionPower?_eq_some_iff {factor : Expr K} {power : FunctionKey K × K} :
    functionPower? factor = some power ↔
      factor = power.1.toExpr ∧ power.2 = Scalar.one ∨
        factor = .pow power.1.toExpr (.const power.2) := by
  obtain ⟨⟨name, argument⟩, exponent⟩ := power
  constructor
  · intro h
    unfold functionPower? at h
    split at h <;> cases h
    · exact Or.inl ⟨rfl, rfl⟩
    · exact Or.inr rfl
  · rintro (⟨rfl, rfl⟩ | rfl) <;> rfl

/-- Split factors by a test of the name of the function. -/
def ofFactors (accepts : String → Bool) (factors : List (Expr K)) : PowerSplit K :=
  let power? (factor : Expr K) := (functionPower? factor).filter fun power => accepts power.1.name
  { powers := (factors.filterMap power?).foldl
      (fun powers power => powers.accumulate power.1 power.2) .empty
    others := factors.filter fun factor => (power? factor).isNone }

/-- The factors of a split, functions last. -/
def factors (split : PowerSplit K) : List (Expr K) :=
  split.others ++ split.powers.entries.map fun entry => Term.powerExpr entry.1.toExpr entry.2

end PowerSplit

namespace Term

variable {K : Type} [Scalar K]

/-- The smallest of some exponents, if all of them are present. -/
def leastExponent? (first : K) (others : List (Option K)) : Option K :=
  others.foldl (fun least other =>
    match least, other with
    | some least, some other => some (Scalar.least least other)
    | _, _ => none) (some first)

/-- The smallest of some exponents, if all of them are present and it is positive. -/
def sharedExponent? (first : K) (others : List (Option K)) : Option K :=
  (leastExponent? first others).filter fun least => Scalar.lt Scalar.tolerance least

/-- The greatest common divisor of the coefficients; one when they all vanish. -/
def commonCoefficient (first : Term K) (others : List (Term K)) : K :=
  let divisor := others.foldl (fun divisor t => Scalar.commonDivisor divisor t.coefficient)
    (Scalar.abs first.coefficient)
  if Scalar.vanishes divisor then Scalar.one else divisor

/-- The powers of variables that all terms share. -/
def commonVariables (first : Term K) (others : List (Term K)) : VariablePowers K :=
  .ofList (first.variablePowers.entries.filterMap fun entry =>
    (sharedExponent? entry.2 (others.map fun t => t.variablePowers.get? entry.1)).map (entry.1, ·))

/-- The shared variables stay in the order of the first term. -/
theorem entries_commonVariables (first : Term K) (others : List (Term K)) :
    (commonVariables first others).entries = first.variablePowers.entries.filterMap fun entry =>
      (sharedExponent? entry.2 (others.map fun t => t.variablePowers.get? entry.1)).map
        (entry.1, ·) := by
  refine VariablePowers.entries_ofList (List.Pairwise.filterMap _
    (fun before after hlt before' hbefore after' hafter => ?_) first.variablePowers.ordered)
  obtain ⟨-, -, rfl⟩ := Option.map_eq_some_iff.mp hbefore
  obtain ⟨-, -, rfl⟩ := Option.map_eq_some_iff.mp hafter
  exact hlt

/-- The powers of functions that all terms share. -/
def commonFunctions (first : Term K) (others : List (Term K)) : FunctionPowers K :=
  let shared := first.functionPowers.entries.filterMap fun entry =>
    (sharedExponent? entry.2 (others.map fun t => t.functionPowers.get? entry.1)).map (entry.1, ·)
  shared.foldl (fun powers entry => powers.set entry.1 entry.2) .empty

/-- The greatest common factor of a list of terms. -/
def commonFactor : List (Term K) → Term K
  | [] => unit
  | first :: others =>
    ⟨commonCoefficient first others, commonVariables first others, commonFunctions first others, []⟩

/-- Every term has at least the exponents of the factor. -/
def isCovered (factor : Term K) (terms : List (Term K)) : Bool :=
  terms.all fun t =>
    (factor.variablePowers.entries.all fun entry =>
      !Scalar.lt ((t.variablePowers.get? entry.1).getD Scalar.zero) (entry.2 - Scalar.tolerance)) &&
    factor.functionPowers.entries.all fun entry =>
      !Scalar.lt (t.functionPowers.get entry.1 Scalar.zero) (entry.2 - Scalar.tolerance)

/-- A factor times the sum of the quotients of the terms; a trivial factor is not written. -/
def factored (terms : List (Term K)) (factor : Term K) : Expr K :=
  let rest := Expr.sum (terms.map fun t => (t.divide factor).toExpr)
  if factor.isUnit then rest else .mul factor.toExpr rest

end Term

namespace Expr

variable {K : Type} [Scalar K]

/-- Collect the powers of equal functions in one product. A quotient stays as it is, and so does a
product in which nothing can be collected. -/
def collectFunctions : Expr K → Expr K
  | .binary .div numerator denominator => .div numerator denominator
  | e =>
    if e.factors.length ≤ 1 then e
    else
      let collected := (PowerSplit.ofFactors (fun _ => true) e.factors).factors
      if collected.length = e.factors.length then e else product collected

/-- Where nothing can be collected an expression stays as it is, and so does a quotient, which is
its only factor. -/
theorem collectFunctions_eq (e : Expr K) :
    e.collectFunctions =
      let collected := (PowerSplit.ofFactors (fun _ => true) e.factors).factors
      if e.factors.length ≤ 1 ∨ collected.length = e.factors.length then e
      else product collected := by
  unfold collectFunctions
  split
  · exact (if_pos (Or.inl (Nat.le_refl 1))).symm
  · split
    · next hshort => exact (if_pos (Or.inl hshort)).symm
    · next hlong => simp only [hlong, false_or]

/-- The terms of a sum, with the functions of each addend collected. -/
def factorTerms (e : Expr K) : List (Term K) :=
  e.addends.map fun a => Term.ofExpr a.collectFunctions

/-- The common factor of the addends of a sum, unless it is trivial. -/
def commonFactor? (e : Expr K) : Option (Term K) :=
  if !e.isSum || e.factorTerms.length < 2 then none
  else
    let factor := Term.commonFactor e.factorTerms
    if factor.isUnit then none else some factor

/-- A sum with its common factor taken out, or nothing if there is no factor to take out. A factor
that some addend does not cover is reduced to its coefficient. -/
def factorOut? (e : Expr K) : Option (Expr K) :=
  e.commonFactor?.map fun factor =>
    Term.factored e.factorTerms
      (if factor.isCovered e.factorTerms then factor else .constant factor.coefficient)

/-- A sum with its common factor taken out, with a message if that factor had to be reduced. -/
def extractFactor? (e : Expr K) : Logged (Option (Expr K)) := do
  match e.commonFactor? with
  | none => return none
  | some factor =>
    unless factor.isCovered e.factorTerms do
      Logged.emit .debug "factor" fun _ =>
        "exponent check failed for " ++ e.render ++ ", coefficient only"
    return e.factorOut?

/-- Messages aside, extraction takes the common factor out. -/
@[simp] theorem value_extractFactor? (e : Expr K) (threshold : LogLevel) :
    e.extractFactor?.value threshold = e.factorOut? := by
  unfold extractFactor?
  split
  · next h => simp [factorOut?, h]
  · next factor h =>
    split <;> simp

/-- A sum with its common factor taken out, or the expression as it is. -/
def extractFactor (e : Expr K) : Logged (Expr K) := do
  return (← e.extractFactor?).getD e

end Expr

end SymbolicForms
