import SymbolicForms.Chain
import SymbolicForms.FunctionPowers
import SymbolicForms.VariablePowers

/-!
# Terms

A term is a product in collected form: a coefficient, powers of variables,
powers of functions, and factors that stay as they are because they are neither
(sums, quotients, and powers of other expressions). Every expression is read as
a term, and terms are multiplied and divided through their exponents.
-/

namespace SymbolicForms

/-- A product in collected form. -/
structure Term (K : Type) where
  /-- The numeric factor. -/
  coefficient : K
  /-- Powers of variables. -/
  variablePowers : VariablePowers K
  /-- Powers of functions. -/
  functionPowers : FunctionPowers K
  /-- The factors that are kept whole, in order. -/
  nested : List (Expr K)
  deriving DecidableEq

namespace Term

variable {K : Type}

/-- A number as a term. -/
def constant (value : K) : Term K := ⟨value, .empty, .empty, []⟩

/-- The term has no factor beside its coefficient. -/
def isConstant (t : Term K) : Bool :=
  t.variablePowers.isEmpty && t.functionPowers.isEmpty && t.nested.isEmpty

variable [Scalar K]

/-- The term of value one. -/
def unit : Term K := constant Scalar.one

/-- An expression kept whole. -/
def whole (e : Expr K) : Term K := ⟨Scalar.one, .empty, .empty, [e]⟩

/-- Powers of variables alone. -/
def ofVariables (powers : VariablePowers K) : Term K := ⟨Scalar.one, powers, .empty, []⟩

/-- Powers of functions alone. -/
def ofFunctions (powers : FunctionPowers K) : Term K := ⟨Scalar.one, .empty, powers, []⟩

/-- The coefficient vanishes. -/
def isZero (t : Term K) : Bool := Scalar.vanishes t.coefficient

/-- As a common factor the term changes nothing: its coefficient is one, and it has no powers. -/
def isUnit (t : Term K) : Bool :=
  Scalar.isUnit t.coefficient && t.variablePowers.isEmpty && t.functionPowers.isEmpty

/-- The sum of the exponents of the variables. -/
def totalDegree (t : Term K) : K := t.variablePowers.degree

/-- The product of two terms. -/
def multiply (t other : Term K) : Term K where
  coefficient := t.coefficient * other.coefficient
  variablePowers := t.variablePowers.merge other.variablePowers
  functionPowers := t.functionPowers.merge other.functionPowers
  nested := t.nested ++ other.nested

/-- The quotient of two terms; factors kept whole in the divisor are not divided by. -/
def divide (t divisor : Term K) : Term K where
  coefficient := t.coefficient / divisor.coefficient
  variablePowers := t.variablePowers.remove divisor.variablePowers
  functionPowers := t.functionPowers.remove divisor.functionPowers
  nested := t.nested

/-- The power of a base to a number. Variables and functions take the exponent, numbers are
evaluated unless the power is no finite number, and any other base is kept whole. -/
def ofPower (base : Expr K) (exponent : K) : Term K :=
  match base with
  | .var name => ofVariables (VariablePowers.empty.accumulate name exponent)
  | .const value =>
    if Scalar.hasPower value exponent then constant (Scalar.power value exponent)
    else whole (.pow base (.const exponent))
  | .func name argument => ofFunctions (.single ⟨name, argument⟩ exponent)
  | .binary _ _ _ => whole (.pow base (.const exponent))

/-- A single factor as a term. -/
def ofFactor : Expr K → Term K
  | .const value => constant value
  | .var name => ofVariables (.single name Scalar.one)
  | .func name argument => ofFunctions (.single ⟨name, argument⟩ Scalar.one)
  | .binary .pow base (.const exponent) => ofPower base exponent
  | e => whole e

/-- An expression as a term: a product is the product of its factors. -/
def ofExpr : Expr K → Term K
  | .binary .mul left right =>
    (Expr.mul left right).factors.foldl (fun t factor => t.multiply (ofFactor factor)) unit
  | e => ofFactor e

/-- What holds of one and of the terms of the factors, and is kept by products, holds of the term of
an expression. -/
theorem ofExpr_induction {P : Term K → Prop} (hunit : P unit)
    (hmultiply : ∀ t other, P t → P other → P (t.multiply other)) {e : Expr K}
    (h : ∀ factor ∈ e.factors, P (ofFactor factor)) : P (ofExpr e) := by
  unfold ofExpr
  split
  · exact List.foldlRecOn _ _ hunit fun t ht factor hf => hmultiply t _ ht (h factor hf)
  · next hmul =>
    have hself : e ∈ e.factors := by
      cases e with
      | binary op left right =>
        cases op with
        | mul => exact absurd rfl (hmul left right)
        | _ => exact List.mem_singleton_self _
      | _ => exact List.mem_singleton_self _
    exact h e hself

/-- A power read as a term keeps whole nothing but the power. -/
theorem nested_ofPower_subset (base : Expr K) (exponent : K) :
    (ofPower base exponent).nested ⊆ [.pow base (.const exponent)] := by
  unfold ofPower
  split
  · exact List.nil_subset _
  · split
    · exact List.nil_subset _
    · exact List.Subset.refl _
  · exact List.nil_subset _
  · exact List.Subset.refl _

/-- A factor read as a term keeps whole nothing but itself. -/
theorem nested_ofFactor_subset (e : Expr K) : (ofFactor e).nested ⊆ [e] := by
  unfold ofFactor
  split
  · exact List.nil_subset _
  · exact List.nil_subset _
  · exact List.nil_subset _
  · exact nested_ofPower_subset _ _
  · exact List.Subset.refl _

/-- An expression read as a term keeps whole some of its factors. -/
theorem nested_ofExpr_subset_factors (e : Expr K) : (ofExpr e).nested ⊆ e.factors :=
  ofExpr_induction (P := fun t => t.nested ⊆ e.factors) (List.nil_subset _)
    (fun _ _ ht ho => List.append_subset.mpr ⟨ht, ho⟩) fun factor hf =>
      List.Subset.trans (nested_ofFactor_subset factor)
        (List.cons_subset.mpr ⟨hf, List.nil_subset _⟩)

/-- An expression raised to an exponent; the exponent one is not written. -/
def powerExpr (base : Expr K) (exponent : K) : Expr K :=
  if Scalar.isUnit exponent then base else .pow base (.number exponent)

/-- The powers of the variables as expressions, without those whose exponent vanishes. -/
def variableFactors (t : Term K) : List (Expr K) :=
  (t.variablePowers.entries.filter fun entry => !Scalar.vanishes entry.2).map fun entry =>
    powerExpr (.var entry.1) entry.2

/-- The powers of the functions as expressions in the order of their texts. -/
def functionFactors (t : Term K) : List (Expr K) :=
  (t.functionPowers.sorted.filter fun entry => !Scalar.vanishes entry.2).map fun entry =>
    powerExpr entry.1.toExpr entry.2

/-- The factors of a term beside its coefficient. -/
def baseFactors (t : Term K) : List (Expr K) := t.variableFactors ++ t.functionFactors ++ t.nested

/-- A factor of a term beside its coefficient is a power of a variable, a power of a function, or
kept whole. -/
theorem cases_of_mem_baseFactors {t : Term K} {factor : Expr K} (h : factor ∈ t.baseFactors) :
    (∃ entry ∈ t.variablePowers.entries, factor = powerExpr (.var entry.1) entry.2) ∨
      (∃ entry ∈ t.functionPowers.entries, factor = powerExpr entry.1.toExpr entry.2) ∨
      factor ∈ t.nested := by
  simp only [baseFactors, variableFactors, functionFactors, List.mem_append, List.mem_map,
    List.mem_filter] at h
  obtain (⟨entry, ⟨hentry, -⟩, rfl⟩ | ⟨entry, ⟨hentry, -⟩, rfl⟩) | h := h
  · exact Or.inl ⟨entry, hentry, rfl⟩
  · exact Or.inr (Or.inl ⟨entry, t.functionPowers.sorted_perm.mem_iff.mp hentry, rfl⟩)
  · exact Or.inr (Or.inr h)

/-- A term as an expression: zero when it vanishes, else its coefficient, where it is not one, in
front of the product of the other factors. -/
def toExpr (t : Term K) : Expr K :=
  if t.isZero then .int 0
  else if t.baseFactors.isEmpty then .number t.coefficient
  else if Scalar.isUnit t.coefficient then .product t.baseFactors
  else if Scalar.near t.coefficient (Scalar.ofInt (-1)) then
    .mul (.int (-1)) (.product t.baseFactors)
  else .mul (.number t.coefficient) (.product t.baseFactors)

/-- What holds of numbers and of the product of the other factors, and passes to products with a
number in front, holds of a term in writing. -/
theorem toExpr_induction {P : Expr K → Prop} (hconst : ∀ value, P (.const value))
    (hscale : ∀ value e, P e → P (.mul (.const value) e)) {t : Term K}
    (hproduct : P (.product t.baseFactors)) : P t.toExpr := by
  unfold toExpr
  split
  · exact hconst _
  · split
    · exact hconst _
    · split
      · exact hproduct
      · split
        · exact hscale _ _ hproduct
        · exact hscale _ _ hproduct

/-- The text of a power in a key. -/
def powerKey (base : String) (exponent : K) : String :=
  if Scalar.isUnit exponent then base else base ++ "^" ++ Scalar.text exponent

/-- The texts of the factors beside the coefficient. -/
def baseKeyParts (t : Term K) : List String :=
  (t.variablePowers.entries.map fun entry => powerKey entry.1 entry.2) ++
    (t.functionPowers.sorted.map fun entry => powerKey entry.1.text entry.2) ++
    t.nested.map Expr.key

/-- Add a part to a key. There is no sign in front of the first part that is not empty. -/
def appendKeyPart (text part : String) : String :=
  if text.isEmpty then part else text ++ "*" ++ part

/-- The key of a term without its coefficient. -/
def baseKey (t : Term K) : String :=
  let text := t.baseKeyParts.foldl appendKeyPart ""
  if text.isEmpty then "1" else text

/-- The terms differ at most in their coefficients. -/
def similar (t other : Term K) : Bool :=
  t.variablePowers.same other.variablePowers && t.functionPowers.same other.functionPowers &&
    t.nested.length == other.nested.length &&
    (t.nested.zip other.nested).all fun pair => pair.1.same pair.2

/-- The sum of two similar terms. -/
def merge? (t other : Term K) : Option (Term K) :=
  if t.similar other then some { t with coefficient := t.coefficient + other.coefficient } else none

/-- Similar terms are added by their coefficients. -/
theorem merge?_eq_some_iff {t other total : Term K} :
    t.merge? other = some total ↔ t.similar other = true ∧
      total = { t with coefficient := t.coefficient + other.coefficient } := by
  rw [merge?, Option.ite_none_right_eq_some, Option.some_inj, eq_comm (a := total)]

/-- The order of terms in a sum: constants last, higher degrees first, then by key, and by
coefficient among terms of one key. -/
def precedes (t other : Term K) : Bool :=
  if t.isConstant != other.isConstant then other.isConstant
  else if Scalar.apart t.totalDegree other.totalDegree then
    Scalar.lt other.totalDegree t.totalDegree
  else if t.baseKey != other.baseKey then decide (t.baseKey < other.baseKey)
  else Scalar.lt t.coefficient other.coefficient

end Term

end SymbolicForms
