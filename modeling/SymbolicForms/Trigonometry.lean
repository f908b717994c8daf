import SymbolicForms.NumericFactors
import SymbolicForms.Settling
import SymbolicForms.Text

/-!
# Trigonometric identities

Three sweeps change an expression from its leaves to its root: products of a
sine and a cosine and differences of their squares become functions of the
double angle, sums of squares become numbers, and quotients become tangents,
cotangents, secants and cosecants. The sweeps alternate until nothing changes;
numeric factors are folded at the end.
-/

namespace SymbolicForms

/-- A numeric coefficient in front of a pattern in one angle. -/
structure AngleMatch (K : Type) where
  /-- The product of the numeric factors. -/
  coefficient : K
  /-- The angle. -/
  angle : Expr K

namespace AngleMatch

variable {K : Type} [Scalar K]

/-- The same angle, with coefficients near each other. -/
def agrees (m other : AngleMatch K) : Bool :=
  m.angle.same other.angle && Scalar.near m.coefficient other.coefficient

end AngleMatch

namespace Expr

variable {K : Type} [Scalar K]

/-- Apply a rule at each operator, from the leaves to the root: the rule sees an operator after its
operands have been swept. -/
def sweep (rule : Expr K → Expr K) : Expr K → Expr K
  | .const value => .const value
  | .var name => .var name
  | .func name argument => .func name (sweep rule argument)
  | .binary op left right => rule (.binary op (sweep rule left) (sweep rule right))

/-- A product of numbers, one sine and one cosine of the same angle. -/
def sineCosine? (e : Expr K) : Option (AngleMatch K) :=
  match otherFactors e.factors with
  | [.func first angle, .func second angle'] =>
    if first == "sin" && second == "cos" then
      if angle.same angle' then some ⟨numericFactor e.factors, angle⟩ else none
    else if first == "cos" && second == "sin" then
      if angle'.same angle then some ⟨numericFactor e.factors, angle'⟩ else none
    else none
  | _ => none

/-- A product of sine and cosine is found exactly where the two are all factors that are no
numbers; the match has the angle of the sine and the product of the numbers. -/
theorem mem_sineCosine?_iff {e : Expr K} {found : AngleMatch K} :
    found ∈ e.sineCosine? ↔ ∃ angle,
      (otherFactors e.factors = [.func "sin" found.angle, .func "cos" angle] ∨
        otherFactors e.factors = [.func "cos" angle, .func "sin" found.angle]) ∧
      found.angle.same angle = true ∧ found.coefficient = numericFactor e.factors := by
  rw [Option.mem_def]
  unfold sineCosine?
  constructor
  · intro h
    split at h
    · next first angle second angle' heq =>
      split at h
      · next hnames =>
        rw [Bool.and_eq_true, beq_iff_eq, beq_iff_eq] at hnames
        rw [Option.ite_none_right_eq_some, Option.some_inj] at h
        obtain ⟨hsame, rfl⟩ := h
        obtain ⟨rfl, rfl⟩ := hnames
        exact ⟨angle', Or.inl heq, hsame, rfl⟩
      · rw [Option.ite_none_right_eq_some, Option.ite_none_right_eq_some, Option.some_inj,
          Bool.and_eq_true, beq_iff_eq, beq_iff_eq] at h
        obtain ⟨⟨rfl, rfl⟩, hsame, rfl⟩ := h
        exact ⟨angle, Or.inr heq, hsame, rfl⟩
    · cases h
  · rintro ⟨angle, hfactors | hfactors, hsame, hcoefficient⟩
    · simp [hfactors, hsame, ← hcoefficient]
    · simp [hfactors, hsame, ← hcoefficient]

/-- A product of sine and cosine has the sine of the angle of its match for a factor. -/
theorem sine_mem_factors {e : Expr K} {found : AngleMatch K} (h : found ∈ e.sineCosine?) :
    .func "sin" found.angle ∈ e.factors := by
  obtain ⟨angle, hothers, -⟩ := mem_sineCosine?_iff.mp h
  have hmem : .func "sin" found.angle ∈ otherFactors e.factors := by
    rcases hothers with heq | heq <;> simp [heq]
  exact mem_of_mem_otherFactors hmem

/-- A product of numbers and the square of a named function. -/
def square? (function : String) (e : Expr K) : Option (AngleMatch K) :=
  match otherFactors e.factors with
  | [.binary .pow (.func name angle) (.const exponent)] =>
    if name == function && Scalar.near exponent (Scalar.ofInt 2) then
      some ⟨numericFactor e.factors, angle⟩
    else none
  | _ => none

/-- A square of a function is found exactly where a power of it with an exponent near two is the
only factor that is no number; the match has the angle of the function and the product of the
numbers. -/
theorem mem_square?_iff {function : String} {e : Expr K} {found : AngleMatch K} :
    found ∈ e.square? function ↔ ∃ exponent,
      otherFactors e.factors = [.pow (.func function found.angle) (.const exponent)] ∧
      Scalar.near exponent (Scalar.ofInt 2) = true ∧
      found.coefficient = numericFactor e.factors := by
  rw [Option.mem_def]
  unfold square?
  constructor
  · intro h
    split at h
    · next name angle exponent heq =>
      rw [Option.ite_none_right_eq_some, Option.some_inj, Bool.and_eq_true, beq_iff_eq] at h
      obtain ⟨⟨rfl, hnear⟩, rfl⟩ := h
      exact ⟨exponent, heq, hnear, rfl⟩
    · cases h
  · rintro ⟨exponent, hfactors, hnear, hcoefficient⟩
    simp [hfactors, hnear, ← hcoefficient]

/-- A square has a power of the function of its match for a factor. -/
theorem exists_square_mem_factors {function : String} {e : Expr K} {found : AngleMatch K}
    (h : found ∈ e.square? function) :
    ∃ exponent, .pow (.func function found.angle) (.const exponent) ∈ e.factors := by
  obtain ⟨exponent, hothers, -⟩ := mem_square?_iff.mp h
  exact ⟨exponent, mem_of_mem_otherFactors (hothers ▸ List.mem_cons_self)⟩

/-- Squares of two named functions with the same angle and coefficient. -/
def squarePair? (function other : String) (left right : Expr K) : Option (AngleMatch K) :=
  match square? function left, square? other right with
  | some first, some second => if first.agrees second then some first else none
  | _, _ => none

/-- A number times an expression; the factor one is not written. -/
def scaled (factor : K) (e : Expr K) : Expr K :=
  if Scalar.isUnit factor then e else .mul (.number factor) e

/-- Twice an angle. -/
def doubleAngle (angle : Expr K) : Expr K := .mul (.int 2) angle

/-- At the root, `k*sin(t)*cos(t)` is half of `k` times `sin(2*t)`, and `k*cos(t)^2-k*sin(t)^2` is
`k*cos(2*t)`. -/
def doubleAngleRule : Expr K → Expr K
  | .binary .mul left right =>
    match sineCosine? (.mul left right) with
    | some found =>
      scaled (found.coefficient / Scalar.ofInt 2) (.func "sin" (doubleAngle found.angle))
    | none => .mul left right
  | .binary .sub left right =>
    match squarePair? "cos" "sin" left right with
    | some found => scaled found.coefficient (.func "cos" (doubleAngle found.angle))
    | none => .sub left right
  | e => e

/-- At the root, `k*sin(t)^2+k*cos(t)^2` is `k`, in either order. -/
def pythagoreanRule : Expr K → Expr K
  | .binary .add left right =>
    match squarePair? "sin" "cos" left right with
    | some found => .number found.coefficient
    | none =>
      match squarePair? "cos" "sin" left right with
      | some found => .number found.coefficient
      | none => .add left right
  | e => e

/-- At the root, a quotient of sine and cosine of one angle is a tangent or cotangent, and one
divided by either is a secant or cosecant. -/
def quotientRule : Expr K → Expr K
  | .binary .div (.func name angle) (.func name' angle') =>
    if name == "sin" && name' == "cos" && angle.same angle' then .func "tan" angle
    else if name == "cos" && name' == "sin" && angle.same angle' then .func "cot" angle
    else .div (.func name angle) (.func name' angle')
  | .binary .div (.const value) (.func name angle) =>
    if Scalar.isUnit value && name == "cos" then .func "sec" angle
    else if Scalar.isUnit value && name == "sin" then .func "csc" angle
    else .div (.const value) (.func name angle)
  | e => e

/-- Introduce double angles everywhere. -/
def applyDoubleAngle : Expr K → Expr K := sweep doubleAngleRule

/-- Replace sums of squares everywhere. -/
def applyPythagorean : Expr K → Expr K := sweep pythagoreanRule

/-- Replace quotients of sines and cosines everywhere. -/
def applyQuotients : Expr K → Expr K := sweep quotientRule

/-- One round of all identities. -/
def trigonometricRound (e : Expr K) : Expr K :=
  applyQuotients (applyPythagorean (applyDoubleAngle e))

/-- The result of all identities, with numeric factors folded. -/
def trigonometricForm (e : Expr K) : Expr K :=
  foldNumericFactors (settle trigonometricRound roundLimit e)

/-- The result of all identities, with a message about the change. -/
def simplifyTrigonometry (e : Expr K) : Logged (Expr K) := do
  let result := e.trigonometricForm
  Logged.emit .debug "trig" fun _ => e.render ++ " -> " ++ result.render
  return result

/-- Messages aside, simplifying gives the result of all identities. -/
@[simp] theorem value_simplifyTrigonometry (e : Expr K) (threshold : LogLevel) :
    e.simplifyTrigonometry.value threshold = e.trigonometricForm := rfl

end Expr

end SymbolicForms
