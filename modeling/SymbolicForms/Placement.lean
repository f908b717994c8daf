import SymbolicForms.Expression

/-!
# Placement of numbers

Before a step, the numbers of an expression are put at their places: they are
counted from left to right, and the step is added to the steps that led to the
expression. What the step computes from them is thereby told apart from all that
earlier steps and other numbers gave.
-/

namespace SymbolicForms

namespace Expr

variable {K : Type} [Scalar K]

/-- The steps that led to an expression; its leftmost number that knows them tells. -/
def steps : Expr K → List Nat
  | .const value => Scalar.steps value
  | .var _ => []
  | .func _ argument => steps argument
  | .binary _ left right =>
    match steps left with
    | [] => steps right
    | step :: earlier => step :: earlier

/-- Put the numbers of an expression at their places, given how many numbers stand to the left of
it. The second result counts the numbers up to its end. -/
def putFrom (steps : List Nat) (index : Nat) : Expr K → Expr K × Nat
  | .const value => (.const (Scalar.putAt ⟨steps, index⟩ value), index + 1)
  | .var name => (.var name, index)
  | .func name argument =>
    let placed := putFrom steps index argument
    (.func name placed.1, placed.2)
  | .binary op left right =>
    let first := putFrom steps index left
    let second := putFrom steps first.2 right
    (.binary op first.1 second.1, second.2)

/-- The expression with its numbers put at their places for a further step. -/
def placed (step : Nat) (e : Expr K) : Expr K := (e.putFrom (step :: e.steps) 0).1

/-- Where numbers do not know their places, putting them there changes nothing. -/
theorem putFrom_eq_self (hput : ∀ (place : Place) (value : K), Scalar.putAt place value = value)
    (steps : List Nat) (index : Nat) (e : Expr K) : (e.putFrom steps index).1 = e := by
  induction e generalizing index with
  | const value => exact congrArg Expr.const (hput _ value)
  | var name => rfl
  | func name argument ih => exact congrArg (Expr.func name) (ih index)
  | binary op left right ihl ihr => simp only [putFrom, ihl, ihr]

/-- Where numbers do not know their places, a placed expression is the expression itself. -/
theorem placed_eq_self (hput : ∀ (place : Place) (value : K), Scalar.putAt place value = value)
    (step : Nat) (e : Expr K) : e.placed step = e := putFrom_eq_self hput _ _ e

end Expr

end SymbolicForms
