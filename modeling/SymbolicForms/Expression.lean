import SymbolicForms.Scalar

/-!
# Expressions

An expression is a number, a variable, a function of one argument, or two
expressions joined by an operator. Two expressions are the same when they have
the same shape and names and their numbers agree. A draft is an expression in
which operands may still be missing.
-/

namespace SymbolicForms

/-- The binary operators. -/
inductive Op where
  /-- Sum. -/
  | add
  /-- Difference. -/
  | sub
  /-- Product. -/
  | mul
  /-- Quotient. -/
  | div
  /-- Power. -/
  | pow
  deriving DecidableEq, Repr

/-- The value of an operator, as a new number. -/
def Op.apply {K : Type} [Scalar K] (op : Op) (left right : K) : K :=
  Scalar.fresh (match op with
    | .add => left + right
    | .sub => left - right
    | .mul => left * right
    | .div => left / right
    | .pow => Scalar.power left right)

/-- Expressions over a type of numbers. -/
inductive Expr (K : Type) where
  /-- A number. -/
  | const (value : K)
  /-- A variable. -/
  | var (name : String)
  /-- A function applied to its argument. -/
  | func (name : String) (argument : Expr K)
  /-- Two operands joined by an operator. -/
  | binary (op : Op) (left right : Expr K)
  deriving DecidableEq, Repr

namespace Expr

variable {K : Type}

/-- A sum of two expressions. -/
abbrev add (left right : Expr K) : Expr K := .binary .add left right

/-- A difference of two expressions. -/
abbrev sub (left right : Expr K) : Expr K := .binary .sub left right

/-- A product of two expressions. -/
abbrev mul (left right : Expr K) : Expr K := .binary .mul left right

/-- A quotient of two expressions. -/
abbrev div (left right : Expr K) : Expr K := .binary .div left right

/-- A power of one expression to another. -/
abbrev pow (base exponent : Expr K) : Expr K := .binary .pow base exponent

/-- The value of a number. -/
def number? : Expr K → Option K
  | .const value => some value
  | _ => none

/-- The expression is a number. -/
def isNumber (e : Expr K) : Bool := e.number?.isSome

/-- What is not written as a number is no number. -/
theorem isNumber_eq_false {e : Expr K} (h : ∀ value, e ≠ .const value) : e.isNumber = false := by
  cases e with
  | const value => exact absurd rfl (h value)
  | _ => rfl

/-- The expression is a sum or a difference. -/
def isSum : Expr K → Bool
  | .binary .add _ _ => true
  | .binary .sub _ _ => true
  | _ => false

variable [Scalar K]

/-- A computed number as a new expression. -/
def number (value : K) : Expr K := .const (Scalar.fresh value)

/-- The number that an integer denotes. -/
def int (value : Int) : Expr K := .const (Scalar.ofInt value)

/-- The expression is a number near the given one. -/
def isNear (e : Expr K) (value : K) : Bool :=
  match e with
  | .const number => Scalar.near number value
  | _ => false

/-- What is no number is near none. -/
theorem isNear_eq_false {e : Expr K} (h : e.isNumber = false) (value : K) :
    e.isNear value = false := by
  cases e with
  | const number => cases h
  | _ => rfl

/-- The expression is a number near zero. -/
def isZero (e : Expr K) : Bool := e.isNear Scalar.zero

/-- The expression is a number near one. -/
def isOne (e : Expr K) : Bool := e.isNear Scalar.one

/-- Equality of shape and names, with numbers that agree. -/
def same : Expr K → Expr K → Bool
  | .const first, .const second => Scalar.agree first second
  | .var first, .var second => first == second
  | .func first argument, .func second argument' => first == second && same argument argument'
  | .binary op left right, .binary op' left' right' =>
    op == op' && (same left left' && same right right')
  | _, _ => false

end Expr

/-- Expressions in which any operand may be missing. -/
inductive Draft (K : Type) where
  /-- A missing expression. -/
  | hole
  /-- A number. -/
  | const (value : K)
  /-- A variable. -/
  | var (name : String)
  /-- A function applied to its argument. -/
  | func (name : String) (argument : Draft K)
  /-- Two operands joined by an operator. -/
  | binary (op : Op) (left right : Draft K)

namespace Draft

variable {K : Type}

/-- A complete expression as a draft. -/
def ofExpr : Expr K → Draft K
  | .const value => .const value
  | .var name => .var name
  | .func name argument => .func name (ofExpr argument)
  | .binary op left right => .binary op (ofExpr left) (ofExpr right)

variable [Scalar K]

/-- Equality of drafts: a missing expression equals only a missing one. -/
def same : Draft K → Draft K → Bool
  | .hole, .hole => true
  | .const first, .const second => Scalar.agree first second
  | .var first, .var second => first == second
  | .func first argument, .func second argument' => first == second && same argument argument'
  | .binary op left right, .binary op' left' right' =>
    op == op' && (same left left' && same right right')
  | _, _ => false

/-- On complete expressions the comparison of drafts is that of expressions. -/
theorem same_ofExpr (first second : Expr K) :
    same (ofExpr first) (ofExpr second) = Expr.same first second := by
  induction first generalizing second with
  | const value => cases second <;> rfl
  | var name => cases second <;> rfl
  | func name argument ih => cases second <;> simp [ofExpr, same, Expr.same, ih]
  | binary op left right ihl ihr => cases second <;> simp [ofExpr, same, Expr.same, ihl, ihr]

end Draft

end SymbolicForms
