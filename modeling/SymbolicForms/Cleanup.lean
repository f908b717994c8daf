import SymbolicForms.Expression

/-!
# Cleanup passes

Four sweeps from the leaves to the root: operators between numbers are
evaluated, zeros and ones that do nothing are removed, and trivial powers are
replaced.
-/

namespace SymbolicForms

namespace Op

variable {K : Type} [Scalar K]

/-- An operator between two numbers is evaluated. Divisions by a number near zero and powers that
are no finite numbers are left. -/
def isFoldable (op : Op) (left right : K) : Bool :=
  match op with
  | .add => true
  | .sub => true
  | .mul => true
  | .div => !Scalar.le (Scalar.abs right) Scalar.tolerance
  | .pow => Scalar.hasPower left right

/-- Two operands joined by an operator, evaluated if both are numbers. -/
def foldNumbers (op : Op) (left right : Expr K) : Expr K :=
  match left, right with
  | .const first, .const second =>
    if op.isFoldable first second then .const (op.apply first second)
    else .binary op (.const first) (.const second)
  | _, _ => .binary op left right

/-- Two operands joined by an operator, without zeros: nothing is added to a zero, and a product
with a zero is zero. -/
def removeZero (op : Op) (left right : Expr K) : Expr K :=
  match op with
  | .add => if left.isZero then right else if right.isZero then left else .add left right
  | .mul => if left.isZero || right.isZero then .int 0 else .mul left right
  | _ => .binary op left right

/-- Two operands joined by an operator, without factors of one. -/
def removeOne (op : Op) (left right : Expr K) : Expr K :=
  match op with
  | .mul => if left.isOne then right else if right.isOne then left else .mul left right
  | _ => .binary op left right

/-- Two operands joined by an operator, without powers to zero or one. -/
def removePower (op : Op) (left right : Expr K) : Expr K :=
  match op with
  | .pow => if right.isZero then .int 1 else if right.isOne then left else .pow left right
  | _ => .binary op left right

end Op

namespace Expr

variable {K : Type} [Scalar K]

/-- Join cleaned operands by a rule, from the leaves to the root. -/
def rebuild (join : Op → Expr K → Expr K → Expr K) : Expr K → Expr K
  | .const value => .const value
  | .var name => .var name
  | .func name argument => .func name (rebuild join argument)
  | .binary op left right => join op (rebuild join left) (rebuild join right)

/-- Evaluate the operators between numbers. -/
def foldConstants : Expr K → Expr K := rebuild Op.foldNumbers

/-- Remove zeros from sums, and products with zeros. -/
def removeZeros : Expr K → Expr K := rebuild Op.removeZero

/-- Remove ones from products. -/
def removeOnes : Expr K → Expr K := rebuild Op.removeOne

/-- Replace powers to zero by one, and powers to one by their base. -/
def simplifyPowers : Expr K → Expr K := rebuild Op.removePower

end Expr

end SymbolicForms
