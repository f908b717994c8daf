import SymbolicForms.Expression

/-!
# Sizes of expressions

Counts of nodes, operators and functions, and an estimate of the work that
differentiating an expression takes. Products, quotients and powers weigh more
than sums, because their rules copy the operands.
-/

namespace SymbolicForms

namespace Expr

variable {K : Type}

/-- The number of nodes. -/
def nodeCount : Expr K → Nat
  | .const _ => 1
  | .var _ => 1
  | .func _ argument => 1 + nodeCount argument
  | .binary _ left right => 1 + nodeCount left + nodeCount right

/-- The number of nodes with the given operator. -/
def opCount (op : Op) : Expr K → Nat
  | .const _ => 0
  | .var _ => 0
  | .func _ argument => opCount op argument
  | .binary op' left right => (if op' = op then 1 else 0) + opCount op left + opCount op right

/-- The number of functions. -/
def functionCount : Expr K → Nat
  | .const _ => 0
  | .var _ => 0
  | .func _ argument => 1 + functionCount argument
  | .binary _ left right => functionCount left + functionCount right

variable [Scalar K]

/-- The estimated work of differentiating an expression. A power with a number for its exponent
follows a cheaper rule than other powers. -/
def differentiationCost : Expr K → K
  | .const _ => Scalar.zero
  | .var _ => Scalar.one
  | .func _ argument => Scalar.ofInt 3 + differentiationCost argument
  | .binary .add left right => differentiationCost left + differentiationCost right + Scalar.one
  | .binary .sub left right => differentiationCost left + differentiationCost right + Scalar.one
  | .binary .mul left right =>
    (differentiationCost left + differentiationCost right) * Scalar.ofInt 2
  | .binary .div left right =>
    (differentiationCost left + differentiationCost right) * Scalar.ofInt 3
  | .binary .pow base (.const _) =>
    Scalar.ofInt 2 * differentiationCost base + Scalar.ofInt 2
  | .binary .pow base exponent =>
    (differentiationCost base + differentiationCost exponent) * Scalar.ofInt 4

/-- One line with the counts and the cost of an expression. -/
def statisticsText (e : Expr K) : String :=
  "nodes=" ++ toString e.nodeCount ++ " divisions=" ++ toString (e.opCount .div) ++
    " powers=" ++ toString (e.opCount .pow) ++ " functions=" ++ toString e.functionCount ++
    " cost=" ++ Scalar.decimal e.differentiationCost

end Expr

end SymbolicForms
