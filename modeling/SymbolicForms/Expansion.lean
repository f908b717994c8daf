import SymbolicForms.Term

/-!
# Expanded expressions

Products are distributed over sums, and small whole powers of sums are
multiplied out. Function arguments and the two sides of a quotient are expanded
in place; a quotient is never crossed.
-/

namespace SymbolicForms

namespace Expr

variable {K : Type} [Scalar K]

/-- The largest exponent of a sum that is multiplied out. -/
def greatestExpandedPower : Int := 10

/-- The product of two factors that are not sums, in collected form. -/
def multiplySimple (left right : Expr K) : Expr K :=
  match left, right with
  | .const first, .const second => .number (first * second)
  | _, _ =>
    if left.isZero || right.isZero then .int 0
    else if left.isOne then right
    else if right.isOne then left
    else ((Term.ofExpr left).multiply (Term.ofExpr right)).toExpr

/-- What holds of numbers, of both factors and of the product of their terms in writing holds of
their product. -/
theorem multiplySimple_induction {P : Expr K → Prop} (hconst : ∀ value, P (.const value))
    {left right : Expr K} (hl : P left) (hr : P right)
    (hterm : P ((Term.ofExpr left).multiply (Term.ofExpr right)).toExpr) :
    P (multiplySimple left right) := by
  unfold multiplySimple
  split
  · exact hconst _
  · split
    · exact hconst _
    · split
      · exact hr
      · split
        · exact hl
        · exact hterm

/-- The product of two expanded expressions: every addend of the left one is multiplied by every
addend of the right one. -/
def expandProduct (left right : Expr K) : Expr K :=
  if !left.isSum && !right.isSum then multiplySimple left right
  else sum (left.addends.flatMap fun first => right.addends.map fun second =>
    multiplySimple first second)

/-- What holds of the products of the addends, and of sums whose operands have it, holds of the
distributed product. -/
theorem expandProduct_induction {P : Expr K → Prop} (hzero : P (.int 0))
    (hadd : ∀ left right, P left → P right → P (.add left right)) {left right : Expr K}
    (hsimple : ∀ first ∈ left.addends, ∀ second ∈ right.addends, P (multiplySimple first second)) :
    P (expandProduct left right) := by
  unfold expandProduct
  split
  · next hsums =>
    rw [Bool.and_eq_true, Bool.not_eq_true', Bool.not_eq_true'] at hsums
    rw [addends_eq_singleton hsums.1, addends_eq_singleton hsums.2] at hsimple
    exact hsimple left List.mem_cons_self right List.mem_cons_self
  · refine sum_induction hzero hadd fun e he => ?_
    have ⟨first, hfirst, he⟩ := List.mem_flatMap.mp he
    have ⟨second, hsecond, heq⟩ := List.mem_map.mp he
    exact heq ▸ hsimple first hfirst second hsecond

/-- A base multiplied by itself as many times as the count says. -/
def repeatedProduct (base : Expr K) : Nat → Expr K
  | 0 => base
  | count + 1 => expandProduct (repeatedProduct base count) base

/-- The exponent is a whole number from zero to the greatest expanded power. -/
def isExpandedPower (exponent : K) : Bool :=
  Scalar.same exponent (Scalar.floor exponent) && Scalar.le Scalar.zero exponent &&
    Scalar.le exponent (Scalar.ofInt greatestExpandedPower)

/-- A small whole power of an expression that is neither a variable nor a number: sums are
multiplied out. -/
def wholePower (base : Expr K) (exponent : K) : Expr K :=
  match (Scalar.toInt exponent).toNat with
  | 0 => .int 1
  | 1 => base
  | count + 2 =>
    if base.isSum then repeatedProduct base (count + 1) else .pow base (.const exponent)

/-- The power of an expanded base to a number, where the base is not such a power itself. -/
def expandNumericPower (base : Expr K) (exponent : K) : Expr K :=
  match base with
  | .var _ => .pow base (.const exponent)
  | .const value =>
    if Scalar.hasPower value exponent then .number (Scalar.power value exponent)
    else .pow base (.const exponent)
  | _ => if isExpandedPower exponent then wholePower base exponent else .pow base (.const exponent)

/-- What holds of numbers, of the base, of its repeated products and of the power itself, where it
is not multiplied out, holds of the expanded power. -/
theorem expandNumericPower_induction {P : Expr K → Prop} (hconst : ∀ value, P (.const value))
    {base : Expr K} {exponent : K} (hbase : P base)
    (hrepeated : ∀ count, P (repeatedProduct base count))
    (hpow : (base.isSum = true → isExpandedPower exponent = false) →
      P (.pow base (.const exponent))) :
    P (expandNumericPower base exponent) := by
  unfold expandNumericPower
  split
  · exact hpow fun hsum => nomatch hsum
  · split
    · exact hconst _
    · exact hpow fun hsum => nomatch hsum
  · split
    · unfold wholePower
      split
      · exact hconst _
      · exact hbase
      · split
        · exact hrepeated _
        · next hsum => exact hpow fun hs => absurd hs hsum
    · next hexponent => exact hpow fun _ => Bool.eq_false_iff.mpr hexponent

/-- The power of two expanded expressions. A power of a power multiplies the two exponents. -/
def expandPower : Expr K → Expr K → Expr K
  | .binary .pow base (.const inner), .const outer => expandPower base (.number (inner * outer))
  | base, .const exponent => expandNumericPower base exponent
  | base, exponent => .pow base exponent

/-- Multiply out every product and every small whole power of a sum. -/
def fullyExpand : Expr K → Expr K
  | .const value => .const value
  | .var name => .var name
  | .func name argument => .func name (fullyExpand argument)
  | .binary .mul left right => expandProduct (fullyExpand left) (fullyExpand right)
  | .binary .pow base exponent => expandPower (fullyExpand base) (fullyExpand exponent)
  | .binary op left right => .binary op (fullyExpand left) (fullyExpand right)

end Expr

end SymbolicForms
