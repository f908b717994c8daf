import SymbolicForms.Evaluation
import SymbolicForms.FloatScalar
import SymbolicForms.Proofs.ShrinkingPasses

/-!
# Folded constants

Folding applies to two numbers the operation that evaluation would apply to them
later. Hence a folded expression has exactly the value of the original one, or
fails for the same cause, whatever the operations return. One sweep is enough:
numbers that meet only because their operands were folded are folded on the way
up, and the only operators left between numbers are divisions by a number near
zero and powers that are no finite numbers.
-/

namespace SymbolicForms

namespace Expr

variable {K : Type} [Elementary K]

/-- A folded operator evaluates like the operator itself. -/
theorem evaluate_foldNumbers (bindings : Bindings K) (op : Op) (left right : Expr K) :
    (op.foldNumbers left right).evaluate bindings =
      (Expr.binary op left right).evaluate bindings := by
  unfold Op.foldNumbers
  split
  · split <;> rfl
  · rfl

/-- Folding keeps the value, or the cause for which there is none. -/
theorem evaluate_foldConstants (bindings : Bindings K) (e : Expr K) :
    e.foldConstants.evaluate bindings = e.evaluate bindings := by
  induction e with
  | const value => rfl
  | var name => rfl
  | func name argument ih =>
    have hargument : (rebuild Op.foldNumbers argument).evaluate bindings =
        argument.evaluate bindings := ih
    rw [foldConstants, rebuild, evaluate, evaluate, hargument]
  | binary op left right ihl ihr =>
    have hleft : (rebuild Op.foldNumbers left).evaluate bindings = left.evaluate bindings := ihl
    have hright : (rebuild Op.foldNumbers right).evaluate bindings = right.evaluate bindings := ihr
    rw [foldConstants, rebuild, evaluate_foldNumbers, evaluate, evaluate, hleft, hright]

/-- A folded expression evaluates as the original one does, to the same number or to the same
failure, and between two numbers it has no operator but divisions by a number within the tolerance
and powers that are no finite numbers. -/
theorem foldConstants_evaluates_and_folded (e : Expr K) :
    (∀ bindings, e.foldConstants.evaluate bindings = e.evaluate bindings) ∧
    ∀ op left right, Expr.binary op (.const left) (.const right) ∈ e.foldConstants.nodes →
      op = .div ∧ Scalar.le (Scalar.abs right) Scalar.tolerance = true ∨
        op = .pow ∧ Scalar.hasPower left right = false :=
  ⟨fun bindings => evaluate_foldConstants bindings e, fun _ _ _ hnode =>
    Op.isFoldable_eq_false_iff.mp (Op.reduces_foldNumbers.everywhere_rebuild e _ hnode)⟩

/-- The sum `((1+2)*3)/(4-4) + g(x)` of a quotient by zero and a call of an unknown function. -/
def quotientByDifference : Expr Float :=
  .add (.div (.mul (.add (.int 1) (.int 2)) (.int 3)) (.sub (.int 4) (.int 4)))
    (.func "g" (.var "x"))

theorem foldConstants_evaluates_and_folded_quotientByDifference :
    quotientByDifference.foldConstants.evaluate (Bindings.ofList [("x", 1)]) =
        .error (.unknown "g") ∧
      Expr.binary .div (.const 9) (.const 0) ∈ quotientByDifference.foldConstants.nodes ∧
      Scalar.le (Scalar.abs (0 : Float)) Scalar.tolerance = true := by
  obtain ⟨hevaluate, hfolded⟩ := foldConstants_evaluates_and_folded quotientByDifference
  have hnode : Expr.binary .div (.const 9) (.const 0) ∈
      quotientByDifference.foldConstants.nodes := by decide +kernel
  obtain ⟨-, hdivisor⟩ | ⟨hpower, -⟩ := hfolded _ _ _ hnode
  · exact ⟨(hevaluate _).trans rfl, hnode, hdivisor⟩
  · cases hpower

end Expr

end SymbolicForms
