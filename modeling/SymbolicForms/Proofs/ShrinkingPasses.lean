import SymbolicForms.Proofs.ExactNumbers
import SymbolicForms.Proofs.Nodes

/-!
# Shrinking passes

The rule of a cleanup pass puts a number or one of the operands in place of an
operator, or leaves the operator because there is nothing to remove from it. So a
pass never makes an expression larger, and one that keeps the number of nodes has
changed nothing. Operands have been swept before they take the place of an
operator: a pass leaves nothing to remove anywhere, and running it once more
changes nothing. No law of numbers is needed for this.
-/

namespace SymbolicForms

variable {K : Type}

/-- What may take the place of an operator: a number, one of the operands, or the operator itself if
it has a property. -/
inductive Op.Replacement (P : Expr K → Prop) (op : Op) (left right : Expr K) : Expr K → Prop where
  | number (value : K) : Replacement P op left right (.const value)
  | left : Replacement P op left right left
  | right : Replacement P op left right right
  | kept (h : P (.binary op left right)) : Replacement P op left right (.binary op left right)

/-- A rule removes what is against a property that all numbers, variables and functions have, and it
leaves the operators that have it. -/
structure Op.Reduces (P : Expr K → Prop) (join : Op → Expr K → Expr K → Expr K) : Prop where
  /-- Numbers have the property. -/
  const : ∀ value, P (.const value)
  /-- Variables have the property. -/
  var : ∀ name, P (.var name)
  /-- Functions have the property. -/
  func : ∀ name argument, P (.func name argument)
  /-- The rule puts a number or an operand in place of an operator, or the operator has the
  property. -/
  replacement : ∀ op left right, Op.Replacement P op left right (join op left right)
  /-- The rule leaves an operator that has the property. -/
  keeps : ∀ op left right, P (.binary op left right) → join op left right = .binary op left right

namespace Expr

/-- Every expression has a node. -/
theorem nodeCount_pos (e : Expr K) : 0 < e.nodeCount := by
  cases e <;> simp only [nodeCount] <;> omega

/-- A pass is done after one run, makes nothing larger, and keeps the size only of what it does not
change. -/
structure IsReduction (pass : Expr K → Expr K) : Prop where
  /-- A second run changes nothing. -/
  again : ∀ e, pass (pass e) = pass e
  /-- There are not more nodes afterwards. -/
  nodeCount_le : ∀ e, (pass e).nodeCount ≤ e.nodeCount
  /-- What has as many nodes afterwards is the same expression. -/
  eq_self : ∀ e, (pass e).nodeCount = e.nodeCount → pass e = e

end Expr

namespace Op.Reduces

variable {P : Expr K → Prop} {join : Op → Expr K → Expr K → Expr K} (h : Op.Reduces P join)
include h

open SymbolicForms.Expr (rebuild everywhere_binary everywhere_const nodeCount nodeCount_pos
  IsReduction)

/-- An operator is left as it is, or what takes its place has fewer nodes. -/
theorem eq_or_nodeCount_lt (op : Op) (left right : Expr K) :
    join op left right = .binary op left right ∨
      (join op left right).nodeCount < (Expr.binary op left right).nodeCount := by
  have hpos := nodeCount_pos left
  have hreplacement := h.replacement op left right
  generalize join op left right = result at hreplacement ⊢
  cases hreplacement with
  | number value =>
    rw [nodeCount, nodeCount]
    omega
  | left =>
    rw [nodeCount]
    omega
  | right =>
    rw [nodeCount]
    omega
  | kept => exact Or.inl rfl

/-- A sweep changes nothing or makes the expression smaller. -/
theorem rebuild_eq_or_nodeCount_lt (e : Expr K) :
    rebuild join e = e ∨ (rebuild join e).nodeCount < e.nodeCount := by
  induction e with
  | const value => exact Or.inl rfl
  | var name => exact Or.inl rfl
  | func name argument ih =>
    refine ih.imp (congrArg (Expr.func name)) fun hlt => ?_
    rw [rebuild, nodeCount, nodeCount]
    omega
  | binary op left right ihl ihr =>
    have hle {operand : Expr K} (ih : rebuild join operand = operand ∨
        (rebuild join operand).nodeCount < operand.nodeCount) :
        (rebuild join operand).nodeCount ≤ operand.nodeCount :=
      ih.elim (fun heq => (congrArg nodeCount heq).le) le_of_lt
    have hleft := hle ihl
    have hright := hle ihr
    obtain hkept | hlt := h.eq_or_nodeCount_lt op (rebuild join left) (rebuild join right)
    · -- the operator stays, so the operands decide
      rw [rebuild, hkept]
      obtain hl | hl := ihl
      · obtain hr | hr := ihr
        · exact Or.inl (by rw [hl, hr])
        · rw [nodeCount, nodeCount]
          omega
      · rw [nodeCount, nodeCount]
        omega
    · rw [nodeCount] at hlt
      rw [rebuild, nodeCount]
      omega

/-- After a sweep the property holds everywhere. -/
theorem everywhere_rebuild (e : Expr K) : (rebuild join e).Everywhere P := by
  refine Expr.everywhere_rebuild h.const h.var h.func (fun op left right hl hr => ?_) e
  have hreplacement := h.replacement op left right
  generalize join op left right = result at hreplacement ⊢
  cases hreplacement with
  | number value => exact everywhere_const.mpr (h.const value)
  | left => exact hl
  | right => exact hr
  | kept hnode => exact everywhere_binary.mpr ⟨hnode, hl, hr⟩

/-- Where the property holds everywhere, a sweep changes nothing. -/
theorem rebuild_eq_self {e : Expr K} (he : e.Everywhere P) : rebuild join e = e :=
  Expr.rebuild_eq_self (fun op left right hnode => h.keeps op left right hnode.self) he

/-- A sweep is done after one run, makes nothing larger, and keeps the size only of what it does
not change. -/
theorem isReduction : IsReduction (rebuild join) where
  again e := h.rebuild_eq_self (h.everywhere_rebuild e)
  nodeCount_le e :=
    (h.rebuild_eq_or_nodeCount_lt e).elim (fun heq => (congrArg nodeCount heq).le) le_of_lt
  eq_self e hcount := (h.rebuild_eq_or_nodeCount_lt e).resolve_right fun hlt => hlt.ne hcount

end Op.Reduces

namespace Expr

variable [Scalar K]

/-- At the root stands no operator between numbers that could be evaluated. -/
def HasNoFoldable : Expr K → Prop
  | .binary op (.const left) (.const right) => op.isFoldable left right = false
  | _ => True

/-- At the root stands neither a sum with a zero nor a product with one. -/
def HasNoZero : Expr K → Prop
  | .binary .add left right => left.isZero = false ∧ right.isZero = false
  | .binary .mul left right => left.isZero = false ∧ right.isZero = false
  | _ => True

/-- At the root stands no product with a factor of one. -/
def HasNoOne : Expr K → Prop
  | .binary .mul left right => left.isOne = false ∧ right.isOne = false
  | _ => True

/-- At the root stands no power to zero or one. -/
def HasNoTrivialPower : Expr K → Prop
  | .binary .pow _ exponent => exponent.isZero = false ∧ exponent.isOne = false
  | _ => True

end Expr

namespace Op

variable [Scalar K]

open SymbolicForms.Expr (HasNoFoldable HasNoZero HasNoOne HasNoTrivialPower)

/-- Only divisors within the tolerance and powers that are no finite numbers are not folded. -/
theorem isFoldable_eq_false_iff {op : Op} {left right : K} :
    op.isFoldable left right = false ↔
      op = .div ∧ Scalar.le (Scalar.abs right) Scalar.tolerance = true ∨
        op = .pow ∧ Scalar.hasPower left right = false := by
  cases op <;> simp [isFoldable]

/-- Folding puts a number in place of an operator that can be evaluated. -/
theorem reduces_foldNumbers : Reduces HasNoFoldable (foldNumbers (K := K)) where
  const _ := trivial
  var _ := trivial
  func _ _ := trivial
  replacement op left right := by
    unfold foldNumbers
    split
    · split
      · exact .number _
      · next hkept => exact .kept (Bool.eq_false_iff.mpr hkept)
    · next hoperands =>
      refine .kept ?_
      unfold HasNoFoldable
      split
      · next first second heq =>
        cases heq
        exact absurd rfl (hoperands first second rfl)
      · trivial
  keeps op left right hnode := by
    unfold foldNumbers
    split
    · exact if_neg (Bool.eq_false_iff.mp hnode)
    · rfl

/-- Removing zeros puts the other operand in place of a sum, and zero in place of a product. -/
theorem reduces_removeZero : Reduces HasNoZero (removeZero (K := K)) where
  const _ := trivial
  var _ := trivial
  func _ _ := trivial
  replacement op left right := by
    cases op with
    | add =>
      rw [removeZero]
      split
      · exact .right
      · next hleft =>
        split
        · exact .left
        · next hright => exact .kept ⟨Bool.eq_false_iff.mpr hleft, Bool.eq_false_iff.mpr hright⟩
    | mul =>
      rw [removeZero]
      split
      · exact .number _
      · next hzero => exact .kept (Bool.or_eq_false_iff.mp (Bool.eq_false_iff.mpr hzero))
    | _ => exact .kept trivial
  keeps op left right hnode := by
    cases op with
    | add =>
      rw [removeZero, hnode.1, hnode.2]
      rfl
    | mul =>
      rw [removeZero, hnode.1, hnode.2]
      rfl
    | _ => rfl

/-- Removing ones puts the other operand in place of a product. -/
theorem reduces_removeOne : Reduces HasNoOne (removeOne (K := K)) where
  const _ := trivial
  var _ := trivial
  func _ _ := trivial
  replacement op left right := by
    cases op with
    | mul =>
      rw [removeOne]
      split
      · exact .right
      · next hleft =>
        split
        · exact .left
        · next hright => exact .kept ⟨Bool.eq_false_iff.mpr hleft, Bool.eq_false_iff.mpr hright⟩
    | _ => exact .kept trivial
  keeps op left right hnode := by
    cases op with
    | mul =>
      rw [removeOne, hnode.1, hnode.2]
      rfl
    | _ => rfl

/-- Simplifying powers puts one or the base in place of a power. -/
theorem reduces_removePower : Reduces HasNoTrivialPower (removePower (K := K)) where
  const _ := trivial
  var _ := trivial
  func _ _ := trivial
  replacement op left right := by
    cases op with
    | pow =>
      rw [removePower]
      split
      · exact .number _
      · next hzero =>
        split
        · exact .left
        · next hone => exact .kept ⟨Bool.eq_false_iff.mpr hzero, Bool.eq_false_iff.mpr hone⟩
    | _ => exact .kept trivial
  keeps op left right hnode := by
    cases op with
    | pow =>
      rw [removePower, hnode.1, hnode.2]
      rfl
    | _ => rfl

end Op

namespace Expr

variable [Scalar K]

/-- Removing zeros leaves no sum and no product with a zero, removing ones no product with a factor
of one, and simplifying powers no power to zero or one. These three passes and folding are done
after one run, make nothing larger, and keep the size only of what they do not change. -/
theorem passes_leave_nothing_and_shrink (e : Expr K) :
    (∀ left right, Expr.add left right ∈ e.removeZeros.nodes ∨
        Expr.mul left right ∈ e.removeZeros.nodes →
      left.isZero = false ∧ right.isZero = false) ∧
    (∀ left right, Expr.mul left right ∈ e.removeOnes.nodes →
      left.isOne = false ∧ right.isOne = false) ∧
    (∀ base exponent, Expr.pow base exponent ∈ e.simplifyPowers.nodes →
      exponent.isZero = false ∧ exponent.isOne = false) ∧
    ∀ pass ∈ [removeZeros, removeOnes, simplifyPowers, foldConstants (K := K)],
      pass (pass e) = pass e ∧ (pass e).nodeCount ≤ e.nodeCount ∧
        ((pass e).nodeCount = e.nodeCount → pass e = e) := by
  have hreductions : ∀ pass ∈ [removeZeros, removeOnes, simplifyPowers, foldConstants (K := K)],
      IsReduction pass := by
    simp only [List.forall_mem_cons]
    exact ⟨Op.reduces_removeZero.isReduction, Op.reduces_removeOne.isReduction,
      Op.reduces_removePower.isReduction, Op.reduces_foldNumbers.isReduction,
      List.forall_mem_nil _⟩
  refine ⟨?_, fun _ _ hnode => Op.reduces_removeOne.everywhere_rebuild e _ hnode,
    fun _ _ hnode => Op.reduces_removePower.everywhere_rebuild e _ hnode,
    fun pass hpass => ?_⟩
  · rintro left right (hsum | hproduct)
    · exact Op.reduces_removeZero.everywhere_rebuild e _ hsum
    · exact Op.reduces_removeZero.everywhere_rebuild e _ hproduct
  · have hpass := hreductions pass hpass
    exact ⟨hpass.again e, hpass.nodeCount_le e, hpass.eq_self e⟩

/-- The power `(2*x + (0*y + 1*z)^1)^3`. -/
def untidyCube : Expr (Exact .standard) :=
  .pow (.add (.mul (.int 2) (.var "x"))
    (.pow (.add (.mul (.int 0) (.var "y")) (.mul (.int 1) (.var "z"))) (.int 1))) (.int 3)

theorem passes_leave_nothing_and_shrink_untidyCube :
    (Expr.mul (.int 1) (.var "z") ∈ untidyCube.removeZeros.nodes ∧
      (Expr.int 1 : Expr (Exact .standard)).isZero = false ∧
      (Expr.var "z" : Expr (Exact .standard)).isZero = false) ∧
    (Expr.mul (.int 2) (.var "x") ∈ untidyCube.removeOnes.nodes ∧
      (Expr.int 2 : Expr (Exact .standard)).isOne = false ∧
      (Expr.var "x" : Expr (Exact .standard)).isOne = false) ∧
    ((∃ base, Expr.pow base (.int 3) ∈ untidyCube.simplifyPowers.nodes) ∧
      (Expr.int 3 : Expr (Exact .standard)).isZero = false ∧
      (Expr.int 3 : Expr (Exact .standard)).isOne = false) ∧
    (untidyCube.removeZeros.removeZeros = untidyCube.removeZeros ∧
      untidyCube.removeZeros.nodeCount < untidyCube.nodeCount) ∧
    (untidyCube.foldConstants.nodeCount = untidyCube.nodeCount ∧
      untidyCube.foldConstants = untidyCube) := by
  obtain ⟨hzeros, hones, hpowers, hpasses⟩ := passes_leave_nothing_and_shrink untidyCube
  have hkeptProduct : Expr.mul (.int 1) (.var "z") ∈ untidyCube.removeZeros.nodes := by
    decide +kernel
  have hkeptFactor : Expr.mul (.int 2) (.var "x") ∈ untidyCube.removeOnes.nodes := by
    decide +kernel
  have hkeptPower : Expr.pow (.add (.mul (.int 2) (.var "x"))
      (.add (.mul (.int 0) (.var "y")) (.mul (.int 1) (.var "z")))) (.int 3) ∈
        untidyCube.simplifyPowers.nodes := by decide +kernel
  have hsize : untidyCube.foldConstants.nodeCount = untidyCube.nodeCount := by decide +kernel
  have hagain := (hpasses removeZeros (by simp)).1
  have hunchanged := (hpasses foldConstants (by simp)).2.2 hsize
  exact ⟨⟨hkeptProduct, hzeros _ _ (Or.inr hkeptProduct)⟩, ⟨hkeptFactor, hones _ _ hkeptFactor⟩,
    ⟨⟨_, hkeptPower⟩, hpowers _ _ hkeptPower⟩, ⟨hagain, by decide +kernel⟩, hsize, hunchanged⟩

end Expr

end SymbolicForms
