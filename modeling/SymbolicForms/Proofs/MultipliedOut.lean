import SymbolicForms.Proofs.Nodes

/-!
# Multiplied out everywhere

A node is multiplied out when it is no product of sums, no small whole power of
a sum, and no power of a power to numbers. An expansion is multiplied out at
every node, whatever the operations on numbers give: products are written from
terms that keep nodes of their factors, and those they keep whole are no sums.
-/

namespace SymbolicForms

variable {K : Type} [Scalar K]

namespace Expr

/-- At the root, no sum is an operand of a product, no sum has a power that is multiplied out, and
no power to a number has another one for its base. -/
def MultipliedOut : Expr K → Prop
  | .binary .mul left right => left.isSum = false ∧ right.isSum = false
  | .binary .pow base (.const exponent) =>
    (base.isSum = true → isExpandedPower exponent = false) ∧
      ∀ below inner, base ≠ .pow below (.const inner)
  | _ => True

/-- An expression that is multiplied out everywhere and is no sum may stand in a product. -/
structure MultipliedFactor (e : Expr K) : Prop where
  /-- The factor is multiplied out everywhere. -/
  everywhere : e.Everywhere MultipliedOut
  /-- The factor is no sum. -/
  isSum_eq_false : e.isSum = false

/-- Numbers may stand in products. -/
theorem multipliedFactor_const (value : K) : (Expr.const value).MultipliedFactor :=
  ⟨everywhere_const.mpr trivial, rfl⟩

/-- A product of factors that may stand in products may do so. -/
theorem MultipliedFactor.mul {left right : Expr K} (hl : left.MultipliedFactor)
    (hr : right.MultipliedFactor) : (Expr.mul left right).MultipliedFactor :=
  ⟨everywhere_binary.mpr ⟨⟨hl.2, hr.2⟩, hl.1, hr.1⟩, rfl⟩

/-- The right operand of a product may stand in products. -/
theorem MultipliedFactor.right {left right : Expr K} (h : (Expr.mul left right).MultipliedFactor) :
    right.MultipliedFactor :=
  ⟨(everywhere_binary.mp h.1).2.2, h.1.self.2⟩

/-- A product of such factors is one. -/
theorem multipliedFactor_product {es : List (Expr K)} (h : ∀ e ∈ es, e.MultipliedFactor) :
    (product es).MultipliedFactor :=
  product_induction (multipliedFactor_const _) (fun _ _ => MultipliedFactor.mul) h

/-- The factors of such a factor may stand in products. -/
theorem MultipliedFactor.of_mem_factors {e factor : Expr K} (h : e.MultipliedFactor)
    (hf : factor ∈ e.factors) : factor.MultipliedFactor :=
  forall_mem_factors (fun _ _ h => ⟨⟨(everywhere_binary.mp h.1).2.1, h.1.self.1⟩, h.right⟩)
    h factor hf

/-- A power of something multiplied out, unless something is left to do at the power itself. -/
theorem Everywhere.pow {base : Expr K} (h : base.Everywhere MultipliedOut) {exponent : K}
    (hs : base.isSum = true → isExpandedPower exponent = false)
    (hp : ∀ below inner, base ≠ .pow below (.const inner)) :
    (Expr.pow base (.const exponent)).MultipliedFactor :=
  ⟨everywhere_binary.mpr ⟨⟨hs, hp⟩, h, everywhere_const.mpr trivial⟩, rfl⟩

/-- The addends of an expression that is multiplied out everywhere may stand in products. -/
theorem Everywhere.of_mem_addends {e addend : Expr K} (h : e.Everywhere MultipliedOut)
    (ha : addend ∈ e.addends) : addend.MultipliedFactor :=
  forall_mem_addends (P := Everywhere MultipliedOut) (Q := MultipliedFactor)
    (fun _ _ h => (everywhere_binary.mp h).2) (fun _ _ h => (everywhere_binary.mp h).2)
    (fun _ hs h => ⟨h, hs⟩)
    (fun _ => negateAddend_induction multipliedFactor_const (fun _ _ => MultipliedFactor.right)
      fun _ _ => (multipliedFactor_const _).mul) h addend ha

end Expr

/-- A term that keeps nothing but what is multiplied out everywhere, and keeps no sum whole, may
stand in products when it is written. -/
theorem Term.multipliedFactor_toExpr {t : Term K}
    (hkept : ∀ part ∈ t.keptParts, part.Everywhere Expr.MultipliedOut)
    (hwhole : ∀ factor ∈ t.nested, factor.isSum = false) : t.toExpr.MultipliedFactor := by
  have hpower (base : Expr K) (hbase : base.MultipliedFactor)
      (hp : ∀ below inner, base ≠ .pow below (.const inner)) (exponent : K) :
      (powerExpr base exponent).MultipliedFactor := by
    unfold powerExpr
    split
    · exact hbase
    · exact hbase.1.pow (fun hsum => absurd hsum (Bool.eq_false_iff.mp hbase.2)) hp
  refine toExpr_induction Expr.multipliedFactor_const
    (fun value _ => (Expr.multipliedFactor_const value).mul)
    (Expr.multipliedFactor_product fun factor hf => ?_)
  obtain ⟨entry, -, rfl⟩ | ⟨entry, hentry, rfl⟩ | hf := cases_of_mem_baseFactors hf
  · exact hpower (.var entry.1) ⟨Expr.everywhere_var.mpr trivial, rfl⟩
      (fun _ _ heq => nomatch heq) _
  · have hargument := hkept _ (argument_mem_keptParts (List.mem_map_of_mem hentry))
    exact hpower entry.1.toExpr ⟨Expr.everywhere_func.mpr ⟨trivial, hargument⟩, rfl⟩
      (fun _ _ heq => nomatch heq) _
  · exact ⟨hkept factor (t.nested_subset_keptParts hf), hwhole factor hf⟩

namespace Expr

/-- A product of two factors that may stand in products is one. -/
theorem MultipliedFactor.multiplySimple {left right : Expr K} (hl : left.MultipliedFactor)
    (hr : right.MultipliedFactor) : (multiplySimple left right).MultipliedFactor := by
  refine multiplySimple_induction multipliedFactor_const hl hr
    (Term.multipliedFactor_toExpr (fun part hpart => ?_) fun factor hf => ?_)
  · obtain hpart | hpart := List.mem_append.mp (Term.keptParts_multiply_subset _ _ hpart)
    · exact hl.1.of_mem (Term.keptParts_ofExpr_subset_nodes left hpart)
    · exact hr.1.of_mem (Term.keptParts_ofExpr_subset_nodes right hpart)
  · obtain hf | hf := List.mem_append.mp hf
    · exact (hl.of_mem_factors (Term.nested_ofExpr_subset_factors left hf)).2
    · exact (hr.of_mem_factors (Term.nested_ofExpr_subset_factors right hf)).2

/-- A distributed product of two expressions is multiplied out everywhere if they are. -/
theorem Everywhere.expandProduct {left right : Expr K} (hl : left.Everywhere MultipliedOut)
    (hr : right.Everywhere MultipliedOut) : (expandProduct left right).Everywhere MultipliedOut :=
  expandProduct_induction (P := Everywhere MultipliedOut) (multipliedFactor_const _).1
    (fun _ _ hl hr => everywhere_binary.mpr ⟨trivial, hl, hr⟩) fun _ hf _ hs =>
      ((hl.of_mem_addends hf).multiplySimple (hr.of_mem_addends hs)).1

/-- A repeated product is multiplied out everywhere if its base is. -/
theorem Everywhere.repeatedProduct {base : Expr K} (h : base.Everywhere MultipliedOut)
    (count : ℕ) : (repeatedProduct base count).Everywhere MultipliedOut := by
  induction count with
  | zero => exact h
  | succ count ih => exact ih.expandProduct h

/-- A power to a number of what is no such power is multiplied out everywhere if its base is. -/
theorem Everywhere.expandNumericPower {base : Expr K} (h : base.Everywhere MultipliedOut)
    (hp : ∀ below inner, base ≠ .pow below (.const inner)) (exponent : K) :
    (expandNumericPower base exponent).Everywhere MultipliedOut :=
  expandNumericPower_induction (P := Everywhere MultipliedOut)
    (fun value => (multipliedFactor_const value).1) h h.repeatedProduct fun hs => (h.pow hs hp).1

/-- A power is multiplied out everywhere if its base and exponent are. -/
theorem Everywhere.expandPower {base exponent : Expr K} (hb : base.Everywhere MultipliedOut)
    (he : exponent.Everywhere MultipliedOut) :
    (expandPower base exponent).Everywhere MultipliedOut := by
  fun_induction Expr.expandPower base exponent with
  | case1 base inner outer ih =>
    exact ih (everywhere_binary.mp hb).2.1 (multipliedFactor_const _).1
  | case2 base exponent hp => exact hb.expandNumericPower hp exponent
  | case3 base exponent hp hconst =>
    refine everywhere_binary.mpr ⟨?_, hb, he⟩
    cases exponent with
    | const value => exact absurd rfl (hconst value)
    | _ => trivial

/-- An expansion is multiplied out everywhere. -/
theorem everywhere_fullyExpand (e : Expr K) : e.fullyExpand.Everywhere MultipliedOut := by
  induction e with
  | const value => exact everywhere_const.mpr trivial
  | var name => exact everywhere_var.mpr trivial
  | func name argument ih => exact everywhere_func.mpr ⟨trivial, ih⟩
  | binary op left right ihl ihr =>
    cases op with
    | mul => exact ihl.expandProduct ihr
    | pow => exact ihl.expandPower ihr
    | _ => exact everywhere_binary.mpr ⟨trivial, ihl, ihr⟩

/-- At no node of an expansion is a sum the operand of a product, or the base of a power to a whole
number from zero to the greatest expanded power, and no power to a number has another one for its
base. -/
theorem fullyExpand_multipliedOut (e : Expr K) : ∀ node ∈ e.fullyExpand.nodes,
    (∀ left right, node = .mul left right → left.isSum = false ∧ right.isSum = false) ∧
      (∀ base exponent, node = .pow base (.const exponent) → base.isSum = true →
        ¬(Scalar.same exponent (Scalar.floor exponent) = true ∧
          Scalar.le Scalar.zero exponent = true ∧
            Scalar.le exponent (Scalar.ofInt greatestExpandedPower) = true)) ∧
        ∀ base inner outer, node ≠ .pow (.pow base (.const inner)) (.const outer) := by
  intro node hnode
  have hroot : node.MultipliedOut := everywhere_fullyExpand e node hnode
  refine ⟨?_, ?_, ?_⟩
  · rintro left right rfl
    exact hroot
  · rintro base exponent rfl hsum ⟨hwhole, hnonneg, hsmall⟩
    have hexpanded : isExpandedPower exponent = true := by
      rw [isExpandedPower, hwhole, hnonneg, hsmall]
      rfl
    exact absurd hexpanded (Bool.eq_false_iff.mp (hroot.1 hsum))
  · rintro base inner outer rfl
    exact hroot.2 base inner rfl

/-- The quotient `f((x + 1) * (y - x)) / ((x + y)^11)^2`. -/
def callOverPowerOfPower : Expr (Exact .standard) :=
  .div (.func "f" (.mul (.add (.var "x") (.int 1)) (.sub (.var "y") (.var "x"))))
    (.pow (.pow (.add (.var "x") (.var "y")) (.int 11)) (.int 2))

theorem fullyExpand_multipliedOut_callOverPowerOfPower :
    Expr.pow (.add (.var "x") (.var "y")) (.int 22) ∈ callOverPowerOfPower.fullyExpand.nodes ∧
      ¬(Scalar.same (Scalar.ofInt 22 : Exact .standard) (Scalar.floor (Scalar.ofInt 22)) = true ∧
        Scalar.le Scalar.zero (Scalar.ofInt 22 : Exact .standard) = true ∧
          Scalar.le (Scalar.ofInt 22 : Exact .standard)
            (Scalar.ofInt greatestExpandedPower) = true) := by
  have hnode : Expr.pow (.add (.var "x") (.var "y")) (.int 22) ∈
      callOverPowerOfPower.fullyExpand.nodes := by decide +kernel
  exact ⟨hnode, (fullyExpand_multipliedOut callOverPowerOfPower _ hnode).2.1 _ _ rfl rfl⟩

end Expr

end SymbolicForms
