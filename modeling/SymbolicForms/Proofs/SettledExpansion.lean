import SymbolicForms.Proofs.DistributedForm
import SymbolicForms.Proofs.PolynomialExpansion

/-!
# Settled expressions

An expression is settled when each of its parts is its own expansion. A collected
term is settled in writing when what it keeps is settled: multiplying its factors
one by one gives the same term again. Full expansion alone need not settle an
expression, because an addend whose sign was changed is not collected once more
when it is multiplied by one. Where there is nothing left to distribute, every
product is collected, and expansion settles the expression.
-/

namespace SymbolicForms

variable {rules : Exactness} {v : Vocabulary rules}

namespace Expr

/-- Every part of the expression is its own expansion. -/
def Settled : Expr (Exact rules) → Prop
  | .const _ => True
  | .var _ => True
  | .func _ argument => argument.Settled
  | .binary op left right =>
    (left.Settled ∧ right.Settled) ∧ (binary op left right).fullyExpand = binary op left right

/-- A settled expression is its own expansion. -/
theorem Settled.fullyExpand_eq {e : Expr (Exact rules)} (h : e.Settled) : e.fullyExpand = e := by
  induction e with
  | const value => rfl
  | var name => rfl
  | func name argument ih => exact congrArg (func name) (ih h)
  | binary op left right => exact h.2

/-- Settled expressions joined by an operator that is not multiplied out are settled. -/
theorem Settled.binary {op : Op} {left right : Expr (Exact rules)} (hl : left.Settled)
    (hr : right.Settled) (hmul : op ≠ .mul) (hpow : op ≠ .pow) :
    (Expr.binary op left right).Settled := by
  refine ⟨⟨hl, hr⟩, ?_⟩
  cases op with
  | mul => exact absurd rfl hmul
  | pow => exact absurd rfl hpow
  | _ => exact congrArg₂ (Expr.binary _) hl.fullyExpand_eq hr.fullyExpand_eq

/-- A product of settled operands is settled when it is the product that expansion makes. -/
theorem Settled.mul {left right : Expr (Exact rules)} (hl : left.Settled) (hr : right.Settled)
    (h : expandProduct left right = .mul left right) : (Expr.mul left right).Settled := by
  refine ⟨⟨hl, hr⟩, ?_⟩
  change expandProduct left.fullyExpand right.fullyExpand = _
  rw [hl.fullyExpand_eq, hr.fullyExpand_eq, h]

/-- A power of a settled base is settled when it is the power that expansion makes. -/
theorem Settled.pow {base : Expr (Exact rules)} (hb : base.Settled) {exponent : Exact rules}
    (h : expandPower base (.const exponent) = .pow base (.const exponent)) :
    (Expr.pow base (.const exponent)).Settled := by
  refine ⟨⟨hb, trivial⟩, ?_⟩
  change expandPower base.fullyExpand (.const exponent) = _
  rw [hb.fullyExpand_eq, h]

/-- The kept parts of a settled expression are settled. -/
theorem Settled.of_mem_keptParts {e part : Expr (Exact rules)} (h : e.Settled)
    (hp : part ∈ e.keptParts) : part.Settled := by
  induction e with
  | const value => exact absurd hp List.not_mem_nil
  | var name => exact absurd hp List.not_mem_nil
  | func name argument => exact List.mem_singleton.mp hp ▸ h
  | binary op left right ihl ihr =>
    cases op with
    | div => exact List.mem_singleton.mp hp ▸ h
    | pow =>
      cases left with
      | const value => exact absurd hp List.not_mem_nil
      | var name => exact absurd hp List.not_mem_nil
      | func name argument => exact List.mem_singleton.mp hp ▸ h.1.1
      | binary op' left' right' => exact List.mem_singleton.mp hp ▸ h
    | _ =>
      rw [keptParts, List.mem_append] at hp
      exact hp.elim (ihl h.1.1) (ihr h.1.2)

/-- A power of an expanded base stays a power, or the base is a number or the exponent zero or one,
or a sum is multiplied out. -/
theorem expandNumericPower_cases {base : Expr (Exact rules)} {exponent : Exact rules}
    (he : v.HasExponent base exponent) :
    expandNumericPower base exponent = .pow base (.const exponent) ∨
      ((base.isNumber = true ∨ exponent = 0) ∧
        ∃ value, expandNumericPower base exponent = .const value) ∨
      (exponent = 1 ∧ expandNumericPower base exponent = base) ∨
      (base.isSum = true ∧ isExpandedPower exponent = true ∧ exponent ≠ 0) := by
  unfold expandNumericPower
  split
  · exact Or.inl rfl
  · obtain ⟨n, rfl⟩ := he
    rw [if_pos (Exact.hasPower_natCast _ n)]
    exact Or.inr (Or.inl ⟨Or.inl rfl, _, rfl⟩)
  · split
    · next hexpanded =>
      obtain ⟨n, rfl⟩ := exists_natCast_of_isExpandedPower he hexpanded
      rw [wholePower, Exact.toInt_natCast, Int.toNat_natCast]
      rcases n with _ | _ | n
      · exact Or.inr (Or.inl ⟨Or.inr Nat.cast_zero, _, rfl⟩)
      · exact Or.inr (Or.inr (Or.inl ⟨Nat.cast_one, rfl⟩))
      · cases hsum : base.isSum with
        | true => exact Or.inr (Or.inr (Or.inr ⟨rfl, hexpanded, Nat.cast_ne_zero.mpr (by omega)⟩))
        | false => exact Or.inl rfl
    · exact Or.inl rfl

/-- What is written behind a product is multiplied by it. -/
theorem product_append_singleton {es : List (Expr (Exact rules))} (h : es ≠ [])
    (e : Expr (Exact rules)) : product (es ++ [e]) = .mul (product es) e := by
  obtain ⟨first, rest, rfl⟩ := List.exists_cons_of_ne_nil h
  exact List.foldl_append

/-- Without sums nothing is distributed. -/
theorem expandProduct_of_not_sum {left right : Expr (Exact rules)} (hl : left.isSum = false)
    (hr : right.isSum = false) : expandProduct left right = multiplySimple left right := by
  rw [expandProduct, hl, hr]
  rfl

/-- What may stand beside a coefficient: neither a number nor a sum. -/
structure BareFactor (e : Expr (Exact rules)) : Prop where
  /-- The factor is no number. -/
  number?_eq_none : e.number? = none
  /-- The factor is no sum. -/
  isSum_eq_false : e.isSum = false

/-- What is no number is not near one. -/
theorem BareFactor.isNear_eq_false {e : Expr (Exact rules)} (h : e.BareFactor)
    (value : Exact rules) : e.isNear value = false :=
  Expr.isNear_eq_false (Option.isSome_eq_false_iff.mpr (Option.isNone_iff_eq_none.mpr h.1)) value

/-- A product of bare factors is one. -/
theorem bareFactor_product {es : List (Expr (Exact rules))} (hne : es ≠ [])
    (h : ∀ e ∈ es, e.BareFactor) : (product es).BareFactor :=
  product_induction_of_ne_nil (P := BareFactor) (fun _ _ _ _ => ⟨rfl, rfl⟩) hne h

/-- Beside a bare factor, anything but zero and one is multiplied as a term. -/
theorem multiplySimple_eq_toExpr {left right : Expr (Exact rules)} (hr : right.BareFactor)
    (hzero : left.isZero = false) (hone : left.isOne = false) :
    multiplySimple left right = ((Term.ofExpr left).multiply (Term.ofExpr right)).toExpr := by
  have hzero' : right.isZero = false := hr.isNear_eq_false _
  have hone' : right.isOne = false := hr.isNear_eq_false _
  unfold multiplySimple
  split
  · cases hr.1
  · rw [hzero, hzero', hone, hone']
    rfl

end Expr

namespace Term

/-- The first factors of a term, without the coefficient. -/
def firstFactors (count : ℕ) (t : Term (Exact rules)) : Term (Exact rules) where
  coefficient := 1
  variablePowers :=
    ⟨t.variablePowers.entries.take count,
      t.variablePowers.ordered.sublist (List.take_sublist _ _)⟩
  functionPowers := ⟨t.functionPowers.sorted.take (count - t.variablePowers.entries.length)⟩
  nested :=
    t.nested.take (count - t.variablePowers.entries.length - t.functionPowers.sorted.length)

/-- The first factors of a collected term are collected. -/
theorem Collected.firstFactors {t : Term (Exact rules)} (h : t.Collected v) (count : ℕ) :
    (t.firstFactors count).Collected v where
  coefficient := v.numbers.one_mem
  variablePowers entry hentry := h.variablePowers entry (List.mem_of_mem_take hentry)
  functionPowers :=
    ⟨fun entry hentry => h.functionPowers.sorted.entries entry (List.mem_of_mem_take hentry),
      h.functionPowers.sorted.distinct.sublist ((List.take_sublist _ _).map _)⟩
  nested e he := h.nested e (List.mem_of_mem_take he)
  whole e he := h.whole e (List.mem_of_mem_take he)

/-- The first factors of a collected term are the first ones of its list. -/
theorem Collected.baseFactors_firstFactors {t : Term (Exact rules)} (h : t.Collected v)
    (count : ℕ) : (t.firstFactors count).baseFactors = t.baseFactors.take count := by
  have hsorted : (t.firstFactors count).functionPowers.sorted =
      t.functionPowers.sorted.take (count - t.variablePowers.entries.length) :=
    FunctionPowers.sorted_of_pairwise
      (t.functionPowers.pairwise_sorted.sublist (List.take_sublist _ _))
  rw [baseFactors, baseFactors, (h.firstFactors count).toWithin.reduced.variableFactors_eq,
    (h.firstFactors count).toWithin.reduced.functionFactors_eq,
    h.toWithin.reduced.variableFactors_eq, h.toWithin.reduced.functionFactors_eq, hsorted,
    List.take_append, List.take_append, List.map_take, List.length_append, List.length_map,
    List.length_map, ← Nat.sub_sub]
  simp only [Term.firstFactors, List.map_take]

/-- The factors of a collected term beside its coefficient are bare. -/
theorem Collected.bareFactor_of_mem {t : Term (Exact rules)} (h : t.Collected v)
    {factor : Expr (Exact rules)} (hf : factor ∈ t.baseFactors) : factor.BareFactor := by
  have hpower (base : Expr (Exact rules)) (hbase : base.BareFactor) (exponent : Exact rules) :
      (powerExpr base exponent).BareFactor := by
    unfold powerExpr
    split
    · exact hbase
    · exact ⟨rfl, rfl⟩
  obtain ⟨entry, -, rfl⟩ | ⟨entry, -, rfl⟩ | hf := cases_of_mem_baseFactors hf
  · exact hpower (.var entry.1) ⟨rfl, rfl⟩ _
  · exact hpower entry.1.toExpr ⟨rfl, rfl⟩ _
  · have hwhole := h.whole factor hf
    refine ⟨?_, Expr.isSum_of_staysWhole hwhole⟩
    cases factor with
    | binary op left right => rfl
    | _ => cases hwhole

/-- A term with the coefficient one is written as the product of its other factors. -/
theorem Within.toExpr_of_coefficient_eq_one {t : Term (Exact rules)} (h : t.Within v)
    (hone : t.coefficient = 1) (hne : t.baseFactors ≠ []) :
    t.toExpr = .product t.baseFactors := by
  obtain ⟨hempty, -⟩ | ⟨-, -, heq⟩ | ⟨-, hcoefficient, -⟩ :=
    h.toExpr_cases (hone.trans_ne one_ne_zero)
  · exact absurd hempty hne
  · exact heq
  · exact absurd hone hcoefficient

/-- The first factors of a collected term are written as their product. -/
theorem Collected.toExpr_firstFactors {t : Term (Exact rules)} (h : t.Collected v) {count : ℕ}
    (hne : t.baseFactors.take count ≠ []) :
    (t.firstFactors count).toExpr = .product (t.baseFactors.take count) := by
  rw [← h.baseFactors_firstFactors] at hne ⊢
  exact (h.firstFactors count).toWithin.toExpr_of_coefficient_eq_one rfl hne

/-- One more factor of a collected term is multiplied by being written behind the others. -/
theorem Collected.multiplySimple_product_take {t : Term (Exact rules)} (h : t.Collected v)
    {count : ℕ} (hne : t.baseFactors.take count ≠ []) {factor : Expr (Exact rules)}
    (hf : t.baseFactors[count]? = some factor) :
    Expr.multiplySimple (.product (t.baseFactors.take count)) factor =
      .product (t.baseFactors.take (count + 1)) := by
  have hmem : factor ∈ t.baseFactors := List.mem_of_getElem? hf
  have hwithin : factor.Within v := h.toWithin.of_mem_baseFactors hmem
  have hbare := Expr.bareFactor_product hne fun e he =>
    h.bareFactor_of_mem (List.mem_of_mem_take he)
  have htake : t.baseFactors.take (count + 1) = t.baseFactors.take count ++ [factor] := by
    rw [List.take_add_one, hf]
    rfl
  have hnext : t.baseFactors.take (count + 1) ≠ [] := by
    rw [htake]
    exact List.append_ne_nil_of_left_ne_nil hne _
  have hread : ofExpr (.product (t.baseFactors.take count)) = (t.firstFactors count).inOrder := by
    rw [← h.toExpr_firstFactors hne, (h.firstFactors count).ofExpr_toExpr one_ne_zero]
  have hlast : ofExpr factor = ofFactor factor := by
    rw [ofExpr_eq_foldl, h.wellFormed.factors_of_mem hmem]
    exact (reduced_ofFactor factor).unit_multiply
  have hproduct : (t.firstFactors count).inOrder.multiply (ofFactor factor) =
      (t.firstFactors (count + 1)).inOrder := by
    rw [← (h.firstFactors count).foldl_baseFactors,
      ← (h.firstFactors (count + 1)).foldl_baseFactors, h.baseFactors_firstFactors,
      h.baseFactors_firstFactors, htake, List.foldl_append]
    rfl
  rw [Expr.multiplySimple_eq_toExpr (h.bareFactor_of_mem hmem) (hbare.isNear_eq_false _)
    (hbare.isNear_eq_false _), hread, hlast, hproduct, toExpr_inOrder, h.toExpr_firstFactors hnext]

/-- The factors of a collected term that keeps settled parts are settled. -/
theorem Collected.settled_of_mem {t : Term (Exact rules)} (h : t.Collected v)
    (hp : ∀ part ∈ t.keptParts, part.Settled) {factor : Expr (Exact rules)}
    (hf : factor ∈ t.baseFactors) : factor.Settled := by
  obtain ⟨entry, -, rfl⟩ | ⟨entry, hentry, rfl⟩ | hf := cases_of_mem_baseFactors hf
  · have hvariable : (Expr.var entry.1 : Expr (Exact rules)).Settled := trivial
    unfold powerExpr
    split
    · exact hvariable
    · exact hvariable.pow rfl
  · have hfunction : entry.1.toExpr.Settled :=
      hp entry.1.argument (argument_mem_keptParts (List.mem_map_of_mem hentry))
    obtain ⟨-, he, hne⟩ := h.functionPowers.entries entry hentry
    unfold powerExpr
    split
    · exact hfunction
    · next hunit =>
      refine hfunction.pow ?_
      have hexponent : v.HasExponent entry.1.toExpr entry.2 := he
      obtain hpow | ⟨hnumber | hzero, -⟩ | ⟨hone, -⟩ | ⟨hsum, -⟩ :=
        Expr.expandNumericPower_cases hexponent
      · exact hpow
      · cases hnumber
      · exact absurd hzero hne
      · exact absurd ((v.isUnit_iff (he.mem v)).mpr hone) hunit
      · cases hsum
  · exact hp factor (t.nested_subset_keptParts hf)

/-- The product of the first factors of a collected term is settled when the factors are. -/
theorem Collected.settled_product_take {t : Term (Exact rules)} (h : t.Collected v)
    (hf : ∀ factor ∈ t.baseFactors, factor.Settled) {count : ℕ}
    (hne : t.baseFactors.take count ≠ []) :
    (Expr.product (t.baseFactors.take count)).Settled := by
  induction count with
  | zero => exact absurd rfl hne
  | succ count ih =>
    cases hget : t.baseFactors[count]? with
    | none =>
      have htake : t.baseFactors.take (count + 1) = t.baseFactors.take count := by
        rw [List.take_add_one, hget]
        exact List.append_nil _
      rw [htake] at hne ⊢
      exact ih hne
    | some factor =>
      have hmem := List.mem_of_getElem? hget
      have htake : t.baseFactors.take (count + 1) = t.baseFactors.take count ++ [factor] := by
        rw [List.take_add_one, hget]
        rfl
      by_cases hfirst : t.baseFactors.take count = []
      · rw [htake, hfirst]
        exact hf factor hmem
      · have hbare := Expr.bareFactor_product hfirst fun e he =>
          h.bareFactor_of_mem (List.mem_of_mem_take he)
        have hwritten : Expr.product (t.baseFactors.take (count + 1)) =
            .mul (.product (t.baseFactors.take count)) factor := by
          rw [htake, Expr.product_append_singleton hfirst]
        rw [hwritten]
        refine (ih hfirst).mul (hf factor hmem) ?_
        rw [Expr.expandProduct_of_not_sum hbare.2 (h.bareFactor_of_mem hmem).2,
          h.multiplySimple_product_take hfirst hget, hwritten]

/-- A collected term that keeps settled parts is settled in writing. -/
theorem Collected.settled_toExpr {t : Term (Exact rules)} (h : t.Collected v)
    (hp : ∀ part ∈ t.keptParts, part.Settled) : t.toExpr.Settled := by
  have hproduct (hfull : t.baseFactors ≠ []) : (Expr.product t.baseFactors).Settled := by
    rw [← List.take_length (l := t.baseFactors)] at hfull ⊢
    exact h.settled_product_take (fun factor hf => h.settled_of_mem hp hf) hfull
  by_cases hzero : t.coefficient = 0
  · rw [toExpr, if_pos (h.toWithin.isZero_iff.mpr hzero)]
    exact trivial
  obtain ⟨-, heq⟩ | ⟨hfull, -, heq⟩ | ⟨hfull, hone, heq⟩ := h.toWithin.toExpr_cases hzero
  · rw [heq]
    exact trivial
  · rw [heq]
    exact hproduct hfull
  · have hbare := Expr.bareFactor_product hfull fun e he => h.bareFactor_of_mem he
    have hnumber : (Expr.const t.coefficient).Settled := trivial
    have hzero' : (Expr.const t.coefficient).isZero = false :=
      Bool.eq_false_iff.mpr (mt (v.vanishes_iff h.coefficient).mp hzero)
    have hone' : (Expr.const t.coefficient).isOne = false :=
      Bool.eq_false_iff.mpr (mt (v.isUnit_iff h.coefficient).mp hone)
    -- the product of the other factors is read as the term without its coefficient
    let base : Term (Exact rules) := { t with coefficient := 1 }
    have hbase : base.Collected v :=
      ⟨⟨v.numbers.one_mem, h.variablePowers, h.functionPowers, h.nested⟩, h.whole⟩
    have hread : ofExpr (.product t.baseFactors) = base.inOrder := by
      rw [← hbase.ofExpr_toExpr one_ne_zero]
      exact congrArg ofExpr (hbase.toWithin.toExpr_of_coefficient_eq_one rfl hfull).symm
    have hscaled : (constant t.coefficient).multiply base.inOrder = t.inOrder := by
      rw [hbase.inOrder.toWithin.reduced.constant_multiply]
      exact congrArg (fun c => { t.inOrder with coefficient := c }) (mul_one t.coefficient)
    rw [heq]
    refine hnumber.mul (hproduct hfull) ?_
    rw [Expr.expandProduct_of_not_sum rfl hbare.2,
      Expr.multiplySimple_eq_toExpr hbare hzero' hone', hread]
    exact (congrArg toExpr hscaled).trans ((toExpr_inOrder t).trans heq)

end Term

namespace Expr

/-- A repeated product of a sum is a sum. -/
theorem isSum_repeatedProduct {base : Expr (Exact rules)} (h : base.isSum = true) (count : ℕ) :
    (repeatedProduct base count).isSum = true := by
  induction count with
  | zero => exact h
  | succ count ih => exact isSum_expandProduct ih h

/-- The exponents of a sum are natural numbers. -/
theorem exists_natCast_of_isSum {base : Expr (Exact rules)} {exponent : Exact rules}
    (hs : base.isSum = true) (he : v.HasExponent base exponent) : ∃ n : ℕ, exponent = n := by
  cases base with
  | func name argument => cases hs
  | _ => exact he

/-- A power of a sum that stays a power has a large exponent. -/
theorem ten_lt_of_expandPower_eq {base : Expr (Exact rules)} (hs : base.isSum = true) {n : ℕ}
    (h : expandPower base (.const (n : Exact rules)) = .pow base (.const (n : Exact rules))) :
    10 < n := by
  by_contra hsmall
  rw [expandPower_of_isSum hs (not_lt.mp hsmall), wholePower, Exact.toInt_natCast,
    Int.toNat_natCast] at h
  have hsum : (base.pow (.const (n : Exact rules))).isSum = false := rfl
  rcases n with _ | _ | n
  · cases h
  · rw [← h, hs] at hsum
    cases hsum
  · rw [← h] at hsum
    simp only [hs, if_true, isSum_repeatedProduct hs] at hsum
    cases hsum

section ClosedPowers

variable (hv : ¬v.openPowers)
include hv

/-- A product of settled factors is settled. -/
theorem settled_multiplySimple {left right : Expr (Exact rules)} (hl : left.Within v)
    (hr : right.Within v) (hl' : left.Undivided) (hr' : right.Undivided) (hls : left.Settled)
    (hrs : right.Settled) : (multiplySimple left right).Settled := by
  have hleft := Term.collected_ofExpr hl hv hl'
  have hright := Term.collected_ofExpr hr hv hr'
  refine multiplySimple_induction (P := Settled) (fun _ => trivial) hls hrs
    ((hleft.multiply hright).settled_toExpr fun part hpart => ?_)
  obtain hpart | hpart := List.mem_append.mp (Term.keptParts_multiply_subset _ _ hpart)
  · exact hls.of_mem_keptParts (Term.keptParts_ofExpr_subset hl hv hl' hpart)
  · exact hrs.of_mem_keptParts (Term.keptParts_ofExpr_subset hr hv hr' hpart)

omit hv in
/-- A power of a settled base is settled, and no sum, unless a sum is multiplied out. -/
theorem settled_expandPower {base : Expr (Exact rules)} {exponent : Exact rules}
    (hb : base.Within v) (he : v.HasExponent base exponent) (h : base.Settled)
    (hs : base.isSum = true → isExpandedPower exponent = true → exponent = 0) :
    (expandPower base (.const exponent)).Settled ∧
      (expandPower base (.const exponent)).isSum = false := by
  have hraised {base : Expr (Exact rules)} {exponent : Exact rules} (h : base.Settled)
      (he : v.HasExponent base exponent)
      (hs : base.isSum = true → isExpandedPower exponent = true → exponent = 0)
      (heq : expandPower base (.const exponent) = expandNumericPower base exponent) :
      (expandPower base (.const exponent)).Settled ∧
        (expandPower base (.const exponent)).isSum = false := by
    obtain hpow | ⟨-, value, hvalue⟩ | ⟨rfl, hbase⟩ | ⟨hsum, hexpanded, hne⟩ :=
      expandNumericPower_cases he
    · rw [heq, hpow]
      exact ⟨h.pow (heq.trans hpow), rfl⟩
    · rw [heq, hvalue]
      exact ⟨trivial, rfl⟩
    · rw [heq, hbase]
      have hone : isExpandedPower ((1 : ℕ) : Exact rules) = true :=
        (isExpandedPower_natCast 1).mpr (by decide)
      rw [Nat.cast_one] at hone
      exact ⟨h, Bool.eq_false_iff.mpr fun hsum => one_ne_zero (hs hsum hone)⟩
    · exact absurd (hs hsum hexpanded) hne
  induction base generalizing exponent with
  | binary op left right ihl ihr =>
    obtain ⟨below, inner, heq⟩ | heq := expandPower_cases (.binary op left right) exponent
    · cases heq
      obtain ⟨n, rfl⟩ := he
      rw [expandPower_pow]
      refine ihl hb.1 (hasExponent_mul_natCast hb.2.2 n) h.1.1 fun hsum hexpanded => ?_
      obtain ⟨m, rfl⟩ := exists_natCast_of_isSum hsum hb.2.2
      have hpow : expandPower left.fullyExpand (.const (m : Exact rules)) =
          .pow left (.const (m : Exact rules)) := h.2
      rw [h.1.1.fullyExpand_eq] at hpow
      have hlarge := ten_lt_of_expandPower_eq hsum hpow
      rw [← Nat.cast_mul, isExpandedPower_natCast] at hexpanded
      rcases n with _ | n
      · rw [Nat.cast_zero, mul_zero]
      · have hle : m ≤ m * (n + 1) := Nat.le_mul_of_pos_right m n.succ_pos
        omega
    · exact hraised h he hs heq
  | _ => exact hraised h he hs rfl

/-- The expansion of a distributed expression is settled, and no sum unless the expression is. -/
theorem Distributed.settled_fullyExpand {e : Expr (Exact rules)} (h : e.Within v)
    (h' : e.Distributed) :
    e.fullyExpand.Settled ∧ (e.isSum = false → e.fullyExpand.isSum = false) := by
  induction e with
  | const value => exact ⟨trivial, fun _ => rfl⟩
  | var name => exact ⟨trivial, fun _ => rfl⟩
  | func name argument ih => exact ⟨(ih h.2 h').1, fun _ => rfl⟩
  | binary op left right ihl ihr =>
    have hl := h.1.fullyExpand hv
    have hr := h.2.1.fullyExpand hv
    cases op with
    | mul =>
      obtain ⟨⟨hl', hlsum⟩, hr', hrsum⟩ := h'
      obtain ⟨hls, hlsum⟩ := (ihl h.1 hl').imp_right fun hnext => hnext hlsum
      obtain ⟨hrs, hrsum⟩ := (ihr h.2.1 hr').imp_right fun hnext => hnext hrsum
      have hlu := undivided_iff.mpr ⟨expanded_fullyExpand left, hlsum⟩
      have hru := undivided_iff.mpr ⟨expanded_fullyExpand right, hrsum⟩
      have hlm : left.fullyExpand.MultipliedFactor := ⟨everywhere_fullyExpand left, hlsum⟩
      have hrm : right.fullyExpand.MultipliedFactor := ⟨everywhere_fullyExpand right, hrsum⟩
      rw [Expr.fullyExpand, expandProduct_of_not_sum hlsum hrsum]
      exact ⟨settled_multiplySimple hv hl hr hlu hru hls hrs,
        fun _ => (hlm.multiplySimple hrm).isSum_eq_false⟩
    | pow =>
      obtain ⟨exponent, rfl, he⟩ := exists_const_of_joins hv h.2.2
      obtain ⟨hls, hlsum⟩ := ihl h.1 h'.1
      have hpower := settled_expandPower hl (hasExponent_fullyExpand he) hls
        fun hsum hexpanded => by
          cases hleft : left.isSum with
          | false => rw [hlsum hleft] at hsum; cases hsum
          | true => rw [h'.2 hleft exponent rfl] at hexpanded; cases hexpanded
      exact ⟨hpower.1, fun _ => hpower.2⟩
    | _ =>
      obtain ⟨hls, -⟩ := ihl h.1 h'.1
      obtain ⟨hrs, -⟩ := ihr h.2.1 h'.2
      exact ⟨hls.binary hrs (by decide) (by decide), id⟩

end ClosedPowers

end Expr

end SymbolicForms
