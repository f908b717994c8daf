import SymbolicForms.Proofs.CanonicalNormalForm
import SymbolicForms.Proofs.PolynomialExpansion
import SymbolicForms.Proofs.TidyExpressions

/-!
# Strategies on polynomials

The terms of the canonical sum of a polynomial are monomials of which only the
last one may be a number, so the sum is tidy everywhere. It is its own expansion,
and therefore its own canonical form. Hence every round of cleanup and every
strategy gives the canonical form of the polynomial, which is its only distinct
form.
-/

namespace SymbolicForms

namespace Term

variable {rules : Exactness} {v : Vocabulary rules}

/-- Terms without factors beside their coefficients are alike. -/
theorem alike_of_isConstant {t other : Term (Exact rules)} (h : t.isConstant = true)
    (ho : other.isConstant = true) : t.Alike other := by
  have hkey : t.baseKey = other.baseKey :=
    (baseKey_of_isConstant h).trans (baseKey_of_isConstant ho).symm
  simp only [isConstant, VariablePowers.isEmpty, FunctionPowers.isEmpty, Bool.and_eq_true,
    List.isEmpty_iff] at h ho
  obtain ⟨⟨hvariables, hfunctions⟩, hnested⟩ := h
  obtain ⟨⟨hvariables', hfunctions'⟩, hnested'⟩ := ho
  exact ⟨hkey, VariablePowers.eq_of_entries_eq (hvariables.trans hvariables'.symm),
    .of_eq (hfunctions.trans hfunctions'.symm), hnested.trans hnested'.symm⟩

/-- The factors of a monomial are powers of variables. -/
theorem IsMonomial.exists_of_mem_baseFactors {t : Term (Exact rules)} (hm : t.IsMonomial)
    {factor : Expr (Exact rules)} (hf : factor ∈ t.baseFactors) :
    ∃ entry ∈ t.variablePowers.entries, factor = powerExpr (.var entry.1) entry.2 := by
  obtain ⟨hfunctions, hnested⟩ := hm
  obtain hvariable | ⟨entry, hentry, -⟩ | hf := cases_of_mem_baseFactors hf
  · exact hvariable
  · rw [hfunctions] at hentry
    exact absurd hentry List.not_mem_nil
  · rw [hnested] at hf
    exact absurd hf List.not_mem_nil

/-- A monomial without factors is a number. -/
theorem IsMonomial.isConstant_of_baseFactors_eq_nil {t : Term (Exact rules)} (hm : t.IsMonomial)
    (h : t.Within v) (hnone : t.baseFactors = []) : t.isConstant = true := by
  obtain ⟨hfunctions, hnested⟩ := hm
  rw [baseFactors, h.reduced.variableFactors_eq, List.append_eq_nil_iff, List.append_eq_nil_iff,
    List.map_eq_nil_iff] at hnone
  rw [isConstant, VariablePowers.isEmpty, hnone.1.1, hfunctions, hnested]
  rfl

/-- A power of a variable is tidy. -/
theorem tidy_powerExpr (name : String) {exponent : Exact rules} (he : exponent ∈ v.numbers)
    (hne : exponent ≠ 0) :
    (powerExpr (.var name) exponent).Everywhere Expr.Tidy ∧
      (powerExpr (.var name) exponent).NumberFree := by
  unfold powerExpr
  split
  · exact ⟨Expr.everywhere_var.mpr trivial, List.forall_mem_singleton.mpr rfl⟩
  · next hunit =>
    have hroot : (Expr.pow (.var name) (.number exponent)).Tidy :=
      ⟨rfl, v.vanishes_eq_false he hne, Bool.eq_false_iff.mpr hunit⟩
    exact ⟨Expr.everywhere_binary.mpr
      ⟨hroot, Expr.everywhere_var.mpr trivial, Expr.everywhere_const.mpr trivial⟩,
      List.forall_mem_singleton.mpr rfl⟩

/-- A product of tidy expressions without numeric factors is tidy. -/
theorem tidy_product {factors : List (Expr (Exact rules))} (hne : factors ≠ [])
    (h : ∀ factor ∈ factors, factor.Everywhere Expr.Tidy ∧ factor.NumberFree) :
    (Expr.product factors).Everywhere Expr.Tidy ∧ (Expr.product factors).NumberFree := by
  refine Expr.product_induction_of_ne_nil
    (P := fun e : Expr (Exact rules) => e.Everywhere Expr.Tidy ∧ e.NumberFree)
    (fun left right hl hr => ?_) hne h
  exact ⟨Expr.everywhere_binary.mpr ⟨⟨Or.inl hl.2, hr.2⟩, hl.1, hr.1⟩, hl.2.mul hr.2⟩

/-- A monomial that does not vanish is tidy in writing and not zero, and only a number is written as
one. -/
theorem IsMonomial.tidy_toExpr {t : Term (Exact rules)} (hm : t.IsMonomial) (h : t.Within v)
    (hne : t.coefficient ≠ 0) :
    t.toExpr.Everywhere Expr.Tidy ∧ t.toExpr.isZero = false ∧
      (t.isConstant = false → t.toExpr.isNumber = false) := by
  have hfactors (factor : Expr (Exact rules)) (hf : factor ∈ t.baseFactors) :
      factor.Everywhere Expr.Tidy ∧ factor.NumberFree := by
    obtain ⟨entry, hentry, rfl⟩ := hm.exists_of_mem_baseFactors hf
    obtain ⟨-, n, hpos, hn⟩ := h.variablePowers entry hentry
    refine tidy_powerExpr entry.1 (h.variablePowers.mem_numbers hentry) ?_
    rw [hn]
    exact Nat.cast_ne_zero.mpr hpos.ne'
  obtain ⟨hnone, heq⟩ | ⟨hfull, -, heq⟩ | ⟨hfull, hone, heq⟩ := h.toExpr_cases hne <;> rw [heq]
  · refine ⟨Expr.everywhere_const.mpr trivial, v.vanishes_eq_false h.coefficient hne,
      fun hvaries => ?_⟩
    rw [hm.isConstant_of_baseFactors_eq_nil h hnone] at hvaries
    cases hvaries
  · obtain ⟨htidy, hfree⟩ := tidy_product hfull hfactors
    exact ⟨htidy, Expr.isNear_eq_false hfree.isNumber_eq_false _, fun _ => hfree.isNumber_eq_false⟩
  · obtain ⟨htidy, hfree⟩ := tidy_product hfull hfactors
    have hunit : Scalar.isUnit t.coefficient = false :=
      Bool.eq_false_iff.mpr (mt (v.isUnit_iff h.coefficient).mp hone)
    exact ⟨Expr.everywhere_binary.mpr
      ⟨⟨Or.inr ⟨rfl, v.vanishes_eq_false h.coefficient hne, hunit⟩, hfree⟩,
        Expr.everywhere_const.mpr trivial, htidy⟩, rfl, fun _ => rfl⟩

end Term

namespace Expr

variable {rules : Exactness}

/-- A sum of tidy expressions that are not zero, of which only the last one is a number, is tidy. -/
theorem tidy_sum {es : List (Expr (Exact rules))} (h : ∀ e ∈ es, e.Everywhere Tidy)
    (hzero : ∀ e ∈ es, e.isZero = false) (hnumber : es.Pairwise fun e _ => e.isNumber = false) :
    (sum es).Everywhere Tidy := by
  match es with
  | [] => exact everywhere_const.mpr trivial
  | [only] => exact h only List.mem_cons_self
  | first :: second :: rest =>
    obtain ⟨hfirst, hsecond, hrest⟩ := by simpa only [List.forall_mem_cons] using h
    obtain ⟨-, hsecondZero, hrestZero⟩ := by simpa only [List.forall_mem_cons] using hzero
    have hbefore : first.isNumber = false :=
      (List.pairwise_cons.mp hnumber).1 second List.mem_cons_self
    have hstart : (Expr.add first second).Everywhere Tidy :=
      everywhere_binary.mpr ⟨⟨hbefore, hsecondZero⟩, hfirst, hsecond⟩
    refine (List.foldlRecOn
      (motive := fun acc : Expr (Exact rules) => acc.Everywhere Tidy ∧ acc.isNumber = false)
      rest Expr.add ⟨hstart, rfl⟩ fun acc hacc e he => ?_).1
    exact ⟨everywhere_binary.mpr ⟨⟨hacc.2, hrestZero e he⟩, hacc.1, hrest e he⟩, rfl⟩

/-- The terms of the canonical sum of a polynomial are monomials. -/
theorem IsPolynomial.isMonomial_of_mem_canonicalTerms {e : Expr (Exact rules)} (h : e.IsPolynomial)
    {t : Term (Exact rules)} (ht : t ∈ e.canonicalTerms) : t.IsMonomial := by
  obtain ⟨source, hsource, coefficient, rfl⟩ :=
    Term.exists_of_mem_mergeLike ((StableSort.sort_perm _ _).mem_iff.mp ht)
  have hmonomial : source.IsMonomial := h.isMonomial_of_mem_terms hsource
  exact hmonomial

/-- Only the last term of a canonical sum may be a number: others stand in front of numbers, and two
numbers are collected. -/
theorem isConstant_canonicalTerms {v : Vocabulary rules} (hv : ¬v.openPowers)
    {e : Expr (Exact rules)} (h : e.Within v) :
    e.canonicalTerms.Pairwise fun t _ => t.isConstant = false := by
  have hsorted : StableSort.Sorted Term.precedes e.canonicalTerms :=
    StableSort.sorted_sort (Term.weakOrder_precedes v)
      (Term.within_mergeLike (h.fullyExpand hv).terms)
  refine (hsorted.and (pairwise_canonicalTerms hv h)).imp fun {t later} hpair => ?_
  obtain ⟨hafter, halike⟩ := hpair
  refine Bool.eq_false_iff.mpr fun ht => ?_
  have hlater : later.isConstant = false :=
    Bool.eq_false_iff.mpr fun hlater => halike (Term.alike_of_isConstant ht hlater)
  rw [Term.precedes, ht, hlater] at hafter
  cases hafter

/-- The canonical form of a polynomial is its own canonical form, and nothing is to be cleaned up in
it. -/
theorem IsPolynomial.rests_canonicalForm {e : Expr (Exact rules)} (h : e.IsPolynomial) :
    e.canonicalForm.Rests := by
  have hv : ¬(Vocabulary.integers IsIdentifier : Vocabulary rules).openPowers := not_false
  have hterms := collected_canonicalTerms hv h.within
  have hmonomial (t : Term (Exact rules)) (ht : t ∈ e.canonicalTerms) : t.IsMonomial :=
    h.isMonomial_of_mem_canonicalTerms ht
  have hwritten (t : Term (Exact rules)) (ht : t ∈ e.canonicalTerms) :=
    (hmonomial t ht).tidy_toExpr (hterms t ht).1.toWithin (hterms t ht).2
  have htidy : e.canonicalSum.Everywhere Tidy := by
    refine tidy_sum (List.forall_mem_map.mpr fun t ht => (hwritten t ht).1)
      (List.forall_mem_map.mpr fun t ht => (hwritten t ht).2.1) (List.pairwise_map.mpr ?_)
    exact (isConstant_canonicalTerms hv h.within).imp_of_mem fun ht _ => (hwritten _ ht).2.2
  have hexpanded : e.canonicalSum.fullyExpand = e.canonicalSum := by
    refine Settled.fullyExpand_eq (settled_sum (List.forall_mem_map.mpr fun t ht => ?_))
    refine (hterms t ht).1.settled_toExpr fun part hpart => ?_
    obtain ⟨hfunctions, hnested⟩ := hmonomial t ht
    rw [Term.keptParts, hfunctions, hnested] at hpart
    exact absurd hpart List.not_mem_nil
  have hroot (numerator denominator : Expr (Exact rules)) :
      e.canonicalSum ≠ .div numerator denominator := fun hdiv => by
    rw [hdiv] at htidy
    exact htidy.self
  rw [canonicalForm_eq_canonicalSum h.ne_div]
  refine ⟨?_, htidy⟩
  rw [canonicalForm_eq_canonicalSum hroot, canonicalSum_canonicalSum hv h.within hexpanded]

/-- On a polynomial, a round of cleanup leaves the canonical form alone, every strategy gives the
canonical form, there is one distinct form, and the canonical form is what is prepared for
differentiation. -/
theorem IsPolynomial.strategies_eq_canonicalize {e : Expr (Exact rules)} (h : e.IsPolynomial)
    (threshold : LogLevel) :
    let canonical := e.canonicalize.value threshold
    (∀ trigonometry, (cleanupRound trigonometry canonical).value threshold = canonical) ∧
      (∀ strategy ∈ mainStrategies ++ paddingStrategies,
        (strategy e).value threshold = canonical) ∧
      (e.distinctForms.value threshold).length = 1 ∧
      e.prepareForDifferentiation.value threshold = .ok canonical := by
  have hrests := h.rests_canonicalForm
  dsimp only
  rw [value_canonicalize, hrests.value_distinctForms rfl]
  refine ⟨hrests.value_cleanupRound hrests.canonicalForm_eq threshold, ?_, rfl,
    hrests.value_prepareForDifferentiation rfl threshold⟩
  simp only [mainStrategies, paddingStrategies, List.cons_append, List.nil_append,
    List.forall_mem_cons]
  exact ⟨hrests.value_cleanup rfl threshold false, hrests.value_cleanup rfl threshold true,
    hrests.value_factorStrategy rfl threshold, hrests.value_fractionStrategy rfl threshold,
    hrests.value_fullySimplify rfl threshold, hrests.value_partialStrategy rfl threshold,
    hrests.value_alternativeStrategy rfl threshold, List.forall_mem_nil _⟩

/-- The polynomial `(x - 2 * y)^2 * y - 3`. -/
def squareTimesVariable : Expr (Exact .standard) :=
  .sub (.mul (.pow (.sub (.var "x") (.mul (.const (2 : ℤ)) (.var "y"))) (.const (2 : ℕ)))
    (.var "y")) (.const (3 : ℤ))

/-- The sum `-4 * (x * y^2) + x^2 * y + 4 * y^3 + -3`. -/
def squareTimesVariableExpanded : Expr (Exact .standard) :=
  .add (.add (.add (.mul (.int (-4)) (.mul (.var "x") (.pow (.var "y") (.int 2))))
    (.mul (.pow (.var "x") (.int 2)) (.var "y"))) (.mul (.int 4) (.pow (.var "y") (.int 3))))
    (.int (-3))

theorem strategies_eq_canonicalize_squareTimesVariable :
    squareTimesVariable.IsPolynomial ∧
      (∀ strategy ∈ mainStrategies ++ paddingStrategies,
        (strategy squareTimesVariable).value .off = squareTimesVariableExpanded) ∧
      (squareTimesVariable.distinctForms.value .off).length = 1 ∧
      squareTimesVariable.prepareForDifferentiation.value .off =
        .ok squareTimesVariableExpanded := by
  have hx : IsIdentifier "x" := isIdentifier_of_letter 'x' rfl rfl rfl
  have hy : IsIdentifier "y" := isIdentifier_of_letter 'y' rfl rfl rfl
  have hdifference : (Expr.sub (.var "x") (.mul (.const (2 : ℤ)) (.var "y")) :
      Expr (Exact .standard)).IsPolynomial := .sub (.var hx) (.mul (.const 2) (.var hy))
  have hpolynomial : squareTimesVariable.IsPolynomial :=
    .sub (.mul (.smallPow hdifference (Or.inr (Or.inl rfl)) (by decide)) (.var hy)) (.const 3)
  have hcanonical : squareTimesVariable.canonicalForm = squareTimesVariableExpanded := by
    decide +kernel
  obtain ⟨-, hstrategies, hforms, hprepared⟩ := hpolynomial.strategies_eq_canonicalize .off
  rw [value_canonicalize, hcanonical] at hstrategies hprepared
  exact ⟨hpolynomial, hstrategies, hforms, hprepared⟩

end Expr

end SymbolicForms
