import SymbolicForms.Proofs.ExpandedForm

/-!
# Linear combinations

The totals of a sum of multiples are the multiples of the totals. Two sums of
integer multiples in which every expression has the same total coefficient
therefore have one canonical form: the order of the addends does not matter,
multiples of one expression are added, and a total of zero leaves nothing.
-/

namespace SymbolicForms

variable {rules : Exactness}

namespace Term

/-- A multiple of a term has the multiple as its share. -/
theorem Within.share_constant_multiply {v : Vocabulary rules} {t : Term (Exact rules)}
    (h : t.Within v) (key : String) (factor : Exact rules) :
    share key ((constant factor).multiply t) = factor * share key t := by
  have hkey : ({ t with coefficient := factor * t.coefficient } : Term (Exact rules)).baseKey =
      t.baseKey := rfl
  rw [h.reduced.constant_multiply, share, share, hkey]
  split
  · rfl
  · exact (mul_zero factor).symm

/-- A term without a coefficient has no share. -/
theorem share_eq_zero {t : Term (Exact rules)} (h : t.coefficient = 0) (key : String) :
    share key t = 0 := by
  rw [share, h, ite_self]

end Term

namespace Expr

/-- A product of undivided factors has the share of the product of their terms. -/
theorem share_multiplySimple {left right : Expr (Exact rules)}
    (hl : left.Within (.integers IsIdentifier)) (hr : right.Within (.integers IsIdentifier))
    (hl' : left.Undivided) (hr' : right.Undivided) (key : String) :
    Term.share key (Term.ofExpr (multiplySimple left right)) =
      Term.share key ((Term.ofExpr left).multiply (Term.ofExpr right)) := by
  have hleft := Term.collected_ofExpr hl not_false hl'
  have hright := Term.collected_ofExpr hr not_false hr'
  obtain heq | heq | ⟨hzero, hzero'⟩ := ofExpr_multiplySimple not_false hl hr hl' hr'
  · rw [heq]
  · rw [heq, Term.share, Term.share, Term.baseKey_inOrder]
    rfl
  · rw [Term.share_eq_zero hzero, Term.share_eq_zero hzero']

/-- A multiple of an expression has the multiples of its totals. -/
theorem expandedTotal_multiple {e : Expr (Exact rules)}
    (h : e.Within (.integers IsIdentifier)) (key : String) (factor : ℤ) :
    expandedTotal key (.mul (.int factor) e) = factor * expandedTotal key e := by
  have hv : ¬(Vocabulary.integers IsIdentifier : Vocabulary rules).openPowers := not_false
  have hwithin := h.fullyExpand hv
  have hexpanded := expanded_fullyExpand e
  have hfactor : (.int factor : Expr (Exact rules)).Within (.integers IsIdentifier) :=
    within_int factor
  have hundivided : (.int factor : Expr (Exact rules)).Undivided := trivial
  have hterms : (fullyExpand (.mul (.int factor) e)).terms =
      e.fullyExpand.addends.map fun addend =>
        Term.ofExpr (multiplySimple (.int factor) addend) := by
    have hnumber : (.int factor : Expr (Exact rules)).MultipliedFactor := multipliedFactor_const _
    have haddends := addends_expandProduct hnumber.everywhere (everywhere_fullyExpand e)
    rw [terms]
    change List.map Term.ofExpr (expandProduct (.int factor) e.fullyExpand).addends = _
    rw [haddends, addends_eq_singleton hundivided.isSum_eq_false, List.flatMap_singleton,
      List.map_map]
    rfl
  rw [expandedTotal, expandedTotal, hterms, Term.total, Term.total, terms, List.map_map,
    List.map_map, ← List.sum_map_mul_left]
  refine congrArg List.sum (List.map_congr_left fun addend ha => ?_)
  have hread : Term.ofExpr (.int factor : Expr (Exact rules)) =
      Term.constant (factor : Exact rules) := rfl
  have haddend := hwithin.of_mem_addends ha
  rw [Function.comp_apply, share_multiplySimple hfactor haddend hundivided
    (hexpanded.of_mem_addends ha), hread]
  exact (Term.within_ofExpr haddend).share_constant_multiply key _

/-- A sum has the sums of the totals. -/
theorem expandedTotal_sum (es : List (Expr (Exact rules))) (key : String) :
    expandedTotal key (sum es) = (es.map (expandedTotal key)).sum := by
  refine map_sum (expandedTotal key) ?_ (fun left right => ?_) es
  · have hzero : (Term.ofExpr (.int 0 : Expr (Exact rules))).coefficient = 0 := Exact.zero_eq
    change Term.share key (Term.ofExpr (.int 0)) + 0 = 0
    rw [Term.share_eq_zero hzero, add_zero]
  · rw [expandedTotal, terms, Expr.fullyExpand, addends_add, List.map_append, Term.total_append]
    · rfl
    all_goals simp

/-- The sum of integer multiples of expressions. -/
def linearSum (pairs : List (ℤ × Expr (Exact rules))) : Expr (Exact rules) :=
  sum (pairs.map fun pair => .mul (.int pair.1) pair.2)

/-- The total coefficient of an expression among multiples. -/
def coefficientOf (e : Expr (Exact rules)) (pairs : List (ℤ × Expr (Exact rules))) : ℤ :=
  ((pairs.filter fun pair => pair.2 = e).map Prod.fst).sum

/-- A sum of multiples is the sum over its expressions of the multiples by their total
coefficients. -/
theorem sum_multiples_eq (g : Expr (Exact rules) → Exact rules)
    (pairs : List (ℤ × Expr (Exact rules))) (es : Finset (Expr (Exact rules)))
    (h : ∀ pair ∈ pairs, pair.2 ∈ es) :
    (pairs.map fun pair => pair.1 * g pair.2).sum =
      ∑ e ∈ es, (coefficientOf e pairs : Exact rules) * g e := by
  induction pairs with
  | nil => simp [coefficientOf]
  | cons pair rest ih =>
    obtain ⟨hpair, hrest⟩ := List.forall_mem_cons.mp h
    have hcoefficient (e : Expr (Exact rules)) : (coefficientOf e (pair :: rest) : Exact rules) =
        (if pair.2 = e then (pair.1 : Exact rules) else 0) + coefficientOf e rest := by
      by_cases heq : pair.2 = e <;> simp [coefficientOf, heq]
    simp only [hcoefficient, add_mul, Finset.sum_add_distrib, ite_mul, zero_mul,
      Finset.sum_ite_eq, if_pos hpair]
    rw [List.map_cons, List.sum_cons, ih hrest]

/-- A sum of multiples is within the vocabulary of the expressions. -/
theorem within_linearSum {v : Vocabulary rules} {pairs : List (ℤ × Expr (Exact rules))}
    (h : ∀ pair ∈ pairs, pair.2.Within v) : (linearSum pairs).Within v := by
  refine within_sum fun e he => ?_
  obtain ⟨pair, hpair, rfl⟩ := List.mem_map.mp he
  exact (within_int pair.1).mul (h pair hpair)

/-- A sum of multiples is no quotient. -/
theorem linearSum_ne_div (pairs : List (ℤ × Expr (Exact rules)))
    (numerator denominator : Expr (Exact rules)) :
    linearSum pairs ≠ .div numerator denominator := by
  refine sum_induction (P := (· ≠ .div numerator denominator)) (by simp [int])
    (fun _ _ _ _ => by simp) fun e he => ?_
  obtain ⟨pair, -, rfl⟩ := List.mem_map.mp he
  simp

/-- Sums of multiples in which every expression has the same total coefficient have one canonical
form. -/
theorem canonicalize_linearSum_eq (hw : rules.WritesIntegers)
    {pairs pairs' : List (ℤ × Expr (Exact rules))}
    (h : ∀ pair ∈ pairs, pair.2.Within (.integers IsIdentifier))
    (h' : ∀ pair ∈ pairs', pair.2.Within (.integers IsIdentifier))
    (hsame : ∀ e, coefficientOf e pairs = coefficientOf e pairs') (threshold : LogLevel) :
    (linearSum pairs).canonicalize.value threshold =
      (linearSum pairs').canonicalize.value threshold := by
  have htotal {pairs : List (ℤ × Expr (Exact rules))}
      (h : ∀ pair ∈ pairs, pair.2.Within (.integers IsIdentifier)) (key : String) :
      expandedTotal key (linearSum pairs) =
        (pairs.map fun pair => (pair.1 : Exact rules) * expandedTotal key pair.2).sum := by
    rw [linearSum, expandedTotal_sum, List.map_map]
    exact congrArg List.sum (List.map_congr_left fun pair hpair =>
      expandedTotal_multiple (h pair hpair) key pair.1)
  let es := ((pairs ++ pairs').map Prod.snd).toFinset
  have hmem (pair : ℤ × Expr (Exact rules)) (hpair : pair ∈ pairs ++ pairs') : pair.2 ∈ es :=
    List.mem_toFinset.mpr (List.mem_map_of_mem hpair)
  rw [value_canonicalize, value_canonicalize,
    canonicalForm_eq_canonicalSum (linearSum_ne_div pairs),
    canonicalForm_eq_canonicalSum (linearSum_ne_div pairs')]
  refine canonicalSum_eq_of_total_eq hw (within_linearSum h) (within_linearSum h') fun key => ?_
  rw [htotal h, htotal h',
    sum_multiples_eq (expandedTotal key) pairs es fun pair hp =>
      hmem pair (List.mem_append_left _ hp),
    sum_multiples_eq (expandedTotal key) pairs' es fun pair hp =>
      hmem pair (List.mem_append_right _ hp)]
  exact Finset.sum_congr rfl fun e _ => by rw [hsame e]

/-- The quotient `f(y) / x`. -/
def callOverVariable : Expr (Exact .standard) := .div (.func "f" (.var "y")) (.var "x")

theorem canonicalize_linearSum_eq_of_cancelled :
    (linearSum [(2, .var "x"), (3, callOverVariable), (-2, .var "x")]).canonicalize.value .off =
      (linearSum [(3, callOverVariable)]).canonicalize.value .off := by
  have hx : IsIdentifier "x" := isIdentifier_of_letter 'x' rfl rfl rfl
  have hy : IsIdentifier "y" := isIdentifier_of_letter 'y' rfl rfl rfl
  have hf : IsIdentifier "f" := isIdentifier_of_letter 'f' rfl rfl rfl
  have hvariable : (.var "x" : Expr (Exact .standard)).Within (.integers IsIdentifier) := hx
  have hquotient : callOverVariable.Within (.integers IsIdentifier) := Within.div ⟨hf, hy⟩ hx
  refine canonicalize_linearSum_eq Exactness.writesIntegers_standard ?_ ?_ (fun e => ?_) .off
  · simp [hvariable, hquotient]
  · simp [hquotient]
  · by_cases he : .var "x" = e <;> by_cases he' : callOverVariable = e <;>
      simp [coefficientOf, he, he']

end Expr

end SymbolicForms
