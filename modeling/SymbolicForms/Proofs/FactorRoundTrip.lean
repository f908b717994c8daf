import SymbolicForms.Proofs.CommonDivisors
import SymbolicForms.Proofs.FactorMeaning
import SymbolicForms.Proofs.FormalExpansion
import SymbolicForms.Proofs.PolynomialExpansion

/-!
# Factoring undone

The common divisor of integer coefficients divides all of them, whether or not it
is the greatest one. A factor times the quotient of a term by it has the exponents
of the term, because nothing is kept whole in the factor and its powers commute
with everything. Taking a common factor out of a sum and collecting the functions
of its addends therefore keep the formal expansion, and canonicalizing undoes
both.
-/

namespace SymbolicForms

variable {rules : Exactness}

/-- Integer coefficients can be divided by their common divisor. -/
theorem Vocabulary.dividesOut_integers (names : String → Prop) :
    (Vocabulary.integers names : Vocabulary rules).DividesOut := by
  intro first others h
  have hfold (start : ℤ) (ts : List (Term (Exact rules)))
      (hts : ∀ t ∈ ts, ∃ n : ℤ, t.coefficient = n) : ∃ d : ℤ,
      ts.foldl (fun divisor t => Scalar.commonDivisor divisor t.coefficient)
          (start : Exact rules) = d ∧ d ∣ start ∧
        ∀ t ∈ ts, ∃ n : ℤ, t.coefficient = n ∧ d ∣ n := by
    induction ts generalizing start with
    | nil => exact ⟨start, rfl, dvd_rfl, List.forall_mem_nil _⟩
    | cons t rest ih =>
      obtain ⟨⟨n, hn⟩, hrest⟩ := List.forall_mem_cons.mp hts
      obtain ⟨d, hd, hstart, hdn⟩ : ∃ d : ℕ,
          Scalar.commonDivisor (start : Exact rules) (n : Exact rules) = d ∧ (d : ℤ) ∣ start ∧
            (d : ℤ) ∣ n := by
        obtain hgcd | hone := Exact.commonDivisor_intCast start n
        · exact ⟨start.gcd n, hgcd, Int.gcd_dvd_left .., Int.gcd_dvd_right ..⟩
        · exact ⟨1, by rw [hone, Nat.cast_one], one_dvd start, one_dvd n⟩
      obtain ⟨d', hd', hdd', hothers⟩ := ih d hrest
      refine ⟨d', ?_, hdd'.trans hstart,
        List.forall_mem_cons.mpr ⟨⟨n, hn, hdd'.trans hdn⟩, hothers⟩⟩
      rw [List.foldl_cons, hn, hd, ← Int.cast_natCast, hd']
  have hinteger : ∀ t ∈ first :: others, ∃ n : ℤ, t.coefficient = n := by
    intro t ht
    obtain ⟨n, hn⟩ := h t ht
    exact ⟨n, hn.symm⟩
  obtain ⟨⟨k, hk⟩, hothers⟩ := List.forall_mem_cons.mp hinteger
  obtain ⟨d, hd, hfirst, hrest⟩ := hfold |k| others hothers
  have hdivides : ∀ t ∈ first :: others, ∃ n : ℤ, t.coefficient = n ∧ d ∣ n :=
    List.forall_mem_cons.mpr ⟨⟨k, hk, (dvd_abs d k).mp hfirst⟩, hrest⟩
  have hcommon : Term.commonCoefficient first others =
      if Scalar.vanishes (d : Exact rules) then Scalar.one else (d : Exact rules) := by
    have hstart : Scalar.abs first.coefficient = ((|k| : ℤ) : Exact rules) := by
      rw [hk, Int.cast_abs]
      rfl
    rw [Term.commonCoefficient, hstart, hd]
  rw [hcommon]
  split
  · rw [Exact.one_eq]
    exact ⟨(Vocabulary.integers names).numbers.one_mem, fun t ht => by rw [div_one]; exact h t ht⟩
  · next hne =>
    have hd0 : (d : Exact rules) ≠ 0 := by
      rintro hzero
      rw [hzero] at hne
      exact hne (by simp [Scalar.vanishes])
    refine ⟨Vocabulary.mem_of_intCast _ d, fun t ht => ?_⟩
    obtain ⟨n, hn, q, rfl⟩ := hdivides t ht
    rw [hn, Int.cast_mul, mul_div_cancel_left₀ _ hd0]
    exact Vocabulary.mem_of_intCast _ q

namespace Term

variable {v : Vocabulary rules}

/-- A divisor times a quotient is the term. -/
theorem IsDivisor.formal_mul_divide {divisor : Term (Exact rules)} (hd : divisor.IsDivisor v)
    {t : Term (Exact rules)} (h : t.Within v) (s : Substitution rules) :
    divisor.formal s * (t.divide divisor).formal s = t.formal s := by
  have hvariables : divisor.variablePowers.exponentMap +
      (t.divide divisor).variablePowers.exponentMap = t.variablePowers.exponentMap := by
    rw [divide, h.variablePowers.over.exponentMap_remove hd.within.variablePowers.over,
      add_sub_cancel]
  have hfunctions : divisor.functionPowers.exponentMap +
      (t.divide divisor).functionPowers.exponentMap = t.functionPowers.exponentMap := by
    rw [divide, h.functionPowers.over.exponentMap_remove hd.within.functionPowers.over,
      add_sub_cancel]
  have hpowers : divisor.powers s * (t.divide divisor).powers s = t.powers s := by
    rw [powers, powers, powers, ← hvariables, ← hfunctions, Finsupp.mapDomain_add, ofAdd_add,
      ofAdd_add, Prod.mk_mul_mk, Prod.mk_mul_mk, mul_one]
  have hcoefficient : divisor.coefficient * (t.divide divisor).coefficient = t.coefficient :=
    mul_div_cancel₀ _ hd.coefficient
  have hnested : (t.divide divisor).nested = t.nested := rfl
  rw [formal, formal, formal, hd.nested, hnested, List.map_nil, List.prod_nil, mul_one, ← mul_assoc,
    MonoidAlgebra.single_mul_single, hpowers, hcoefficient]

/-- A divisor without powers whose coefficient is one is one. -/
theorem IsDivisor.formal_eq_one {divisor : Term (Exact rules)} (hd : divisor.IsDivisor v)
    (hunit : divisor.isUnit = true) (s : Substitution rules) : divisor.formal s = 1 := by
  rw [isUnit, Bool.and_eq_true, Bool.and_eq_true, v.isUnit_iff hd.within.coefficient] at hunit
  obtain ⟨⟨hone, hvariables⟩, hfunctions⟩ := hunit
  have hpowers : divisor.powers s = 1 := by
    have hnone : divisor.variablePowers.exponentMap = 0 := by
      rw [VariablePowers.exponentMap, List.isEmpty_iff.mp hvariables]
      rfl
    have hnone' : divisor.functionPowers.exponentMap = 0 := by
      rw [FunctionPowers.exponentMap, List.isEmpty_iff.mp hfunctions]
      rfl
    rw [powers, hnone, hnone', Finsupp.mapDomain_zero]
    rfl
  rw [formal, hd.nested, hone, hpowers, ← MonoidAlgebra.one_def, one_mul]
  rfl

/-- A factor in front of the sum of the quotients expands to the sum of the terms. -/
theorem expansion_factored (hv : ¬v.openPowers) {terms : List (Term (Exact rules))}
    (h : ∀ t ∈ terms, t.Within v) {factor : Term (Exact rules)} (hf : factor.IsDivisor v)
    (hq : ∀ t ∈ terms, (t.divide factor).Within v) :
    (factored terms factor).expansion = (terms.map (formal Expr.expanding)).sum := by
  let rest := Expr.sum (terms.map fun t => (t.divide factor).toExpr)
  have hsum : factor.formal Expr.expanding * rest.expansion =
      (terms.map (formal Expr.expanding)).sum := by
    rw [Expr.expansion_sum, List.map_map, ← List.sum_map_mul_left]
    refine congrArg List.sum (List.map_congr_left fun t ht => ?_)
    rw [Function.comp_apply, (hq t ht).expansion_toExpr hv, hf.formal_mul_divide (h t ht)]
  have hrest : rest.Within v := by
    refine Expr.within_sum fun e he => ?_
    obtain ⟨t, ht, rfl⟩ := List.mem_map.mp he
    exact within_toExpr (hq t ht)
  unfold factored
  dsimp only
  split
  · next hunit =>
    rw [hf.formal_eq_one hunit, one_mul] at hsum
    exact hsum
  · rw [Expr.expansion_mul hv (within_toExpr hf.within) hrest, hf.within.expansion_toExpr hv]
    exact hsum

end Term

namespace PowerSplit

variable {v : Vocabulary rules} (hv : ¬v.openPowers)
include hv

/-- What is read as a power of a function expands to that power. -/
theorem expansion_functionPower? {factor : Expr (Exact rules)} (h : factor.Within v)
    {power : FunctionKey (Exact rules) × Exact rules} (hp : functionPower? factor = some power) :
    factor.expansion = Term.functionPower (Expr.expanding.function power.1) power.2 := by
  obtain ⟨hfunction, hexponent⟩ := within_functionPower? h hp
  have hread : Term.ofFactor factor = Term.ofFunctions (.single power.1 power.2) ∧
      ∀ left right, factor ≠ .mul left right := by
    obtain ⟨rfl, hone⟩ | rfl := functionPower?_eq_some_iff.mp hp
    · exact ⟨hone ▸ rfl, by simp [FunctionKey.toExpr]⟩
    · exact ⟨rfl, by simp⟩
  rw [Expr.expansion_eq_formal_ofFactor hv h hread.2, hread.1,
    Term.formal_ofFunctions_single Expr.expanding hfunction hexponent]

/-- The factors of a split expand to the product of the expansions of all factors. -/
theorem prod_expansion_factors (accepts : String → Bool) {factors : List (Expr (Exact rules))}
    (h : ∀ factor ∈ factors, factor.Within v) :
    ((ofFactors accepts factors).factors.map Expr.expansion).prod =
      (factors.map Expr.expansion).prod := by
  let collected := factors.filterMap (acceptedPower? accepts)
  have hpowers : (((ofFactors accepts factors).powers.entries.map fun entry =>
      Term.powerExpr entry.1.toExpr entry.2).map Expr.expansion).prod =
        (collected.map fun power =>
          Term.functionPower (Expr.expanding.function power.1) power.2).prod := by
    have hcollected (power : FunctionKey (Exact rules) × Exact rules) (hmem : power ∈ collected) :
        power.1.toExpr.Over v ∧ power.2 ∈ v.numbers :=
      (within_acceptedPowers accepts h power hmem).imp Expr.Within.over (·.mem v)
    have hexponents : (ofFactors accepts factors).powers.exponentMap = exponentSum collected :=
      (FunctionPowers.over_foldl_accumulate_empty hcollected).2
    rw [Term.prod_functionPower, ← hexponents, FunctionPowers.exponentMap,
      ← Term.prod_functionPower, List.map_map]
    refine congrArg List.prod (List.map_congr_left fun entry hentry => ?_)
    obtain ⟨hf, he, hne⟩ := (within_ofFactors accepts h).1.entries entry hentry
    exact Term.expansion_powerExpr_func hv hf he hne
  have hothers : (ofFactors accepts factors).others =
      factors.filter fun factor => (acceptedPower? accepts factor).isNone := rfl
  rw [PowerSplit.factors, List.map_append, List.prod_append, hpowers, hothers]
  clear hpowers hothers
  subst collected
  induction factors with
  | nil => exact mul_one _
  | cons factor rest ih =>
    obtain ⟨hfactor, hrest⟩ := List.forall_mem_cons.mp h
    cases hread : acceptedPower? accepts factor with
    | none =>
      simp only [List.filter_cons, List.filterMap_cons, hread, Option.isNone_none, if_true,
        List.map_cons, List.prod_cons]
      rw [mul_assoc, ih hrest]
    | some power =>
      have hpower := expansion_functionPower? hv hfactor (Option.filter_eq_some_iff.mp hread).1
      simp only [List.filter_cons, List.filterMap_cons, hread, Option.isNone_some,
        Bool.false_eq_true, if_false, List.map_cons, List.prod_cons]
      rw [hpower, ← ih hrest, Term.functionPower, (FormalSum.commute_powers _ _ 1 _).left_comm]

end PowerSplit

namespace Expr

section Integers

variable {names : String → Prop}

/-- Integers with functions and quotients of no value. -/
def blankMeaning : Interpretation rules ℤ := .inRing (fun _ => 0) (fun _ _ => 0) fun _ _ => 0

theorem faithful_blankMeaning :
    (blankMeaning : Interpretation rules ℤ).Faithful (.integers names) :=
  Interpretation.faithful_inRing _ _ _ names

/-- Collecting the functions of a product keeps its expansion. -/
theorem expansion_collectFunctions {e : Expr (Exact rules)} (h : e.Within (.integers names)) :
    e.collectFunctions.Within (.integers names) ∧ e.collectFunctions.expansion = e.expansion := by
  have hv : ¬(Vocabulary.integers names : Vocabulary rules).openPowers := not_false
  have hfactors : ∀ factor ∈ e.factors, factor.Within (.integers names) :=
    fun factor hf => h.of_mem_factors hf
  refine ⟨(sound_collectFunctions faithful_blankMeaning).within h, ?_⟩
  rw [collectFunctions_eq]
  dsimp only
  split
  · rfl
  · obtain ⟨hpowers, hothers⟩ := PowerSplit.within_ofFactors (fun _ => true) hfactors
    rw [expansion_product hv (PowerSplit.within_factors hpowers hothers),
      PowerSplit.prod_expansion_factors hv _ hfactors, prod_expansion_factors hv h]

/-- The terms of a sum add up to its expansion. -/
theorem sum_formal_factorTerms {e : Expr (Exact rules)} (h : e.Within (.integers names)) :
    (e.factorTerms.map (Term.formal expanding)).sum = e.expansion := by
  have hv : ¬(Vocabulary.integers names : Vocabulary rules).openPowers := not_false
  rw [factorTerms, List.map_map, ← sum_expansion_addends hv h]
  refine congrArg List.sum (List.map_congr_left fun addend ha => ?_)
  obtain ⟨hwithin, hexpansion⟩ := expansion_collectFunctions (h.of_mem_addends ha)
  rw [Function.comp_apply, formal_ofExpr_expanding hv hwithin, hexpansion]

end Integers

/-- A product with a sum, or the sum alone, is no quotient. -/
theorem factored_ne_div {terms : List (Term (Exact rules))} (h : 2 ≤ terms.length)
    (factor : Term (Exact rules)) (numerator denominator : Expr (Exact rules)) :
    Term.factored terms factor ≠ .div numerator denominator := by
  unfold Term.factored
  dsimp only
  split
  · have hsum : (sum (terms.map fun t => (t.divide factor).toExpr)).isSum = true :=
      isSum_sum (by rwa [List.length_map])
    rintro heq
    rw [heq] at hsum
    cases hsum
  · simp

/-- Canonicalizing a sum with its common factor taken out gives the canonical form of the sum. From
anything else nothing is taken out. -/
theorem canonicalize_extractFactor (hw : rules.WritesIntegers) {e : Expr (Exact rules)}
    (h : e.Within (.integers IsIdentifier)) (threshold threshold' : LogLevel) :
    (e.extractFactor.value threshold).canonicalize.value threshold' =
      e.canonicalize.value threshold' := by
  have hv : ¬(Vocabulary.integers IsIdentifier : Vocabulary rules).openPowers := not_false
  have hextract : e.extractFactor.value threshold = e.factorOut?.getD e := by
    simp only [extractFactor, Logged.value_bind, Logged.value_pure, value_extractFactor?]
  rw [hextract, value_canonicalize, value_canonicalize]
  cases hfactored : e.factorOut? with
  | none => rfl
  | some factored =>
    rw [Option.getD_some]
    obtain ⟨hsum, htwo, factor, rfl, hdivisor, hcovers⟩ := exists_divisor_of_factorOut?
      faithful_blankMeaning (Vocabulary.dividesOut_integers IsIdentifier) h hfactored
    obtain ⟨hterms, -⟩ := factorTerms_spec faithful_blankMeaning h
    have hquotients (t : Term (Exact rules)) (ht : t ∈ e.factorTerms) :
        (t.divide factor).Within (.integers IsIdentifier) :=
      (Term.divide_spec faithful_blankMeaning (hterms t ht) hdivisor (hcovers t ht)).1
    have hwithin : (Term.factored e.factorTerms factor).Within (.integers IsIdentifier) :=
      (Term.factored_spec faithful_blankMeaning hterms hdivisor hcovers).1
    have hne (numerator denominator : Expr (Exact rules)) : e ≠ .div numerator denominator := by
      rintro rfl
      cases hsum
    rw [canonicalForm_eq_canonicalSum (factored_ne_div htwo factor),
      canonicalForm_eq_canonicalSum hne]
    refine canonicalSum_eq_of_expansion_eq hw hwithin h ?_
    rw [Term.expansion_factored hv hterms hdivisor hquotients, sum_formal_factorTerms h]

/-- The difference `2*f(x)*(x+y) - f(x)*(6*(y/x))`. -/
def callTimesDifference : Expr (Exact .standard) :=
  let call : Expr (Exact .standard) := .func "f" (.var "x")
  .sub (.mul (.mul (.int 2) call) (.add (.var "x") (.var "y")))
    (.mul call (.mul (.int 6) (.div (.var "y") (.var "x"))))

/-- The product `2*f(x)*((x+y) + (-3)*(y/x))`. -/
def callTimesSum : Expr (Exact .standard) :=
  .mul (.mul (.int 2) (.func "f" (.var "x")))
    (.add (.add (.var "x") (.var "y")) (.mul (.int (-3)) (.div (.var "y") (.var "x"))))

theorem canonicalize_extractFactor_callTimesDifference :
    callTimesDifference.factorOut? = some callTimesSum ∧
      (callTimesDifference.extractFactor.value .off).canonicalize.value .off =
        callTimesDifference.canonicalize.value .off := by
  have hx : IsIdentifier "x" := isIdentifier_of_letter 'x' rfl rfl rfl
  have hy : IsIdentifier "y" := isIdentifier_of_letter 'y' rfl rfl rfl
  have hf : IsIdentifier "f" := isIdentifier_of_letter 'f' rfl rfl rfl
  have hcall : (.func "f" (.var "x") : Expr (Exact .standard)).Within (.integers IsIdentifier) :=
    ⟨hf, hx⟩
  have hsum : (.add (.var "x") (.var "y") : Expr (Exact .standard)).Within
      (.integers IsIdentifier) := Within.add hx hy
  have hquotient : (.div (.var "y") (.var "x") : Expr (Exact .standard)).Within
      (.integers IsIdentifier) := Within.div hy hx
  have hwithin : callTimesDifference.Within (.integers IsIdentifier) :=
    ⟨((within_int 2).mul hcall).mul hsum, hcall.mul ((within_int 6).mul hquotient), trivial⟩
  refine ⟨by decide +kernel, ?_⟩
  exact canonicalize_extractFactor Exactness.writesIntegers_standard hwithin .off .off

end Expr

end SymbolicForms
