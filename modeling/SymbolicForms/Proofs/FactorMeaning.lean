import SymbolicForms.Proofs.DivisionMeaning
import SymbolicForms.Proofs.PassMeaning
import SymbolicForms.Proofs.SharedPowers

/-!
# Meaning of factored sums

The powers of functions among the factors of a product can be collected without
changing its value. The common factor of some terms has exponents that none of
them falls below, so that every term covers it, and a sum with this factor taken
out has the value of the sum. All that is asked of the vocabulary is that
coefficients can be divided by their common divisor.
-/

namespace SymbolicForms

/-- Coefficients from a vocabulary have a common divisor in it, and so are their quotients. -/
def Vocabulary.DividesOut {rules : Exactness} (v : Vocabulary rules) : Prop :=
  ∀ (first : Term (Exact rules)) (others : List (Term (Exact rules))),
    (∀ t ∈ first :: others, t.coefficient ∈ v.numbers) →
      Term.commonCoefficient first others ∈ v.numbers ∧
        ∀ t ∈ first :: others, t.coefficient / Term.commonCoefficient first others ∈ v.numbers

/-- All numbers can be divided. -/
theorem Vocabulary.dividesOut_rationals {rules : Exactness} (h : rules.margin = 0) :
    (Vocabulary.rationals h).DividesOut :=
  fun _ _ _ => ⟨trivial, fun _ _ => trivial⟩

namespace PowerSplit

variable {rules : Exactness} {v : Vocabulary rules}

/-- What is read as a power of a function is one within the vocabulary. -/
theorem within_functionPower? {factor : Expr (Exact rules)} (h : factor.Within v)
    {power : FunctionKey (Exact rules) × Exact rules} (hp : functionPower? factor = some power) :
    power.1.toExpr.Within v ∧ v.FunctionExponent power.1.name power.2 := by
  obtain ⟨rfl, hone⟩ | rfl := functionPower?_eq_some_iff.mp hp
  · have hexponent : v.FunctionExponent power.1.name (Scalar.one : Exact rules) := by
      simpa using v.functionExponent_natCast power.1.name 1
    exact ⟨h, hone ▸ hexponent⟩
  · exact ⟨h.1, h.2.2⟩

/-- A power of a function whose name is accepted. -/
def acceptedPower? (accepts : String → Bool) (factor : Expr (Exact rules)) :
    Option (FunctionKey (Exact rules) × Exact rules) :=
  (functionPower? factor).filter fun power => accepts power.1.name

/-- The powers that are collected are within the vocabulary of the factors. -/
theorem within_acceptedPowers (accepts : String → Bool) {factors : List (Expr (Exact rules))}
    (h : ∀ factor ∈ factors, factor.Within v) :
    ∀ power ∈ factors.filterMap (acceptedPower? accepts),
      power.1.toExpr.Within v ∧ v.FunctionExponent power.1.name power.2 := by
  intro power hpower
  obtain ⟨factor, hfactor, hread⟩ := List.mem_filterMap.mp hpower
  exact within_functionPower? (h factor hfactor) (Option.filter_eq_some_iff.mp hread).1

/-- The collected powers and the other factors are within the vocabulary of the factors. -/
theorem within_ofFactors (accepts : String → Bool) {factors : List (Expr (Exact rules))}
    (h : ∀ factor ∈ factors, factor.Within v) :
    (ofFactors accepts factors).powers.Within v ∧
      ∀ factor ∈ (ofFactors accepts factors).others, factor.Within v := by
  constructor
  · exact FunctionPowers.within_empty.foldl_accumulate (within_acceptedPowers accepts h)
  · exact fun factor hfactor => h factor (List.mem_filter.mp hfactor).1

/-- Factors of a split are within the vocabulary of its parts. -/
theorem within_factors {split : PowerSplit (Exact rules)} (hp : split.powers.Within v)
    (ho : ∀ factor ∈ split.others, factor.Within v) :
    ∀ factor ∈ split.factors, factor.Within v := by
  intro factor hfactor
  obtain hother | hpower := List.mem_append.mp hfactor
  · exact ho factor hother
  · obtain ⟨entry, hentry, rfl⟩ := List.mem_map.mp hpower
    obtain ⟨hfunction, hexponent, -⟩ := hp.entries entry hentry
    exact Term.within_powerExpr hfunction hexponent

variable {R : Type*} [CommRing R] {I : Interpretation rules R} (hI : I.Faithful v)
include hI

/-- What is read as a power of a function has its value. -/
theorem value_functionPower? {factor : Expr (Exact rules)}
    {power : FunctionKey (Exact rules) × Exact rules} (hp : functionPower? factor = some power) :
    FunctionPowers.powerValue I power.1 power.2 = factor.value I := by
  obtain ⟨rfl, hone⟩ | rfl := functionPower?_eq_some_iff.mp hp
  · rw [FunctionPowers.powerValue, hone, Exact.one_eq, ← Nat.cast_one, hI.numericPower_natCast,
      pow_one]
  · rfl

/-- Splitting keeps the product of the factors. -/
theorem value_ofFactors (accepts : String → Bool) {factors : List (Expr (Exact rules))}
    (h : ∀ factor ∈ factors, factor.Within v) :
    ((ofFactors accepts factors).others.map (Expr.value I)).prod *
      (ofFactors accepts factors).powers.value I = (factors.map (Expr.value I)).prod := by
  have hpowers : (ofFactors accepts factors).powers.value I =
      ((factors.filterMap (acceptedPower? accepts)).map fun power =>
        FunctionPowers.powerValue I power.1 power.2).prod :=
    (FunctionPowers.value_foldl_accumulate hI FunctionPowers.within_empty
      (within_acceptedPowers accepts h)).trans (one_mul _)
  have hothers : (ofFactors accepts factors).others =
      factors.filter fun factor => (acceptedPower? accepts factor).isNone := rfl
  have hperm := perm_filter_append_filterMap (acceptedPower? accepts) (Expr.value I)
    (fun power => FunctionPowers.powerValue I power.1 power.2)
    fun factor (_ : factor ∈ factors) _ hread =>
      value_functionPower? hI (Option.filter_eq_some_iff.mp hread).1
  rw [hpowers, hothers, ← List.prod_append, ← hperm.prod_eq]

/-- The factors of a split have the product of the values of its parts. -/
theorem value_factors {split : PowerSplit (Exact rules)} (hp : split.powers.Within v) :
    (split.factors.map (Expr.value I)).prod =
      (split.others.map (Expr.value I)).prod * split.powers.value I := by
  rw [factors, List.map_append, List.prod_append, List.map_map]
  refine congrArg _ (congrArg List.prod (List.map_congr_left fun entry hentry => ?_))
  exact Term.value_powerExpr hI _ ((hp.entries entry hentry).2.1.mem v)

end PowerSplit

namespace FunctionPowers

variable {rules : Exactness} {v : Vocabulary rules}

/-- Forgetting a function does not lead out of a vocabulary. -/
theorem Within.erase {powers : FunctionPowers (Exact rules)} (h : powers.Within v)
    (function : FunctionKey (Exact rules)) : (powers.erase function).Within v where
  entries entry hentry := h.entries entry (mem_erase_iff.mp hentry).1
  distinct := distinct_erase h.distinct function

/-- Giving a function one of its exponents does not lead out of a vocabulary. -/
theorem Within.set {powers : FunctionPowers (Exact rules)} (h : powers.Within v)
    {function : FunctionKey (Exact rules)} (hf : function.toExpr.Within v)
    {exponent : Exact rules} (he : v.FunctionExponent function.name exponent) :
    (powers.set function exponent).Within v where
  entries entry hentry := by
    obtain hkept | ⟨rfl, hapart⟩ := mem_set_iff.mp hentry
    · exact (h.erase function).entries entry hkept
    · refine ⟨hf, he, ?_⟩
      rintro rfl
      simp at hapart
  distinct := distinct_set h.distinct (FunctionKey.same_self function) exponent

end FunctionPowers

namespace Term

variable {rules : Exactness} {v : Vocabulary rules}

variable {first : Term (Exact rules)} {others : List (Term (Exact rules))}
  (h : ∀ t ∈ first :: others, t.Within v)
include h

/-- The common variables are within the vocabulary, and all terms cover them. -/
theorem commonVariables_spec : (commonVariables first others).Within v ∧
    ∀ t ∈ first :: others, t.variablePowers.Covers (commonVariables first others) := by
  have hnatural (t : Term (Exact rules)) (ht : t ∈ first :: others) (name : String)
      (exponent : Exact rules) (hget : t.variablePowers.get? name = some exponent) :
      v.names name ∧ ∃ n : ℕ, exponent = n := by
    obtain ⟨hname, n, -, hn⟩ :=
      (h t ht).variablePowers _ (VariablePowers.get?_eq_some_iff.mp hget)
    exact ⟨hname, n, hn⟩
  constructor
  · intro entry hentry
    have hshares := mem_commonVariables.mp hentry
    obtain ⟨t, ht, hget⟩ := hshares.attained
    obtain ⟨hname, n, hn⟩ := hnatural t ht entry.1 entry.2 hget
    have hpos := hshares.pos
    rw [hn] at hpos
    exact ⟨hname, n, Nat.cast_pos.mp hpos, hn⟩
  · intro t ht entry hentry
    have hshares := mem_commonVariables.mp hentry
    obtain ⟨t', ht', hget'⟩ := hshares.attained
    obtain ⟨exponent, hget, hle⟩ := hshares.le t ht
    obtain ⟨-, n, hn⟩ := hnatural t' ht' entry.1 entry.2 hget'
    obtain ⟨-, m, hm⟩ := hnatural t ht entry.1 exponent hget
    have hnm : n ≤ m := by
      rw [hn, hm] at hle
      exact Nat.cast_le.mp hle
    refine ⟨m - n, ?_⟩
    rw [hget, Option.getD_some, hm, hn, Nat.cast_sub hnm, sub_eq_add_neg]

/-- The common functions are within the vocabulary, and all terms cover them. -/
theorem commonFunctions_spec : (commonFunctions first others).Within v ∧
    ∀ t ∈ first :: others, t.functionPowers.Covers v (commonFunctions first others) := by
  have hfirst := h first List.mem_cons_self
  have hshared (entry : FunctionKey (Exact rules) × Exact rules)
      (hentry : entry ∈ (commonFunctions first others).entries) : entry.1.toExpr.Within v ∧
        Shares (first :: others) (fun t => t.functionPowers.get? entry.1) entry.2 := by
    obtain ⟨hshares, hmem, -⟩ := (mem_commonFunctions hfirst.reduced).mp hentry
    obtain ⟨own, hown, heq⟩ := List.mem_map.mp hmem
    exact ⟨heq ▸ (hfirst.functionPowers.entries own hown).1, hshares⟩
  have hwhole (t : Term (Exact rules)) (ht : t ∈ first :: others)
      (function : FunctionKey (Exact rules)) (hfunction : function.toExpr.Within v)
      (exponent : Exact rules) (hget : t.functionPowers.get? function = some exponent) :
      v.FunctionExponent function.name exponent := by
    have hmem := ((h t ht).functionPowers.over.get?_eq_some_iff hfunction.over).mp hget
    exact ((h t ht).functionPowers.entries _ hmem).2.1
  constructor
  · refine ⟨fun entry hentry => ?_, (reduced_commonFunctions hfirst.reduced others).distinct⟩
    obtain ⟨hfunction, hshares⟩ := hshared entry hentry
    obtain ⟨t, ht, hget⟩ := hshares.attained
    exact ⟨hfunction, hwhole t ht entry.1 hfunction entry.2 hget, hshares.pos.ne'⟩
  · intro t ht entry hentry
    obtain ⟨hfunction, hshares⟩ := hshared entry hentry
    obtain ⟨t', ht', hget'⟩ := hshares.attained
    obtain ⟨exponent, hget, hle⟩ := hshares.le t ht
    obtain ⟨n, hn, -⟩ := hwhole t' ht' entry.1 hfunction entry.2 hget'
    obtain ⟨m, hm, -⟩ := hwhole t ht entry.1 hfunction exponent hget
    have hnm : n ≤ m := by
      rw [hn, hm] at hle
      exact Int.cast_le.mp hle
    refine ⟨m - n, ?_, Or.inl (sub_nonneg.mpr hnm)⟩
    rw [hget, Option.getD_some, hm, hn, Int.cast_sub, sub_eq_add_neg]

omit h

/-- The common coefficient is not zero. -/
theorem commonCoefficient_ne_zero (first : Term (Exact rules))
    (others : List (Term (Exact rules))) : commonCoefficient first others ≠ 0 := by
  unfold commonCoefficient
  dsimp only
  split
  · rw [Exact.one_eq]
    exact one_ne_zero
  · next hne =>
    intro hzero
    rw [hzero] at hne
    exact hne (by simp [Scalar.vanishes])

/-- The common factor of some terms of a vocabulary is a divisor that all of them cover. -/
theorem commonFactor_spec (hdiv : v.DividesOut) {terms : List (Term (Exact rules))}
    (h : ∀ t ∈ terms, t.Within v) :
    (commonFactor terms).IsDivisor v ∧ ∀ t ∈ terms, t.Covers v (commonFactor terms) := by
  cases terms with
  | nil =>
    have hone : (Scalar.one : Exact rules) ≠ 0 := by
      rw [Exact.one_eq]
      exact one_ne_zero
    exact ⟨⟨within_unit, hone, rfl⟩, List.forall_mem_nil _⟩
  | cons first others =>
    obtain ⟨hcommon, hquotients⟩ := hdiv first others fun t ht => (h t ht).coefficient
    obtain ⟨hvariables, hvariablesCovered⟩ := commonVariables_spec h
    obtain ⟨hfunctions, hfunctionsCovered⟩ := commonFunctions_spec h
    constructor
    · exact ⟨⟨hcommon, hvariables, hfunctions, List.forall_mem_nil _⟩,
        commonCoefficient_ne_zero first others, rfl⟩
    · exact fun t ht => ⟨hquotients t ht, hvariablesCovered t ht, hfunctionsCovered t ht⟩

variable {R : Type*} [CommRing R] {I : Interpretation rules R} (hI : I.Faithful v)
include hI

/-- A factor that all terms cover may be written in front of the sum of the quotients. -/
theorem factored_spec {terms : List (Term (Exact rules))} (h : ∀ t ∈ terms, t.Within v)
    {factor : Term (Exact rules)} (hf : factor.IsDivisor v)
    (hc : ∀ t ∈ terms, t.Covers v factor) :
    (factored terms factor).Within v ∧
      (factored terms factor).value I = (terms.map (value I)).sum := by
  let quotients : List (Expr (Exact rules)) := terms.map fun t => (t.divide factor).toExpr
  have hquotient : ∀ t ∈ terms, (t.divide factor).toExpr.Within v ∧
      factor.value I * (t.divide factor).toExpr.value I = t.value I := by
    intro t ht
    obtain ⟨hwithin, hvalue⟩ := divide_spec hI (h t ht) hf (hc t ht)
    refine ⟨within_toExpr hwithin, ?_⟩
    rw [value_toExpr hI hwithin, mul_comm, hvalue]
  have hrest : (Expr.sum quotients).Within v := by
    refine Expr.within_sum fun e he => ?_
    obtain ⟨t, ht, rfl⟩ := List.mem_map.mp he
    exact (hquotient t ht).1
  have hsum : factor.value I * (Expr.sum quotients).value I = (terms.map (value I)).sum := by
    rw [Expr.value_sum hI, List.map_map, ← List.sum_map_mul_left]
    exact congrArg List.sum (List.map_congr_left fun t ht => (hquotient t ht).2)
  unfold factored
  dsimp only
  split
  · next hunit =>
    refine ⟨hrest, ?_⟩
    rw [hf.value_eq_one hI hunit, one_mul] at hsum
    exact hsum
  · refine ⟨(within_toExpr hf.within).mul hrest, ?_⟩
    rw [Expr.value_mul, value_toExpr hI hf.within]
    exact hsum

end Term

namespace Expr

variable {rules : Exactness} {v : Vocabulary rules} {R : Type*} [CommRing R]
  {I : Interpretation rules R} (hI : I.Faithful v)
include hI

/-- Collecting the powers of functions in a product is sound. -/
theorem sound_collectFunctions : Sound v I collectFunctions := by
  refine sound_of_hasValue fun e h => ?_
  have hfactors : ∀ factor ∈ e.factors, factor.Within v := fun factor hf => h.of_mem_factors hf
  rw [collectFunctions_eq]
  dsimp only
  split
  · exact ⟨h, rfl⟩
  · obtain ⟨hpowers, hothers⟩ := PowerSplit.within_ofFactors (fun _ => true) hfactors
    refine ⟨within_product (PowerSplit.within_factors hpowers hothers), ?_⟩
    rw [value_product hI, PowerSplit.value_factors hI hpowers,
      PowerSplit.value_ofFactors hI _ hfactors, prod_value_factors]

/-- The terms of a sum are within its vocabulary and add up to its value. -/
theorem factorTerms_spec {e : Expr (Exact rules)} (h : e.Within v) :
    (∀ t ∈ e.factorTerms, t.Within v) ∧ (e.factorTerms.map (Term.value I)).sum = e.value I := by
  have hcollect := sound_collectFunctions hI
  have haddend : ∀ addend ∈ e.addends, (Term.ofExpr addend.collectFunctions).Within v ∧
      (Term.ofExpr addend.collectFunctions).value I = addend.value I := by
    intro addend ha
    obtain ⟨hwithin, hvalue⟩ := hcollect.hasValue ⟨h.of_mem_addends ha, rfl⟩
    exact ⟨Term.within_ofExpr hwithin, (Term.value_ofExpr hI hwithin).trans hvalue⟩
  constructor
  · intro t ht
    obtain ⟨addend, ha, rfl⟩ := List.mem_map.mp ht
    exact (haddend addend ha).1
  · rw [factorTerms, List.map_map, ← sum_value_addends hI h]
    exact congrArg List.sum (List.map_congr_left fun addend ha => (haddend addend ha).2)

/-- What is taken out of a sum is a divisor that all of its terms cover. -/
theorem exists_divisor_of_factorOut? (hdiv : v.DividesOut) {e factored : Expr (Exact rules)}
    (h : e.Within v) (hf : e.factorOut? = some factored) :
    e.isSum = true ∧ 2 ≤ e.factorTerms.length ∧
      ∃ factor : Term (Exact rules), factored = Term.factored e.factorTerms factor ∧
        factor.IsDivisor v ∧ ∀ t ∈ e.factorTerms, t.Covers v factor := by
  rw [factorOut?_eq] at hf
  obtain ⟨factor, hfactor, rfl⟩ := Option.map_eq_some_iff.mp hf
  obtain ⟨hdivisor, hcovers⟩ := Term.commonFactor_spec hdiv (factorTerms_spec hI h).1
  unfold commonFactor? at hfactor
  split at hfactor
  · cases hfactor
  next hterms =>
  simp only [Bool.or_eq_true, Bool.not_eq_true', decide_eq_true_eq, not_or, Bool.not_eq_false,
    not_lt] at hterms
  dsimp only at hfactor
  split at hfactor
  · cases hfactor
  obtain rfl := Option.some.inj hfactor
  exact ⟨hterms.1, hterms.2, _, rfl, hdivisor, hcovers⟩

/-- A sum with a factor taken out has the value of the sum. -/
theorem hasValue_factorOut? (hdiv : v.DividesOut) {e factored : Expr (Exact rules)} (h : e.Within v)
    (hf : e.factorOut? = some factored) : factored.HasValue v I (e.value I) := by
  obtain ⟨hterms, hsum⟩ := factorTerms_spec hI h
  obtain ⟨-, -, factor, rfl, hdivisor, hcovers⟩ := exists_divisor_of_factorOut? hI hdiv h hf
  rw [← hsum]
  exact Term.factored_spec hI hterms hdivisor hcovers

end Expr

end SymbolicForms
