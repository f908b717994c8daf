import SymbolicForms.Proofs.ReducedTerms

/-!
# Meaning of terms

The value of a term is the product of its coefficient, its powers and the
factors it keeps whole. Reading an expression as a term and writing a term as
an expression keep the value, and terms are multiplied through their exponents.
-/

namespace SymbolicForms

namespace VariablePowers

variable {rules : Exactness} {v : Vocabulary rules}

/-- Merging does not lead out of a vocabulary. -/
theorem Within.merge {powers other : VariablePowers (Exact rules)} (h : powers.Within v)
    (ho : other.Within v) : (powers.merge other).Within v := by
  obtain ⟨entries, ordered⟩ := other
  change ∀ entry ∈ entries, _ at ho
  change Within v (entries.foldl _ powers)
  clear ordered
  induction entries generalizing powers with
  | nil => exact h
  | cons entry rest ih =>
    obtain ⟨⟨hname, n, -, hn⟩, hrest⟩ := List.forall_mem_cons.mp ho
    obtain ⟨m, hm⟩ := h.exists_get entry.1
    exact ih (h.accumulate hname (by rw [hm, hn, ← Nat.cast_add])) hrest

variable {R : Type*} [CommRing R] {I : Interpretation rules R} (hI : I.Faithful v)
include hI

/-- Merging multiplies the values. -/
theorem value_merge {powers other : VariablePowers (Exact rules)} (h : powers.Within v)
    (ho : other.Within v) : (powers.merge other).value I = powers.value I * other.value I := by
  obtain ⟨entries, ordered⟩ := other
  change ∀ entry ∈ entries, _ at ho
  change value I (entries.foldl _ powers) = _ * (entries.map _).prod
  clear ordered
  induction entries generalizing powers with
  | nil => exact (mul_one _).symm
  | cons entry rest ih =>
    obtain ⟨⟨hname, n, -, hn⟩, hrest⟩ := List.forall_mem_cons.mp ho
    obtain ⟨m, hm⟩ := h.exists_get entry.1
    have hnext : (powers.accumulate entry.1 entry.2).Within v :=
      h.accumulate hname (by rw [hm, hn, ← Nat.cast_add])
    rw [List.foldl_cons, ih hnext hrest, List.map_cons, List.prod_cons, hn,
      value_accumulate hI h, hI.numericPower_natCast, mul_assoc]

/-- One variable has its power as value. -/
theorem value_single (name : String) : (single name (1 : Exact rules)).value I =
    I.valuation name := by
  change (List.map _ [(name, (1 : Exact rules))]).prod = _
  have h := hI.numericPower_natCast (I.valuation name) 1
  rw [Nat.cast_one, pow_one] at h
  rw [List.map_singleton, List.prod_singleton, h]

end VariablePowers

namespace FunctionPowers

variable {rules : Exactness} {v : Vocabulary rules}

/-- Accumulating powers of functions does not lead out of a vocabulary. -/
theorem Within.foldl_accumulate {powers : FunctionPowers (Exact rules)} (h : powers.Within v)
    {entries : List (FunctionKey (Exact rules) × Exact rules)}
    (he : ∀ entry ∈ entries, entry.1.toExpr.Within v ∧ v.FunctionExponent entry.1.name entry.2) :
    (entries.foldl (fun powers entry => powers.accumulate entry.1 entry.2) powers).Within v := by
  induction entries generalizing powers with
  | nil => exact h
  | cons entry rest ih =>
    obtain ⟨⟨hf, hexponent⟩, hrest⟩ := List.forall_mem_cons.mp he
    exact ih (h.accumulate hf ((h.functionExponent_get hf).add v hexponent)) hrest

/-- Merging does not lead out of a vocabulary. -/
theorem Within.merge {powers other : FunctionPowers (Exact rules)} (h : powers.Within v)
    (ho : other.Within v) : (powers.merge other).Within v :=
  h.foldl_accumulate fun entry hentry =>
    ⟨(ho.entries entry hentry).1, (ho.entries entry hentry).2.1⟩

/-- One function with a power is within its vocabulary. -/
theorem within_single {function : FunctionKey (Exact rules)} (hf : function.toExpr.Within v)
    {exponent : Exact rules} (he : v.FunctionExponent function.name exponent) :
    (single function exponent).Within v :=
  within_empty.accumulate hf ((within_empty.functionExponent_get hf).add v he)

variable {R : Type*} [CommRing R] {I : Interpretation rules R} (hI : I.Faithful v)
include hI

/-- Accumulating powers of functions multiplies by them. -/
theorem value_foldl_accumulate {powers : FunctionPowers (Exact rules)} (h : powers.Within v)
    {entries : List (FunctionKey (Exact rules) × Exact rules)}
    (he : ∀ entry ∈ entries, entry.1.toExpr.Within v ∧ v.FunctionExponent entry.1.name entry.2) :
    (entries.foldl (fun powers entry => powers.accumulate entry.1 entry.2) powers).value I =
      powers.value I * (entries.map fun entry => powerValue I entry.1 entry.2).prod := by
  induction entries generalizing powers with
  | nil => exact (mul_one _).symm
  | cons entry rest ih =>
    obtain ⟨⟨hf, hexponent⟩, hrest⟩ := List.forall_mem_cons.mp he
    have hnext := h.accumulate hf ((h.functionExponent_get hf).add v hexponent)
    rw [List.foldl_cons, ih hnext hrest, List.map_cons, List.prod_cons,
      value_accumulate hI h hf hexponent, mul_assoc]

/-- Merging multiplies the values. -/
theorem value_merge {powers other : FunctionPowers (Exact rules)} (h : powers.Within v)
    (ho : other.Within v) : (powers.merge other).value I = powers.value I * other.value I :=
  value_foldl_accumulate hI h fun entry hentry =>
    ⟨(ho.entries entry hentry).1, (ho.entries entry hentry).2.1⟩

/-- One function has its power as value. -/
theorem value_single {function : FunctionKey (Exact rules)} (hf : function.toExpr.Within v)
    {exponent : Exact rules} (he : v.FunctionExponent function.name exponent) :
    (single function exponent).value I = powerValue I function exponent := by
  rw [single, value_accumulate hI within_empty hf he]
  exact one_mul _

end FunctionPowers

namespace Term

variable {rules : Exactness} (v : Vocabulary rules)

/-- A term is made from a vocabulary. -/
structure Within (t : Term (Exact rules)) : Prop where
  /-- The coefficient is a number of the vocabulary. -/
  coefficient : t.coefficient ∈ v.numbers
  /-- The variables are from the vocabulary. -/
  variablePowers : t.variablePowers.Within v
  /-- The functions are from the vocabulary. -/
  functionPowers : t.functionPowers.Within v
  /-- The factors that are kept whole are from the vocabulary. -/
  nested : ∀ e ∈ t.nested, e.Within v

variable {v}

/-- A number is within the vocabulary it is from. -/
theorem within_constant {value : Exact rules} (h : value ∈ v.numbers) :
    (constant value).Within v :=
  ⟨h, VariablePowers.within_empty, FunctionPowers.within_empty, List.forall_mem_nil _⟩

/-- The term one is within every vocabulary. -/
theorem within_unit : (unit : Term (Exact rules)).Within v := by
  have hone : (Scalar.one : Exact rules) ∈ v.numbers := by
    rw [Exact.one_eq]
    exact v.numbers.one_mem
  exact within_constant hone

/-- A factor kept whole is within its vocabulary. -/
theorem within_whole {e : Expr (Exact rules)} (h : e.Within v) : (whole e).Within v :=
  ⟨within_unit.coefficient, VariablePowers.within_empty, FunctionPowers.within_empty,
    fun _ he => List.mem_singleton.mp he ▸ h⟩

/-- Powers of variables are within their vocabulary. -/
theorem within_ofVariables {powers : VariablePowers (Exact rules)} (h : powers.Within v) :
    (ofVariables powers).Within v :=
  ⟨within_unit.coefficient, h, FunctionPowers.within_empty, List.forall_mem_nil _⟩

/-- Powers of functions are within their vocabulary. -/
theorem within_ofFunctions {powers : FunctionPowers (Exact rules)} (h : powers.Within v) :
    (ofFunctions powers).Within v :=
  ⟨within_unit.coefficient, VariablePowers.within_empty, h, List.forall_mem_nil _⟩

/-- A product of terms is within their vocabulary. -/
theorem Within.multiply {t other : Term (Exact rules)} (h : t.Within v) (ho : other.Within v) :
    (t.multiply other).Within v where
  coefficient := v.numbers.mul_mem h.coefficient ho.coefficient
  variablePowers := h.variablePowers.merge ho.variablePowers
  functionPowers := h.functionPowers.merge ho.functionPowers
  nested := fun e he => (List.mem_append.mp he).elim (h.nested e) (ho.nested e)

/-- A natural power of a number is read as a number. -/
theorem ofPower_const (value : Exact rules) (n : ℕ) :
    ofPower (.const value) (n : Exact rules) = constant (value ^ n) := by
  rw [ofPower, if_pos (Exact.hasPower_natCast value n), Exact.power_natCast]

/-- A power is read as a term of its vocabulary. -/
theorem within_ofPower {base : Expr (Exact rules)} {exponent : Exact rules} (hb : base.Within v)
    (he : v.HasExponent base exponent) : (ofPower base exponent).Within v := by
  cases base with
  | const value =>
    obtain ⟨n, rfl⟩ := he
    rw [ofPower_const]
    exact within_constant (pow_mem hb n)
  | var name =>
    obtain ⟨n, rfl⟩ := he
    obtain ⟨m, hm⟩ := VariablePowers.within_empty (v := v).exists_get name
    exact within_ofVariables
      (VariablePowers.within_empty.accumulate hb (by rw [hm, ← Nat.cast_add]))
  | func name argument => exact within_ofFunctions (FunctionPowers.within_single hb he)
  | binary op left right => exact within_whole (hb.pow he)

/-- A factor is read as a term of its vocabulary. -/
theorem within_ofFactor {e : Expr (Exact rules)} (h : e.Within v) : (ofFactor e).Within v := by
  unfold ofFactor
  split
  · exact within_constant h
  · next name =>
    refine within_ofVariables fun entry hentry => ?_
    obtain rfl := List.mem_singleton.mp hentry
    exact ⟨h, 1, Nat.one_pos, by simp⟩
  · next name argument =>
    refine within_ofFunctions (FunctionPowers.within_single h ?_)
    simpa using v.functionExponent_natCast name 1
  · exact within_ofPower h.1 h.2.2
  · exact within_whole h

/-- An expression is read as a term of its vocabulary. -/
theorem within_ofExpr {e : Expr (Exact rules)} (h : e.Within v) : (ofExpr e).Within v :=
  ofExpr_induction within_unit (fun _ _ ht ho => ht.multiply ho) fun _ hf =>
    within_ofFactor (h.of_mem_factors hf)

/-- A base raised to one of its exponents is within its vocabulary. -/
theorem within_powerExpr {base : Expr (Exact rules)} {exponent : Exact rules} (hb : base.Within v)
    (he : v.HasExponent base exponent) : (powerExpr base exponent).Within v := by
  unfold powerExpr
  split
  · exact hb
  · exact hb.pow he

/-- A term of a vocabulary is reduced. -/
theorem Within.reduced {t : Term (Exact rules)} (h : t.Within v) : t.Reduced :=
  ⟨h.variablePowers.over.reduced, h.functionPowers.over.reduced⟩

/-- A term vanishes when its coefficient is zero. -/
theorem Within.isZero_iff {t : Term (Exact rules)} (h : t.Within v) :
    t.isZero = true ↔ t.coefficient = 0 := v.vanishes_iff h.coefficient

/-- The factors of a term beside its coefficient are within its vocabulary. -/
theorem Within.of_mem_baseFactors {t : Term (Exact rules)} (h : t.Within v)
    {factor : Expr (Exact rules)} (hf : factor ∈ t.baseFactors) : factor.Within v := by
  obtain ⟨entry, hentry, rfl⟩ | ⟨entry, hentry, rfl⟩ | hf := cases_of_mem_baseFactors hf
  · obtain ⟨hname, n, -, hn⟩ := h.variablePowers entry hentry
    exact within_powerExpr hname ⟨n, hn⟩
  · obtain ⟨hfunction, he, -⟩ := h.functionPowers.entries entry hentry
    exact within_powerExpr hfunction he
  · exact h.nested factor hf

/-- A term is written as an expression of its vocabulary. -/
theorem within_toExpr {t : Term (Exact rules)} (h : t.Within v) : t.toExpr.Within v := by
  have hproduct : (Expr.product t.baseFactors).Within v :=
    Expr.within_product fun factor hf => h.of_mem_baseFactors hf
  unfold toExpr
  split
  · exact Expr.within_int 0
  split
  · exact h.coefficient
  split
  · exact hproduct
  split
  · exact (Expr.within_int (-1)).mul hproduct
  · exact Expr.Within.mul h.coefficient hproduct

variable {R : Type*} [CommRing R]

/-- The value of a term. -/
def value (I : Interpretation rules R) (t : Term (Exact rules)) : R :=
  I.number t.coefficient * (t.variablePowers.value I * t.functionPowers.value I *
    (t.nested.map (Expr.value I)).prod)

variable {I : Interpretation rules R}

theorem value_constant (number : Exact rules) : (constant number).value I = I.number number := by
  change I.number number * ([].prod * [].prod * [].prod) = _
  simp

variable (hI : I.Faithful v)
include hI

theorem value_unit : (unit : Term (Exact rules)).value I = 1 := by
  rw [unit, value_constant, Exact.one_eq, hI.number_one]

theorem value_whole (e : Expr (Exact rules)) : (whole e).value I = e.value I := by
  change I.number Scalar.one * ([].prod * [].prod * [e.value I].prod) = _
  simp [hI.number_one]

theorem value_ofVariables (powers : VariablePowers (Exact rules)) :
    (ofVariables powers).value I = powers.value I := by
  change I.number Scalar.one * (powers.value I * [].prod * [].prod) = _
  simp [hI.number_one]

theorem value_ofFunctions (powers : FunctionPowers (Exact rules)) :
    (ofFunctions powers).value I = powers.value I := by
  change I.number Scalar.one * ([].prod * powers.value I * [].prod) = _
  simp [hI.number_one]

/-- The value of a product of terms is the product of their values. -/
theorem value_multiply {t other : Term (Exact rules)} (h : t.Within v) (ho : other.Within v) :
    (t.multiply other).value I = t.value I * other.value I := by
  simp only [value, multiply, hI.number_mul h.coefficient ho.coefficient,
    VariablePowers.value_merge hI h.variablePowers ho.variablePowers,
    FunctionPowers.value_merge hI h.functionPowers ho.functionPowers, List.map_append,
    List.prod_append]
  ring

/-- The term of a power has its value. -/
theorem value_ofPower {base : Expr (Exact rules)} {exponent : Exact rules} (hb : base.Within v)
    (he : v.HasExponent base exponent) :
    (ofPower base exponent).value I = I.numericPower (base.value I) exponent := by
  cases base with
  | const number =>
    obtain ⟨n, rfl⟩ := he
    rw [ofPower_const, value_constant, hI.number_pow hb, hI.numericPower_natCast]
    rfl
  | var name =>
    obtain ⟨n, rfl⟩ := he
    change (ofVariables _).value I = _
    rw [value_ofVariables hI, VariablePowers.value_accumulate hI VariablePowers.within_empty,
      hI.numericPower_natCast]
    exact one_mul _
  | func name argument =>
    have hf : (FunctionKey.mk name argument).toExpr.Within v := hb
    exact (value_ofFunctions hI _).trans (FunctionPowers.value_single hI hf he)
  | binary op left right => exact value_whole hI _

/-- The term of a factor has its value. -/
theorem value_ofFactor {e : Expr (Exact rules)} (h : e.Within v) :
    (ofFactor e).value I = e.value I := by
  unfold ofFactor
  split
  · exact value_constant _
  · next name =>
    rw [value_ofVariables hI, Exact.one_eq]
    exact VariablePowers.value_single hI name
  · next name argument =>
    have hf : (FunctionKey.mk name argument).toExpr.Within v := h
    have hone : v.FunctionExponent name Scalar.one := by
      simpa using v.functionExponent_natCast name 1
    rw [value_ofFunctions hI, FunctionPowers.value_single hI hf hone, FunctionPowers.powerValue,
      Exact.one_eq, ← Nat.cast_one, hI.numericPower_natCast, pow_one]
    rfl
  · exact value_ofPower hI h.1 h.2.2
  · exact value_whole hI _

/-- Factors multiply the value of a term. -/
theorem value_foldl_multiply {t : Term (Exact rules)} (ht : t.Within v)
    {factors : List (Expr (Exact rules))} (h : ∀ factor ∈ factors, factor.Within v) :
    (factors.foldl (fun t factor => t.multiply (ofFactor factor)) t).value I =
      t.value I * (factors.map (Expr.value I)).prod := by
  induction factors generalizing t with
  | nil => exact (mul_one _).symm
  | cons factor rest ih =>
    obtain ⟨hfactor, hrest⟩ := List.forall_mem_cons.mp h
    rw [List.foldl_cons, ih (ht.multiply (within_ofFactor hfactor)) hrest,
      value_multiply hI ht (within_ofFactor hfactor), value_ofFactor hI hfactor, List.map_cons,
      List.prod_cons, mul_assoc]

/-- The term of an expression has its value. -/
theorem value_ofExpr {e : Expr (Exact rules)} (h : e.Within v) :
    (ofExpr e).value I = e.value I := by
  unfold ofExpr
  split
  · rw [value_foldl_multiply hI within_unit fun factor hf => h.of_mem_factors hf, value_unit hI,
      one_mul, Expr.prod_value_factors]
  · exact value_ofFactor hI h

/-- A base raised to an exponent has the value of the power. -/
theorem value_powerExpr (base : Expr (Exact rules)) {exponent : Exact rules}
    (he : exponent ∈ v.numbers) :
    (powerExpr base exponent).value I = I.numericPower (base.value I) exponent := by
  unfold powerExpr
  split
  · next hunit =>
    rw [(v.isUnit_iff he).mp hunit, ← Nat.cast_one, hI.numericPower_natCast, pow_one]
  · rfl

/-- The factors beside the coefficient have the value of the term without it. -/
theorem prod_value_baseFactors {t : Term (Exact rules)} (h : t.Within v) :
    (t.baseFactors.map (Expr.value I)).prod =
      t.variablePowers.value I * t.functionPowers.value I *
        (t.nested.map (Expr.value I)).prod := by
  have hvariables : (t.variableFactors.map (Expr.value I)).prod = t.variablePowers.value I := by
    rw [h.reduced.variableFactors_eq, List.map_map]
    refine congrArg List.prod (List.map_congr_left fun entry hentry => ?_)
    obtain ⟨-, n, -, hn⟩ := h.variablePowers entry hentry
    exact value_powerExpr hI _ (hn ▸ v.mem_of_natCast n)
  have hfunctions : (t.functionFactors.map (Expr.value I)).prod = t.functionPowers.value I := by
    rw [h.reduced.functionFactors_eq, List.map_map, FunctionPowers.value,
      ← (t.functionPowers.sorted_perm.map _).prod_eq]
    refine congrArg List.prod (List.map_congr_left fun entry hentry => ?_)
    have hentry' := t.functionPowers.sorted_perm.mem_iff.mp hentry
    exact value_powerExpr hI _ ((h.functionPowers.entries entry hentry').2.1.mem v)
  rw [baseFactors, List.map_append, List.map_append, List.prod_append, List.prod_append,
    hvariables, hfunctions]

/-- A term is written as an expression of its value. -/
theorem value_toExpr {t : Term (Exact rules)} (h : t.Within v) : t.toExpr.value I = t.value I := by
  have hproduct : (Expr.product t.baseFactors).value I = t.variablePowers.value I *
      t.functionPowers.value I * (t.nested.map (Expr.value I)).prod := by
    rw [Expr.value_product hI, prod_value_baseFactors hI h]
  unfold toExpr
  split
  · next hzero =>
    rw [Expr.value_int hI, value, h.isZero_iff.mp hzero, hI.number_zero, zero_mul, Int.cast_zero]
  split
  · next hempty =>
    rw [List.isEmpty_iff.mp hempty] at hproduct
    rw [value, ← hproduct, Expr.value_product hI, List.map_nil, List.prod_nil, mul_one]
    rfl
  split
  · next hone =>
    rw [hproduct, value, (v.isUnit_iff h.coefficient).mp hone, hI.number_one, one_mul]
  split
  · next hminus =>
    rw [Exact.ofInt_eq, v.near_iff h.coefficient (v.mem_of_intCast (-1))] at hminus
    rw [Expr.value_mul, hproduct, Expr.value_int hI, value, hminus, hI.number_intCast]
  · rw [Expr.value_mul, hproduct]
    rfl

end Term

end SymbolicForms
