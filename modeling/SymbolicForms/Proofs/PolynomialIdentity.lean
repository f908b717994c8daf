import Mathlib.Algebra.MvPolynomial.Basic
import SymbolicForms.Proofs.PolynomialExpansion

/-!
# Polynomial identity

The coefficient of a monomial in the polynomial of an expression is the total of
its key in the expansion, because the exponents of a monomial and its key
determine each other. Polynomial expressions therefore have one canonical form
exactly when they denote the same polynomial over the integers.
-/

namespace SymbolicForms

variable {rules : Exactness}

namespace VariablePowers

/-- The exponents of all variables. -/
noncomputable def exponents (powers : VariablePowers (Exact rules)) : String →₀ ℕ :=
  (powers.entries.map fun entry => Finsupp.single entry.1 ⌊entry.2⌋₊).sum

/-- The exponent of a variable is the one that is looked up. -/
theorem exponents_apply (powers : VariablePowers (Exact rules)) (name : String) :
    powers.exponents name = ⌊(powers.get? name).getD 0⌋₊ := by
  have hothers (entries : List (String × Exact rules)) (h : name ∉ entries.map Prod.fst) :
      (entries.map fun entry => Finsupp.single entry.1 ⌊entry.2⌋₊).sum name = 0 := by
    induction entries with
    | nil => rfl
    | cons entry rest ih =>
      rw [List.map_cons, List.mem_cons, not_or] at h
      rw [List.map_cons, List.sum_cons, Finsupp.add_apply, ih h.2, add_zero,
        Finsupp.single_eq_of_ne h.1]
  obtain ⟨before, after, hentries, -, -, hbefore, hafter⟩ := powers.exists_split name
  rw [exponents, hentries, List.map_append, List.map_append, List.sum_append, List.sum_append,
    Finsupp.add_apply, Finsupp.add_apply, hothers before hbefore, hothers after hafter, zero_add,
    add_zero]
  cases powers.get? name with
  | none => simp
  | some exponent => simp

/-- A table is known by the exponents of all variables. -/
theorem exponents_inj {v : Vocabulary rules} {powers other : VariablePowers (Exact rules)}
    (h : powers.Within v) (ho : other.Within v) (heq : powers.exponents = other.exponents) :
    powers = other := by
  have hsubset {powers other : VariablePowers (Exact rules)} (h : powers.Within v)
      (ho : other.Within v) (heq : powers.exponents = other.exponents) :
      powers.entries ⊆ other.entries := by
    rintro ⟨name, exponent⟩ hentry
    obtain ⟨-, n, hpos, hn⟩ := h _ hentry
    dsimp only at hn
    have hexponent := DFunLike.congr_fun heq name
    rw [exponents_apply, exponents_apply, get?_eq_some_iff.mpr hentry, Option.getD_some, hn,
      Nat.floor_natCast] at hexponent
    cases hget : other.get? name with
    | none =>
      rw [hget, Option.getD_none, Nat.floor_zero] at hexponent
      omega
    | some found =>
      have hfound := get?_eq_some_iff.mp hget
      obtain ⟨-, m, -, hm⟩ := ho _ hfound
      dsimp only at hm
      rw [hget, Option.getD_some, hm, Nat.floor_natCast] at hexponent
      rwa [hn, hexponent, ← hm]
  have hnodup (powers : VariablePowers (Exact rules)) : powers.entries.Nodup := by
    refine List.Pairwise.imp ?_ powers.ordered
    rintro entry _ hlt rfl
    exact String.lt_irrefl entry.1 hlt
  have hperm : powers.entries.Perm other.entries :=
    (List.perm_ext_iff_of_nodup (hnodup powers) (hnodup other)).mpr fun entry =>
      ⟨fun hentry => hsubset h ho heq hentry, fun hentry => hsubset ho h heq.symm hentry⟩
  refine eq_of_entries_eq (hperm.eq_of_pairwise (fun first second _ _ hlt hgt => ?_)
    powers.ordered other.ordered)
  exact absurd hlt (String.lt_asymm hgt)

end VariablePowers

namespace Term

/-- Monomials have one key exactly when their variables have the same exponents. -/
theorem IsMonomial.baseKey_eq_iff (hw : rules.WritesIntegers) {t other : Term (Exact rules)}
    (hm : t.IsMonomial) (hm' : other.IsMonomial) (h : t.Within (.integers IsIdentifier))
    (ho : other.Within (.integers IsIdentifier)) :
    t.baseKey = other.baseKey ↔ t.variablePowers.exponents = other.variablePowers.exponents := by
  obtain ⟨hfunctions, hnested⟩ := hm
  obtain ⟨hfunctions', hnested'⟩ := hm'
  have hcollected : t.Collected (.integers IsIdentifier) :=
    ⟨h, by rw [hnested]; exact List.forall_mem_nil _⟩
  have hcollected' : other.Collected (.integers IsIdentifier) :=
    ⟨ho, by rw [hnested']; exact List.forall_mem_nil _⟩
  constructor
  · intro hkey
    rw [(baseKey_inj hw hcollected.joined hcollected'.joined hkey).1]
  · intro hexponents
    have hpowers := VariablePowers.exponents_inj h.variablePowers ho.variablePowers hexponents
    rw [baseKey, baseKey, baseKeyParts, baseKeyParts, hpowers, hfunctions, hfunctions', hnested,
      hnested']

end Term

namespace Expr

/-- Variables stand for themselves; functions and quotients, which no polynomial has, for zero. -/
noncomputable def polynomialMeaning : Interpretation rules (MvPolynomial String ℤ) :=
  .inRing MvPolynomial.X (fun _ _ => 0) fun _ _ => 0

/-- The polynomial that an expression denotes. -/
noncomputable def polynomial (e : Expr (Exact rules)) : MvPolynomial String ℤ :=
  e.value polynomialMeaning

/-- The meaning as a polynomial respects integers and natural powers. -/
theorem faithful_polynomialMeaning :
    (polynomialMeaning : Interpretation rules _).Faithful (.integers IsIdentifier) :=
  Interpretation.faithful_inRing _ _ _ IsIdentifier

end Expr

namespace Term

/-- A monomial denotes a monomial. -/
theorem IsMonomial.value_eq {t : Term (Exact rules)} (hm : t.IsMonomial) :
    t.value Expr.polynomialMeaning =
      MvPolynomial.monomial t.variablePowers.exponents ⌊t.coefficient⌋ := by
  obtain ⟨hfunctions, hnested⟩ := hm
  have hpowers (entries : List (String × Exact rules)) :
      (entries.map fun entry =>
        (MvPolynomial.X entry.1 : MvPolynomial String ℤ) ^ ⌊entry.2⌋₊).prod =
        MvPolynomial.monomial
          (entries.map fun entry => Finsupp.single entry.1 ⌊entry.2⌋₊).sum 1 := by
    induction entries with
    | nil => rfl
    | cons entry rest ih =>
      rw [List.map_cons, List.prod_cons, ih, MvPolynomial.X_pow_eq_monomial,
        MvPolynomial.monomial_mul, mul_one, List.map_cons, List.sum_cons]
  have hvalue : t.variablePowers.value Expr.polynomialMeaning =
      MvPolynomial.monomial t.variablePowers.exponents (1 : ℤ) := hpowers _
  have hnumber : Expr.polynomialMeaning.number t.coefficient =
      (MvPolynomial.C ⌊t.coefficient⌋ : MvPolynomial String ℤ) :=
    (eq_intCast (MvPolynomial.C : ℤ →+* MvPolynomial String ℤ) _).symm
  have hnothing : (FunctionPowers.empty : FunctionPowers (Exact rules)).value
      Expr.polynomialMeaning = 1 := rfl
  rw [value, hfunctions, hnested, hnothing, hvalue, hnumber, List.map_nil, List.prod_nil, mul_one,
    mul_one, MvPolynomial.C_mul_monomial, mul_one]

end Term

namespace Expr

/-- The coefficients of a polynomial are added up over the terms of the expansion. -/
theorem IsPolynomial.coeff_polynomial {e : Expr (Exact rules)} (h : e.IsPolynomial)
    (exponents : String →₀ ℕ) :
    e.polynomial.coeff exponents = (e.fullyExpand.terms.map fun t =>
      if t.variablePowers.exponents = exponents then ⌊t.coefficient⌋ else 0).sum := by
  have hwithin := h.within.fullyExpand not_false
  have hvalue : e.polynomial = (e.fullyExpand.terms.map (Term.value polynomialMeaning)).sum := by
    rw [polynomial, ← value_fullyExpand faithful_polynomialMeaning not_false h.within,
      ← sum_value_addends faithful_polynomialMeaning hwithin, terms, List.map_map]
    exact congrArg List.sum (List.map_congr_left fun addend ha =>
      (Term.value_ofExpr faithful_polynomialMeaning (hwithin.of_mem_addends ha)).symm)
  rw [hvalue, ← MvPolynomial.coeffAddMonoidHom_apply, map_list_sum, List.map_map]
  refine congrArg List.sum (List.map_congr_left fun t ht => ?_)
  rw [Function.comp_apply, (h.isMonomial_of_mem_terms ht).value_eq,
    MvPolynomial.coeffAddMonoidHom_apply, MvPolynomial.coeff_monomial]

/-- The total of the key of a monomial is the coefficient of the monomial. -/
theorem IsPolynomial.expandedTotal_eq_coeff (hw : rules.WritesIntegers) {e : Expr (Exact rules)}
    (h : e.IsPolynomial) {t : Term (Exact rules)} (hm : t.IsMonomial)
    (ht : t.Within (.integers IsIdentifier)) :
    expandedTotal t.baseKey e = (e.polynomial.coeff t.variablePowers.exponents : ℤ) := by
  have hwithin := (h.within.fullyExpand not_false).terms
  rw [h.coeff_polynomial, expandedTotal, Term.total, Int.cast_list_sum, List.map_map]
  refine congrArg List.sum (List.map_congr_left fun other hother => ?_)
  have hkey := (h.isMonomial_of_mem_terms hother).baseKey_eq_iff hw hm (hwithin other hother) ht
  obtain ⟨n, hn⟩ := (hwithin other hother).coefficient
  have hfloor : ((⌊other.coefficient⌋ : ℤ) : Exact rules) = other.coefficient := by
    rw [← hn]
    exact congrArg Int.cast (Int.floor_intCast n)
  rw [Term.share, Function.comp_apply]
  by_cases hsame : other.baseKey = t.baseKey
  · rw [if_pos hsame, if_pos (hkey.mp hsame), hfloor]
  · rw [if_neg hsame, if_neg (mt hkey.mpr hsame), Int.cast_zero]

/-- Expressions of one polynomial have the same totals in their expansions. -/
theorem IsPolynomial.expandedTotal_eq (hw : rules.WritesIntegers) {e e' : Expr (Exact rules)}
    (h : e.IsPolynomial) (h' : e'.IsPolynomial) (heq : e.polynomial = e'.polynomial)
    (key : String) : expandedTotal key e = expandedTotal key e' := by
  by_cases hfound : ∃ t ∈ e.fullyExpand.terms ++ e'.fullyExpand.terms, t.baseKey = key
  · obtain ⟨t, ht, rfl⟩ := hfound
    have hterm : t.IsMonomial ∧ t.Within (.integers IsIdentifier) := by
      obtain ht | ht := List.mem_append.mp ht
      · exact ⟨h.isMonomial_of_mem_terms ht, (h.within.fullyExpand not_false).terms t ht⟩
      · exact ⟨h'.isMonomial_of_mem_terms ht, (h'.within.fullyExpand not_false).terms t ht⟩
    rw [h.expandedTotal_eq_coeff hw hterm.1 hterm.2, h'.expandedTotal_eq_coeff hw hterm.1 hterm.2,
      heq]
  · -- a key that no term of either expansion has
    push Not at hfound
    have hnone := Term.total_eq_zero fun t ht => hfound t (List.mem_append_left _ ht)
    have hnone' := Term.total_eq_zero fun t ht => hfound t (List.mem_append_right _ ht)
    exact hnone.trans hnone'.symm

/-- Polynomial expressions have one canonical form exactly when they denote one polynomial. -/
theorem canonicalize_eq_iff_polynomial_eq (hw : rules.WritesIntegers)
    {e e' : Expr (Exact rules)} (h : e.IsPolynomial) (h' : e'.IsPolynomial)
    (threshold : LogLevel) :
    e.canonicalize.value threshold = e'.canonicalize.value threshold ↔
      e.polynomial = e'.polynomial := by
  rw [value_canonicalize, value_canonicalize]
  constructor
  · intro heq
    have hvalue {e : Expr (Exact rules)} (h : e.IsPolynomial) :
        e.canonicalForm.polynomial = e.polynomial :=
      value_canonicalForm not_false faithful_polynomialMeaning h.within
    rw [← hvalue h, ← hvalue h', heq]
  · intro heq
    rw [canonicalForm_eq_canonicalSum h.ne_div, canonicalForm_eq_canonicalSum h'.ne_div]
    exact canonicalSum_eq_of_total_eq hw h.within h'.within (h.expandedTotal_eq hw h' heq)

/-- The product `(x + 1) * (x - 1)`. -/
def sumTimesDifference : Expr (Exact .standard) :=
  .mul (.add (.var "x") (.const (1 : ℤ))) (.sub (.var "x") (.const (1 : ℤ)))

/-- The difference `x^2 - 1`. -/
def differenceOfSquares : Expr (Exact .standard) :=
  .sub (.pow (.var "x") (.const (2 : ℕ))) (.const (1 : ℤ))

theorem canonicalize_sumTimesDifference_iff :
    sumTimesDifference.IsPolynomial ∧ differenceOfSquares.IsPolynomial ∧
      (sumTimesDifference.canonicalize.value .off = differenceOfSquares.canonicalize.value .off ↔
        sumTimesDifference.polynomial = differenceOfSquares.polynomial) := by
  have hx : IsIdentifier "x" := isIdentifier_of_letter 'x' rfl rfl rfl
  have hproduct : sumTimesDifference.IsPolynomial :=
    .mul (.add (.var hx) (.const 1)) (.sub (.var hx) (.const 1))
  have hdifference : differenceOfSquares.IsPolynomial := .sub (.varPow 2 hx) (.const 1)
  exact ⟨hproduct, hdifference, canonicalize_eq_iff_polynomial_eq
    Exactness.writesIntegers_standard hproduct hdifference .off⟩

end Expr

end SymbolicForms
