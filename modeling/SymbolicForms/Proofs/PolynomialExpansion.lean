import SymbolicForms.Proofs.ExpandedForm

/-!
# Expansion of polynomials

A polynomial expression is made of integers and variables by sums, differences,
products and natural powers, where a power of a sum or of a power is small
enough to be multiplied out. Its expansion is a sum of monomials: every factor
of every addend is a number, a variable, or a power of a variable. A power of a
product is left out, because it is not distributed over its factors.
-/

namespace SymbolicForms

namespace Expr

variable {rules : Exactness}

/-- Expressions that denote polynomials and whose powers are multiplied out. -/
inductive IsPolynomial : Expr (Exact rules) → Prop
  /-- An integer. -/
  | const (n : ℤ) : IsPolynomial (.const n)
  /-- A variable. -/
  | var {name : String} : IsIdentifier name → IsPolynomial (.var name)
  /-- A sum. -/
  | add {left right : Expr (Exact rules)} :
    IsPolynomial left → IsPolynomial right → IsPolynomial (.add left right)
  /-- A difference. -/
  | sub {left right : Expr (Exact rules)} :
    IsPolynomial left → IsPolynomial right → IsPolynomial (.sub left right)
  /-- A product. -/
  | mul {left right : Expr (Exact rules)} :
    IsPolynomial left → IsPolynomial right → IsPolynomial (.mul left right)
  /-- A natural power of an integer. -/
  | constPow (n : ℤ) (exponent : ℕ) : IsPolynomial (.pow (.const n) (.const exponent))
  /-- A natural power of a variable. -/
  | varPow {name : String} (exponent : ℕ) :
    IsIdentifier name → IsPolynomial (.pow (.var name) (.const exponent))
  /-- A small natural power of a sum, a difference or a power. -/
  | smallPow {op : Op} {left right : Expr (Exact rules)} {exponent : ℕ} :
    IsPolynomial (.binary op left right) → op = .add ∨ op = .sub ∨ op = .pow → exponent ≤ 10 →
      IsPolynomial (.pow (.binary op left right) (.const exponent))

/-- Polynomial expressions are made of integers and identifiers. -/
theorem IsPolynomial.within {e : Expr (Exact rules)} (h : e.IsPolynomial) :
    e.Within (.integers IsIdentifier) := by
  induction h with
  | const n => exact Vocabulary.mem_of_intCast _ n
  | var hname => exact hname
  | add _ _ ihl ihr => exact ihl.add ihr
  | sub _ _ ihl ihr => exact ⟨ihl, ihr, trivial⟩
  | mul _ _ ihl ihr => exact ihl.mul ihr
  | constPow n exponent =>
    have hbase : (Expr.const (n : Exact rules)).Within (.integers IsIdentifier) :=
      Vocabulary.mem_of_intCast _ n
    exact hbase.pow (Vocabulary.hasExponent_natCast _ _ exponent)
  | varPow exponent hname =>
    have hbase : (Expr.var _ : Expr (Exact rules)).Within (.integers IsIdentifier) := hname
    exact hbase.pow (Vocabulary.hasExponent_natCast _ _ exponent)
  | smallPow _ _ _ ih => exact ih.pow (Vocabulary.hasExponent_natCast _ _ _)

/-- A polynomial expression is no quotient. -/
theorem IsPolynomial.ne_div {e : Expr (Exact rules)} (h : e.IsPolynomial)
    (numerator denominator : Expr (Exact rules)) : e ≠ .div numerator denominator := by
  cases h <;> simp

/-- A number, a variable, or a power of a variable. -/
def IsPrimitive : Expr (Exact rules) → Prop
  | .const _ => True
  | .var _ => True
  | .binary .pow (.var _) (.const _) => True
  | _ => False

/-- A product of numbers and powers of variables. -/
def IsMonomial (e : Expr (Exact rules)) : Prop := ∀ factor ∈ e.factors, factor.IsPrimitive

/-- A sum of monomials. -/
def IsMonomialSum (e : Expr (Exact rules)) : Prop := ∀ addend ∈ e.addends, addend.IsMonomial

/-- A primitive expression is a monomial. -/
theorem IsPrimitive.isMonomial {e : Expr (Exact rules)} (h : e.IsPrimitive) : e.IsMonomial := by
  have hfactors : e.factors = [e] := by
    cases e with
    | binary op left right =>
      cases op with
      | mul => exact False.elim h
      | _ => rfl
    | _ => rfl
  intro factor hf
  rw [hfactors, List.mem_singleton] at hf
  exact hf ▸ h

/-- A number is a monomial. -/
theorem isMonomial_const (value : Exact rules) : (Expr.const value).IsMonomial :=
  IsPrimitive.isMonomial trivial

/-- A product of monomials is a monomial. -/
theorem IsMonomial.mul {left right : Expr (Exact rules)} (hl : left.IsMonomial)
    (hr : right.IsMonomial) : (Expr.mul left right).IsMonomial := by
  intro factor hf
  rw [factors_mul, List.mem_append] at hf
  exact hf.elim (hl factor) (hr factor)

/-- A negated monomial is a monomial. -/
theorem IsMonomial.negateAddend {e : Expr (Exact rules)} (h : e.IsMonomial) :
    e.negateAddend.IsMonomial := by
  refine negateAddend_induction isMonomial_const (fun left right hproduct factor hf => ?_)
    (fun _ _ => (isMonomial_const _).mul) h
  refine hproduct factor ?_
  rw [factors_mul]
  exact List.mem_append_right _ hf

/-- An expression that is no sum is a sum of monomials when it is one. -/
theorem IsMonomial.isMonomialSum {e : Expr (Exact rules)} (h : e.IsMonomial)
    (hs : e.isSum = false) : e.IsMonomialSum := by
  intro addend ha
  rw [addends_eq_singleton hs] at ha
  exact List.mem_singleton.mp ha ▸ h

/-- A number is a sum of monomials. -/
theorem isMonomialSum_const (value : Exact rules) : (Expr.const value).IsMonomialSum :=
  (isMonomial_const value).isMonomialSum rfl

/-- A power of a variable is a sum of monomials. -/
theorem isMonomialSum_varPow (name : String) (exponent : Exact rules) :
    (Expr.pow (.var name) (.const exponent)).IsMonomialSum := by
  have hprimitive : (Expr.pow (.var name) (.const exponent)).IsPrimitive := trivial
  exact hprimitive.isMonomial.isMonomialSum rfl

/-- Sums of monomials are added to one. -/
theorem IsMonomialSum.add {left right : Expr (Exact rules)} (hl : left.IsMonomialSum)
    (hr : right.IsMonomialSum) : (Expr.add left right).IsMonomialSum := by
  intro addend ha
  rw [addends_add, List.mem_append] at ha
  exact ha.elim (hl addend) (hr addend)

/-- A difference of sums of monomials is one. -/
theorem IsMonomialSum.sub {left right : Expr (Exact rules)} (hl : left.IsMonomialSum)
    (hr : right.IsMonomialSum) : (Expr.sub left right).IsMonomialSum := by
  intro addend ha
  rw [addends_sub, List.mem_append, List.mem_map] at ha
  rcases ha with ha | ⟨second, hs, rfl⟩
  · exact hl addend ha
  · exact (hr second hs).negateAddend

end Expr

namespace Term

variable {rules : Exactness} {v : Vocabulary rules}

/-- The term has neither functions nor factors that are kept whole. -/
def IsMonomial (t : Term (Exact rules)) : Prop := t.functionPowers = .empty ∧ t.nested = []

/-- A product of monomials is a monomial. -/
theorem IsMonomial.multiply {t other : Term (Exact rules)} (h : t.IsMonomial)
    (ho : other.IsMonomial) : (t.multiply other).IsMonomial := by
  obtain ⟨hfunctions, hnested⟩ := h
  obtain ⟨hfunctions', hnested'⟩ := ho
  constructor
  · rw [Term.multiply, hfunctions, hfunctions']
    rfl
  · rw [Term.multiply, hnested, hnested']
    rfl

/-- A number, a variable or a power of a variable is read as a monomial. -/
theorem isMonomial_ofFactor {e : Expr (Exact rules)} (h : e.Within v) (hp : e.IsPrimitive) :
    (ofFactor e).IsMonomial := by
  unfold Expr.IsPrimitive at hp
  split at hp
  · exact ⟨rfl, rfl⟩
  · exact ⟨rfl, rfl⟩
  · exact ⟨rfl, rfl⟩
  · exact hp.elim

/-- A monomial is read as one. -/
theorem isMonomial_ofExpr {e : Expr (Exact rules)} (h : e.Within v) (hm : e.IsMonomial) :
    (ofExpr e).IsMonomial := by
  have hfolded (factors : List (Expr (Exact rules))) (hw : ∀ factor ∈ factors, factor.Within v)
      (hp : ∀ factor ∈ factors, factor.IsPrimitive) (t : Term (Exact rules)) (ht : t.IsMonomial) :
      (factors.foldl (fun t factor => t.multiply (ofFactor factor)) t).IsMonomial := by
    induction factors generalizing t with
    | nil => exact ht
    | cons factor rest ih =>
      obtain ⟨hfactor, hrest⟩ := List.forall_mem_cons.mp hp
      obtain ⟨hwithin, hrestWithin⟩ := List.forall_mem_cons.mp hw
      exact ih hrestWithin hrest _ (ht.multiply (isMonomial_ofFactor hwithin hfactor))
  rw [ofExpr_eq_foldl]
  exact hfolded e.factors (fun factor hf => h.of_mem_factors hf) hm unit ⟨rfl, rfl⟩

/-- A monomial is a monomial in writing. -/
theorem IsMonomial.toExpr {t : Term (Exact rules)} (hm : t.IsMonomial) (h : t.Within v) :
    t.toExpr.IsMonomial := by
  obtain ⟨hfunctions, hnested⟩ := hm
  have hcollected : t.Collected v := ⟨h, by rw [hnested]; exact List.forall_mem_nil _⟩
  have hbase (factor : Expr (Exact rules)) (hf : factor ∈ t.baseFactors) : factor.IsPrimitive := by
    rw [baseFactors, functionFactors, hfunctions, hnested, List.append_nil] at hf
    rw [FunctionPowers.sorted_empty, List.filter_nil, List.map_nil, List.append_nil] at hf
    obtain ⟨entry, -, rfl⟩ := List.mem_map.mp hf
    unfold powerExpr
    split <;> trivial
  by_cases hzero : t.coefficient = 0
  · rw [Term.toExpr, if_pos (hcollected.toWithin.isZero_iff.mpr hzero)]
    exact Expr.isMonomial_const _
  · intro factor hf
    obtain ⟨-, -, hfactors⟩ | hfactors := hcollected.factors_toExpr hzero <;> rw [hfactors] at hf
    · exact hbase factor hf
    · obtain rfl | hf := List.mem_cons.mp hf
      · trivial
      · exact hbase factor hf

end Term

namespace Expr

variable {rules : Exactness} {v : Vocabulary rules}

/-- A product of two monomials is a monomial. -/
theorem isMonomial_multiplySimple {left right : Expr (Exact rules)} (hl : left.Within v)
    (hr : right.Within v) (hl' : left.IsMonomial) (hr' : right.IsMonomial) :
    (multiplySimple left right).IsMonomial := by
  refine multiplySimple_induction isMonomial_const hl' hr' ?_
  have hproduct := (Term.isMonomial_ofExpr hl hl').multiply (Term.isMonomial_ofExpr hr hr')
  exact hproduct.toExpr ((Term.within_ofExpr hl).multiply (Term.within_ofExpr hr))

/-- A sum has at least two addends. -/
theorem two_le_length_addends {e : Expr (Exact rules)} (h : e.isSum = true) :
    2 ≤ e.addends.length := by
  have hpos (e : Expr (Exact rules)) : 0 < e.addends.length :=
    List.length_pos_iff.mpr (addends_ne_nil e)
  cases e with
  | binary op left right =>
    have hl := hpos left
    have hr := hpos right
    cases op with
    | add =>
      rw [addends_add, List.length_append]
      omega
    | sub =>
      rw [addends_sub, List.length_append, List.length_map]
      omega
    | _ => cases h
  | _ => cases h

/-- A sum of at least two expressions is a sum. -/
theorem isSum_sum {es : List (Expr (Exact rules))} (h : 2 ≤ es.length) : (sum es).isSum = true := by
  have joined (rest : List (Expr (Exact rules))) (acc : Expr (Exact rules))
      (hacc : acc.isSum = true) : (rest.foldl add acc).isSum = true := by
    induction rest generalizing acc with
    | nil => exact hacc
    | cons third rest ih => exact ih (.add acc third) rfl
  rcases es with _ | ⟨first, _ | ⟨second, rest⟩⟩
  · simp at h
  · simp at h
  · exact joined rest (.add first second) rfl

/-- A sum multiplied by a sum is a sum. -/
theorem isSum_expandProduct {left right : Expr (Exact rules)} (hl : left.isSum = true)
    (hr : right.isSum = true) : (expandProduct left right).isSum = true := by
  rw [expandProduct, hl]
  refine isSum_sum ?_
  have hleft := two_le_length_addends hl
  have hright := two_le_length_addends hr
  obtain ⟨first, rest, hfirst⟩ := List.exists_cons_of_ne_nil (addends_ne_nil left)
  rw [hfirst, List.flatMap_cons, List.length_append, List.length_map]
  omega

/-- A natural power of a number is multiplied out by evaluating it. -/
theorem expandPower_const (value : Exact rules) (n : ℕ) :
    expandPower (.const value) (.const (n : Exact rules)) = .number (value ^ n) :=
  expandNumericPower_const value n

/-- The natural powers that are multiplied out are the small ones. -/
theorem isExpandedPower_natCast (n : ℕ) :
    isExpandedPower (n : Exact rules) = true ↔ n ≤ 10 := by
  simp [isExpandedPower, greatestExpandedPower]

/-- A small natural power of a sum is multiplied out. -/
theorem expandPower_of_isSum {base : Expr (Exact rules)} (hs : base.isSum = true) {n : ℕ}
    (hn : n ≤ 10) : expandPower base (.const (n : Exact rules)) = wholePower base n := by
  have hexpanded : isExpandedPower (n : Exact rules) = true := (isExpandedPower_natCast n).mpr hn
  cases base with
  | binary op left right =>
    cases op with
    | add =>
      change expandNumericPower _ _ = _
      rw [expandNumericPower, if_pos hexpanded]
      all_goals simp
    | sub =>
      change expandNumericPower _ _ = _
      rw [expandNumericPower, if_pos hexpanded]
      all_goals simp
    | _ => cases hs
  | _ => cases hs

/-- A number, a power of a variable, or a sum: what a power of a polynomial is expanded to. -/
def IsExpandedBase (e : Expr (Exact rules)) : Prop :=
  (∃ value, e = .const value) ∨ (∃ name exponent, e = .pow (.var name) (.const exponent)) ∨
    e.isSum = true

/-- A distributed product of sums of monomials is one. -/
theorem isMonomialSum_expandProduct {left right : Expr (Exact rules)} (hl : left.Within v)
    (hr : right.Within v) (hl' : left.Everywhere MultipliedOut)
    (hr' : right.Everywhere MultipliedOut) (hlm : left.IsMonomialSum) (hrm : right.IsMonomialSum) :
    (expandProduct left right).IsMonomialSum := by
  intro addend ha
  rw [addends_expandProduct hl' hr'] at ha
  obtain ⟨first, hf, ha⟩ := List.mem_flatMap.mp ha
  obtain ⟨second, hs, rfl⟩ := List.mem_map.mp ha
  exact isMonomial_multiplySimple (hl.of_mem_addends hf) (hr.of_mem_addends hs) (hlm first hf)
    (hrm second hs)

/-- A repeated product of a sum of monomials is such a sum. -/
theorem isMonomialSum_repeatedProduct {base : Expr (Exact rules)} (h : base.Within v)
    (h' : base.Everywhere MultipliedOut) (hm : base.IsMonomialSum) (hs : base.isSum = true) (count : ℕ) :
    (repeatedProduct base count).IsMonomialSum ∧ (repeatedProduct base count).isSum = true := by
  induction count with
  | zero => exact ⟨hm, hs⟩
  | succ count ih =>
    have hwithin := within_repeatedProduct h count
    exact ⟨isMonomialSum_expandProduct hwithin h (h'.repeatedProduct count) h' ih.1 hm,
      isSum_expandProduct ih.2 hs⟩

/-- A small power of an expanded base is a sum of monomials and may be raised again. -/
theorem isMonomialSum_expandPower {base : Expr (Exact rules)} (h : base.Within v)
    (h' : base.Everywhere MultipliedOut) (hm : base.IsMonomialSum) (hb : base.IsExpandedBase) {n : ℕ}
    (hn : n ≤ 10) :
    (expandPower base (.const (n : Exact rules))).IsMonomialSum ∧
      (expandPower base (.const (n : Exact rules))).IsExpandedBase := by
  rcases hb with ⟨value, rfl⟩ | ⟨name, exponent, rfl⟩ | hs
  · rw [expandPower_const]
    exact ⟨isMonomialSum_const _, Or.inl ⟨_, rfl⟩⟩
  · rw [expandPower_pow]
    exact ⟨isMonomialSum_varPow name _, Or.inr (Or.inl ⟨name, _, rfl⟩)⟩
  · rw [expandPower_of_isSum hs hn, wholePower, Exact.toInt_natCast, Int.toNat_natCast]
    split
    · exact ⟨isMonomialSum_const _, Or.inl ⟨_, rfl⟩⟩
    · exact ⟨hm, Or.inr (Or.inr hs)⟩
    · next count =>
      rw [if_pos hs]
      obtain ⟨hmonomials, hsum⟩ := isMonomialSum_repeatedProduct h h' hm hs (count + 1)
      exact ⟨hmonomials, Or.inr (Or.inr hsum)⟩

/-- The expansion of a polynomial expression is a sum of monomials, and one that may be raised to a
small power unless the expression is a product. -/
theorem IsPolynomial.isMonomialSum_fullyExpand {e : Expr (Exact rules)} (h : e.IsPolynomial) :
    e.fullyExpand.IsMonomialSum ∧
      ((∀ left right, e ≠ .mul left right) → (∀ name, e ≠ .var name) →
        e.fullyExpand.IsExpandedBase) := by
  have hv : ¬(Vocabulary.integers IsIdentifier : Vocabulary rules).openPowers := not_false
  induction h with
  | const n => exact ⟨isMonomialSum_const _, fun _ _ => Or.inl ⟨_, rfl⟩⟩
  | @var name hname =>
    have hprimitive : (Expr.var name : Expr (Exact rules)).IsPrimitive := trivial
    exact ⟨hprimitive.isMonomial.isMonomialSum rfl, fun _ hvar => absurd rfl (hvar name)⟩
  | add _ _ ihl ihr => exact ⟨ihl.1.add ihr.1, fun _ _ => Or.inr (Or.inr rfl)⟩
  | sub _ _ ihl ihr => exact ⟨ihl.1.sub ihr.1, fun _ _ => Or.inr (Or.inr rfl)⟩
  | mul hl hr ihl ihr =>
    refine ⟨?_, fun hmul _ => absurd rfl (hmul _ _)⟩
    exact isMonomialSum_expandProduct (hl.within.fullyExpand hv) (hr.within.fullyExpand hv)
      (everywhere_fullyExpand _) (everywhere_fullyExpand _) ihl.1 ihr.1
  | constPow n exponent =>
    have hpower : (pow (.const n) (.const exponent) : Expr (Exact rules)).fullyExpand =
        .number ((n : Exact rules) ^ exponent) :=
      expandPower_const (n : Exact rules) exponent
    rw [hpower]
    exact ⟨isMonomialSum_const _, fun _ _ => Or.inl ⟨_, rfl⟩⟩
  | varPow exponent hname =>
    exact ⟨isMonomialSum_varPow _ _, fun _ _ => Or.inr (Or.inl ⟨_, _, rfl⟩)⟩
  | smallPow hbase hop hexponent ih =>
    have hbaseForm := ih.2 (fun _ _ heq => by
      cases heq
      exact absurd hop (by decide)) (by simp)
    obtain ⟨hmonomials, hform⟩ := isMonomialSum_expandPower (hbase.within.fullyExpand hv)
      (everywhere_fullyExpand _) ih.1 hbaseForm hexponent
    exact ⟨hmonomials, fun _ _ => hform⟩

/-- The expansion of a polynomial expression is read as monomials. -/
theorem IsPolynomial.isMonomial_of_mem_terms {e : Expr (Exact rules)} (h : e.IsPolynomial)
    {t : Term (Exact rules)} (ht : t ∈ e.fullyExpand.terms) : t.IsMonomial := by
  obtain ⟨addend, ha, rfl⟩ := List.mem_map.mp ht
  have hwithin := h.within.fullyExpand not_false
  exact Term.isMonomial_ofExpr (hwithin.of_mem_addends ha) (h.isMonomialSum_fullyExpand.1 addend ha)

end Expr

end SymbolicForms
