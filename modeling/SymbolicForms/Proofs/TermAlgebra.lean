import Mathlib.Algebra.FreeMonoid.Basic
import Mathlib.Algebra.MonoidAlgebra.Basic
import SymbolicForms.Proofs.DivisionMeaning
import SymbolicForms.Proofs.ExponentMaps
import SymbolicForms.Proofs.SignedAddends

/-!
# Formal sums of terms

Beside its coefficient, a term is a power of each variable, a power of each
function, and a word of factors that are kept whole. The order of the powers
does not show and that of the word does, so sums of terms form an algebra in
which numbers and powers commute with everything and other factors do not. In
this algebra products of terms are products, whatever is put for the functions
and for the factors kept whole, and lists of terms with one formal sum have the
same totals for all keys.
-/

namespace SymbolicForms

variable {rules : Exactness}

/-- What a term is beside its coefficient: the exponents of variables and functions, and a word of
factors. -/
abbrev Shape (rules : Exactness) : Type :=
  Multiplicative (String →₀ Exact rules) ×
    Multiplicative (FunctionKey (Exact rules) →₀ Exact rules) × FreeMonoid (Expr (Exact rules))

/-- Formal sums of shapes with coefficients. -/
abbrev FormalSum (rules : Exactness) : Type := MonoidAlgebra (Exact rules) (Shape rules)

/-- Powers and coefficients commute with everything. -/
theorem FormalSum.commute_powers (first : Multiplicative (String →₀ Exact rules))
    (second : Multiplicative (FunctionKey (Exact rules) →₀ Exact rules)) (value : Exact rules)
    (x : FormalSum rules) : Commute (MonoidAlgebra.single (first, second, 1) value) x := by
  refine MonoidAlgebra.single_commute (fun shape => ?_) (Commute.all _) x
  obtain ⟨first', second', word⟩ := shape
  exact Prod.ext (mul_comm _ _) (Prod.ext (mul_comm _ _) ((one_mul _).trans (mul_one _).symm))

/-- What is put for the functions and for the factors kept whole. -/
structure Substitution (rules : Exactness) where
  /-- What is put for a function. -/
  function : FunctionKey (Exact rules) → FunctionKey (Exact rules)
  /-- What is put for a factor kept whole. -/
  whole : Expr (Exact rules) → FormalSum rules

/-- Functions and factors stand for themselves. -/
noncomputable def Substitution.literal : Substitution rules where
  function := id
  whole e := MonoidAlgebra.single (1, 1, FreeMonoid.of e) 1

namespace Term

variable {v : Vocabulary rules}

/-- The powers of a term, with other functions put for its own. -/
noncomputable def powers (s : Substitution rules) (t : Term (Exact rules)) : Shape rules :=
  (.ofAdd t.variablePowers.exponentMap, .ofAdd (t.functionPowers.exponentMap.mapDomain s.function),
    1)

/-- A term as a formal sum: its coefficient and powers times what is put for the factors. -/
noncomputable def formal (s : Substitution rules) (t : Term (Exact rules)) : FormalSum rules :=
  MonoidAlgebra.single (t.powers s) t.coefficient * (t.nested.map s.whole).prod

/-- A term of itself has one shape. -/
noncomputable def shape (t : Term (Exact rules)) : Shape rules :=
  (.ofAdd t.variablePowers.exponentMap, .ofAdd t.functionPowers.exponentMap,
    FreeMonoid.ofList t.nested)

variable (s : Substitution rules)

/-- A product of terms is the product of their formal sums. -/
theorem Within.formal_multiply {t other : Term (Exact rules)} (h : t.Within v)
    (ho : other.Within v) : (t.multiply other).formal s = t.formal s * other.formal s := by
  have hpowers : (t.multiply other).powers s = t.powers s * other.powers s := by
    have hvariables := h.variablePowers.over.exponentMap_merge ho.variablePowers.over
    have hfunctions := h.functionPowers.over.exponentMap_merge ho.functionPowers.over
    rw [powers, Term.multiply, hvariables, hfunctions, Finsupp.mapDomain_add]
    rfl
  have hcoefficient : (t.multiply other).coefficient = t.coefficient * other.coefficient := rfl
  have hnested : (t.multiply other).nested = t.nested ++ other.nested := rfl
  have hcommute : Commute (MonoidAlgebra.single (other.powers s) other.coefficient)
      (t.nested.map s.whole).prod := FormalSum.commute_powers _ _ _ _
  rw [formal, formal, formal, hpowers, hcoefficient, hnested, List.map_append, List.prod_append,
    ← MonoidAlgebra.single_mul_single, mul_assoc, mul_assoc,
    hcommute.left_comm]

/-- A term without a coefficient is no formal sum. -/
theorem formal_eq_zero {t : Term (Exact rules)} (h : t.coefficient = 0) : t.formal s = 0 := by
  rw [formal, h, MonoidAlgebra.single_zero, zero_mul]

/-- The order of the functions does not show in a formal sum. -/
theorem formal_inOrder (t : Term (Exact rules)) : t.inOrder.formal s = t.formal s := by
  have hfunctions : t.inOrder.functionPowers.exponentMap = t.functionPowers.exponentMap :=
    exponentSum_eq_of_perm t.functionPowers.sorted_perm
  rw [formal, powers, hfunctions]
  rfl

/-- A number is its multiple of one. -/
theorem formal_constant (value : Exact rules) :
    (constant value).formal s = MonoidAlgebra.single 1 value :=
  mul_one _

theorem formal_unit : (unit : Term (Exact rules)).formal s = 1 := by
  rw [unit, formal_constant, Exact.one_eq, MonoidAlgebra.one_def]

/-- What is put for a factor is the formal sum of the factor kept whole. -/
theorem formal_whole (e : Expr (Exact rules)) : (whole e).formal s = s.whole e := by
  have hone : MonoidAlgebra.single ((whole e).powers s) (whole e).coefficient = 1 := by
    rw [MonoidAlgebra.one_def]
    exact congrArg _ Exact.one_eq
  rw [formal, hone, one_mul]
  exact List.prod_singleton

/-- An expression read as a term is the product of its factors. -/
theorem formal_ofExpr {e : Expr (Exact rules)} (h : e.Within v) :
    (ofExpr e).formal s = (e.factors.map fun factor => (ofFactor factor).formal s).prod := by
  have hfolded (factors : List (Expr (Exact rules))) (hf : ∀ factor ∈ factors, factor.Within v)
      (t : Term (Exact rules)) (ht : t.Within v) :
      (factors.foldl (fun t factor => t.multiply (ofFactor factor)) t).formal s =
        t.formal s * (factors.map fun factor => (ofFactor factor).formal s).prod := by
    induction factors generalizing t with
    | nil => exact (mul_one _).symm
    | cons factor rest ih =>
      obtain ⟨hfactor, hrest⟩ := List.forall_mem_cons.mp hf
      have hnext := ht.multiply (within_ofFactor hfactor)
      rw [List.foldl_cons, ih hrest _ hnext, ht.formal_multiply s (within_ofFactor hfactor),
        List.map_cons, List.prod_cons, mul_assoc]
  rw [ofExpr_eq_foldl, hfolded e.factors (fun factor hf => h.of_mem_factors hf) unit within_unit,
    formal_unit, one_mul]

/-- A negated addend read as a term is the opposite of the addend. -/
theorem formal_negateAddend (e : Expr (Exact rules)) :
    (ofExpr e.negateAddend).formal s = -(ofExpr e).formal s := by
  rw [ofExpr_negateAddend, formal, formal, MonoidAlgebra.single_neg, neg_mul]
  rfl

/-- A product of undivided factors read as a term is the product of the factors. -/
theorem formal_multiplySimple (hv : ¬v.openPowers) {left right : Expr (Exact rules)}
    (hl : left.Within v) (hr : right.Within v) (hl' : left.Undivided) (hr' : right.Undivided) :
    (ofExpr (Expr.multiplySimple left right)).formal s =
      (ofExpr left).formal s * (ofExpr right).formal s := by
  rw [← (within_ofExpr hl).formal_multiply s (within_ofExpr hr)]
  obtain heq | heq | ⟨hzero, hzero'⟩ := Expr.ofExpr_multiplySimple hv hl hr hl' hr'
  · rw [heq]
  · rw [heq, formal_inOrder]
  · rw [formal_eq_zero s hzero, formal_eq_zero s hzero']

/-- A term of itself is the multiple of one shape. -/
theorem formal_literal (t : Term (Exact rules)) :
    t.formal .literal = MonoidAlgebra.single t.shape t.coefficient := by
  have hword (es : List (Expr (Exact rules))) : (es.map Substitution.literal.whole).prod =
      (MonoidAlgebra.single (1, 1, FreeMonoid.ofList es) 1 : FormalSum rules) := by
    induction es with
    | nil => rfl
    | cons e rest ih =>
      have hword : ((1, 1, FreeMonoid.of e) * (1, 1, FreeMonoid.ofList rest) : Shape rules) =
          (1, 1, FreeMonoid.ofList (e :: rest)) := by
        rw [FreeMonoid.ofList_cons]
        exact Prod.ext (one_mul 1) (Prod.ext (one_mul 1) rfl)
      rw [List.map_cons, List.prod_cons, ih, Substitution.literal, MonoidAlgebra.single_mul_single,
        one_mul, hword]
  have hpowers : t.powers .literal * (1, 1, FreeMonoid.ofList t.nested) = t.shape := by
    rw [powers, shape, Substitution.literal, Finsupp.mapDomain_id]
    exact Prod.ext (mul_one _) (Prod.ext (mul_one _) (one_mul _))
  rw [formal, hword, MonoidAlgebra.single_mul_single, mul_one, hpowers]

section Totals

variable (hw : rules.WritesIntegers)
include hw

/-- Collected terms of one shape have one key. -/
theorem baseKey_eq_of_shape_eq {t other : Term (Exact rules)}
    (h : t.Within (.integers IsIdentifier)) (ho : other.Within (.integers IsIdentifier))
    (heq : t.shape = other.shape) : t.baseKey = other.baseKey := by
  simp only [shape, Prod.mk.injEq, Equiv.apply_eq_iff_eq] at heq
  obtain ⟨hvariables, hfunctions, hnested⟩ := heq
  have hperm : t.functionPowers.entries.Perm other.functionPowers.entries :=
    h.functionPowers.over.perm_of_exponentMap_eq ho.functionPowers.over hfunctions
  rw [baseKey, baseKey, baseKeyParts, baseKeyParts, hnested,
    h.variablePowers.over.eq_of_exponentMap_eq ho.variablePowers.over hvariables,
    FunctionPowers.sorted_eq_of_perm hw h.functionPowers hperm]

/-- Terms with one formal sum have the same totals for all keys. -/
theorem total_eq_of_sum_formal_eq {terms terms' : List (Term (Exact rules))}
    (h : ∀ t ∈ terms, t.Within (.integers IsIdentifier))
    (h' : ∀ t ∈ terms', t.Within (.integers IsIdentifier))
    (heq : (terms.map (formal .literal)).sum = (terms'.map (formal .literal)).sum)
    (key : String) : total key terms = total key terms' := by
  classical
  -- the total of a key adds up the coefficients of its shapes
  let hasKey (place : Shape rules) : Prop :=
    ∃ t : Term (Exact rules), t.Within (.integers IsIdentifier) ∧ t.shape = place ∧ t.baseKey = key
  let keyTotal : FormalSum rules →+ Exact rules :=
    (Finsupp.liftAddHom fun place =>
      if hasKey place then AddMonoidHom.id (Exact rules) else 0).comp
        MonoidAlgebra.coeffAddEquiv.toAddMonoidHom
  have hshare (t : Term (Exact rules)) (ht : t.Within (.integers IsIdentifier)) :
      keyTotal (t.formal .literal) = share key t := by
    have hkey : hasKey t.shape ↔ t.baseKey = key := by
      constructor
      · rintro ⟨other, ho, hshape, rfl⟩
        exact baseKey_eq_of_shape_eq hw ht ho hshape.symm
      · exact fun hkey => ⟨t, ht, rfl, hkey⟩
    rw [formal_literal]
    change (Finsupp.liftAddHom _) (MonoidAlgebra.single t.shape t.coefficient).coeff = _
    rw [MonoidAlgebra.coeff_single, Finsupp.liftAddHom_apply_single, share]
    by_cases hsame : t.baseKey = key
    · rw [if_pos (hkey.mpr hsame), if_pos hsame]
      rfl
    · rw [if_neg (mt hkey.mp hsame), if_neg hsame]
      rfl
  have htotal (terms : List (Term (Exact rules)))
      (h : ∀ t ∈ terms, t.Within (.integers IsIdentifier)) :
      total key terms = keyTotal (terms.map (formal .literal)).sum := by
    rw [map_list_sum, List.map_map, total]
    exact congrArg List.sum (List.map_congr_left fun t ht => (hshare t (h t ht)).symm)
  rw [htotal terms h, htotal terms' h', heq]

end Totals

end Term

end SymbolicForms
