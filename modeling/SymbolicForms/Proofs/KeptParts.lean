import SymbolicForms.Proofs.ExpandedForm

/-!
# Parts that are kept

Reading an expression as terms takes its sums, products and powers apart. The
argument of a function, a quotient and a power of joined operands are not looked
into: they are the kept parts of the expression. An undivided expression is read
as a term that keeps no other parts, collecting like terms brings in none, and
so a canonical sum keeps nothing that its expansion does not keep.
-/

namespace SymbolicForms

namespace Expr

variable {K : Type}

/-- The parts of an expression that reading does not look into: arguments of functions, quotients,
and powers of joined operands. -/
def keptParts : Expr K → List (Expr K)
  | .const _ => []
  | .var _ => []
  | .func _ argument => [argument]
  | .binary .add left right => left.keptParts ++ right.keptParts
  | .binary .sub left right => left.keptParts ++ right.keptParts
  | .binary .mul left right => left.keptParts ++ right.keptParts
  | .binary .div left right => [.div left right]
  | .binary .pow (.binary op left right) exponent => [.pow (.binary op left right) exponent]
  | .binary .pow (.func _ argument) _ => [argument]
  | .binary .pow _ _ => []

/-- A factor that stays whole is the part it keeps. -/
theorem keptParts_of_staysWhole {e : Expr K} (h : e.staysWhole = true) : e.keptParts = [e] := by
  unfold staysWhole at h
  split at h
  · rfl
  · rfl
  · cases h

/-- The factors of an expression keep its parts. -/
theorem keptParts_subset_of_mem_factors {e factor : Expr K} (h : factor ∈ e.factors) :
    factor.keptParts ⊆ e.keptParts :=
  forall_mem_factors (P := fun part => part.keptParts ⊆ e.keptParts)
    (fun _ _ => List.append_subset.mp) (List.Subset.refl _) factor h

/-- The addends of an expression keep its parts. -/
theorem keptParts_subset_of_mem_addends [Scalar K] {e addend : Expr K} (h : addend ∈ e.addends) :
    addend.keptParts ⊆ e.keptParts := by
  let keeps (part : Expr K) : Prop := part.keptParts ⊆ e.keptParts
  have hnegate (part : Expr K) (hpart : keeps part) : keeps part.negateAddend :=
    negateAddend_induction (P := keeps) (fun _ => List.nil_subset _)
      (fun _ _ hproduct => (List.append_subset.mp hproduct).2) (fun _ _ hfactor => hfactor) hpart
  exact forall_mem_addends (P := keeps) (Q := keeps) (fun _ _ => List.append_subset.mp)
    (fun _ _ => List.append_subset.mp) (fun _ _ hpart => hpart) hnegate (List.Subset.refl _)
    addend h

end Expr

namespace Term

section Reading

variable {rules : Exactness} {v : Vocabulary rules}

/-- An undivided factor is read as a term that keeps its parts. -/
theorem keptParts_ofFactor_subset {e : Expr (Exact rules)} (h : e.Within v) (hv : ¬v.openPowers)
    (hmul : ∀ left right, e ≠ .mul left right) (hu : e.Undivided) :
    (ofFactor e).keptParts ⊆ e.keptParts := by
  obtain ⟨value, hread⟩ | ⟨powers, hread⟩ | ⟨function, exponent, hread, hfunction⟩ |
    ⟨hread, hwhole⟩ := ofFactor_cases h hv hmul hu <;> rw [hread]
  · exact List.nil_subset _
  · exact List.nil_subset _
  · have hkept : e.keptParts = [function.argument] := by
      obtain rfl | rfl := hfunction <;> rfl
    rw [hkept]
    exact keptParts_single_subset function exponent
  · rw [Expr.keptParts_of_staysWhole hwhole]
    exact List.Subset.refl _

/-- An undivided expression is read as a term that keeps its parts. -/
theorem keptParts_ofExpr_subset {e : Expr (Exact rules)} (h : e.Within v) (hv : ¬v.openPowers)
    (hu : e.Undivided) : (ofExpr e).keptParts ⊆ e.keptParts := by
  refine ofExpr_induction (P := fun t => t.keptParts ⊆ e.keptParts) (List.nil_subset _)
    (fun t other ht ho => List.Subset.trans (keptParts_multiply_subset t other)
      (List.append_subset.mpr ⟨ht, ho⟩)) fun factor hf => ?_
  exact List.Subset.trans (keptParts_ofFactor_subset (h.of_mem_factors hf) hv
    (Expr.ne_mul_of_mem_factors hf) (hu.of_mem_factors hf))
    (Expr.keptParts_subset_of_mem_factors hf)

end Reading

end Term

namespace Expr

/-- The terms of a canonical sum. -/
def canonicalTerms {K : Type} [Scalar K] (e : Expr K) : List (Term K) :=
  Term.sort (Term.mergeLike e.fullyExpand.terms)

variable {rules : Exactness} {v : Vocabulary rules} (hv : ¬v.openPowers)
include hv

/-- The terms of a canonical sum are collected, and none of them vanishes. -/
theorem collected_canonicalTerms {e : Expr (Exact rules)} (h : e.Within v) :
    ∀ t ∈ e.canonicalTerms, t.Collected v ∧ t.coefficient ≠ 0 := by
  intro t ht
  have hmerged := (StableSort.sort_perm _ _).mem_iff.mp ht
  have hwithin := Term.within_mergeLike (h.fullyExpand hv).terms t hmerged
  refine ⟨⟨hwithin, ?_⟩, fun hzero => ?_⟩
  · obtain ⟨source, hsource, coefficient, rfl⟩ := Term.exists_of_mem_mergeLike hmerged
    exact ((expanded_fullyExpand e).collected hv (h.fullyExpand hv) source hsource).whole
  · have hkept := (List.mem_filter.mp hmerged).2
    rw [hwithin.isZero_iff.mpr hzero] at hkept
    cases hkept

/-- The terms of a canonical sum keep parts of the expansion. -/
theorem keptParts_canonicalTerms_subset {e : Expr (Exact rules)} (h : e.Within v) :
    ∀ t ∈ e.canonicalTerms, t.keptParts ⊆ e.fullyExpand.keptParts := by
  intro t ht
  obtain ⟨source, hsource, coefficient, rfl⟩ :=
    Term.exists_of_mem_mergeLike ((StableSort.sort_perm _ _).mem_iff.mp ht)
  obtain ⟨addend, ha, rfl⟩ := List.mem_map.mp hsource
  exact List.Subset.trans (Term.keptParts_ofExpr_subset ((h.fullyExpand hv).of_mem_addends ha) hv
    ((expanded_fullyExpand e).of_mem_addends ha)) (keptParts_subset_of_mem_addends ha)

end Expr

end SymbolicForms
