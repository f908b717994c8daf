import SymbolicForms.Proofs.CanonicalRounds

/-!
# Polynomial normal form

A canonical sum is grouped to the left and has no differences. Unless it is
zero, the terms read from it do not vanish, no two of them are similar, each of
them precedes all later ones, and only the last one may be a number: keys tell
terms apart that are not similar, so the order of terms is strict on them.
Collecting and sorting these terms and writing their sum gives the canonical sum
back.
-/

namespace SymbolicForms

namespace Expr

/-- No difference stands in the sum at the root, and no right operand in it is a sum. -/
def IsLeftSum {K : Type} : Expr K → Prop
  | .binary .add left right => left.IsLeftSum ∧ right.isSum = false
  | .binary .sub _ _ => False
  | _ => True

/-- What is no sum is grouped to the left. -/
theorem isLeftSum_of_not_sum {K : Type} {e : Expr K} (h : e.isSum = false) : e.IsLeftSum := by
  cases e with
  | binary op left right =>
    cases op with
    | add => cases h
    | sub => cases h
    | _ => trivial
  | _ => trivial

/-- The sum of a list without sums is grouped to the left. -/
theorem isLeftSum_sum {K : Type} [Scalar K] {es : List (Expr K)}
    (h : ∀ e ∈ es, e.isSum = false) : (sum es).IsLeftSum := by
  cases es with
  | nil => trivial
  | cons first rest =>
    obtain ⟨hfirst, hrest⟩ := List.forall_mem_cons.mp h
    exact List.foldlRecOn (motive := IsLeftSum) rest .add (isLeftSum_of_not_sum hfirst)
      fun _ hacc e he => ⟨hacc, hrest e he⟩

end Expr

/-- What each element of a list has when it stands before a later one, all but the last one have. -/
theorem forall_mem_dropLast_of_pairwise {α : Type} {P : α → Prop} {items : List α}
    (h : items.Pairwise fun first _ => P first) : ∀ item ∈ items.dropLast, P item := by
  intro item hitem
  have hne : items ≠ [] := List.ne_nil_of_mem (List.mem_of_mem_dropLast hitem)
  rw [← List.dropLast_append_getLast hne] at h
  exact (List.pairwise_append.mp h).2.2 item hitem _ (List.mem_singleton_self _)

namespace Term

/-- The terms of a polynomial in normal form. -/
structure NormalForm {K : Type} [Scalar K] (terms : List (Term K)) : Prop where
  /-- No coefficient is zero. -/
  isZero_eq_false : ∀ t ∈ terms, t.isZero = false
  /-- No two terms are similar. -/
  similar_eq_false : terms.Pairwise fun t later =>
    t.similar later = false ∧ later.similar t = false
  /-- Only the last term may be a number. -/
  isConstant_eq_false : ∀ t ∈ terms.dropLast, t.isConstant = false
  /-- Each term precedes all later ones. -/
  precedes_eq_true : terms.Pairwise fun t later => t.precedes later = true

/-- The key of a number is the digit one. -/
theorem baseKey_of_isConstant {rules : Exactness} {t : Term (Exact rules)}
    (h : t.isConstant = true) : t.baseKey = "1" := by
  rw [isConstant, Bool.and_eq_true, Bool.and_eq_true, List.isEmpty_iff] at h
  obtain ⟨⟨hvariables, hfunctions⟩, hnested⟩ := h
  have hsorted : t.functionPowers.sorted = [] :=
    List.Perm.eq_nil (List.isEmpty_iff.mp hfunctions ▸ t.functionPowers.sorted_perm)
  have hparts : t.baseKeyParts = [] := by
    rw [baseKeyParts, List.isEmpty_iff.mp hvariables, hsorted, hnested]
    rfl
  rw [baseKey, hparts]
  rfl

section Keys

variable {rules : Exactness} (hw : rules.WritesIntegers)
include hw

/-- Similar terms have the same key. -/
theorem baseKey_eq_of_similar {t other : Term (Exact rules)}
    (h : t.Within (.integers IsIdentifier)) (ho : other.Within (.integers IsIdentifier))
    (hs : t.similar other = true) : t.baseKey = other.baseKey := by
  obtain ⟨hvariables, hfunctions, hnested⟩ := (h.similar_iff ho).mp hs
  have hsorted := FunctionPowers.sorted_eq_of_perm hw h.functionPowers hfunctions
  have hparts : t.baseKeyParts = other.baseKeyParts := by
    rw [baseKeyParts, baseKeyParts, hvariables, hsorted, hnested]
  rw [baseKey, baseKey, hparts]

/-- Sorted terms with keys of their own, none of which vanishes, are in normal form. -/
theorem normalForm_of_sorted {terms : List (Term (Exact rules))}
    (h : ∀ t ∈ terms, t.Within (.integers IsIdentifier)) (hne : ∀ t ∈ terms, t.coefficient ≠ 0)
    (hkeys : (terms.map baseKey).Nodup) (hsorted : StableSort.Sorted precedes terms) :
    NormalForm terms := by
  have hkeys : terms.Pairwise fun t later => t.baseKey ≠ later.baseKey := List.pairwise_map.mp hkeys
  have hprecedes : terms.Pairwise fun t later => t.precedes later = true := by
    refine (hsorted.and hkeys).imp_of_mem fun {t later} ht hlater hpair => ?_
    obtain ⟨hafter, hkey⟩ := hpair
    rw [precedes_eq (h later hlater) (h t ht), decide_eq_false_iff_not, not_lt] at hafter
    rw [precedes_eq (h t ht) (h later hlater), decide_eq_true_iff]
    refine lt_of_le_of_ne hafter fun hrank => hkey ?_
    exact congrArg (fun place => (ofLex (ofLex (ofLex place).2).2).1) hrank
  refine ⟨fun t ht => ?_, ?_, forall_mem_dropLast_of_pairwise ?_, hprecedes⟩
  · exact Bool.eq_false_iff.mpr (mt (h t ht).isZero_iff.mp (hne t ht))
  · refine hkeys.imp_of_mem fun {t later} ht hlater hkey => ⟨?_, ?_⟩
    · exact Bool.eq_false_iff.mpr (mt (baseKey_eq_of_similar hw (h t ht) (h later hlater)) hkey)
    · exact Bool.eq_false_iff.mpr
        (mt (baseKey_eq_of_similar hw (h later hlater) (h t ht)) hkey.symm)
  · -- a number precedes nothing but numbers, and those have the same key
    refine (hprecedes.and hkeys).imp fun {t later} hpair => Bool.eq_false_iff.mpr fun ht => ?_
    obtain ⟨hbefore, hkey⟩ := hpair
    have hlater : later.isConstant = false := Bool.eq_false_iff.mpr fun hlater =>
      hkey ((baseKey_of_isConstant ht).trans (baseKey_of_isConstant hlater).symm)
    rw [precedes, ht, hlater] at hbefore
    cases hbefore

end Keys

end Term

namespace Expr

section Keys

variable {rules : Exactness} (hw : rules.WritesIntegers)
include hw

/-- Every term of a canonical sum has a key of its own. -/
theorem nodup_baseKey_canonicalTerms {e : Expr (Exact rules)}
    (h : e.Within (.integers IsIdentifier)) : (e.canonicalTerms.map Term.baseKey).Nodup := by
  have hcollected := (expanded_fullyExpand e).collected not_false (h.fullyExpand not_false)
  obtain ⟨-, hdistinct, -⟩ := Term.mergeLike_spec hw hcollected
  have hperm : e.canonicalTerms.Perm (Term.mergeLike e.fullyExpand.terms) :=
    StableSort.sort_perm _ _
  exact (hperm.map Term.baseKey).nodup_iff.mpr hdistinct

/-- The terms of a canonical sum are in normal form, with their functions in order. -/
theorem normalForm_canonicalTerms {e : Expr (Exact rules)}
    (h : e.Within (.integers IsIdentifier)) :
    Term.NormalForm (e.canonicalTerms.map Term.inOrder) := by
  have hterms := collected_canonicalTerms not_false h
  have hkeys : (e.canonicalTerms.map Term.inOrder).map Term.baseKey =
      e.canonicalTerms.map Term.baseKey := by
    rw [List.map_map]
    exact List.map_congr_left fun t _ => Term.baseKey_inOrder t
  refine Term.normalForm_of_sorted hw (List.forall_mem_map.mpr fun t ht => ?_)
    (List.forall_mem_map.mpr fun t ht => ?_) (hkeys ▸ nodup_baseKey_canonicalTerms hw h)
    (sorted_map_inOrder_canonicalTerms not_false h)
  · exact (hterms t ht).1.inOrder.toWithin
  · exact (hterms t ht).2

/-- A canonical sum of integers is grouped to the left without differences, it is zero or its terms
are in normal form, and collecting and sorting its terms and writing their sum gives it back. -/
theorem canonicalSum_normalForm {e : Expr (Exact rules)}
    (h : e.Within (.integers IsIdentifier)) :
    e.canonicalSum.IsLeftSum ∧
      (e.canonicalSum = .int 0 ∨ Term.NormalForm e.canonicalSum.terms) ∧
        Term.sumExpr (Term.sort (Term.mergeLike e.canonicalSum.terms)) = e.canonicalSum := by
  refine ⟨isLeftSum_sum (List.forall_mem_map.mpr fun t ht => ?_), ?_,
    sumExpr_terms_canonicalSum not_false h⟩
  · exact (distributedFactor_toExpr_canonicalTerms not_false h t ht).isSum_eq_false
  · by_cases hne : e.canonicalTerms = []
    · exact Or.inl (canonicalSum_eq_zero hne)
    · rw [terms_canonicalSum not_false h hne]
      exact Or.inr (normalForm_canonicalTerms hw h)

end Keys

/-- The difference `f(x) * (y - x) + (x + y)^11 - (2 * (y / x) - 3)`. -/
def differenceOfMixedTerms : Expr (Exact .standard) :=
  .sub (.add (.mul (.func "f" (.var "x")) (.sub (.var "y") (.var "x")))
    (.pow (.add (.var "x") (.var "y")) (.int 11)))
    (.sub (.mul (.int 2) (.div (.var "y") (.var "x"))) (.int 3))

theorem canonicalSum_normalForm_differenceOfMixedTerms :
    differenceOfMixedTerms.Within (.integers IsIdentifier) ∧
      differenceOfMixedTerms.canonicalSum.IsLeftSum ∧
        Term.NormalForm differenceOfMixedTerms.canonicalSum.terms ∧
          Term.sumExpr (Term.sort (Term.mergeLike differenceOfMixedTerms.canonicalSum.terms)) =
            differenceOfMixedTerms.canonicalSum := by
  have hf : IsIdentifier "f" := isIdentifier_of_letter 'f' rfl rfl rfl
  have hx : IsIdentifier "x" := isIdentifier_of_letter 'x' rfl rfl rfl
  have hy : IsIdentifier "y" := isIdentifier_of_letter 'y' rfl rfl rfl
  have hwithin : differenceOfMixedTerms.Within (.integers IsIdentifier) :=
    ⟨⟨⟨⟨hf, hx⟩, ⟨hy, hx, trivial⟩, trivial⟩,
      ⟨⟨hx, hy, trivial⟩, within_int 11, 11, rfl⟩, trivial⟩,
      ⟨⟨within_int 2, ⟨hy, hx, trivial⟩, trivial⟩, within_int 3, trivial⟩, trivial⟩
  obtain ⟨hleft, hnormal, hagain⟩ := canonicalSum_normalForm Exactness.writesIntegers_standard hwithin
  exact ⟨hwithin, hleft, hnormal.resolve_left (by decide +kernel), hagain⟩

end Expr

end SymbolicForms
