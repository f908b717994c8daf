import SymbolicForms.Proofs.TermKeys

/-!
# Collected terms

Within a vocabulary the number one is the only one near it, so a collected term
that is written as an expression is read as the same term, with its functions in
the order of their texts. In writing, the coefficient stands in front of the
other factors unless it is one.
-/

namespace SymbolicForms

variable {rules : Exactness} {v : Vocabulary rules}

/-- A factor that stays whole is read as itself. -/
theorem Expr.keptWhole_of_staysWhole {e : Expr (Exact rules)} (h : e.staysWhole = true) :
    e.KeptWhole := by
  unfold staysWhole at h
  split at h
  · rfl
  · rfl
  · cases h

/-- Exponents of a vocabulary are read as they are written. -/
theorem VariablePowers.Within.asWritten_eq {powers : VariablePowers (Exact rules)}
    (h : powers.Within v) : powers.asWritten = powers := by
  have hread : ∀ entry ∈ powers.entries, (entry.1, writtenExponent entry.2) = entry :=
    fun entry hentry => Prod.ext rfl (v.writtenExponent_eq (h.over entry hentry).1)
  exact eq_of_entries_eq ((List.map_congr_left hread).trans (List.map_id _))

namespace FunctionPowers

/-- Exponents of a vocabulary are read as they are written, in the order of the texts. -/
theorem Within.asWritten_eq {powers : FunctionPowers (Exact rules)} (h : powers.Within v) :
    powers.asWritten = ⟨powers.sorted⟩ := by
  have hread : ∀ entry ∈ powers.sorted, (entry.1, writtenExponent entry.2) = entry :=
    fun entry hentry => Prod.ext rfl (v.writtenExponent_eq
      (h.over.entries entry (powers.sorted_perm.mem_iff.mp hentry)).2.1)
  exact congrArg FunctionPowers.mk ((List.map_congr_left hread).trans (List.map_id _))

/-- The functions in order are within their vocabulary. -/
theorem Within.sorted {powers : FunctionPowers (Exact rules)} (h : powers.Within v) :
    (⟨powers.sorted⟩ : FunctionPowers (Exact rules)).Within v where
  entries entry hentry := h.entries entry (powers.sorted_perm.mem_iff.mp hentry)
  distinct := (powers.sorted_perm.map Prod.fst).nodup_iff.mpr h.distinct

end FunctionPowers

namespace Term

/-- A term with its functions in the order of their texts. -/
def inOrder (t : Term (Exact rules)) : Term (Exact rules) :=
  { t with functionPowers := ⟨t.functionPowers.sorted⟩ }

/-- A term of a vocabulary is read as it is written, with its functions in order. -/
theorem Within.asWritten_eq {t : Term (Exact rules)} (h : t.Within v) :
    t.asWritten = t.inOrder := by
  have hmem : t.writtenCoefficient ∈ v.numbers := by
    unfold writtenCoefficient
    split
    · exact h.coefficient
    split
    · exact v.numbers.one_mem
    split
    · exact v.mem_of_intCast (-1)
    · exact h.coefficient
  have hcoefficient : t.writtenCoefficient = t.coefficient :=
    (v.near_iff hmem h.coefficient).mp t.near_writtenCoefficient
  rw [asWritten, hcoefficient, h.variablePowers.asWritten_eq, h.functionPowers.asWritten_eq]
  rfl

/-- A collected term is well-formed. -/
theorem Collected.wellFormed {t : Term (Exact rules)} (h : t.Collected v) : t.WellFormed :=
  ⟨h.toWithin.reduced, fun e he => Expr.keptWhole_of_staysWhole (h.whole e he)⟩

/-- A collected term in order is collected. -/
theorem Collected.inOrder {t : Term (Exact rules)} (h : t.Collected v) : t.inOrder.Collected v :=
  ⟨⟨h.coefficient, h.variablePowers, h.functionPowers.sorted, h.nested⟩, h.whole⟩

/-- The factors of a term give back the term when they multiply its coefficient. -/
theorem Collected.foldl_baseFactors {t : Term (Exact rules)} (h : t.Collected v) :
    t.baseFactors.foldl (fun t factor => t.multiply (ofFactor factor)) (constant t.coefficient) =
      t.inOrder := by
  rw [h.wellFormed.foldl_baseFactors, h.toWithin.asWritten_eq]
  rfl

/-- A term that does not vanish is written as its coefficient, as the product of its other factors,
or as both, the coefficient in front. -/
theorem Within.toExpr_cases {t : Term (Exact rules)} (h : t.Within v) (hne : t.coefficient ≠ 0) :
    (t.baseFactors = [] ∧ t.toExpr = .const t.coefficient) ∨
      (t.baseFactors ≠ [] ∧ t.coefficient = 1 ∧ t.toExpr = .product t.baseFactors) ∨
      (t.baseFactors ≠ [] ∧ t.coefficient ≠ 1 ∧
        t.toExpr = .mul (.const t.coefficient) (.product t.baseFactors)) := by
  have hzero : t.isZero = false := v.vanishes_eq_false h.coefficient hne
  have hunit := v.isUnit_iff h.coefficient
  unfold toExpr
  rw [if_neg (Bool.eq_false_iff.mp hzero)]
  split
  · next hempty => exact Or.inl ⟨List.isEmpty_iff.mp hempty, rfl⟩
  · next hfull =>
    have hfull : t.baseFactors ≠ [] := mt List.isEmpty_iff.mpr hfull
    split
    · next hone => exact Or.inr (Or.inl ⟨hfull, hunit.mp hone, rfl⟩)
    · next hone =>
      refine Or.inr (Or.inr ⟨hfull, mt hunit.mpr hone, ?_⟩)
      split
      · next hminus =>
        rw [Exact.ofInt_eq, v.near_iff h.coefficient (v.mem_of_intCast (-1))] at hminus
        rw [hminus]
        rfl
      · rfl

/-- The factors of a term in writing: its coefficient, unless it is one or zero, and the others. -/
theorem Collected.factors_toExpr {t : Term (Exact rules)} (h : t.Collected v)
    (hne : t.coefficient ≠ 0) :
    (t.coefficient = 1 ∧ t.baseFactors ≠ [] ∧ t.toExpr.factors = t.baseFactors) ∨
      t.toExpr.factors = .const t.coefficient :: t.baseFactors := by
  have hproduct (hfull : t.baseFactors ≠ []) :
      (Expr.product t.baseFactors).factors = t.baseFactors :=
    Expr.factors_product hfull fun factor hf => h.wellFormed.factors_of_mem hf
  obtain ⟨hempty, heq⟩ | ⟨hfull, hone, heq⟩ | ⟨hfull, -, heq⟩ := h.toWithin.toExpr_cases hne <;>
    rw [heq]
  · rw [hempty]
    exact Or.inr rfl
  · exact Or.inl ⟨hone, hfull, hproduct hfull⟩
  · rw [Expr.factors_mul, hproduct hfull]
    exact Or.inr rfl

/-- A term in writing is read as the term in order. -/
theorem Collected.ofExpr_toExpr {t : Term (Exact rules)} (h : t.Collected v)
    (hne : t.coefficient ≠ 0) : ofExpr t.toExpr = t.inOrder :=
  (h.wellFormed.ofExpr_toExpr (v.vanishes_eq_false h.coefficient hne)).trans
    h.toWithin.asWritten_eq

end Term

end SymbolicForms
