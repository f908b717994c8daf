import SymbolicForms.Proofs.ExponentialMeaning
import SymbolicForms.Forms

/-!
# Meaning of forms

A form is added to others only if it is new, so a collection in which every form
has one value keeps this property. The forms of an expression are the expression
itself, the expression with a common factor taken out of it or of its numerator,
and the quotient without common exponentials. All of them have its value.
-/

namespace SymbolicForms

namespace Forms

/-- A form of a collection to which one was added is an old one or that one. -/
theorem mem_addNew {K : Type} [Scalar K] {forms : Forms K} {form other : Form K}
    (h : other ∈ forms.addNew form) : other ∈ forms ∨ other = form := by
  unfold addNew at h
  split at h
  · exact Or.inl h
  · exact (List.mem_append.mp h).imp_right List.mem_singleton.mp

/-- A collection to which a form was added has forms. -/
theorem addNew_ne_nil {K : Type} [Scalar K] (forms : Forms K) (form : Form K) :
    forms.addNew form ≠ [] := by
  unfold addNew
  split
  · next hsame =>
    obtain ⟨other, hother, -⟩ := List.any_eq_true.mp hsame
    exact List.ne_nil_of_mem hother
  · exact List.append_ne_nil_of_right_ne_nil _ (List.cons_ne_nil _ _)

variable {rules : Exactness} {R : Type*} [CommRing R]

/-- Every form is within a vocabulary and has a given value. -/
def HaveValue (v : Vocabulary rules) (I : Interpretation rules R) (number : R)
    (forms : Forms (Exact rules)) : Prop :=
  ∀ form ∈ forms, form.expression.HasValue v I number

variable {v : Vocabulary rules} {I : Interpretation rules R} {number : R}

/-- A form of the value may be added. -/
theorem HaveValue.addNew {forms : Forms (Exact rules)} (h : forms.HaveValue v I number)
    {form : Form (Exact rules)} (hf : form.expression.HasValue v I number) :
    (forms.addNew form).HaveValue v I number := by
  intro other hother
  rcases mem_addNew hother with hmem | rfl
  · exact h other hmem
  · exact hf

/-- The expression of a form that may be missing, or else another one of the value. -/
theorem HaveValue.getD_map {forms : Forms (Exact rules)} (h : forms.HaveValue v I number)
    {form? : Option (Form (Exact rules))} (hmem : ∀ form, form? = some form → form ∈ forms)
    {e : Expr (Exact rules)} (he : e.HasValue v I number) :
    ((form?.map Form.expression).getD e).HasValue v I number := by
  cases form? with
  | none => exact he
  | some form => exact h form (hmem form rfl)

end Forms

namespace Expr

section Ring

variable {rules : Exactness} {v : Vocabulary rules} {R : Type*} [CommRing R]
  {I : Interpretation rules R}

/-- A changed expression of the value may be added, if there is one. -/
theorem haveValue_addChanged (e : Expr (Exact rules)) {number : R} {forms : Forms (Exact rules)}
    (h : forms.HaveValue v I number) {changed? : Option (Expr (Exact rules))}
    (hc : ∀ changed, changed? = some changed → changed.HasValue v I number) (label : String) :
    (e.addChanged forms changed? label).HaveValue v I number := by
  unfold addChanged
  split
  · exact h
  · next changed =>
    split
    · exact h
    · exact h.addNew (hc changed rfl)

end Ring

variable {rules : Exactness} {v : Vocabulary rules} {F : Type*} [Field F]
  {I : Interpretation rules F} (hI : I.Faithful v)
  (hquotient : ∀ left right, I.quotient left right = left / right)
  (hexp : ∀ t, I.functions exponentialName t ≠ 0)
include hI hquotient hexp

/-- If factoring keeps the value of the part that is factored, all forms have one value. -/
theorem haveValue_formsWith {e : Expr (Exact rules)} (h : e.Within v)
    {factored? : Option (Expr (Exact rules))}
    (hf : ∀ factored, factored? = some factored →
      factored.HasValue v I (e.factoredPart.value I)) :
    (e.formsWith factored?).HaveValue v I (e.value I) := by
  have hstandard : Forms.HaveValue v I (e.value I) [⟨e, .expanded, Form.standardLabel⟩] :=
    List.forall_mem_singleton.mpr ⟨h, rfl⟩
  unfold formsWith
  split
  · next numerator denominator =>
    dsimp only
    let quotient? : Option (Expr (Exact rules)) :=
      (factored?.filter fun top => !top.same numerator).map fun top => Expr.div top denominator
    have hfactored : ∀ changed, quotient? = some changed →
        changed.HasValue v I ((Expr.div numerator denominator).value I) := by
      intro changed hchanged
      obtain ⟨top, htop, rfl⟩ := Option.map_eq_some_iff.mp hchanged
      obtain ⟨hwithin, hvalue⟩ := hf top (Option.filter_eq_some_iff.mp htop).1
      refine ⟨hwithin.div h.2.1, ?_⟩
      rw [value_div, value_div, hvalue]
      rfl
    have hstart : (quotient?.getD (Expr.div numerator denominator)).HasValue v I
        ((Expr.div numerator denominator).value I) := by
      cases hread : quotient? with
      | none => exact ⟨h, rfl⟩
      | some changed => exact hfactored changed hread
    have hcancelled : ∀ changed,
        (quotient?.getD (Expr.div numerator denominator)).cancelExponentials? = some changed →
          changed.HasValue v I ((Expr.div numerator denominator).value I) := by
      intro changed hchanged
      obtain ⟨hwithin, hvalue⟩ :=
        hasValue_cancelExponentials? hI hquotient hexp hstart.1 hchanged
      exact ⟨hwithin, hvalue.trans hstart.2⟩
    exact haveValue_addChanged _ (haveValue_addChanged _ hstandard hfactored _) hcancelled _
  · next hdiv =>
    refine haveValue_addChanged _ hstandard (fun changed hchanged => ?_) _
    have hpart : e.factoredPart = e := by
      unfold factoredPart
      split
      · next numerator denominator => exact absurd rfl (hdiv numerator denominator)
      · rfl
    rw [← hpart]
    exact hf changed hchanged

/-- All forms of an expression have its value. -/
theorem haveValue_allForms (hdiv : v.DividesOut) {e : Expr (Exact rules)} (h : e.Within v)
    (threshold : LogLevel) : (e.allForms.value threshold).HaveValue v I (e.value I) := by
  have hpart : e.factoredPart.Within v := by
    unfold factoredPart
    split
    · exact h.1
    · exact h
  rw [value_allForms]
  exact haveValue_formsWith hI hquotient hexp h fun factored hfactored =>
    hasValue_factorOut? hI hdiv hpart hfactored

end Expr

end SymbolicForms
