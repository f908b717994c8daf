import SymbolicForms.Proofs.PassNames
import SymbolicForms.Evaluation
import SymbolicForms.FloatScalar

/-!
# Safety of evaluation

Evaluation succeeds exactly when every variable of the expression has a value
and every function of it is known. Success therefore depends on names alone, and
no pass leads out of the names with a value or a meaning: the functions that
identities bring in are all known. An expression that can be evaluated stays so
under every simplification, whatever the operations on numbers return.
-/

namespace SymbolicForms

variable {K : Type}

/-- The variables with a value and the functions with a meaning. -/
def Bindings.names (bindings : Bindings K) : Names where
  variableNames := {name | bindings name ≠ none}
  functionNames := {name | KnownFunction.ofName? name ≠ none}

/-- The functions that identities bring in have a meaning. -/
theorem identityFunctions_subset_names (bindings : Bindings K) :
    Names.identityFunctions ⊆ bindings.names.functionNames := by
  rintro name (rfl | rfl | rfl | rfl | rfl | rfl) <;> exact fun h => nomatch h

variable [Elementary K]

/-- A named function has a value at some number exactly when the name is known. -/
theorem exists_applyFunction_iff (name : String) (value : K) :
    (∃ result, applyFunction name value = .ok result) ↔ KnownFunction.ofName? name ≠ none := by
  unfold applyFunction
  cases KnownFunction.ofName? name with
  | none => simp
  | some function => simp

namespace Expr

/-- The evaluation of an expression succeeds. -/
def Evaluates (bindings : Bindings K) (e : Expr K) : Prop :=
  ∃ value, e.evaluate bindings = .ok value

/-- A function evaluates when its argument does and its name is known. -/
theorem evaluates_func_iff (bindings : Bindings K) (name : String) (argument : Expr K) :
    (Expr.func name argument).Evaluates bindings ↔
      KnownFunction.ofName? name ≠ none ∧ argument.Evaluates bindings := by
  rw [Evaluates, Evaluates, evaluate]
  cases argument.evaluate bindings with
  | error cause => simp
  | ok value => simp [exists_applyFunction_iff]

/-- Two operands joined by an operator evaluate when both do. -/
theorem evaluates_binary_iff (bindings : Bindings K) (op : Op) (left right : Expr K) :
    (Expr.binary op left right).Evaluates bindings ↔
      left.Evaluates bindings ∧ right.Evaluates bindings := by
  rw [Evaluates, Evaluates, Evaluates, evaluate]
  cases left.evaluate bindings with
  | error cause => simp
  | ok leftValue =>
    cases right.evaluate bindings with
    | error cause => simp
    | ok rightValue => simp

/-- An expression evaluates exactly when its variables have values and its functions a meaning. -/
theorem evaluates_iff_namesIn (bindings : Bindings K) (e : Expr K) :
    e.Evaluates bindings ↔ e.NamesIn bindings.names := by
  induction e with
  | const value => exact ⟨fun _ => trivial, fun _ => ⟨value, rfl⟩⟩
  | var name =>
    rw [Evaluates, evaluate, NamesIn, Bindings.names, Set.mem_ofPred_eq]
    cases bindings name with
    | none => simp
    | some value => simp
  | func name argument ih =>
    rw [evaluates_func_iff, ih]
    exact Iff.rfl
  | binary op left right ihl ihr =>
    rw [evaluates_binary_iff, ihl, ihr]
    exact Iff.rfl

/-- A pass that keeps to the names with a value or a meaning keeps expressions evaluable. -/
theorem Evaluates.of_keepsNames {bindings : Bindings K} {pass : Expr K → Expr K} {e : Expr K}
    (h : e.Evaluates bindings) (hpass : KeepsNames bindings.names pass) :
    (pass e).Evaluates bindings :=
  (evaluates_iff_namesIn bindings _).mpr (hpass ((evaluates_iff_namesIn bindings e).mp h))

/-- Forms with names that have a value or a meaning can be evaluated. -/
theorem evaluates_of_mem_forms {bindings : Bindings K} {forms : Forms K}
    (h : forms.NamesIn bindings.names) : ∀ form ∈ forms, form.expression.Evaluates bindings :=
  fun form hform => (evaluates_iff_namesIn bindings _).mpr (h form hform)

/-- Evaluation fails exactly when it does not succeed. -/
theorem exists_evaluate_eq_error_iff (bindings : Bindings K) (e : Expr K) :
    (∃ cause, e.evaluate bindings = .error cause) ↔ ¬e.Evaluates bindings := by
  rw [Evaluates]
  cases e.evaluate bindings with
  | error cause => simp
  | ok value => simp

/-- Evaluation fails exactly when some variable is unbound or some function unknown. -/
theorem evaluate_fails_iff (bindings : Bindings K) (e : Expr K) :
    (∃ cause, e.evaluate bindings = .error cause) ↔
      (∃ name ∈ e.variableNames, bindings name = none) ∨
        ∃ name ∈ e.functionNames, KnownFunction.ofName? name = none := by
  rw [exists_evaluate_eq_error_iff, evaluates_iff_namesIn, namesIn_iff, not_and_or,
    Set.not_subset, Set.not_subset]
  simp only [Bindings.names, Set.mem_ofPred_eq, not_not]

/-- A failure names an unbound variable or an unknown function of the expression. -/
theorem cause_of_evaluate_eq_error {bindings : Bindings K} {e : Expr K} {cause : EvalError}
    (h : e.evaluate bindings = .error cause) :
    (∃ name ∈ e.variableNames, bindings name = none ∧ cause = .unbound name) ∨
      ∃ name ∈ e.functionNames, KnownFunction.ofName? name = none ∧ cause = .unknown name := by
  induction e with
  | const value => cases h
  | var name =>
    unfold evaluate at h
    cases hbound : bindings name with
    | some value =>
      rw [hbound] at h
      cases h
    | none =>
      rw [hbound] at h
      cases h
      exact Or.inl ⟨name, rfl, hbound, rfl⟩
  | func name argument ih =>
    unfold evaluate at h
    split at h
    · next value hvalue =>
      unfold applyFunction at h
      cases hknown : KnownFunction.ofName? name with
      | some function =>
        rw [hknown] at h
        cases h
      | none =>
        rw [hknown] at h
        cases h
        exact Or.inr ⟨name, Set.mem_insert _ _, hknown, rfl⟩
    · next inner hinner =>
      cases h
      exact (ih hinner).imp_right fun ⟨other, hother, hcause⟩ =>
        ⟨other, Set.mem_insert_of_mem _ hother, hcause⟩
  | binary op left right ihl ihr =>
    unfold evaluate at h
    split at h
    · next inner hinner =>
      cases h
      exact (ihl hinner).imp (fun ⟨name, hname, hcause⟩ => ⟨name, Or.inl hname, hcause⟩)
        fun ⟨name, hname, hcause⟩ => ⟨name, Or.inl hname, hcause⟩
    · split at h
      · next inner hinner =>
        cases h
        exact (ihr hinner).imp (fun ⟨name, hname, hcause⟩ => ⟨name, Or.inr hname, hcause⟩)
          fun ⟨name, hname, hcause⟩ => ⟨name, Or.inr hname, hcause⟩
      · cases h

/-- Evaluation fails exactly for an unbound variable or an unknown function, and every
simplification of an expression that evaluates does so as well. -/
theorem evaluate_fails_iff_and_passes_evaluate (bindings : Bindings K) (e : Expr K)
    (threshold : LogLevel) :
    ((∃ cause, e.evaluate bindings = .error cause) ↔
      (∃ name ∈ e.variableNames, bindings name = none) ∨
        ∃ name ∈ e.functionNames, KnownFunction.ofName? name = none) ∧
    (e.Evaluates bindings →
      (e.canonicalize.value threshold).Evaluates bindings ∧
      (e.simplifyTrigonometry.value threshold).Evaluates bindings ∧
      (e.fullySimplify.value threshold).Evaluates bindings ∧
      (e.extractFactor.value threshold).Evaluates bindings ∧
      e.cancelExponentials.Evaluates bindings ∧
      (∀ form ∈ e.allForms.value threshold, form.expression.Evaluates bindings) ∧
      (∀ form ∈ e.distinctForms.value threshold, form.expression.Evaluates bindings) ∧
      ∃ prepared, e.prepareForDifferentiation.value threshold = .ok prepared ∧
        prepared.Evaluates bindings) := by
  refine ⟨evaluate_fails_iff bindings e, fun hevaluates => ?_⟩
  have hidentities := identityFunctions_subset_names bindings
  have hnames := (evaluates_iff_namesIn bindings e).mp hevaluates
  have hcanonical := hevaluates.of_keepsNames fun _ h => h.canonicalForm
  have hidentity := hevaluates.of_keepsNames (keepsNames_trigonometricForm hidentities)
  have hsimplified := hevaluates.of_keepsNames (keepsNames_fullySimplify threshold hidentities)
  have hextracted := hevaluates.of_keepsNames (keepsNames_extractFactor threshold)
  have hcancelled := hevaluates.of_keepsNames keepsNames_cancelExponentials
  have hall := evaluates_of_mem_forms (hnames.allForms threshold)
  have hdistinct := evaluates_of_mem_forms (hnames.distinctForms threshold hidentities)
  obtain ⟨form, hform, hprepared⟩ := exists_value_prepareForDifferentiation e threshold
  exact ⟨hcanonical, hidentity, hsimplified, hextracted, hcancelled, hall, hdistinct,
    form.expression, hprepared, hdistinct form hform⟩

/-- The sum `sin(x)*cos(x) + 1/0`, whose value is no finite number. -/
def infiniteSum : Expr Float :=
  .add (.mul (.func "sin" (.var "x")) (.func "cos" (.var "x"))) (.div (.int 1) (.int 0))

/-- The value of a sum with an infinite addend is computed, and stays so. -/
theorem infiniteSum_passes_evaluate :
    infiniteSum.Evaluates (Bindings.ofList [("x", 1)]) ∧
      (infiniteSum.fullySimplify.value .off).Evaluates (Bindings.ofList [("x", 1)]) ∧
      ∃ prepared, infiniteSum.prepareForDifferentiation.value .off = .ok prepared ∧
        prepared.Evaluates (Bindings.ofList [("x", 1)]) := by
  have hevaluates : infiniteSum.Evaluates (Bindings.ofList [("x", 1)]) := ⟨_, rfl⟩
  obtain ⟨-, -, hsimplified, -, -, -, -, hprepared⟩ :=
    (evaluate_fails_iff_and_passes_evaluate (Bindings.ofList [("x", 1)]) infiniteSum .off).2
      hevaluates
  exact ⟨hevaluates, hsimplified, hprepared⟩

end Expr

end SymbolicForms
