import SymbolicForms.Proofs.TrigonometryMeaning
import SymbolicForms.Proofs.CanonicalMeaning
import SymbolicForms.Proofs.FormsMeaning
import SymbolicForms.Strategies

/-!
# Meaning of strategies

Exact numbers need not know their places, so that a step gives what its
simplification gives. All steps are sound where numbers count as equal only if
they are equal, and hence so are the rounds, their repetition and the strategies.
Every distinct form of an expression with natural exponents therefore has its
value, in every field of characteristic zero in which sine, cosine and the
functions made from them follow their laws and exponentials are not zero. The
cheapest form is one of them, and there always is one.
-/

namespace SymbolicForms

/-- The cheapest of some candidates is one of them. -/
theorem Selection.exists_value_cheapest {K α : Type} [Scalar K] (expression : α → Expr K)
    {candidates : List α} (hne : candidates ≠ []) (threshold : LogLevel) :
    ∃ candidate ∈ candidates,
      (cheapest expression candidates).value threshold = .ok candidate := by
  cases candidates with
  | nil => exact absurd rfl hne
  | cons first rest =>
    let selected : ℕ := (cheapestIndex ((first :: rest).map expression)).value threshold
    refine ⟨((first :: rest)[selected]?).getD first, ?_, rfl⟩
    cases hfound : (first :: rest)[selected]? with
    | none => exact List.mem_cons_self
    | some candidate => exact List.mem_of_getElem? hfound

namespace Expr

section Steps

variable {rules : Exactness} {v : Vocabulary rules} {R : Type*} [CommRing R]
  {I : Interpretation rules R}

/-- Exact numbers need not know their places. -/
@[simp] theorem placed_eq (step : ℕ) (e : Expr (Exact rules)) : e.placed step = e :=
  placed_eq_self Exact.putAt_eq step e

/-- A step by a sound function is sound. -/
theorem sound_tryStep_ofFunction (step : String)
    {function : Expr (Exact rules) → Expr (Exact rules)} (h : Sound v I function)
    (threshold : LogLevel) :
    Sound v I fun e => (tryStep step (.ofFunction function) e).value threshold := by
  simpa only [value_tryStep_ofFunction, placed_eq] using h

/-- A step by a function with messages whose results are sound is sound. -/
theorem sound_tryStep_ofLogged (step : String)
    {function : Expr (Exact rules) → Logged (Expr (Exact rules))} {threshold : LogLevel}
    (h : Sound v I fun e => (function e).value threshold) :
    Sound v I fun e => (tryStep step (.ofLogged function) e).value threshold := by
  simpa only [value_tryStep_ofLogged, placed_eq] using h

/-- Repeating a sound round with messages is sound. -/
theorem sound_settleLogged {round : Expr (Exact rules) → Logged (Expr (Exact rules))}
    {threshold : LogLevel} (h : Sound v I fun e => (round e).value threshold) (limit : ℕ) :
    Sound v I fun e => (settleLogged round limit e).value threshold := by
  simpa only [value_settleLogged] using h.settle limit

/-- Canonical form is sound where exponents are numbers. -/
theorem sound_canonicalForm (hI : I.Faithful v) (hv : ¬v.openPowers) : Sound v I canonicalForm :=
  ⟨fun _ h => h.canonicalForm hv, fun _ h => value_canonicalForm hv hI h⟩

/-- Messages aside, adding a strategy adds its result. -/
theorem value_addStrategy (strategy : Expr (Exact rules) → Logged (Expr (Exact rules)))
    (e : Expr (Exact rules)) (number : ℕ) (kind : FormKind) (label : String)
    (forms : Forms (Exact rules)) (threshold : LogLevel) :
    (e.addStrategy number strategy kind label forms).value threshold =
      forms.addNew ⟨(strategy e).value threshold, kind, label⟩ := by
  rw [addStrategy, Logged.value_bind, Logged.value_pure, placed_eq]

/-- Adding the result of a sound strategy keeps the value of all forms. -/
theorem haveValue_addStrategy {strategy : Expr (Exact rules) → Logged (Expr (Exact rules))}
    {threshold : LogLevel} (hs : Sound v I fun e => (strategy e).value threshold)
    {e : Expr (Exact rules)} (h : e.Within v) {forms : Forms (Exact rules)}
    (hforms : forms.HaveValue v I (e.value I)) (number : ℕ) (kind : FormKind) (label : String) :
    ((e.addStrategy number strategy kind label forms).value threshold).HaveValue v I
      (e.value I) := by
  rw [value_addStrategy]
  exact hforms.addNew (hs.hasValue ⟨h, rfl⟩)

/-- Adding it only while there are few forms does so as well. -/
theorem haveValue_addIfFew {strategy : Expr (Exact rules) → Logged (Expr (Exact rules))}
    {threshold : LogLevel} (hs : Sound v I fun e => (strategy e).value threshold)
    {e : Expr (Exact rules)} (h : e.Within v) {forms : Forms (Exact rules)}
    (hforms : forms.HaveValue v I (e.value I)) (number : ℕ) (kind : FormKind) (label : String) :
    ((e.addIfFew number strategy kind label forms).value threshold).HaveValue v I
      (e.value I) := by
  unfold addIfFew
  split
  · exact haveValue_addStrategy hs h hforms number kind label
  · exact hforms

end Steps

/-- There is at least one form. -/
theorem value_strategyForms_ne_nil {K : Type} [Scalar K] (e : Expr K) (threshold : LogLevel) :
    e.strategyForms.value threshold ≠ [] := by
  have few (number : ℕ) (strategy : Expr K → Logged (Expr K)) (kind : FormKind) (label : String)
      {forms : Forms K} (h : forms ≠ []) :
      (e.addIfFew number strategy kind label forms).value threshold ≠ [] := by
    unfold addIfFew
    split
    · exact Forms.addNew_ne_nil _ _
    · exact h
  have added (number : ℕ) (strategy : Expr K → Logged (Expr K)) (kind : FormKind) (label : String)
      (forms : Forms K) : (e.addStrategy number strategy kind label forms).value threshold ≠ [] :=
    Forms.addNew_ne_nil _ _
  simp only [strategyForms, Logged.value_bind]
  exact few 7 _ _ _ (few 6 _ _ _ (added 5 _ _ _ _))

/-- Messages aside, the distinct forms are the results of the strategies. -/
theorem value_distinctForms {K : Type} [Scalar K] (e : Expr K) (threshold : LogLevel) :
    e.distinctForms.value threshold = e.strategyForms.value threshold := by
  rw [distinctForms, Logged.value_bind]
  generalize e.strategyForms.value threshold = forms
  rfl

/-- Preparation for differentiation gives one of the distinct forms. -/
theorem exists_value_prepareForDifferentiation {K : Type} [Scalar K] (e : Expr K)
    (threshold : LogLevel) : ∃ form ∈ e.distinctForms.value threshold,
      e.prepareForDifferentiation.value threshold = .ok form.expression := by
  have hne := value_strategyForms_ne_nil e threshold
  rw [prepareForDifferentiation, Logged.value_bind, value_distinctForms]
  generalize e.strategyForms.value threshold = forms at hne
  obtain ⟨form, hform, hcheapest⟩ := Selection.exists_value_cheapest Form.expression hne threshold
  refine ⟨form, hform, ?_⟩
  rw [Logged.value_bind, Logged.value_pure, Selection.cheapestForm, hcheapest]
  rfl

section Field

variable {rules : Exactness} {h : rules.margin = 0} {F : Type*} [Field F] [CharZero F]
  {I : Interpretation rules F} (hI : I.OverField)
  (hpower : ∀ (base : F) (n : ℕ), I.power base n = base ^ n)
  (hlaws : TrigonometricLaws I.functions) (threshold : LogLevel)
include hI hpower

theorem sound_canonicalStep :
    Sound (.rationals h) I fun e => (canonicalStep e).value threshold :=
  sound_tryStep_ofLogged _ (sound_canonicalForm (hI.faithful h hpower) not_false)

theorem sound_constantStep : Sound (.rationals h) I fun e => (constantStep e).value threshold :=
  sound_tryStep_ofFunction _ (sound_foldConstants hI h hpower) threshold

theorem sound_zeroStep : Sound (.rationals h) I fun e => (zeroStep e).value threshold :=
  sound_tryStep_ofFunction _ (sound_removeZeros (hI.faithful h hpower) not_false) threshold

theorem sound_oneStep : Sound (.rationals h) I fun e => (oneStep e).value threshold :=
  sound_tryStep_ofFunction _ (sound_removeOnes (hI.faithful h hpower) not_false) threshold

theorem sound_powerStep : Sound (.rationals h) I fun e => (powerStep e).value threshold :=
  sound_tryStep_ofFunction _ (sound_simplifyPowers (hI.faithful h hpower) not_false) threshold

/-- Canonical form without zeros and ones is sound. -/
theorem sound_alternativeStrategy :
    Sound (.rationals h) I fun e => (alternativeStrategy e).value threshold := by
  have hzeros := (sound_zeroStep (h := h) hI hpower threshold).comp
    (sound_canonicalStep hI hpower threshold)
  have hones := (sound_oneStep hI hpower threshold).comp hzeros
  simpa only [alternativeStrategy, Logged.value_bind] using hones

include hlaws

theorem sound_trigonometryStep :
    Sound (.rationals h) I fun e => (trigonometryStep e).value threshold :=
  sound_tryStep_ofLogged _ (sound_trigonometricForm hI hpower hlaws)

/-- One round of all cleanup steps is sound. -/
theorem sound_cleanupRound (trigonometry : Bool) :
    Sound (.rationals h) I fun e => (cleanupRound trigonometry e).value threshold := by
  have hconstants := (sound_constantStep (h := h) hI hpower threshold).comp
    (sound_canonicalStep hI hpower threshold)
  have hzeros := (sound_zeroStep hI hpower threshold).comp hconstants
  have hones := (sound_oneStep hI hpower threshold).comp hzeros
  cases trigonometry with
  | true =>
    have hidentities := (sound_trigonometryStep hI hpower hlaws threshold).comp hones
    have hpowers := (sound_powerStep hI hpower threshold).comp hidentities
    simpa only [cleanupRound, Logged.value_bind, if_true] using hpowers
  | false =>
    have hpowers := (sound_powerStep hI hpower threshold).comp hones
    simpa only [cleanupRound, Logged.value_bind, Bool.false_eq_true, if_false, Logged.value_pure]
      using hpowers

/-- Cleanup until nothing changes is sound. -/
theorem sound_cleanup (trigonometry : Bool) :
    Sound (.rationals h) I fun e => (cleanup trigonometry e).value threshold := by
  have hround := sound_cleanupRound (h := h) hI hpower hlaws threshold trigonometry
  simpa only [cleanup] using sound_settleLogged hround roundLimit

/-- Full simplification is sound. -/
theorem sound_fullySimplify :
    Sound (.rationals h) I fun e => (fullySimplify e).value threshold := by
  simpa only [fullySimplify, Logged.value_bind, Logged.value_pure] using
    sound_cleanup (h := h) hI hpower hlaws threshold true

/-- Canonical form with trigonometric identities is sound. -/
theorem sound_prepare : Sound (.rationals h) I fun e => (prepare e).value threshold := by
  have hidentities := (sound_trigonometryStep (h := h) hI hpower hlaws threshold).comp
    (sound_canonicalStep hI hpower threshold)
  simpa only [prepare, Logged.value_bind] using hidentities

/-- Canonical form, numbers and trigonometric identities are sound. -/
theorem sound_partialStrategy :
    Sound (.rationals h) I fun e => (partialStrategy e).value threshold := by
  have hconstants := (sound_constantStep (h := h) hI hpower threshold).comp
    (sound_canonicalStep hI hpower threshold)
  have hidentities := (sound_trigonometryStep hI hpower hlaws threshold).comp hconstants
  simpa only [partialStrategy, Logged.value_bind] using hidentities

variable (hexp : ∀ t, I.functions exponentialName t ≠ 0)
include hexp

/-- Factoring the numerator of a prepared quotient is sound. -/
theorem sound_factorStrategy :
    Sound (.rationals h) I fun e => (factorStrategy e).value threshold := by
  refine sound_of_hasValue fun e he => ?_
  have hprepared := (sound_prepare (h := h) hI hpower hlaws threshold).hasValue ⟨he, rfl⟩
  rw [factorStrategy, Logged.value_bind]
  generalize (prepare e).value threshold = prepared at hprepared
  split
  · next numerator denominator =>
    have hforms := haveValue_allForms (hI.faithful h hpower) hI.quotient_eq hexp
      (Vocabulary.dividesOut_rationals h) hprepared.1 threshold
    rw [hprepared.2] at hforms
    rw [Logged.value_bind, Logged.value_pure, placed_eq]
    exact hforms.getD_map (fun form hform => List.mem_of_find?_eq_some hform) hprepared
  · exact hprepared

/-- Cancelling the exponentials of a prepared quotient is sound. -/
theorem sound_fractionStrategy :
    Sound (.rationals h) I fun e => (fractionStrategy e).value threshold := by
  refine sound_of_hasValue fun e he => ?_
  have hprepared := (sound_prepare (h := h) hI hpower hlaws threshold).hasValue ⟨he, rfl⟩
  rw [fractionStrategy, Logged.value_bind]
  generalize (prepare e).value threshold = prepared at hprepared
  split
  · next numerator denominator =>
    have hforms := haveValue_allForms (hI.faithful h hpower) hI.quotient_eq hexp
      (Vocabulary.dividesOut_rationals h) hprepared.1 threshold
    rw [hprepared.2] at hforms
    rw [Logged.value_bind, Logged.value_pure, placed_eq]
    refine hforms.getD_map (fun form hform => ?_) hprepared
    rw [Option.orElse_eq_orElse, Option.orElse_eq_or] at hform
    rcases Option.or_eq_some_iff.mp hform with hlabelled | ⟨-, hlast⟩
    · exact List.mem_of_find?_eq_some hlabelled
    · exact List.mem_of_getLast? hlast
  · exact hprepared

/-- All distinct forms have the value of the expression. -/
theorem haveValue_distinctForms {e : Expr (Exact rules)} (he : e.Within (.rationals h)) :
    (e.distinctForms.value threshold).HaveValue (.rationals h) I (e.value I) := by
  have hnone : Forms.HaveValue (.rationals h) I (e.value I) [] := List.forall_mem_nil _
  have hexpanded := haveValue_addStrategy (sound_cleanup hI hpower hlaws threshold false) he hnone
    1 .expanded "expanded"
  have hidentities := haveValue_addStrategy (sound_cleanup hI hpower hlaws threshold true) he
    hexpanded 2 .structural "trig simplified"
  have hfactored := haveValue_addStrategy (sound_factorStrategy hI hpower hlaws threshold hexp) he
    hidentities 3 .factored "factored"
  have hfraction := haveValue_addStrategy (sound_fractionStrategy hI hpower hlaws threshold hexp)
    he hfactored 4 .factored "fraction reduced"
  have hfull := haveValue_addStrategy (sound_fullySimplify hI hpower hlaws threshold) he
    hfraction 5 .factored "fully simplified"
  have hpartial := haveValue_addIfFew (sound_partialStrategy hI hpower hlaws threshold) he
    hfull 6 .structural "intermediate"
  have hall := haveValue_addIfFew (sound_alternativeStrategy hI hpower threshold) he hpartial
    7 .structural "alternative"
  rw [value_distinctForms, strategyForms]
  simpa only [Logged.value_bind] using hall

end Field

/-- Every distinct form of an expression with natural exponents has its value, and so has the one
that is prepared for differentiation, of which there always is one. -/
theorem value_distinctForms_and_prepared {rules : Exactness} (h : rules.margin = 0) {F : Type*}
    [Field F] [CharZero F] (valuation : String → F) (functions : String → F → F)
    (power : F → F → F) (hpower : ∀ (base : F) (n : ℕ), power base n = base ^ n)
    (hlaws : TrigonometricLaws functions) (hexp : ∀ t, functions "exp" t ≠ 0)
    {e : Expr (Exact rules)} (he : e.Within (.rationals h)) (threshold : LogLevel) :
    (∀ form ∈ e.distinctForms.value threshold,
      form.expression.value (.inField valuation functions power) =
        e.value (.inField valuation functions power)) ∧
      ∃ prepared, e.prepareForDifferentiation.value threshold = .ok prepared ∧
        prepared.value (.inField valuation functions power) =
          e.value (.inField valuation functions power) := by
  have hforms := haveValue_distinctForms (h := h)
    (Interpretation.overField_inField valuation functions power) hpower hlaws threshold hexp he
  obtain ⟨form, hform, hprepared⟩ := exists_value_prepareForDifferentiation e threshold
  constructor
  · exact fun form hform => (hforms form hform).2
  · exact ⟨form.expression, hprepared, (hforms form hform).2⟩

/-- The quotient `(x^2 * exp(x) + 2 * sin(x) * cos(x) * exp(x)) / exp(x)`. -/
def quotientOfExponentials : Expr (Exact .strict) :=
  .div (.add (.mul (.pow (.var "x") (.int 2)) (.func "exp" (.var "x")))
    (.mul (.mul (.mul (.int 2) (.func "sin" (.var "x"))) (.func "cos" (.var "x")))
      (.func "exp" (.var "x")))) (.func "exp" (.var "x"))

theorem value_distinctForms_and_prepared_quotientOfExponentials :
    quotientOfExponentials.Within (.rationals rfl) ∧
      (∀ form ∈ quotientOfExponentials.distinctForms.value .off,
        form.expression.value (.inField (fun _ => 3) realFunctions (· ^ ·)) =
          quotientOfExponentials.value (.inField (fun _ => 3) realFunctions (· ^ ·))) ∧
        ∃ prepared, quotientOfExponentials.prepareForDifferentiation.value .off = .ok prepared ∧
          prepared.value (.inField (fun _ => 3) realFunctions (· ^ ·)) =
            quotientOfExponentials.value (.inField (fun _ => 3) realFunctions (· ^ ·)) := by
  have hcall (name : String) : (Expr.func name (.var "x") : Expr (Exact .strict)).Within
      (.rationals rfl) := ⟨trivial, trivial⟩
  have hsquare : (Expr.pow (.var "x") (.int 2) : Expr (Exact .strict)).Within (.rationals rfl) :=
    ⟨trivial, trivial, 2, Int.cast_ofNat 2⟩
  have hproduct := (((within_int 2).mul (hcall "sin")).mul (hcall "cos")).mul (hcall "exp")
  have hwithin : quotientOfExponentials.Within (.rationals rfl) :=
    Within.div ((hsquare.mul (hcall "exp")).add hproduct) (hcall "exp")
  exact ⟨hwithin, value_distinctForms_and_prepared rfl _ realFunctions _ Real.rpow_natCast
    trigonometricLaws_realFunctions Real.exp_ne_zero hwithin .off⟩

end Expr

end SymbolicForms
