import SymbolicForms.Proofs.DistinctForms
import SymbolicForms.Proofs.FoldedChains
import SymbolicForms.Proofs.ShrinkingPasses
import SymbolicForms.Proofs.SweptPatterns

/-!
# Tidy expressions

An expression is tidy where it has no functions, differences and quotients, and
numbers stand only in front of products, behind sums and in exponents, and say
something there. Cleanup passes and trigonometric identities leave an expression
alone that is tidy everywhere. If it is its own canonical form as well, then it
is the result of every round of cleanup and of every strategy, on whatever has
this canonical form, and the only distinct form.
-/

namespace SymbolicForms

namespace Expr

variable {K : Type}

/-- No factor is a number. -/
def NumberFree (e : Expr K) : Prop := ∀ factor ∈ e.factors, factor.isNumber = false

/-- An expression without numeric factors is no number. -/
theorem NumberFree.isNumber_eq_false {e : Expr K} (h : e.NumberFree) : e.isNumber = false := by
  cases e with
  | const value => exact h _ (List.mem_singleton_self _)
  | _ => rfl

/-- A product of expressions without numeric factors has none. -/
theorem NumberFree.mul {left right : Expr K} (hl : left.NumberFree) (hr : right.NumberFree) :
    (Expr.mul left right).NumberFree := by
  intro factor hf
  rw [factors_mul, List.mem_append] at hf
  exact hf.elim (hl factor) (hr factor)

variable [Scalar K]

/-- At the root stands no function, difference or quotient, and a number next to it is the first
factor of a product and neither zero nor one, the last addend of a sum and not zero, or an exponent
that is neither zero nor one. -/
def Tidy : Expr K → Prop
  | .const _ => True
  | .var _ => True
  | .func _ _ => False
  | .binary .add left right => left.isNumber = false ∧ right.isZero = false
  | .binary .sub _ _ => False
  | .binary .mul left right =>
    (left.NumberFree ∨ left.isNumber = true ∧ left.isZero = false ∧ left.isOne = false) ∧
      right.NumberFree
  | .binary .div _ _ => False
  | .binary .pow base exponent =>
    base.isNumber = false ∧ exponent.isZero = false ∧ exponent.isOne = false

/-- The left operand of a tidy product is neither zero nor one. -/
theorem Tidy.left_of_mul {left right : Expr K} (h : (Expr.mul left right).Tidy) :
    left.isZero = false ∧ left.isOne = false := by
  obtain ⟨hfree | ⟨-, hleft⟩, -⟩ := h
  · exact ⟨isNear_eq_false hfree.isNumber_eq_false _, isNear_eq_false hfree.isNumber_eq_false _⟩
  · exact hleft

/-- A tidy operator is not one between numbers that could be evaluated. -/
theorem Tidy.hasNoFoldable {e : Expr K} (h : e.Tidy) : e.HasNoFoldable := by
  unfold HasNoFoldable
  split
  · next op first second =>
    cases op with
    | add => cases h.1
    | mul => cases h.2.isNumber_eq_false
    | pow => cases h.1
    | sub => exact h.elim
    | div => exact h.elim
  · trivial

/-- A tidy operator has no zero to remove. -/
theorem Tidy.hasNoZero {e : Expr K} (h : e.Tidy) : e.HasNoZero := by
  unfold HasNoZero
  split
  · exact ⟨isNear_eq_false h.1 _, h.2⟩
  · exact ⟨h.left_of_mul.1, isNear_eq_false h.2.isNumber_eq_false _⟩
  · trivial

/-- A tidy operator has no factor of one. -/
theorem Tidy.hasNoOne {e : Expr K} (h : e.Tidy) : e.HasNoOne := by
  unfold HasNoOne
  split
  · exact ⟨h.left_of_mul.2, isNear_eq_false h.2.isNumber_eq_false _⟩
  · trivial

/-- A tidy power is not trivial. -/
theorem Tidy.hasNoTrivialPower {e : Expr K} (h : e.Tidy) : e.HasNoTrivialPower := by
  unfold HasNoTrivialPower
  split
  · exact h.2
  · trivial

/-- Nothing can be folded among factors that are no numbers. -/
theorem folded_of_isNumber_eq_false {factors : List (Expr K)}
    (h : ∀ factor ∈ factors, factor.isNumber = false) : Folded factors := by
  induction factors with
  | nil => exact .nil
  | cons factor rest ih =>
    obtain ⟨hfactor, hrest⟩ := List.forall_mem_cons.mp h
    exact (folded_cons_of_isNumber_eq_false hfactor).mpr (ih hrest)

/-- A tidy product has no numbers to fold. -/
theorem Tidy.hasFoldedChain {e : Expr K} (h : e.Tidy) : e.HasFoldedChain := by
  unfold HasFoldedChain
  split
  · next left right =>
    obtain ⟨hleft, hright⟩ := h
    rw [factors_mul]
    obtain hfree | ⟨hnumber, -, hone⟩ := hleft
    · exact folded_of_isNumber_eq_false (List.forall_mem_append.mpr ⟨hfree, hright⟩)
    · cases left with
      | const value =>
        have hnext : ∀ next ∈ right.factors.head?, next.isNumber = false := fun next hmem =>
          hright next (List.mem_of_mem_head? hmem)
        exact (folded_const_cons hnext).mpr ⟨hone, folded_of_isNumber_eq_false hright⟩
      | _ => cases hnumber
  · trivial

/-- Nothing is evaluated where everything is tidy. -/
theorem foldConstants_eq_self {e : Expr K} (h : e.Everywhere Tidy) : e.foldConstants = e :=
  Op.reduces_foldNumbers.rebuild_eq_self (h.mono fun _ => Tidy.hasNoFoldable)

/-- No zero is removed where everything is tidy. -/
theorem removeZeros_eq_self {e : Expr K} (h : e.Everywhere Tidy) : e.removeZeros = e :=
  Op.reduces_removeZero.rebuild_eq_self (h.mono fun _ => Tidy.hasNoZero)

/-- No one is removed where everything is tidy. -/
theorem removeOnes_eq_self {e : Expr K} (h : e.Everywhere Tidy) : e.removeOnes = e :=
  Op.reduces_removeOne.rebuild_eq_self (h.mono fun _ => Tidy.hasNoOne)

/-- No power is replaced where everything is tidy. -/
theorem simplifyPowers_eq_self {e : Expr K} (h : e.Everywhere Tidy) : e.simplifyPowers = e :=
  Op.reduces_removePower.rebuild_eq_self (h.mono fun _ => Tidy.hasNoTrivialPower)

/-- There is no product of sine and cosine where everything is tidy. -/
theorem sineCosine?_eq_none {e : Expr K} (h : e.Everywhere Tidy) : e.sineCosine? = none := by
  refine Option.eq_none_iff_forall_not_mem.mpr fun found hfound => ?_
  exact (h.of_mem (e.factors_subset_nodes (sine_mem_factors hfound))).self.elim

/-- There is no square of a function where everything is tidy. -/
theorem square?_eq_none {e : Expr K} (h : e.Everywhere Tidy) (function : String) :
    e.square? function = none := by
  refine Option.eq_none_iff_forall_not_mem.mpr fun found hfound => ?_
  obtain ⟨exponent, hsquare⟩ := exists_square_mem_factors hfound
  have hpower := h.of_mem (e.factors_subset_nodes hsquare)
  exact (everywhere_binary.mp hpower).2.1.self.elim

/-- No double angle is introduced where everything is tidy. -/
theorem applyDoubleAngle_eq_self {e : Expr K} (h : e.Everywhere Tidy) :
    e.applyDoubleAngle = e := by
  refine applyDoubleAngle_eq_self_of_everywhere fun node hmem => ?_
  have hnode := h.of_mem hmem
  cases node with
  | binary op left right =>
    cases op with
    | mul => exact sineCosine?_eq_none hnode
    | sub => exact hnode.self.elim
    | _ => trivial
  | _ => trivial

/-- No sum of squares is replaced where everything is tidy. -/
theorem applyPythagorean_eq_self {e : Expr K} (h : e.Everywhere Tidy) :
    e.applyPythagorean = e := by
  refine applyPythagorean_eq_self_of_everywhere fun node hmem => ?_
  have hnode := h.of_mem hmem
  cases node with
  | binary op left right =>
    have hnone := square?_eq_none (everywhere_binary.mp hnode).2.1
    cases op with
    | add => simp [HasNoPythagoras, SquaresMatch, hnone]
    | _ => trivial
  | _ => trivial

/-- No quotient is replaced where everything is tidy. -/
theorem applyQuotients_eq_self {e : Expr K} (h : e.Everywhere Tidy) : e.applyQuotients = e := by
  refine applyQuotients_eq_self_of_everywhere fun node hmem hpattern => ?_
  have hnode := (h.of_mem hmem).self
  cases hpattern <;> exact hnode

variable {rules : Exactness}

/-- No numbers are folded where everything is tidy. -/
theorem foldNumericFactors_eq_self {e : Expr (Exact rules)} (h : e.Everywhere Tidy) :
    e.foldNumericFactors = e :=
  foldNumericFactors_eq_self_of_everywhere (h.mono fun _ => Tidy.hasFoldedChain)

/-- A round that leads to an expression, and leaves that alone, settles there. -/
theorem settle_eq {round : Expr (Exact rules) → Expr (Exact rules)} {e final : Expr (Exact rules)}
    (hfirst : round e = final) (hnext : round final = final) {limit : ℕ} (hlimit : limit ≠ 0) :
    settle round limit e = final := by
  have hstays (limit : ℕ) : settle round limit final = final := by
    cases limit with
    | zero => rfl
    | succ limit => rw [settle, hnext, same_self, if_pos rfl]
  obtain ⟨limit, rfl⟩ := Nat.exists_eq_succ_of_ne_zero hlimit
  rw [settle, hfirst, hstays limit, ite_self]

/-- At least one round is allowed. -/
theorem roundLimit_ne_zero : roundLimit ≠ 0 := by decide

/-- No identity changes what is tidy everywhere. -/
theorem trigonometricForm_eq_self {e : Expr (Exact rules)} (h : e.Everywhere Tidy) :
    e.trigonometricForm = e := by
  have hround : e.trigonometricRound = e := by
    rw [trigonometricRound, applyDoubleAngle_eq_self h, applyPythagorean_eq_self h,
      applyQuotients_eq_self h]
  have hsettled : settle trigonometricRound roundLimit e = e :=
    settle_eq hround hround roundLimit_ne_zero
  rw [trigonometricForm, hsettled, foldNumericFactors_eq_self h]

/-- A strategy whose result is represented adds no form. -/
theorem value_addStrategy_of_hasSame {e : Expr (Exact rules)} {threshold : LogLevel}
    {strategy : Expr (Exact rules) → Logged (Expr (Exact rules))} {forms : Forms (Exact rules)}
    (h : forms.hasSame ((strategy e).value threshold) = true) {number : ℕ} {kind : FormKind}
    {label : String} :
    (e.addStrategy number strategy kind label forms).value threshold = forms := by
  rw [value_addStrategy, Forms.addNew, if_pos h]

/-- Nor does one that is tried only while there are few forms. -/
theorem value_addIfFew_of_hasSame {e : Expr (Exact rules)} {threshold : LogLevel}
    {strategy : Expr (Exact rules) → Logged (Expr (Exact rules))} {forms : Forms (Exact rules)}
    (h : forms.hasSame ((strategy e).value threshold) = true) {number : ℕ} {kind : FormKind}
    {label : String} : (e.addIfFew number strategy kind label forms).value threshold = forms := by
  unfold addIfFew
  split
  · exact value_addStrategy_of_hasSame h
  · rfl

/-- No strategy changes the expression. -/
structure Rests (e : Expr (Exact rules)) : Prop where
  /-- It is its own canonical form. -/
  canonicalForm_eq : e.canonicalForm = e
  /-- Nothing is to be cleaned up in it. -/
  tidy : e.Everywhere Tidy

namespace Rests

variable {final : Expr (Exact rules)} (h : final.Rests) {e : Expr (Exact rules)}
  (he : e.canonicalForm = final) (threshold : LogLevel)
include h

omit h in
include he in
theorem value_canonicalStep : (canonicalStep e).value threshold = final := by
  rw [canonicalStep, value_tryStep_ofLogged, placed_eq, value_canonicalize, he]

theorem value_constantStep : (constantStep final).value threshold = final := by
  rw [constantStep, value_tryStep_ofFunction, placed_eq, foldConstants_eq_self h.tidy]

theorem value_zeroStep : (zeroStep final).value threshold = final := by
  rw [zeroStep, value_tryStep_ofFunction, placed_eq, removeZeros_eq_self h.tidy]

theorem value_oneStep : (oneStep final).value threshold = final := by
  rw [oneStep, value_tryStep_ofFunction, placed_eq, removeOnes_eq_self h.tidy]

theorem value_powerStep : (powerStep final).value threshold = final := by
  rw [powerStep, value_tryStep_ofFunction, placed_eq, simplifyPowers_eq_self h.tidy]

theorem value_trigonometryStep : (trigonometryStep final).value threshold = final := by
  rw [trigonometryStep, value_tryStep_ofLogged, placed_eq, value_simplifyTrigonometry,
    trigonometricForm_eq_self h.tidy]

include he

/-- One round of all cleanup steps is enough. -/
theorem value_cleanupRound (trigonometry : Bool) :
    (cleanupRound trigonometry e).value threshold = final := by
  rw [cleanupRound, Logged.value_bind, value_canonicalStep he, Logged.value_bind,
    h.value_constantStep, Logged.value_bind, h.value_zeroStep, Logged.value_bind, h.value_oneStep]
  cases trigonometry with
  | true => rw [if_pos rfl, Logged.value_bind, h.value_trigonometryStep, h.value_powerStep]
  | false =>
    rw [if_neg Bool.false_ne_true, Logged.value_bind, Logged.value_pure, h.value_powerStep]

/-- Cleanup comes to rest. -/
theorem value_cleanup (trigonometry : Bool) :
    (cleanup trigonometry e).value threshold = final := by
  rw [cleanup, value_settleLogged]
  exact settle_eq (h.value_cleanupRound he threshold trigonometry)
    (h.value_cleanupRound h.canonicalForm_eq threshold trigonometry) roundLimit_ne_zero

theorem value_fullySimplify : e.fullySimplify.value threshold = final := by
  have hcleanup := h.value_cleanup he threshold true
  rw [fullySimplify, Logged.value_bind, hcleanup]
  rfl

theorem value_prepare : e.prepare.value threshold = final := by
  rw [prepare, Logged.value_bind, value_canonicalStep he, h.value_trigonometryStep]

theorem value_factorStrategy : e.factorStrategy.value threshold = final := by
  rw [factorStrategy, Logged.value_bind, h.value_prepare he]
  split
  · exact h.tidy.self.elim
  · rfl

theorem value_fractionStrategy : e.fractionStrategy.value threshold = final := by
  rw [fractionStrategy, Logged.value_bind, h.value_prepare he]
  split
  · exact h.tidy.self.elim
  · rfl

theorem value_partialStrategy : e.partialStrategy.value threshold = final := by
  simp only [partialStrategy, Logged.value_bind, value_canonicalStep he, h.value_constantStep,
    h.value_trigonometryStep]

theorem value_alternativeStrategy : e.alternativeStrategy.value threshold = final := by
  simp only [alternativeStrategy, Logged.value_bind, value_canonicalStep he, h.value_zeroStep,
    h.value_oneStep]

/-- All strategies have the same result, so the first one gives the only form. -/
theorem value_distinctForms :
    e.distinctForms.value threshold = [⟨final, .expanded, "expanded"⟩] := by
  have hfound {strategy : Expr (Exact rules) → Logged (Expr (Exact rules))}
      (hs : (strategy e).value threshold = final) :
      Forms.hasSame [⟨final, .expanded, "expanded"⟩] ((strategy e).value threshold) = true := by
    rw [hs]
    exact Forms.hasSame_iff.mpr ⟨_, List.mem_singleton_self _, same_self final⟩
  have hfirst : (e.addStrategy 1 (cleanup false) .expanded "expanded" []).value threshold =
      [⟨final, .expanded, "expanded"⟩] := by
    rw [value_addStrategy, h.value_cleanup he]
    rfl
  rw [Expr.value_distinctForms, strategyForms, Logged.value_bind, hfirst, Logged.value_bind,
    value_addStrategy_of_hasSame (hfound (h.value_cleanup he threshold true)), Logged.value_bind,
    value_addStrategy_of_hasSame (hfound (h.value_factorStrategy he threshold)), Logged.value_bind,
    value_addStrategy_of_hasSame (hfound (h.value_fractionStrategy he threshold)),
    Logged.value_bind,
    value_addStrategy_of_hasSame (hfound (h.value_fullySimplify he threshold)), Logged.value_bind,
    value_addIfFew_of_hasSame (hfound (h.value_partialStrategy he threshold)),
    value_addIfFew_of_hasSame (hfound (h.value_alternativeStrategy he threshold))]

/-- The only form is prepared for differentiation. -/
theorem value_prepareForDifferentiation :
    e.prepareForDifferentiation.value threshold = .ok final := by
  obtain ⟨form, hform, hprepared⟩ := exists_value_prepareForDifferentiation e threshold
  rw [h.value_distinctForms he, List.mem_singleton] at hform
  rw [hprepared, hform]

end Rests

end Expr

end SymbolicForms
