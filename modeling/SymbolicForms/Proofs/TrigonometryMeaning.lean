import Mathlib.Analysis.SpecialFunctions.Pow.Real
import SymbolicForms.Proofs.PassMeaning
import SymbolicForms.Trigonometry

/-!
# Meaning of trigonometric identities

Without a margin, a pattern that matches says what its expression is worth: a
number times a product of sine and cosine of one angle, or a number times a
square. The three rules are then instances of the laws of sine and cosine, and
every sweep keeps the value at each operator from the leaves to the root. Powers
may mean anything here, except that an exponent of two stands for the square, so
all of this holds of every expression. Sine, cosine and the exponential of real
numbers are an instance.
-/

namespace SymbolicForms

/-- The laws of sine and cosine, and of the functions made from them. -/
structure TrigonometricLaws {F : Type*} [Field F] (functions : String → F → F) : Prop where
  sin_sq_add_cos_sq : ∀ t, functions "sin" t ^ 2 + functions "cos" t ^ 2 = 1
  sin_two_mul : ∀ t, functions "sin" (2 * t) = 2 * functions "sin" t * functions "cos" t
  cos_two_mul : ∀ t, functions "cos" (2 * t) = functions "cos" t ^ 2 - functions "sin" t ^ 2
  tan_eq : ∀ t, functions "tan" t = functions "sin" t / functions "cos" t
  cot_eq : ∀ t, functions "cot" t = functions "cos" t / functions "sin" t
  sec_eq : ∀ t, functions "sec" t = 1 / functions "cos" t
  csc_eq : ∀ t, functions "csc" t = 1 / functions "sin" t

namespace Expr

/-- A sweep rebuilds an expression by its rule. -/
theorem sweep_eq_rebuild {K : Type} [Scalar K] (rule : Expr K → Expr K) (e : Expr K) :
    sweep rule e = rebuild (fun op left right => rule (.binary op left right)) e := by
  induction e with
  | const value => rfl
  | var name => rfl
  | func name argument ih => rw [sweep, rebuild, ih]
  | binary op left right ihl ihr => rw [sweep, rebuild, ihl, ihr]

section Value

variable {rules : Exactness} {F : Type*} [Field F] [CharZero F] {I : Interpretation rules F}
  (hI : I.OverField)
include hI

/-- A rule that keeps values at the root keeps them in a sweep. -/
theorem value_sweep {rule : Expr (Exact rules) → Expr (Exact rules)}
    (hrule : ∀ e, (rule e).value I = e.value I) (e : Expr (Exact rules)) :
    (sweep rule e).value I = e.value I := by
  induction e with
  | const value => rfl
  | var name => rfl
  | func name argument ih => exact congrArg (I.functions name) ih
  | binary op left right ihl ihr =>
    rw [sweep, hrule]
    exact hI.value_binary_congr op ihl ihr

/-- The numbers of a list multiply the product of the other factors. -/
theorem value_numericFactor (factors : List (Expr (Exact rules))) :
    I.number (numericFactor factors) * ((otherFactors factors).map (value I)).prod =
      (factors.map (value I)).prod := by
  have folded (numbers : List (Exact rules)) (start : Exact rules) :
      I.number (numbers.foldl (· * ·) start) = I.number start * (numbers.map I.number).prod := by
    induction numbers generalizing start with
    | nil => exact (mul_one _).symm
    | cons number rest ih =>
      rw [List.foldl_cons, ih, hI.number_mul, List.map_cons, List.prod_cons, mul_assoc]
  rw [((perm_otherFactors factors).map (value I)).prod_eq, List.map_append, List.prod_append,
    List.map_map, numericFactor, folded, Exact.one_eq, hI.number_one, one_mul, mul_comm]
  rfl

variable (h : rules.margin = 0)
include h

/-- A finished run has the product of its numbers in front. -/
theorem prod_value_finishRun (total : Exact rules) (rest : List (Expr (Exact rules))) :
    ((finishRun total rest).map (value I)).prod = I.number total * (rest.map (value I)).prod := by
  unfold finishRun
  split
  · next hunit =>
    rw [(Exact.isUnit_iff_eq h total).mp hunit, hI.number_one, one_mul]
  · exact List.prod_cons

/-- Multiplying runs of numbers keeps the product of the factors. -/
theorem prod_value_mergeRuns (run : Option (Exact rules)) (factors : List (Expr (Exact rules))) :
    ((mergeRuns run factors).map (value I)).prod =
      I.number (run.getD 1) * (factors.map (value I)).prod := by
  induction factors generalizing run with
  | nil =>
    cases run with
    | none =>
      rw [Option.getD_none, hI.number_one, one_mul]
      rfl
    | some total => exact prod_value_finishRun hI h total []
  | cons factor rest ih =>
    cases factor with
    | const number =>
      have hstep : mergeRuns run (.const number :: rest) =
          mergeRuns (some (run.getD Scalar.one * number)) rest := by cases run <;> rfl
      rw [hstep, ih, Option.getD_some, Exact.one_eq, hI.number_mul, mul_assoc]
      rfl
    | _ =>
      cases run with
      | none =>
        simp only [mergeRuns, List.map_cons, List.prod_cons]
        rw [ih, Option.getD_none, hI.number_one, one_mul, one_mul]
      | some total =>
        simp only [mergeRuns]
        rw [prod_value_finishRun hI h, List.map_cons, List.prod_cons, ih, Option.getD_none,
          hI.number_one, one_mul]
        rfl

/-- Folding the numbers of a chain keeps its value. -/
theorem value_foldChain (e : Expr (Exact rules)) : e.foldChain.value I = e.value I := by
  unfold foldChain
  split
  · next left right =>
    dsimp only
    split
    · rfl
    · rw [hI.value_product, prod_value_mergeRuns hI h, Option.getD_none, hI.number_one, one_mul,
        prod_value_factors]
  · rfl

/-- Folding the numbers of the chains inside keeps the value. -/
theorem value_foldInside (e : Expr (Exact rules)) : e.foldInside.value I = e.value I := by
  have chain (e : Expr (Exact rules)) (ih : e.foldInside.value I = e.value I) :
      e.foldInside.foldChain.value I = e.value I := (value_foldChain hI h _).trans ih
  induction e with
  | const value => rfl
  | var name => rfl
  | func name argument ih => exact congrArg (I.functions name) (chain argument ih)
  | binary op left right ihl ihr =>
    cases op with
    | mul => exact congrArg₂ (· * ·) ihl ihr
    | add => exact hI.value_binary_congr .add (chain left ihl) (chain right ihr)
    | sub => exact hI.value_binary_congr .sub (chain left ihl) (chain right ihr)
    | div => exact hI.value_binary_congr .div (chain left ihl) (chain right ihr)
    | pow => exact hI.value_binary_congr .pow (chain left ihl) (chain right ihr)

/-- Folding the numbers of all chains keeps the value. -/
theorem value_foldNumericFactors (e : Expr (Exact rules)) :
    e.foldNumericFactors.value I = e.value I :=
  (value_foldChain hI h _).trans (value_foldInside hI h e)

/-- A product of numbers with one sine and one cosine has the value of the match. -/
theorem value_of_sineCosine? {e : Expr (Exact rules)} {found : AngleMatch (Exact rules)}
    (hfound : sineCosine? e = some found) :
    e.value I = I.number found.coefficient * (I.functions "sin" (found.angle.value I) *
      I.functions "cos" (found.angle.value I)) := by
  obtain ⟨angle, hothers, hsame, hcoefficient⟩ := mem_sineCosine?_iff.mp hfound
  obtain rfl := (same_iff_eq_of_margin h).mp hsame
  rw [hcoefficient, ← prod_value_factors, ← value_numericFactor hI]
  rcases hothers with heq | heq
  · simp [heq, value]
  · simp [heq, value, mul_comm (I.functions "sin" _)]

/-- A product of numbers with one square has the value of the match. -/
theorem value_of_square? (htwo : ∀ base, I.numericPower base 2 = base ^ 2) {function : String}
    {e : Expr (Exact rules)} {found : AngleMatch (Exact rules)}
    (hfound : square? function e = some found) :
    e.value I = I.number found.coefficient * I.functions function (found.angle.value I) ^ 2 := by
  obtain ⟨exponent, hothers, hnear, hcoefficient⟩ := mem_square?_iff.mp hfound
  obtain rfl := (Exact.near_iff_eq h _ _).mp hnear
  rw [hcoefficient, ← prod_value_factors, ← value_numericFactor hI, hothers, List.map_singleton,
    List.prod_singleton, value_pow_const, Exact.ofInt_eq, Int.cast_ofNat, htwo]
  rfl

/-- Two squares of a pair have one coefficient and one angle. -/
theorem value_of_squarePair? (htwo : ∀ base, I.numericPower base 2 = base ^ 2)
    {function other : String} {left right : Expr (Exact rules)} {found : AngleMatch (Exact rules)}
    (hfound : squarePair? function other left right = some found) :
    left.value I = I.number found.coefficient * I.functions function (found.angle.value I) ^ 2 ∧
      right.value I = I.number found.coefficient * I.functions other (found.angle.value I) ^ 2 := by
  unfold squarePair? at hfound
  split at hfound
  · next first second hfirst hsecond =>
    rw [Option.ite_none_right_eq_some, Option.some_inj, AngleMatch.agrees, Bool.and_eq_true,
      same_iff_eq_of_margin h, Exact.near_iff_eq h] at hfound
    obtain ⟨⟨hangle, hcoefficient⟩, rfl⟩ := hfound
    rw [hangle, hcoefficient]
    refine ⟨?_, value_of_square? hI h htwo hsecond⟩
    rw [← hangle, ← hcoefficient]
    exact value_of_square? hI h htwo hfirst
  · cases hfound

/-- A number times an expression has the product of the values. -/
theorem value_scaled (factor : Exact rules) (e : Expr (Exact rules)) :
    (scaled factor e).value I = I.number factor * e.value I := by
  unfold scaled
  split
  · next hunit =>
    rw [(Exact.isUnit_iff_eq h factor).mp hunit, hI.number_one, one_mul]
  · rfl

variable (hlaws : TrigonometricLaws I.functions)
  (htwo : ∀ base, I.numericPower base 2 = base ^ 2)
include hlaws htwo

/-- Introducing a double angle at the root keeps the value. -/
theorem value_doubleAngleRule (e : Expr (Exact rules)) :
    (doubleAngleRule e).value I = e.value I := by
  have hdouble (angle : Expr (Exact rules)) :
      (doubleAngle angle).value I = 2 * angle.value I := by
    rw [doubleAngle, value_mul, hI.value_int, Int.cast_ofNat]
  unfold doubleAngleRule
  split
  · next left right =>
    split
    · next found hfound =>
      have hhalf : I.number (Scalar.ofInt 2 : Exact rules) = 2 :=
        (hI.number_intCast 2).trans (Int.cast_ofNat 2)
      rw [value_of_sineCosine? hI h hfound, value_scaled hI h, hI.number_div, hhalf, value, hdouble,
        hlaws.sin_two_mul]
      field_simp
    · rfl
  · next left right =>
    split
    · next found hfound =>
      obtain ⟨hleft, hright⟩ := value_of_squarePair? hI h htwo hfound
      rw [value_scaled hI h, value, hdouble, hlaws.cos_two_mul, value_sub, hleft, hright, mul_sub]
    · rfl
  · rfl

/-- Replacing a sum of squares at the root keeps the value. -/
theorem value_pythagoreanRule (e : Expr (Exact rules)) :
    (pythagoreanRule e).value I = e.value I := by
  unfold pythagoreanRule
  split
  · next left right =>
    split
    · next found hfound =>
      obtain ⟨hleft, hright⟩ := value_of_squarePair? hI h htwo hfound
      rw [value_add, hleft, hright, ← mul_add, hlaws.sin_sq_add_cos_sq, mul_one]
      rfl
    · split
      · next found hfound =>
        obtain ⟨hleft, hright⟩ := value_of_squarePair? hI h htwo hfound
        rw [value_add, hleft, hright, ← mul_add, add_comm (I.functions "cos" _ ^ 2),
          hlaws.sin_sq_add_cos_sq, mul_one]
        rfl
      · rfl
  · rfl

omit htwo

/-- Replacing a quotient at the root keeps the value. -/
theorem value_quotientRule (e : Expr (Exact rules)) : (quotientRule e).value I = e.value I := by
  unfold quotientRule
  split
  · next name angle name' angle' =>
    rw [value_div, hI.quotient_eq]
    split
    · next hsine =>
      rw [Bool.and_eq_true, Bool.and_eq_true, beq_iff_eq, beq_iff_eq,
        same_iff_eq_of_margin h] at hsine
      obtain ⟨⟨rfl, rfl⟩, rfl⟩ := hsine
      exact hlaws.tan_eq _
    split
    · next hcosine =>
      rw [Bool.and_eq_true, Bool.and_eq_true, beq_iff_eq, beq_iff_eq,
        same_iff_eq_of_margin h] at hcosine
      obtain ⟨⟨rfl, rfl⟩, rfl⟩ := hcosine
      exact hlaws.cot_eq _
    · exact hI.quotient_eq _ _
  · next number name angle =>
    rw [value_div, hI.quotient_eq]
    split
    · next hcosine =>
      rw [Bool.and_eq_true, beq_iff_eq, Exact.isUnit_iff_eq h] at hcosine
      obtain ⟨rfl, rfl⟩ := hcosine
      rw [value, value, value, hI.number_one]
      exact hlaws.sec_eq _
    split
    · next hsine =>
      rw [Bool.and_eq_true, beq_iff_eq, Exact.isUnit_iff_eq h] at hsine
      obtain ⟨rfl, rfl⟩ := hsine
      rw [value, value, value, hI.number_one]
      exact hlaws.csc_eq _
    · exact hI.quotient_eq _ _
  · rfl

include htwo

/-- One round of all identities keeps the value. -/
theorem value_trigonometricRound (e : Expr (Exact rules)) :
    e.trigonometricRound.value I = e.value I := by
  rw [trigonometricRound, applyQuotients, value_sweep hI (value_quotientRule hI h hlaws),
    applyPythagorean, value_sweep hI (value_pythagoreanRule hI h hlaws htwo), applyDoubleAngle,
    value_sweep hI (value_doubleAngleRule hI h hlaws htwo)]

/-- The result of all identities has the value of the expression. -/
theorem value_trigonometricForm (e : Expr (Exact rules)) :
    e.trigonometricForm.value I = e.value I := by
  rw [trigonometricForm, value_foldNumericFactors hI h]
  refine settle_of_invariant (fun x => x.value I = e.value I) (fun x hx => ?_) roundLimit rfl
  rw [value_trigonometricRound hI h hlaws htwo, hx]

end Value

section Vocabulary

variable {rules : Exactness} {v : Vocabulary rules}

/-- Runs of numbers of a vocabulary are multiplied within it. -/
theorem within_mergeRuns {run : Option (Exact rules)} (hrun : ∀ total ∈ run, total ∈ v.numbers)
    {factors : List (Expr (Exact rules))} (hf : ∀ factor ∈ factors, factor.Within v) :
    ∀ factor ∈ mergeRuns run factors, factor.Within v :=
  forall_mem_mergeRuns (· ∈ v.numbers) (fun _ htotal => htotal)
    (Exact.one_eq ▸ v.numbers.one_mem) (fun _ _ => v.numbers.mul_mem) hrun hf

/-- Folding the numbers of a chain does not lead out of a vocabulary. -/
theorem Within.foldChain {e : Expr (Exact rules)} (h : e.Within v) : e.foldChain.Within v := by
  unfold Expr.foldChain
  split
  · dsimp only
    split
    · exact h
    · exact within_product (within_mergeRuns (by simp) fun factor hf => h.of_mem_factors hf)
  · exact h

/-- Folding the numbers of the chains inside does not lead out of a vocabulary. -/
theorem Within.foldInside (hv : ¬v.openPowers) {e : Expr (Exact rules)} (h : e.Within v) :
    e.foldInside.Within v := by
  induction e with
  | const value => exact h
  | var name => exact h
  | func name argument ih => exact ⟨h.1, (ih h.2).foldChain⟩
  | binary op left right ihl ihr =>
    cases op with
    | mul => exact ⟨ihl h.1, ihr h.2.1, trivial⟩
    | pow =>
      obtain ⟨exponent, rfl, he⟩ := exists_const_of_joins hv h.2.2
      refine (ihl h.1).foldChain.pow ?_
      cases left with
      | func name argument => exact he
      | _ =>
        obtain ⟨n, rfl⟩ := he
        exact v.hasExponent_natCast _ n
    | _ => exact ⟨(ihl h.1).foldChain, (ihr h.2.1).foldChain, trivial⟩

/-- The angle of a product of sine and cosine is within their vocabulary. -/
theorem within_of_sineCosine? {e : Expr (Exact rules)} (h : e.Within v)
    {found : AngleMatch (Exact rules)} (hfound : sineCosine? e = some found) :
    found.angle.Within v :=
  (h.of_mem_factors (sine_mem_factors hfound)).2

/-- The angle of a square is within the vocabulary of the square. -/
theorem within_of_square? {function : String} {e : Expr (Exact rules)} (h : e.Within v)
    {found : AngleMatch (Exact rules)} (hfound : square? function e = some found) :
    found.angle.Within v := by
  obtain ⟨exponent, hsquare⟩ := exists_square_mem_factors hfound
  exact (h.of_mem_factors hsquare).1.2

/-- The angle of a pair of squares is within their vocabulary. -/
theorem within_of_squarePair? {function other : String} {left right : Expr (Exact rules)}
    (h : left.Within v) {found : AngleMatch (Exact rules)}
    (hfound : squarePair? function other left right = some found) : found.angle.Within v := by
  unfold squarePair? at hfound
  split at hfound
  · next first second hfirst hsecond =>
    rw [Option.ite_none_right_eq_some, Option.some_inj] at hfound
    exact hfound.2 ▸ within_of_square? h hfirst
  · cases hfound

variable {h : rules.margin = 0}

/-- A function of a double angle with a number in front is within the vocabulary of the angle. -/
theorem within_scaled_doubleAngle (factor : Exact rules) (name : String)
    {angle : Expr (Exact rules)} (ha : angle.Within (.rationals h)) :
    (scaled factor (.func name (doubleAngle angle))).Within (.rationals h) := by
  have hfunction : (Expr.func name (doubleAngle angle)).Within (.rationals h) :=
    ⟨trivial, (within_int 2).mul ha⟩
  unfold scaled
  split
  · exact hfunction
  · exact Within.mul trivial hfunction

/-- Introducing double angles at the root adds only numbers and names. -/
theorem Within.doubleAngleRule {e : Expr (Exact rules)} (he : e.Within (.rationals h)) :
    (doubleAngleRule e).Within (.rationals h) := by
  unfold Expr.doubleAngleRule
  split
  · split
    · next found hfound => exact within_scaled_doubleAngle _ _ (within_of_sineCosine? he hfound)
    · exact he
  · split
    · next found hfound => exact within_scaled_doubleAngle _ _ (within_of_squarePair? he.1 hfound)
    · exact he
  · exact he

/-- Replacing a sum of squares at the root leaves a number. -/
theorem Within.pythagoreanRule {e : Expr (Exact rules)} (he : e.Within (.rationals h)) :
    (pythagoreanRule e).Within (.rationals h) := by
  unfold Expr.pythagoreanRule
  split
  · split
    · trivial
    split
    · trivial
    · exact he
  · exact he

/-- Replacing a quotient at the root adds only names. -/
theorem Within.quotientRule {e : Expr (Exact rules)} (he : e.Within (.rationals h)) :
    (quotientRule e).Within (.rationals h) := by
  unfold Expr.quotientRule
  split
  · split
    · exact he.1
    split
    · exact he.1
    · exact he
  · split
    · exact he.2.1
    split
    · exact he.2.1
    · exact he
  · exact he

/-- A sweep by a rule that adds only numbers and names adds only those. -/
theorem within_sweep {rule : Expr (Exact rules) → Expr (Exact rules)}
    (hrule : ∀ e, e.Within (.rationals h) → (rule e).Within (.rationals h))
    {e : Expr (Exact rules)} (he : e.Within (.rationals h)) :
    (sweep rule e).Within (.rationals h) := by
  rw [sweep_eq_rebuild]
  exact he.rebuild not_false fun op left right hw => hrule _ hw

/-- The result of all identities has exponents that are natural numbers if the expression has. -/
theorem Within.trigonometricForm {e : Expr (Exact rules)} (he : e.Within (.rationals h)) :
    e.trigonometricForm.Within (.rationals h) := by
  have hround (x : Expr (Exact rules)) (hx : x.Within (.rationals h)) :
      x.trigonometricRound.Within (.rationals h) := by
    have hdouble : x.applyDoubleAngle.Within (.rationals h) :=
      within_sweep (fun _ hw => hw.doubleAngleRule) hx
    have hsquares : x.applyDoubleAngle.applyPythagorean.Within (.rationals h) :=
      within_sweep (fun _ hw => hw.pythagoreanRule) hdouble
    exact within_sweep (fun _ hw => hw.quotientRule) hsquares
  have hsettled : (settle trigonometricRound roundLimit e).Within (.rationals h) :=
    settle_of_invariant _ hround roundLimit he
  exact (hsettled.foldInside not_false).foldChain

end Vocabulary

/-- All identities may be applied to expressions with natural exponents. -/
theorem sound_trigonometricForm {rules : Exactness} {h : rules.margin = 0} {F : Type*} [Field F]
    [CharZero F] {I : Interpretation rules F} (hI : I.OverField)
    (hpower : ∀ (base : F) (n : ℕ), I.power base n = base ^ n)
    (hlaws : TrigonometricLaws I.functions) :
    Sound (.rationals h) I trigonometricForm := by
  have htwo (base : F) : I.numericPower base 2 = base ^ 2 := by
    simpa only [Nat.cast_ofNat] using (hI.faithful h hpower).numericPower_natCast base 2
  exact ⟨fun e he => he.trigonometricForm, fun e _ => value_trigonometricForm hI h hlaws htwo e⟩

/-- Each of the identities, the folding of numeric factors and all of them together keep the value,
whatever functions without a law and powers other than squares may mean. -/
theorem value_trigonometricPasses {rules : Exactness} (h : rules.margin = 0) {F : Type*} [Field F]
    [CharZero F] (valuation : String → F) (functions : String → F → F)
    (hlaws : TrigonometricLaws functions) (power : F → F → F)
    (htwo : ∀ base, power base 2 = base ^ 2) (e : Expr (Exact rules)) (threshold : LogLevel) :
    let meaning : Interpretation rules F := .inField valuation functions power
    e.applyDoubleAngle.value meaning = e.value meaning ∧
      e.applyPythagorean.value meaning = e.value meaning ∧
        e.applyQuotients.value meaning = e.value meaning ∧
          e.foldNumericFactors.value meaning = e.value meaning ∧
            (e.simplifyTrigonometry.value threshold).value meaning = e.value meaning := by
  intro meaning
  have hI : meaning.OverField := Interpretation.overField_inField valuation functions power
  have hsquare (base : F) : meaning.numericPower base 2 = base ^ 2 := by
    rw [hI.numericPower_eq, hI.number_eq, map_ofNat]
    exact htwo base
  exact ⟨value_sweep hI (value_doubleAngleRule hI h hlaws hsquare) e,
    value_sweep hI (value_pythagoreanRule hI h hlaws hsquare) e,
    value_sweep hI (value_quotientRule hI h hlaws) e, value_foldNumericFactors hI h e,
    value_trigonometricForm hI h hlaws hsquare e⟩

/-- The functions of the names that occur in trigonometric identities, and the exponential; all
other names stand for the identity. -/
noncomputable def realFunctions : String → ℝ → ℝ
  | "sin" => Real.sin
  | "cos" => Real.cos
  | "tan" => fun t => Real.sin t / Real.cos t
  | "cot" => fun t => Real.cos t / Real.sin t
  | "sec" => fun t => 1 / Real.cos t
  | "csc" => fun t => 1 / Real.sin t
  | "exp" => Real.exp
  | _ => id

/-- The real functions follow the laws of sine and cosine. -/
theorem trigonometricLaws_realFunctions : TrigonometricLaws realFunctions where
  sin_sq_add_cos_sq := Real.sin_sq_add_cos_sq
  sin_two_mul := Real.sin_two_mul
  cos_two_mul := Real.cos_two_mul'
  tan_eq _ := rfl
  cot_eq _ := rfl
  sec_eq _ := rfl
  csc_eq _ := rfl

/-- The sum `3 * (sin(x) * (2 * cos(x))) + (sin(x)^2 + cos(x)^2)^y + sin(x) / cos(x)`. -/
def sumOfIdentities : Expr (Exact .strict) :=
  let sine : Expr (Exact .strict) := .func "sin" (.var "x")
  let cosine : Expr (Exact .strict) := .func "cos" (.var "x")
  .add (.add (.mul (.int 3) (.mul sine (.mul (.int 2) cosine)))
    (.pow (.add (.pow sine (.int 2)) (.pow cosine (.int 2))) (.var "y"))) (.div sine cosine)

theorem value_trigonometricPasses_sumOfIdentities :
    let meaning : Interpretation .strict ℝ := .inField (fun _ => 3) realFunctions (· ^ ·)
    sumOfIdentities.applyDoubleAngle.value meaning = sumOfIdentities.value meaning ∧
      sumOfIdentities.applyPythagorean.value meaning = sumOfIdentities.value meaning ∧
        sumOfIdentities.applyQuotients.value meaning = sumOfIdentities.value meaning ∧
          sumOfIdentities.foldNumericFactors.value meaning = sumOfIdentities.value meaning ∧
            (sumOfIdentities.simplifyTrigonometry.value .off).value meaning =
              sumOfIdentities.value meaning :=
  value_trigonometricPasses rfl _ realFunctions trigonometricLaws_realFunctions _ Real.rpow_two
    sumOfIdentities .off

end Expr

end SymbolicForms
