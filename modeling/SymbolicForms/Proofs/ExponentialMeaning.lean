import SymbolicForms.Proofs.FactorMeaning
import SymbolicForms.ExponentialCancellation

/-!
# Meaning of cancelled exponentials

Erasing a function from a table of powers divides by its power, and giving it an
exponent multiplies by that power. When one exponential is cancelled, its smaller
exponent is taken from both sides of the quotient. Its power is not zero, because
exponentials are not, and so the quotient of the two tables stays the same in any
field. The tolerance plays no part, since exponents are whole numbers.
-/

namespace SymbolicForms

namespace FunctionPowers

variable {rules : Exactness} {v : Vocabulary rules}

/-- Forgetting a function twice is forgetting it once. -/
theorem erase_erase {K : Type} [Scalar K] (powers : FunctionPowers K) (function : FunctionKey K) :
    (powers.erase function).erase function = powers.erase function := by
  simp [erase, List.filter_filter]

section Ring

variable {R : Type*} [CommRing R] {I : Interpretation rules R} (hI : I.Faithful v)
include hI

/-- A table is the power of one function times the others. -/
theorem value_eq_mul_erase {powers : FunctionPowers (Exact rules)} (h : powers.Within v)
    {function : FunctionKey (Exact rules)} (hf : function.toExpr.Within v) :
    powers.value I =
      powerValue I function ((powers.get? function).getD 0) * (powers.erase function).value I := by
  obtain ⟨before, after, hentries, herase, -, -, -⟩ := h.over.exists_split hf.over
  rw [value, value, hentries, herase]
  simp only [List.map_append, List.prod_append]
  cases powers.get? function with
  | none =>
    rw [Option.getD_none, powerValue_zero hI, one_mul]
    exact congrArg (· * _) (mul_one _)
  | some exponent =>
    simp only [Option.map_some, Option.toList_some, List.map_cons, List.map_nil,
      List.prod_singleton, Option.getD_some]
    rw [mul_comm _ (powerValue I function exponent), mul_assoc]

/-- Giving a function an exponent multiplies the others by its power. -/
theorem value_set (powers : FunctionPowers (Exact rules)) (function : FunctionKey (Exact rules))
    {exponent : Exact rules} (he : exponent ∈ v.numbers) :
    (powers.set function exponent).value I =
      powerValue I function exponent * (powers.erase function).value I := by
  unfold set
  dsimp only
  split
  · rw [value, List.map_append, List.prod_append, List.map_singleton, List.prod_singleton, mul_comm]
    rfl
  · next hnear =>
    have hzero : exponent = 0 := by
      rwa [Exact.apart_eq, Bool.not_eq_true', Bool.not_eq_false, Exact.zero_eq,
        v.near_iff he v.numbers.zero_mem] at hnear
    rw [hzero, powerValue_zero hI, one_mul]

end Ring

variable {F : Type*} [Field F] {I : Interpretation rules F} (hI : I.Faithful v)
include hI

/-- Powers of a function that is not zero are not zero. -/
theorem powerValue_ne_zero {function : FunctionKey (Exact rules)}
    (hne : function.toExpr.value I ≠ 0) {exponent : Exact rules}
    (he : v.FunctionExponent function.name exponent) : powerValue I function exponent ≠ 0 := by
  obtain ⟨n, rfl, hn⟩ := he
  rcases hn with hn | hsigned
  · lift n to ℕ using hn
    rw [powerValue, Int.cast_natCast, hI.numericPower_natCast]
    exact pow_ne_zero n hne
  · have hmem (n : ℤ) : v.FunctionExponent function.name (n : Exact rules) :=
      ⟨n, rfl, Or.inr hsigned⟩
    have hproduct := powerValue_add hI (hmem n) (hmem (-n))
    rw [Int.cast_neg, add_neg_cancel, powerValue_zero hI] at hproduct
    exact left_ne_zero_of_mul (hproduct ▸ one_ne_zero)

end FunctionPowers

namespace ExponentialSides

variable {rules : Exactness}

/-- The side that has more of an exponential keeps the difference of two integer exponents. -/
theorem cancel_cases_intCast {sides : ExponentialSides (Exact rules)}
    {function : FunctionKey (Exact rules)} {m n : ℤ}
    (ht : sides.top.get function Scalar.zero = m)
    (hb : sides.bottom.get function Scalar.zero = n) :
    (n < m ∧ sides.cancel function =
      ⟨(sides.top.erase function).set function (m - n : ℤ), sides.bottom.erase function⟩) ∨
    (m < n ∧ sides.cancel function =
      ⟨sides.top.erase function, (sides.bottom.erase function).set function (n - m : ℤ)⟩) ∨
    m = n ∧ sides.cancel function = ⟨sides.top.erase function, sides.bottom.erase function⟩ := by
  have hmore : Scalar.lt Scalar.tolerance (m - n : Exact rules) = true ↔ n < m := by
    rw [Exact.lt_iff, Exact.tolerance_eq, ← Int.cast_sub, Exact.tolerance_lt_intCast, sub_pos]
  have hless : Scalar.lt (m - n : Exact rules) (-Scalar.tolerance) = true ↔ m < n := by
    rw [Exact.lt_iff, Exact.tolerance_eq, lt_neg, ← Int.cast_sub, ← Int.cast_neg,
      Exact.tolerance_lt_intCast, neg_sub, sub_pos]
  unfold cancel
  dsimp only
  rw [ht, hb]
  obtain hlt | heq | hlt := lt_trichotomy m n
  · rw [if_neg (mt hmore.mp hlt.asymm), if_pos (hless.mpr hlt), neg_sub, ← Int.cast_sub]
    exact Or.inr (Or.inl ⟨hlt, rfl⟩)
  · rw [if_neg (mt hmore.mp heq.not_gt), if_neg (mt hless.mp heq.not_lt)]
    exact Or.inr (Or.inr ⟨heq, rfl⟩)
  · rw [if_pos (hmore.mpr hlt), ← Int.cast_sub]
    exact Or.inl ⟨hlt, rfl⟩

variable (v : Vocabulary rules)

/-- Both sides have powers of a vocabulary. -/
structure Within (sides : ExponentialSides (Exact rules)) : Prop where
  /-- The powers in the numerator. -/
  top : sides.top.Within v
  /-- The powers in the denominator. -/
  bottom : sides.bottom.Within v

variable {v} {F : Type*} [Field F]

/-- The quotient of both sides. -/
def value (I : Interpretation rules F) (sides : ExponentialSides (Exact rules)) : F :=
  sides.top.value I / sides.bottom.value I

variable {I : Interpretation rules F} (hI : I.Faithful v)
include hI

/-- Cancelling a function that is not zero keeps the quotient. -/
theorem cancel_spec {sides : ExponentialSides (Exact rules)} (h : sides.Within v)
    {function : FunctionKey (Exact rules)} (hf : function.toExpr.Within v)
    (hne : function.toExpr.value I ≠ 0) :
    (sides.cancel function).Within v ∧ (sides.cancel function).value I = sides.value I := by
  have htop := FunctionPowers.value_eq_mul_erase hI h.top hf
  have hbottom := FunctionPowers.value_eq_mul_erase hI h.bottom hf
  have hexponentTop := h.top.functionExponent_get hf
  have hexponentBottom := h.bottom.functionExponent_get hf
  obtain ⟨m, hm, -⟩ := id hexponentTop
  obtain ⟨n, hn, -⟩ := id hexponentBottom
  rw [hm] at htop hexponentTop
  rw [hn] at hbottom hexponentBottom
  have herasedTop := h.top.erase function
  have herasedBottom := h.bottom.erase function
  have hpowerTop := FunctionPowers.powerValue_ne_zero hI hne hexponentTop
  have hpowerBottom := FunctionPowers.powerValue_ne_zero hI hne hexponentBottom
  have hsurplus {k l : ℤ} (hkl : k < l) :
      v.FunctionExponent function.name ((l - k : ℤ) : Exact rules) :=
    ⟨l - k, rfl, Or.inl (sub_nonneg.mpr hkl.le)⟩
  have hgetTop : sides.top.get function Scalar.zero = m := by
    rw [FunctionPowers.get, Exact.zero_eq, hm]
  have hgetBottom : sides.bottom.get function Scalar.zero = n := by
    rw [FunctionPowers.get, Exact.zero_eq, hn]
  obtain ⟨hmore, heq⟩ | ⟨hmore, heq⟩ | ⟨rfl, heq⟩ := cancel_cases_intCast hgetTop hgetBottom <;>
    rw [heq, value, value, htop, hbottom]
  · have hexponent := hsurplus hmore
    have hpower := FunctionPowers.powerValue_add hI hexponentBottom hexponent
    rw [← Int.cast_add, add_sub_cancel] at hpower
    refine ⟨⟨herasedTop.set hf hexponent, herasedBottom⟩, ?_⟩
    rw [FunctionPowers.value_set hI _ _ (hexponent.mem v), FunctionPowers.erase_erase, hpower,
      mul_assoc, mul_div_mul_left _ _ hpowerBottom]
  · have hexponent := hsurplus hmore
    have hpower := FunctionPowers.powerValue_add hI hexponentTop hexponent
    rw [← Int.cast_add, add_sub_cancel] at hpower
    refine ⟨⟨herasedTop, herasedBottom.set hf hexponent⟩, ?_⟩
    rw [FunctionPowers.value_set hI _ _ (hexponent.mem v), FunctionPowers.erase_erase, hpower,
      mul_assoc, mul_div_mul_left _ _ hpowerTop]
  · exact ⟨⟨herasedTop, herasedBottom⟩, (mul_div_mul_left _ _ hpowerBottom).symm⟩

/-- Functions that are not zero may be cancelled one after another. -/
theorem foldl_cancel_spec {sides : ExponentialSides (Exact rules)} (h : sides.Within v)
    {functions : List (FunctionKey (Exact rules))}
    (hf : ∀ function ∈ functions, function.toExpr.Within v ∧ function.toExpr.value I ≠ 0) :
    (functions.foldl cancel sides).Within v ∧
      (functions.foldl cancel sides).value I = sides.value I := by
  induction functions generalizing sides with
  | nil => exact ⟨h, rfl⟩
  | cons function rest ih =>
    obtain ⟨⟨hfunction, hne⟩, hrest⟩ := List.forall_mem_cons.mp hf
    obtain ⟨hwithin, hvalue⟩ := cancel_spec hI h hfunction hne
    obtain ⟨hlast, hlastValue⟩ := ih hwithin hrest
    exact ⟨hlast, hlastValue.trans hvalue⟩

end ExponentialSides

namespace Expr

variable {rules : Exactness} {v : Vocabulary rules}

/-- The functions that both sides of a quotient share are exponentials of its vocabulary. -/
theorem exponential_of_mem_common {top bottom : Expr (Exact rules)} (ht : top.Within v)
    {function : FunctionKey (Exact rules)}
    (hmem : function ∈
      (ExponentialSides.mk top.splitExponentials.powers bottom.splitExponentials.powers).common) :
    function.toExpr.Within v ∧ function.name = exponentialName := by
  have hfactors : ∀ factor ∈ top.factors, factor.Within v := fun factor hf => ht.of_mem_factors hf
  have hwithin := (PowerSplit.within_ofFactors (· == exponentialName) hfactors).1
  exact ExponentialSides.forall_mem_common
    (P := fun function => function.toExpr.Within v ∧ function.name = exponentialName)
    (fun entry hentry => ⟨(hwithin.entries entry hentry).1, name_of_mem_split hentry⟩)
    function hmem

variable {F : Type*} [Field F] {I : Interpretation rules F} (hI : I.Faithful v)
  (hquotient : ∀ left right, I.quotient left right = left / right)
  (hexp : ∀ t, I.functions exponentialName t ≠ 0)
include hI hquotient hexp

/-- Cancelling the common exponentials of a quotient once keeps its value. -/
theorem hasValue_cancelExponentialsOnce? {e cancelled : Expr (Exact rules)} (h : e.Within v)
    (hc : e.cancelExponentialsOnce? = some cancelled) : cancelled.HasValue v I (e.value I) := by
  unfold cancelExponentialsOnce? at hc
  split at hc
  · next top bottom =>
    dsimp only at hc
    rw [Option.ite_none_left_eq_some, Option.some_inj] at hc
    obtain ⟨-, rfl⟩ := hc
    have htop : ∀ factor ∈ top.factors, factor.Within v := fun _ hf => h.1.of_mem_factors hf
    have hbottom : ∀ factor ∈ bottom.factors, factor.Within v :=
      fun _ hf => h.2.1.of_mem_factors hf
    obtain ⟨htopPowers, htopOthers⟩ := PowerSplit.within_ofFactors (· == exponentialName) htop
    obtain ⟨hbottomPowers, hbottomOthers⟩ :=
      PowerSplit.within_ofFactors (· == exponentialName) hbottom
    let sides : ExponentialSides (Exact rules) :=
      ⟨top.splitExponentials.powers, bottom.splitExponentials.powers⟩
    have hsides : sides.Within v := ⟨htopPowers, hbottomPowers⟩
    have hcommon : ∀ function ∈ sides.common,
        function.toExpr.Within v ∧ function.toExpr.value I ≠ 0 := by
      intro function hmem
      obtain ⟨hwithin, hname⟩ := exponential_of_mem_common h.1 hmem
      refine ⟨hwithin, ?_⟩
      rw [FunctionKey.toExpr, value, hname]
      exact hexp _
    obtain ⟨⟨hreducedTop, hreducedBottom⟩, hvalue⟩ :=
      ExponentialSides.foldl_cancel_spec hI hsides hcommon
    constructor
    · exact Within.div
        (within_product (PowerSplit.within_factors hreducedTop htopOthers))
        (within_product (PowerSplit.within_factors hreducedBottom hbottomOthers))
    · rw [value_div, value_div, hquotient, hquotient, value_product hI, value_product hI,
        PowerSplit.value_factors hI hreducedTop, PowerSplit.value_factors hI hreducedBottom,
        ← prod_value_factors top, ← prod_value_factors bottom,
        ← PowerSplit.value_ofFactors hI (· == exponentialName) htop,
        ← PowerSplit.value_ofFactors hI (· == exponentialName) hbottom, mul_div_mul_comm,
        mul_div_mul_comm]
      exact congrArg _ hvalue
  · cases hc

/-- Cancelling in rounds keeps the value. -/
theorem hasValue_cancelRounds? (limit : ℕ) {e cancelled : Expr (Exact rules)} (h : e.Within v)
    (hc : cancelRounds? limit e = some cancelled) : cancelled.HasValue v I (e.value I) := by
  induction limit generalizing e cancelled with
  | zero => cases hc
  | succ limit ih =>
    unfold cancelRounds? at hc
    split at hc
    · cases hc
    · next next hnext =>
      have honce := hasValue_cancelExponentialsOnce? hI hquotient hexp h hnext
      rw [Option.ite_none_left_eq_some, Option.some_inj] at hc
      obtain ⟨-, rfl⟩ := hc
      cases hlast : cancelRounds? limit next with
      | none => exact honce
      | some last =>
        have hrest := ih honce.1 hlast
        exact ⟨hrest.1, hrest.2.trans honce.2⟩

/-- Cancelling the common exponentials of a quotient keeps its value. -/
theorem hasValue_cancelExponentials? {e cancelled : Expr (Exact rules)} (h : e.Within v)
    (hc : e.cancelExponentials? = some cancelled) : cancelled.HasValue v I (e.value I) :=
  hasValue_cancelRounds? hI hquotient hexp cancellationLimit h hc

end Expr

end SymbolicForms
