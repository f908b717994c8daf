import SymbolicForms.Proofs.FieldMeaning
import SymbolicForms.Cleanup
import SymbolicForms.Settling

/-!
# Meaning of passes

A pass is sound for a vocabulary and an interpretation when it does not lead out
of the vocabulary and keeps the values of expressions. Sound passes may be
applied one after another and repeated until nothing changes. A rule that joins
two operands makes a sound pass from the leaves to the root when it gives the
operator between them its value. The four cleanup passes are of this kind.
-/

namespace SymbolicForms

/-- What every round keeps is kept until nothing changes. -/
theorem Expr.settle_of_invariant {K : Type} [Scalar K] (invariant : Expr K → Prop)
    {round : Expr K → Expr K} (hround : ∀ e, invariant e → invariant (round e)) (limit : ℕ)
    {e : Expr K} (he : invariant e) : invariant (settle round limit e) := by
  induction limit generalizing e with
  | zero => exact he
  | succ limit ih =>
    have hnext := hround e he
    rw [settle]
    split
    · exact hnext
    · exact ih hnext

namespace Expr

variable {rules : Exactness} {R : Type*} [CommRing R]

/-- An expression of a vocabulary with a given value. -/
def HasValue (v : Vocabulary rules) (I : Interpretation rules R) (number : R)
    (e : Expr (Exact rules)) : Prop :=
  e.Within v ∧ e.value I = number

/-- A pass keeps expressions within a vocabulary and keeps their values. -/
structure Sound (v : Vocabulary rules) (I : Interpretation rules R)
    (pass : Expr (Exact rules) → Expr (Exact rules)) : Prop where
  /-- The result is within the vocabulary. -/
  within : ∀ ⦃e⦄, e.Within v → (pass e).Within v
  /-- The result has the value of the expression. -/
  value : ∀ ⦃e⦄, e.Within v → (pass e).value I = e.value I

/-- A rule for joining two operands keeps the vocabulary and the value of their operator. -/
def SoundJoin (v : Vocabulary rules) (I : Interpretation rules R)
    (join : Op → Expr (Exact rules) → Expr (Exact rules) → Expr (Exact rules)) : Prop :=
  ∀ op left right, (Expr.binary op left right).Within v →
    (join op left right).HasValue v I ((Expr.binary op left right).value I)

variable {v : Vocabulary rules} {I : Interpretation rules R}

/-- A pass is sound when every result has the value of its expression. -/
theorem sound_of_hasValue {pass : Expr (Exact rules) → Expr (Exact rules)}
    (h : ∀ e, e.Within v → (pass e).HasValue v I (e.value I)) : Sound v I pass :=
  ⟨fun e he => (h e he).1, fun e he => (h e he).2⟩

/-- A sound pass keeps the value that an expression has. -/
theorem Sound.hasValue {pass : Expr (Exact rules) → Expr (Exact rules)} (hs : Sound v I pass)
    {number : R} {e : Expr (Exact rules)} (h : e.HasValue v I number) :
    (pass e).HasValue v I number :=
  ⟨hs.within h.1, (hs.value h.1).trans h.2⟩

/-- Sound passes may be applied one after another. -/
theorem Sound.comp {first second : Expr (Exact rules) → Expr (Exact rules)}
    (hs : Sound v I second) (hf : Sound v I first) : Sound v I fun e => second (first e) :=
  sound_of_hasValue fun _ h => hs.hasValue (hf.hasValue ⟨h, rfl⟩)

/-- A sound pass may be repeated until nothing changes. -/
theorem Sound.settle {round : Expr (Exact rules) → Expr (Exact rules)} (hr : Sound v I round)
    (limit : ℕ) : Sound v I (Expr.settle round limit) :=
  sound_of_hasValue fun e h =>
    settle_of_invariant (HasValue v I (e.value I)) (fun _ hx => hr.hasValue hx) limit ⟨h, rfl⟩

/-- Rebuilding keeps the name of a function, and with it its exponents. -/
theorem hasExponent_rebuild
    (join : Op → Expr (Exact rules) → Expr (Exact rules) → Expr (Exact rules))
    {base : Expr (Exact rules)} {exponent : Exact rules} (he : v.HasExponent base exponent) :
    v.HasExponent (rebuild join base) exponent := by
  cases base with
  | func name argument => exact he
  | _ =>
    obtain ⟨n, rfl⟩ := he
    exact v.hasExponent_natCast _ n

/-- Where exponents are numbers, a rule that does not lead out of a vocabulary does not do so from
the leaves to the root. -/
theorem Within.rebuild (hv : ¬v.openPowers)
    {join : Op → Expr (Exact rules) → Expr (Exact rules) → Expr (Exact rules)}
    (hjoin : ∀ op left right, (Expr.binary op left right).Within v → (join op left right).Within v)
    {e : Expr (Exact rules)} (h : e.Within v) : (rebuild join e).Within v := by
  induction e with
  | const number => exact h
  | var name => exact h
  | func name argument ih => exact ⟨h.1, ih h.2⟩
  | binary op left right ihl ihr =>
    refine hjoin _ _ _ ?_
    cases op with
    | pow =>
      obtain ⟨exponent, rfl, he⟩ := exists_const_of_joins hv h.2.2
      exact (ihl h.1).pow (hasExponent_rebuild join he)
    | _ => exact ⟨ihl h.1, ihr h.2.1, trivial⟩

/-- Where exponents are numbers, joining operands by a sound rule from the leaves to the root is
sound. -/
theorem sound_rebuild (hv : ¬v.openPowers)
    {join : Op → Expr (Exact rules) → Expr (Exact rules) → Expr (Exact rules)}
    (hjoin : SoundJoin v I join) : Sound v I (rebuild join) := by
  have hwithin : ∀ e : Expr (Exact rules), e.Within v → (rebuild join e).Within v :=
    fun e h => h.rebuild hv fun op left right h => (hjoin op left right h).1
  refine ⟨fun e h => hwithin e h, fun e h => ?_⟩
  induction e with
  | const number => rfl
  | var name => rfl
  | func name argument ih => exact congrArg (I.functions name) (ih h.2)
  | binary op left right ihl ihr =>
    have hl := hwithin left h.1
    have hr := hwithin right h.2.1
    cases op with
    | pow =>
      obtain ⟨exponent, rfl, he⟩ := exists_const_of_joins hv h.2.2
      have hpow : (Expr.pow (rebuild join left) (.const exponent)).Within v :=
        hl.pow (hasExponent_rebuild join he)
      exact (hjoin _ _ _ hpow).2.trans (congrArg (I.numericPower · exponent) (ihl h.1))
    | add =>
      exact (hjoin .add _ _ ⟨hl, hr, trivial⟩).2.trans (congrArg₂ (· + ·) (ihl h.1) (ihr h.2.1))
    | sub =>
      exact (hjoin .sub _ _ ⟨hl, hr, trivial⟩).2.trans (congrArg₂ (· - ·) (ihl h.1) (ihr h.2.1))
    | mul =>
      exact (hjoin .mul _ _ ⟨hl, hr, trivial⟩).2.trans (congrArg₂ (· * ·) (ihl h.1) (ihr h.2.1))
    | div =>
      exact (hjoin .div _ _ ⟨hl, hr, trivial⟩).2.trans (congrArg₂ I.quotient (ihl h.1) (ihr h.2.1))

section Cleanup

variable (hI : I.Faithful v)
include hI

/-- Zeros in sums and products may be removed. -/
theorem soundJoin_removeZero : SoundJoin v I Op.removeZero := by
  intro op left right h
  cases op with
  | add =>
    rw [Op.removeZero]
    split
    · next hzero =>
      rw [(isZero_iff_eq h.1).mp hzero, value_add, value_int hI, Int.cast_zero, zero_add]
      exact ⟨h.2.1, rfl⟩
    split
    · next hzero =>
      rw [(isZero_iff_eq h.2.1).mp hzero, value_add, value_int hI, Int.cast_zero, add_zero]
      exact ⟨h.1, rfl⟩
    · exact ⟨h, rfl⟩
  | mul =>
    rw [Op.removeZero]
    split
    · next hzero =>
      refine ⟨within_int 0, ?_⟩
      rw [Bool.or_eq_true, isZero_iff_eq h.1, isZero_iff_eq h.2.1] at hzero
      rw [value_mul, value_int hI, Int.cast_zero]
      obtain rfl | rfl := hzero
      · rw [value_int hI, Int.cast_zero, zero_mul]
      · rw [value_int hI, Int.cast_zero, mul_zero]
    · exact ⟨h, rfl⟩
  | _ => exact ⟨h, rfl⟩

/-- Factors of one may be removed. -/
theorem soundJoin_removeOne : SoundJoin v I Op.removeOne := by
  intro op left right h
  cases op with
  | mul =>
    rw [Op.removeOne]
    split
    · next hone =>
      rw [(isOne_iff_eq h.1).mp hone, value_mul, value_int hI, Int.cast_one, one_mul]
      exact ⟨h.2.1, rfl⟩
    split
    · next hone =>
      rw [(isOne_iff_eq h.2.1).mp hone, value_mul, value_int hI, Int.cast_one, mul_one]
      exact ⟨h.1, rfl⟩
    · exact ⟨h, rfl⟩
  | _ => exact ⟨h, rfl⟩

/-- A power to an integer that is not negative is a power in the ring. -/
theorem value_pow_int (base : Expr (Exact rules)) (n : ℕ) :
    (Expr.pow base (.int n)).value I = base.value I ^ n := by
  rw [← hI.numericPower_natCast, ← Int.cast_natCast]
  rfl

/-- Powers to zero and one may be replaced. -/
theorem soundJoin_removePower : SoundJoin v I Op.removePower := by
  intro op left right h
  cases op with
  | pow =>
    rw [Op.removePower]
    split
    · next hzero =>
      have hpower := (value_pow_int hI left 0).trans (pow_zero _)
      rw [(isZero_iff_eq h.2.1).mp hzero]
      exact ⟨within_int 1, ((value_int hI 1).trans Int.cast_one).trans hpower.symm⟩
    split
    · next hone =>
      have hpower := (value_pow_int hI left 1).trans (pow_one _)
      rw [(isOne_iff_eq h.2.1).mp hone]
      exact ⟨h.1, hpower.symm⟩
    · exact ⟨h, rfl⟩
  | _ => exact ⟨h, rfl⟩

variable (hv : ¬v.openPowers)
include hv

theorem sound_removeZeros : Sound v I removeZeros := sound_rebuild hv (soundJoin_removeZero hI)

theorem sound_removeOnes : Sound v I removeOnes := sound_rebuild hv (soundJoin_removeOne hI)

theorem sound_simplifyPowers : Sound v I simplifyPowers :=
  sound_rebuild hv (soundJoin_removePower hI)

end Cleanup

section Fold

variable {F : Type*} [Field F] [CharZero F] {I : Interpretation rules F} (hI : I.OverField)
  (h : rules.margin = 0) (hpower : ∀ (base : F) (n : ℕ), I.power base n = base ^ n)
include hI hpower

/-- Operators between numbers may be evaluated. -/
theorem soundJoin_foldNumbers : SoundJoin (.rationals h) I Op.foldNumbers := by
  have hfaithful := hI.faithful h hpower
  intro op left right hw
  unfold Op.foldNumbers
  split
  · next first second =>
    split
    · refine ⟨trivial, ?_⟩
      cases op with
      | add => exact hI.number_add first second
      | sub => exact hI.number_sub first second
      | mul => exact hI.number_mul first second
      | div => exact (hI.number_div first second).trans (hI.quotient_eq _ _).symm
      | pow =>
        obtain ⟨n, rfl⟩ := hw.2.2
        have hvalue : Op.pow.apply first (n : Exact rules) = first ^ n :=
          Exact.power_natCast first n
        rw [value_pow_const, hfaithful.numericPower_natCast, hvalue]
        exact hfaithful.number_pow trivial n
    · exact ⟨hw, rfl⟩
  · exact ⟨hw, rfl⟩

theorem sound_foldConstants : Sound (.rationals h) I foldConstants :=
  sound_rebuild not_false (soundJoin_foldNumbers hI h hpower)

end Fold

end Expr

end SymbolicForms
