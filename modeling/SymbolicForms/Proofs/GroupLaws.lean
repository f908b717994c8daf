import SymbolicForms.Proofs.CanonicalMeaning
import SymbolicForms.Proofs.ExponentMaps

/-!
# Group laws of terms

Up to the order of their functions, terms with integer exponents form a group
under multiplication, and one in which a term without factors kept whole commutes
with all others. Exponents that cancel are forgotten and come back at another
place, so the terms on the two sides of a law may differ in the order of their
functions. They have the same coefficient, the same exponents and the same
factors kept whole, and such terms are similar.
-/

namespace SymbolicForms

namespace Term

variable {rules : Exactness}

/-- Two terms have one coefficient and are similar. -/
def Agrees (t other : Term (Exact rules)) : Prop :=
  t.coefficient = other.coefficient ∧ t.similar other = true ∧ other.similar t = true

section Over

variable (v : Vocabulary rules)

/-- The exponents of a term and the arguments of its functions are over the numbers of a
vocabulary. -/
structure Over (t : Term (Exact rules)) : Prop where
  /-- The exponents of the variables are numbers of the vocabulary. -/
  variablePowers : t.variablePowers.Over v
  /-- The functions and their exponents are over the numbers of the vocabulary. -/
  functionPowers : t.functionPowers.Over v

variable {v}

/-- A product of terms is over their vocabulary. -/
theorem Over.multiply {t other : Term (Exact rules)} (h : t.Over v) (ho : other.Over v) :
    (t.multiply other).Over v :=
  ⟨h.variablePowers.merge ho.variablePowers, h.functionPowers.merge ho.functionPowers⟩

/-- A quotient of terms is over their vocabulary. -/
theorem Over.divide {t divisor : Term (Exact rules)} (h : t.Over v) (hd : divisor.Over v) :
    (t.divide divisor).Over v :=
  ⟨h.variablePowers.remove hd.variablePowers, h.functionPowers.remove hd.functionPowers⟩

/-- Multiplication adds the exponents. -/
theorem Over.exponentMap_multiply {t other : Term (Exact rules)} (h : t.Over v)
    (ho : other.Over v) :
    (t.multiply other).variablePowers.exponentMap =
        t.variablePowers.exponentMap + other.variablePowers.exponentMap ∧
      (t.multiply other).functionPowers.exponentMap =
        t.functionPowers.exponentMap + other.functionPowers.exponentMap :=
  ⟨h.variablePowers.exponentMap_merge ho.variablePowers,
    h.functionPowers.exponentMap_merge ho.functionPowers⟩

/-- Division subtracts the exponents. -/
theorem Over.exponentMap_divide {t divisor : Term (Exact rules)} (h : t.Over v)
    (hd : divisor.Over v) :
    (t.divide divisor).variablePowers.exponentMap =
        t.variablePowers.exponentMap - divisor.variablePowers.exponentMap ∧
      (t.divide divisor).functionPowers.exponentMap =
        t.functionPowers.exponentMap - divisor.functionPowers.exponentMap :=
  ⟨h.variablePowers.exponentMap_remove hd.variablePowers,
    h.functionPowers.exponentMap_remove hd.functionPowers⟩

/-- Terms with one coefficient, the same exponents and the same factors kept whole agree. -/
theorem Over.agrees {t other : Term (Exact rules)} (h : t.Over v) (ho : other.Over v)
    (hcoefficient : t.coefficient = other.coefficient)
    (hvariables : t.variablePowers.exponentMap = other.variablePowers.exponentMap)
    (hfunctions : t.functionPowers.exponentMap = other.functionPowers.exponentMap)
    (hnested : t.nested = other.nested) : t.Agrees other := by
  have hsimilar {t other : Term (Exact rules)} (h : t.Over v) (ho : other.Over v)
      (hvariables : t.variablePowers.exponentMap = other.variablePowers.exponentMap)
      (hfunctions : t.functionPowers.exponentMap = other.functionPowers.exponentMap)
      (hnested : t.nested = other.nested) : t.similar other = true := by
    refine similar_iff_forall₂.mpr ⟨?_, ?_, ?_⟩
    · exact (h.variablePowers.same_iff_eq ho.variablePowers).mpr
        (h.variablePowers.eq_of_exponentMap_eq ho.variablePowers hvariables)
    · exact (h.functionPowers.same_iff_perm ho.functionPowers).mpr
        (h.functionPowers.perm_of_exponentMap_eq ho.functionPowers hfunctions)
    · rw [hnested]
      exact List.forall₂_same.mpr fun e _ => e.same_self
  exact ⟨hcoefficient, hsimilar h ho hvariables hfunctions hnested,
    hsimilar ho h hvariables.symm hfunctions.symm hnested.symm⟩

/-- The order of multiplications does not matter. -/
theorem Over.multiply_assoc {a b c : Term (Exact rules)} (ha : a.Over v) (hb : b.Over v)
    (hc : c.Over v) : ((a.multiply b).multiply c).Agrees (a.multiply (b.multiply c)) := by
  have hab := ha.exponentMap_multiply hb
  have hbc := hb.exponentMap_multiply hc
  have hleft := (ha.multiply hb).exponentMap_multiply hc
  have hright := ha.exponentMap_multiply (hb.multiply hc)
  refine ((ha.multiply hb).multiply hc).agrees (ha.multiply (hb.multiply hc))
    (mul_assoc _ _ _) ?_ ?_ (List.append_assoc _ _ _)
  · rw [hleft.1, hright.1, hab.1, hbc.1, add_assoc]
  · rw [hleft.2, hright.2, hab.2, hbc.2, add_assoc]

/-- A term without factors kept whole commutes with all terms. -/
theorem Over.multiply_comm {a b : Term (Exact rules)} (ha : a.Over v) (hb : b.Over v)
    (hnested : a.nested = [] ∨ b.nested = []) : (a.multiply b).Agrees (b.multiply a) := by
  have hab := ha.exponentMap_multiply hb
  have hba := hb.exponentMap_multiply ha
  refine (ha.multiply hb).agrees (hb.multiply ha) (mul_comm _ _) ?_ ?_ ?_
  · rw [hab.1, hba.1, add_comm]
  · rw [hab.2, hba.2, add_comm]
  · change a.nested ++ b.nested = b.nested ++ a.nested
    obtain hnone | hnone := hnested <;> rw [hnone, List.append_nil, List.nil_append]

/-- Division undoes multiplication by a term without factors kept whole. -/
theorem Over.divide_multiply {a b : Term (Exact rules)} (ha : a.Over v) (hb : b.Over v)
    (hne : b.coefficient ≠ 0) (hnested : b.nested = []) :
    ((a.multiply b).divide b).Agrees a := by
  have hab := ha.exponentMap_multiply hb
  have hquotient := (ha.multiply hb).exponentMap_divide hb
  refine ((ha.multiply hb).divide hb).agrees ha (mul_div_cancel_right₀ _ hne) ?_ ?_ ?_
  · rw [hquotient.1, hab.1, add_sub_cancel_right]
  · rw [hquotient.2, hab.2, add_sub_cancel_right]
  · change a.nested ++ b.nested = a.nested
    rw [hnested, List.append_nil]

/-- Multiplication undoes division by a term without factors kept whole. -/
theorem Over.multiply_divide {a b : Term (Exact rules)} (ha : a.Over v) (hb : b.Over v)
    (hne : b.coefficient ≠ 0) (hnested : b.nested = []) :
    ((a.divide b).multiply b).Agrees a := by
  have hquotient := ha.exponentMap_divide hb
  have hproduct := (ha.divide hb).exponentMap_multiply hb
  refine ((ha.divide hb).multiply hb).agrees ha (div_mul_cancel₀ _ hne) ?_ ?_ ?_
  · rw [hproduct.1, hquotient.1, sub_add_cancel]
  · rw [hproduct.2, hquotient.2, sub_add_cancel]
  · change a.nested ++ b.nested = a.nested
    rw [hnested, List.append_nil]

end Over

/-- A reduced term with integer exponents and integers in the arguments of its functions. -/
structure IntegerPowers (t : Term (Exact rules)) : Prop extends t.Reduced where
  /-- The exponents of the variables are integers. -/
  variableExponents : ∀ entry ∈ t.variablePowers.entries, ∃ n : ℤ, entry.2 = n
  /-- The numbers in the arguments of the functions and the exponents of the functions are
  integers. -/
  functionExponents : ∀ entry ∈ t.functionPowers.entries,
    entry.1.argument.Over (.integers fun _ => True) ∧ ∃ n : ℤ, entry.2 = n

/-- Reduced terms with integer exponents are the terms over the integers. -/
theorem integerPowers_iff_over {t : Term (Exact rules)} :
    t.IntegerPowers ↔ t.Over (.integers fun _ => True) := by
  have hnumbers {value : Exact rules} :
      value ∈ (Vocabulary.integers fun _ => True : Vocabulary rules).numbers ↔
        ∃ n : ℤ, value = n := exists_congr fun _ => eq_comm
  have hzero : Scalar.vanishes (0 : Exact rules) = true := by
    rw [Scalar.vanishes, Exact.zero_eq, Exact.near_self]
  have hne {value : Exact rules} (hv : Scalar.vanishes value = false) : value ≠ 0 := by
    rintro rfl
    rw [hzero] at hv
    cases hv
  constructor
  · intro h
    refine ⟨fun entry hentry => ⟨hnumbers.mpr (h.variableExponents entry hentry),
      hne (h.variablePowers entry hentry)⟩, fun entry hentry => ?_, ?_⟩
    · obtain ⟨hargument, hinteger⟩ := h.functionExponents entry hentry
      exact ⟨hargument, hnumbers.mpr hinteger,
        hne (h.functionPowers.vanishes_eq_false entry hentry)⟩
    · exact h.functionPowers.distinct
  · intro h
    exact ⟨⟨h.variablePowers.reduced, h.functionPowers.reduced⟩,
      fun entry hentry => hnumbers.mp (h.variablePowers entry hentry).1,
      fun entry hentry => ⟨(h.functionPowers.entries entry hentry).1,
        hnumbers.mp (h.functionPowers.entries entry hentry).2.1⟩⟩

/-- Up to the order of functions, terms with integer exponents form a group: products and quotients
have integer exponents, multiplication is associative, the number one changes nothing, and
multiplication and division by a term that is not zero and keeps nothing whole undo each other. Two
terms commute when one of them keeps nothing whole. -/
theorem group_laws {a b c : Term (Exact rules)} (ha : a.IntegerPowers) (hb : b.IntegerPowers)
    (hc : c.IntegerPowers) (hne : b.coefficient ≠ 0) :
    ((a.multiply b).IntegerPowers ∧ (a.divide b).IntegerPowers) ∧
      ((a.multiply b).multiply c).Agrees (a.multiply (b.multiply c)) ∧
      ((a.multiply (constant 1)).Agrees a ∧ ((constant 1).multiply a).Agrees a) ∧
      (a.nested = [] ∨ b.nested = [] → (a.multiply b).Agrees (b.multiply a)) ∧
      (b.nested = [] →
        ((a.multiply b).divide b).Agrees a ∧ ((a.divide b).multiply b).Agrees a) := by
  rw [integerPowers_iff_over] at ha hb hc
  have hself : a.Agrees a := ha.agrees ha rfl rfl rfl rfl
  have hone : (constant 1 : Term (Exact rules)) = unit := by rw [unit, Exact.one_eq]
  have hreduced : a.Reduced := ⟨ha.variablePowers.reduced, ha.functionPowers.reduced⟩
  refine ⟨⟨integerPowers_iff_over.mpr (ha.multiply hb), integerPowers_iff_over.mpr (ha.divide hb)⟩,
    ha.multiply_assoc hb hc, ?_, ha.multiply_comm hb, fun hnested =>
      ⟨ha.divide_multiply hb hne hnested, ha.multiply_divide hb hne hnested⟩⟩
  rw [hone, multiply_unit, hreduced.unit_multiply]
  exact ⟨hself, hself⟩

/-- The term `2 * x^2 * sin(x) * cos(1)^-1 * (x + y)`. -/
def withSum : Term (Exact .standard) where
  coefficient := Scalar.ofInt 2
  variablePowers := .ofList [("x", Scalar.ofInt 2)]
  functionPowers := ⟨[(⟨"sin", .var "x"⟩, 1), (⟨"cos", .int 1⟩, -1)]⟩
  nested := [.add (.var "x") (.var "y")]

/-- The term `3/4 * x^-2 * y * cos(1) * sin(x)^-1`, in which all powers of `withSum` cancel. -/
def cancelling : Term (Exact .standard) where
  coefficient := Scalar.ofInt 3 / Scalar.ofInt 4
  variablePowers := .ofList [("x", Scalar.ofInt (-2)), ("y", 1)]
  functionPowers := ⟨[(⟨"cos", .int 1⟩, 1), (⟨"sin", .var "x"⟩, -1)]⟩
  nested := []

theorem group_laws_withSum_cancelling :
    withSum.IntegerPowers ∧ cancelling.IntegerPowers ∧ cancelling.coefficient ≠ 0 ∧
      (withSum.multiply cancelling).functionPowers.entries = [] ∧
      ((withSum.multiply cancelling).divide cancelling).functionPowers.entries ≠
        withSum.functionPowers.entries ∧
      ((withSum.multiply cancelling).divide cancelling).Agrees withSum ∧
      ((withSum.divide cancelling).multiply cancelling).Agrees withSum ∧
      (withSum.multiply cancelling).Agrees (cancelling.multiply withSum) ∧
      ((withSum.multiply cancelling).multiply withSum).Agrees
        (withSum.multiply (cancelling.multiply withSum)) := by
  have hinteger (n : ℤ) : (n : Exact .standard) ∈
      (Vocabulary.integers fun _ => True : Vocabulary .standard).numbers := ⟨n, rfl⟩
  have hfirst : withSum.IntegerPowers := by
    refine integerPowers_iff_over.mpr ⟨?_, ⟨?_, by decide +kernel⟩⟩
    · exact VariablePowers.over_ofList (List.pairwise_singleton _ _)
        (List.forall_mem_singleton.mpr ⟨hinteger 2, by decide +kernel⟩)
    · simp only [withSum, List.forall_mem_cons]
      exact ⟨⟨trivial, hinteger 1, by decide +kernel⟩,
        ⟨hinteger 1, hinteger (-1), by decide +kernel⟩, List.forall_mem_nil _⟩
  have hsecond : cancelling.IntegerPowers := by
    refine integerPowers_iff_over.mpr ⟨?_, ⟨?_, by decide +kernel⟩⟩
    · refine VariablePowers.over_ofList (by decide +kernel) (List.forall_mem_cons.mpr
        ⟨⟨hinteger (-2), by decide +kernel⟩, List.forall_mem_singleton.mpr ?_⟩)
      exact ⟨hinteger 1, by decide +kernel⟩
    · simp only [cancelling, List.forall_mem_cons]
      exact ⟨⟨hinteger 1, hinteger 1, by decide +kernel⟩,
        ⟨trivial, hinteger (-1), by decide +kernel⟩, List.forall_mem_nil _⟩
  have hne : cancelling.coefficient ≠ 0 := by decide +kernel
  obtain ⟨-, hassoc, -, hcomm, hinverse⟩ := group_laws hfirst hsecond hfirst hne
  obtain ⟨hquotient, hproduct⟩ := hinverse rfl
  exact ⟨hfirst, hsecond, hne, by decide +kernel, by decide +kernel, hquotient, hproduct,
    hcomm (Or.inr rfl), hassoc⟩

end Term

end SymbolicForms
