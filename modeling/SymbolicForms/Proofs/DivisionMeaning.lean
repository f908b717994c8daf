import SymbolicForms.Proofs.TermMeaning
import SymbolicForms.CommonFactor

/-!
# Division of terms

A term covers a divisor when its coefficient can be divided within the vocabulary
and no exponent of the divisor exceeds its own. The quotient of the two is then
within the vocabulary again, and it gives back the term when it is multiplied by
the divisor, whatever the values of the variables and functions are: nothing is
cancelled but exponents. Hence a factor that all terms cover can be written in
front of the sum of the quotients.
-/

namespace SymbolicForms

section Removal

variable {β K T R : Type*} [CommRing R]

/-- Entries with different keys are removed from a table one by one, if each of them can be removed
and this does not keep those of other keys from being removed. -/
theorem foldl_remove {remove : T → β × K → T} (valid : T → Prop) (covered : T → β × K → Prop)
    {value : T → R} {power : β × K → R}
    (hstep : ∀ table entry, valid table → covered table entry →
      valid (remove table entry) ∧ value (remove table entry) * power entry = value table)
    (hothers : ∀ table entry other, valid table → covered table entry → other.1 ≠ entry.1 →
      covered table other → covered (remove table entry) other)
    {table : T} (h : valid table) {entries : List (β × K)}
    (hdistinct : (entries.map Prod.fst).Nodup) (hc : ∀ entry ∈ entries, covered table entry) :
    valid (entries.foldl remove table) ∧
      value (entries.foldl remove table) * (entries.map power).prod = value table := by
  induction entries generalizing table with
  | nil => exact ⟨h, mul_one _⟩
  | cons entry rest ih =>
    obtain ⟨hfresh, hrest⟩ := List.nodup_cons.mp hdistinct
    obtain ⟨hentry, hcovered⟩ := List.forall_mem_cons.mp hc
    obtain ⟨hvalid, hvalue⟩ := hstep table entry h hentry
    have hbehind : ∀ other ∈ rest, covered (remove table entry) other := by
      intro other hother
      have hne : other.1 ≠ entry.1 := fun heq => hfresh (heq ▸ List.mem_map_of_mem hother)
      exact hothers table entry other h hentry hne (hcovered other hother)
    obtain ⟨hlast, hproduct⟩ := ih hvalid hrest hbehind
    refine ⟨hlast, ?_⟩
    rw [List.foldl_cons, List.map_cons, List.prod_cons, mul_left_comm, hproduct, mul_comm, hvalue]

end Removal

namespace VariablePowers

variable {rules : Exactness} {v : Vocabulary rules}

/-- The exponents exceed those of another table by natural numbers. -/
def Covers (powers other : VariablePowers (Exact rules)) : Prop :=
  ∀ entry ∈ other.entries, ∃ n : ℕ, (powers.get? entry.1).getD 0 + -entry.2 = n

variable {R : Type*} [CommRing R] {I : Interpretation rules R} (hI : I.Faithful v)
include hI

/-- Removing what is covered does not lead out of a vocabulary, and a table is the product of what
is removed and what is left. -/
theorem remove_spec {powers other : VariablePowers (Exact rules)} (h : powers.Within v)
    (ho : other.Within v) (hc : powers.Covers other) :
    (powers.remove other).Within v ∧
      (powers.remove other).value I * other.value I = powers.value I := by
  let covered (powers : VariablePowers (Exact rules)) (entry : String × Exact rules) : Prop :=
    v.names entry.1 ∧ ∃ k n : ℕ, entry.2 = k ∧ (powers.get? entry.1).getD 0 + -entry.2 = n
  refine foldl_remove (Within v) covered ?_ ?_ h other.nodup_names ?_
  · rintro powers entry h ⟨hname, k, n, hk, hn⟩
    refine ⟨h.accumulate hname hn, ?_⟩
    -- The exponent found is the one that stays plus the one that is removed.
    have hfound : (powers.get? entry.1).getD 0 = ((n + k : ℕ) : Exact rules) := by
      rw [Nat.cast_add, ← hn, ← hk, neg_add_cancel_right]
    have hstays : ((n + k : ℕ) : Exact rules) + -entry.2 = n := hfound ▸ hn
    obtain ⟨others, hold, hnew⟩ := value_accumulate_split hI entry.1 hfound hstays
    rw [hnew, hold, hk, hI.numericPower_natCast, pow_add, mul_right_comm]
  · rintro powers entry other h - hne ⟨hname, k, n, hk, hn⟩
    refine ⟨hname, k, n, hk, ?_⟩
    rw [get?_accumulate_of_ne _ hne]
    exact hn
  · intro entry hentry
    obtain ⟨hname, k, -, hk⟩ := ho entry hentry
    obtain ⟨n, hn⟩ := hc entry hentry
    exact ⟨hname, k, n, hk, hn⟩

end VariablePowers

namespace FunctionPowers

variable {rules : Exactness} (v : Vocabulary rules)

/-- What the exponents exceed those of another table by are exponents of the same functions. -/
def Covers (powers other : FunctionPowers (Exact rules)) : Prop :=
  ∀ entry ∈ other.entries,
    v.FunctionExponent entry.1.name ((powers.get? entry.1).getD 0 + -entry.2)

variable {v}

variable {R : Type*} [CommRing R] {I : Interpretation rules R} (hI : I.Faithful v)
include hI

/-- Removing what is covered does not lead out of a vocabulary, and a table is the product of what
is removed and what is left. -/
theorem remove_spec {powers other : FunctionPowers (Exact rules)} (h : powers.Within v)
    (ho : other.Within v) (hc : powers.Covers v other) :
    (powers.remove other).Within v ∧
      (powers.remove other).value I * other.value I = powers.value I := by
  let covered (powers : FunctionPowers (Exact rules))
      (entry : FunctionKey (Exact rules) × Exact rules) : Prop :=
    entry.1.toExpr.Within v ∧ v.FunctionExponent entry.1.name entry.2 ∧
      v.FunctionExponent entry.1.name ((powers.get? entry.1).getD 0 + -entry.2)
  refine foldl_remove (Within v) covered ?_ ?_ h ho.distinct ?_
  · rintro powers entry h ⟨hfunction, hexponent, hstays⟩
    refine ⟨h.accumulate hfunction hstays, ?_⟩
    have hpower := powerValue_add hI hstays hexponent
    rw [neg_add_cancel_right] at hpower
    obtain ⟨others, hold, hnew⟩ := value_accumulate_split hI h hfunction hstays
    rw [hnew, hold, hpower, mul_right_comm]
  · rintro powers entry other h ⟨hfunction, hexponent, -⟩ hne ⟨hfunction', hexponent', hstays'⟩
    refine ⟨hfunction', hexponent', ?_⟩
    rw [h.over.get?_accumulate_of_ne hfunction.over hfunction'.over hne
      (v.numbers.neg_mem (hexponent.mem v))]
    exact hstays'
  · intro entry hentry
    obtain ⟨hfunction, hexponent, -⟩ := ho.entries entry hentry
    exact ⟨hfunction, hexponent, hc entry hentry⟩

end FunctionPowers

namespace Term

variable {rules : Exactness} (v : Vocabulary rules)

/-- A term can be divided by another one within a vocabulary. -/
structure Covers (t divisor : Term (Exact rules)) : Prop where
  /-- The quotient of the coefficients is a number of the vocabulary. -/
  coefficient : t.coefficient / divisor.coefficient ∈ v.numbers
  /-- The exponents of variables are covered. -/
  variablePowers : t.variablePowers.Covers divisor.variablePowers
  /-- The exponents of functions are covered. -/
  functionPowers : t.functionPowers.Covers v divisor.functionPowers

/-- A term can be divided by and multiplied with again: its coefficient is not zero, and it keeps
nothing whole. -/
structure IsDivisor (t : Term (Exact rules)) : Prop where
  /-- The term is within the vocabulary. -/
  within : t.Within v
  /-- The coefficient is not zero. -/
  coefficient : t.coefficient ≠ 0
  /-- Nothing is kept whole. -/
  nested : t.nested = []

variable {v}

variable {R : Type*} [CommRing R] {I : Interpretation rules R} (hI : I.Faithful v)
include hI

/-- A quotient is within the vocabulary, and times its divisor it has the value of the term. -/
theorem divide_spec {t divisor : Term (Exact rules)} (h : t.Within v) (hd : divisor.IsDivisor v)
    (hc : t.Covers v divisor) :
    (t.divide divisor).Within v ∧
      (t.divide divisor).value I * divisor.value I = t.value I := by
  have hcoefficient : I.number (t.coefficient / divisor.coefficient) *
      I.number divisor.coefficient = I.number t.coefficient := by
    rw [← hI.number_mul hc.coefficient hd.within.coefficient, div_mul_cancel₀ _ hd.coefficient]
  obtain ⟨hvariablesWithin, hvariables⟩ := VariablePowers.remove_spec hI h.variablePowers
    hd.within.variablePowers hc.variablePowers
  obtain ⟨hfunctionsWithin, hfunctions⟩ := FunctionPowers.remove_spec hI h.functionPowers
    hd.within.functionPowers hc.functionPowers
  refine ⟨⟨hc.coefficient, hvariablesWithin, hfunctionsWithin, h.nested⟩, ?_⟩
  simp only [value, divide, hd.nested, List.map_nil, List.prod_nil]
  rw [← hcoefficient, ← hvariables, ← hfunctions]
  ring

/-- A divisor without powers whose coefficient is one has the value one. -/
theorem IsDivisor.value_eq_one {divisor : Term (Exact rules)} (hd : divisor.IsDivisor v)
    (hunit : divisor.isUnit = true) : divisor.value I = 1 := by
  rw [isUnit, Bool.and_eq_true, Bool.and_eq_true, v.isUnit_iff hd.within.coefficient] at hunit
  obtain ⟨⟨hone, hvariables⟩, hfunctions⟩ := hunit
  have hvariablesOne : divisor.variablePowers.value I = 1 := by
    rw [VariablePowers.value, List.isEmpty_iff.mp hvariables, List.map_nil, List.prod_nil]
  have hfunctionsOne : divisor.functionPowers.value I = 1 := by
    rw [FunctionPowers.value, List.isEmpty_iff.mp hfunctions, List.map_nil, List.prod_nil]
  rw [value, hone, hI.number_one, hvariablesOne, hfunctionsOne, hd.nested, List.map_nil,
    List.prod_nil, mul_one, mul_one, mul_one]

end Term

end SymbolicForms
