import SymbolicForms.Proofs.CommonDivisors
import SymbolicForms.Proofs.GroupLaws
import SymbolicForms.Proofs.SharedPowers

/-!
# Greatest common factors

Over integers, the common factor of some terms is their greatest one. Its
coefficient is divided by everything that divides all coefficients, and its
exponents are the least ones of all variables and functions that every term has
with a positive exponent. When it is divided out, the term with the least
exponent of a variable or function has none left, and nothing new comes to be in
every term, so that nothing common is left over.
-/

namespace SymbolicForms

variable {rules : Exactness}

/-- An entry is common to the tables of some items: its exponent is positive, it is in one of the
tables, and every table has an exponent of its key that is not less. -/
structure IsCommonEntry {ι β : Type*} (items : List ι) (table : ι → List (β × Exact rules))
    (entry : β × Exact rules) : Prop where
  /-- The exponent is positive. -/
  pos : 0 < entry.2
  /-- One of the tables has the entry. -/
  attained : ∃ item ∈ items, entry ∈ table item
  /-- Every table has an exponent of the key, and none is less. -/
  le : ∀ item ∈ items, ∃ exponent, (entry.1, exponent) ∈ table item ∧ entry.2 ≤ exponent

section Tables

variable {ι β : Type*} {items : List ι} {table : ι → List (β × Exact rules)}

/-- A common entry has the least exponent of its key, where a key that is missing has exponent
zero. -/
theorem isCommonEntry_iff (h : ∀ item ∈ items, IsTable (table item)) {entry : β × Exact rules} :
    IsCommonEntry items table entry ↔ 0 < entry.2 ∧
      (∃ item ∈ items, exponentSum (table item) entry.1 = entry.2) ∧
      ∀ item ∈ items, entry.2 ≤ exponentSum (table item) entry.1 := by
  constructor
  · rintro ⟨hpos, ⟨item, hitem, hentry⟩, hle⟩
    refine ⟨hpos, ⟨item, hitem, ((h item hitem).mem_iff.mp hentry).2⟩, fun other hother => ?_⟩
    obtain ⟨exponent, hexponent, hleast⟩ := hle other hother
    rwa [((h other hother).mem_iff.mp hexponent).2]
  · rintro ⟨hpos, ⟨item, hitem, hexponent⟩, hle⟩
    refine ⟨hpos, ⟨item, hitem, (h item hitem).mem_iff.mpr ⟨hpos.ne', hexponent⟩⟩, ?_⟩
    intro other hother
    have hleast := hle other hother
    exact ⟨exponentSum (table other) entry.1,
      (h other hother).mem_iff.mpr ⟨(hpos.trans_le hleast).ne', rfl⟩, hleast⟩

/-- When the common entries are divided out, no entry is common. -/
theorem not_isCommonEntry_of_sub {quotient : ι → List (β × Exact rules)}
    {common : List (β × Exact rules)} (htable : ∀ item ∈ items, IsTable (table item))
    (hquotient : ∀ item ∈ items, IsTable (quotient item)) (hcommon : IsTable common)
    (hmem : ∀ entry, entry ∈ common ↔ IsCommonEntry items table entry)
    (hsub : ∀ item ∈ items,
      exponentSum (quotient item) = exponentSum (table item) - exponentSum common)
    (entry : β × Exact rules) : ¬IsCommonEntry items quotient entry := by
  intro hentry
  obtain ⟨hpos, ⟨item, hitem, hexponent⟩, hle⟩ := (isCommonEntry_iff hquotient).mp hentry
  have hleft (other : ι) (hother : other ∈ items) : exponentSum (quotient other) entry.1 =
      exponentSum (table other) entry.1 - exponentSum common entry.1 := by
    rw [hsub other hother, Finsupp.sub_apply]
  by_cases hnone : exponentSum common entry.1 = 0
  · -- nothing was divided out of this key, so the entry was common before
    have hkept (other : ι) (hother : other ∈ items) :
        exponentSum (quotient other) entry.1 = exponentSum (table other) entry.1 := by
      rw [hleft other hother, hnone, sub_zero]
    have hbefore : IsCommonEntry items table entry :=
      (isCommonEntry_iff htable).mpr ⟨hpos, ⟨item, hitem, hkept item hitem ▸ hexponent⟩,
        fun other hother => hkept other hother ▸ hle other hother⟩
    exact hpos.ne' ((hcommon.mem_iff.mp ((hmem entry).mpr hbefore)).2.symm.trans hnone)
  · -- the item with the least exponent has none left
    have hleast : (entry.1, exponentSum common entry.1) ∈ common :=
      hcommon.mem_iff.mpr ⟨hnone, rfl⟩
    obtain ⟨-, ⟨least, hmemLeast, hequal⟩, -⟩ :=
      (isCommonEntry_iff htable).mp ((hmem _).mp hleast)
    have hzero : exponentSum (quotient least) entry.1 = 0 := by
      rw [hleft least hmemLeast, hequal, sub_self]
    exact absurd (hle least hmemLeast) (hzero ▸ hpos.not_ge)

end Tables

namespace Term

/-- A term with integer exponents, integers in the arguments of its functions, and an integer
coefficient of moderate size. -/
structure Factorable (t : Term (Exact rules)) : Prop extends t.IntegerPowers where
  /-- The coefficient is an integer of moderate size. -/
  coefficient : ∃ n : ℤ, t.coefficient = n ∧ |n| ≤ 10 ^ 13

/-- Terms share an integer exponent when it is in a common entry of their tables. -/
theorem shares_iff_isCommonEntry {β : Type*} {terms : List (Term (Exact rules))}
    {table : Term (Exact rules) → List (β × Exact rules)}
    {found : Term (Exact rules) → Option (Exact rules)} {entry : β × Exact rules}
    (hfound : ∀ t ∈ terms, ∀ exponent, found t = some exponent ↔ (entry.1, exponent) ∈ table t)
    (hinteger : ∀ t ∈ terms, ∀ entry ∈ table t, ∃ n : ℤ, entry.2 = n) :
    Shares terms found entry.2 ↔ IsCommonEntry terms table entry := by
  constructor
  · intro hshares
    obtain ⟨t, ht, hexponent⟩ := hshares.attained
    refine ⟨hshares.pos, ⟨t, ht, (hfound t ht _).mp hexponent⟩, fun other hother => ?_⟩
    obtain ⟨exponent, hexponent, hle⟩ := hshares.le other hother
    exact ⟨exponent, (hfound other hother exponent).mp hexponent, hle⟩
  · rintro ⟨hpos, ⟨t, ht, hentry⟩, hle⟩
    refine ⟨⟨t, ht, (hfound t ht _).mpr hentry⟩, fun other hother => ?_, ?_⟩
    · obtain ⟨exponent, hexponent, hleast⟩ := hle other hother
      exact ⟨exponent, (hfound other hother exponent).mpr hexponent, hleast⟩
    · obtain ⟨n, hn⟩ := hinteger t ht entry hentry
      rw [hn] at hpos ⊢
      exact (Exact.tolerance_lt_intCast n).mpr (Int.cast_pos.mp hpos)

/-- The variables of the common factor are those that are in every term with a positive exponent,
and their exponents are the least ones. -/
theorem mem_commonFactor_variablePowers {terms : List (Term (Exact rules))}
    (h : ∀ t ∈ terms, t.IntegerPowers) {entry : String × Exact rules} :
    entry ∈ (commonFactor terms).variablePowers.entries ↔
      IsCommonEntry terms (fun t => t.variablePowers.entries) entry := by
  cases terms with
  | nil => exact ⟨fun hentry => absurd hentry List.not_mem_nil,
      fun hcommon => nomatch hcommon.attained⟩
  | cons first others =>
    exact mem_commonVariables.trans (shares_iff_isCommonEntry
      (fun t _ exponent => VariablePowers.get?_eq_some_iff) fun t ht => (h t ht).variableExponents)

/-- The functions of the common factor are those that are in every term with a positive exponent,
and their exponents are the least ones. -/
theorem mem_commonFactor_functionPowers {terms : List (Term (Exact rules))}
    (h : ∀ t ∈ terms, t.IntegerPowers) {entry : FunctionKey (Exact rules) × Exact rules} :
    entry ∈ (commonFactor terms).functionPowers.entries ↔
      IsCommonEntry terms (fun t => t.functionPowers.entries) entry := by
  cases terms with
  | nil => exact ⟨fun hentry => absurd hentry List.not_mem_nil,
      fun hcommon => nomatch hcommon.attained⟩
  | cons first others =>
    have hfirst := h first List.mem_cons_self
    have hover (t : Term (Exact rules)) (ht : t ∈ first :: others) :
        t.functionPowers.Over (.integers fun _ => True) :=
      (integerPowers_iff_over.mp (h t ht)).functionPowers
    have hinteger (t : Term (Exact rules)) (ht : t ∈ first :: others) :
        ∀ entry ∈ t.functionPowers.entries, ∃ n : ℤ, entry.2 = n :=
      fun entry hentry => ((h t ht).functionExponents entry hentry).2
    have hshares (hkey : entry.1 ∈ first.functionPowers.entries.map Prod.fst) :
        Shares (first :: others) (fun t => t.functionPowers.get? entry.1) entry.2 ↔
          IsCommonEntry (first :: others) (fun t => t.functionPowers.entries) entry := by
      obtain ⟨own, hown, hsame⟩ := List.mem_map.mp hkey
      have hentry : entry.1.toExpr.Over (.integers fun _ => True) :=
        hsame ▸ ((hover first List.mem_cons_self).entries own hown).1
      exact shares_iff_isCommonEntry
        (fun t ht exponent => (hover t ht).get?_eq_some_iff hentry) hinteger
    refine (mem_commonFunctions hfirst.toReduced).trans ⟨?_, fun hcommon => ?_⟩
    · rintro ⟨hshared, hkey, -⟩
      exact (hshares hkey).mp hshared
    · obtain ⟨exponent, hexponent, -⟩ := hcommon.le first List.mem_cons_self
      have hkey : entry.1 ∈ first.functionPowers.entries.map Prod.fst :=
        List.mem_map.mpr ⟨(entry.1, exponent), hexponent, rfl⟩
      obtain ⟨t, ht, hentry⟩ := hcommon.attained
      exact ⟨(hshares hkey).mpr hcommon, hkey,
        (h t ht).functionPowers.vanishes_eq_false entry hentry⟩

/-- The common factor of terms with integer exponents has integer exponents. -/
theorem over_commonFactor {terms : List (Term (Exact rules))} (h : ∀ t ∈ terms, t.IntegerPowers) :
    (commonFactor terms).Over (.integers fun _ => True) := by
  have hover (t : Term (Exact rules)) (ht : t ∈ terms) : t.Over (.integers fun _ => True) :=
    integerPowers_iff_over.mp (h t ht)
  refine ⟨fun entry hentry => ?_, fun entry hentry => ?_, ?_⟩
  · obtain ⟨t, ht, hown⟩ := ((mem_commonFactor_variablePowers h).mp hentry).attained
    exact (hover t ht).variablePowers entry hown
  · obtain ⟨t, ht, hown⟩ := ((mem_commonFactor_functionPowers h).mp hentry).attained
    exact (hover t ht).functionPowers.entries entry hown
  · cases terms with
    | nil => exact List.nodup_nil
    | cons first others =>
      exact (reduced_commonFunctions (h first List.mem_cons_self).toReduced others).distinct

/-- The coefficient of the common factor is the greatest common divisor of the coefficients, or one
when all of them are zero. -/
theorem coefficient_commonFactor {terms : List (Term (Exact rules))}
    (h : ∀ t ∈ terms, ∃ n : ℤ, t.coefficient = n ∧ |n| ≤ 10 ^ 13) : ∃ d : ℕ,
    0 < d ∧ (commonFactor terms).coefficient = d ∧
      (∀ t ∈ terms, ∃ n : ℤ, t.coefficient = d * n) ∧
      ((∀ t ∈ terms, t.coefficient = 0) ∧ d = 1 ∨
        ∀ k : ℕ, (∀ t ∈ terms, ∃ n : ℤ, t.coefficient = k * n) → k ∣ d) := by
  cases terms with
  | nil =>
    exact ⟨1, Nat.one_pos, Exact.one_eq.trans Nat.cast_one.symm, List.forall_mem_nil _,
      Or.inl ⟨List.forall_mem_nil _, rfl⟩⟩
  | cons first others => exact commonCoefficient_spec h

/-- The quotients by the common factor are of the same kind as the terms. -/
theorem factorable_divide_commonFactor {terms : List (Term (Exact rules))}
    (h : ∀ t ∈ terms, t.Factorable) {t : Term (Exact rules)} (ht : t ∈ terms) :
    (t.divide (commonFactor terms)).Factorable := by
  have hpowers (t : Term (Exact rules)) (ht : t ∈ terms) : t.IntegerPowers :=
    (h t ht).toIntegerPowers
  obtain ⟨d, hd, hcoefficient, hdivides, -⟩ :=
    coefficient_commonFactor fun t ht => (h t ht).coefficient
  obtain ⟨m, hm, hsmall⟩ := (h t ht).coefficient
  obtain ⟨n, hn⟩ := hdivides t ht
  have hd0 : (d : Exact rules) ≠ 0 := Nat.cast_ne_zero.mpr hd.ne'
  refine ⟨integerPowers_iff_over.mpr ((integerPowers_iff_over.mp (hpowers t ht)).divide
    (over_commonFactor hpowers)), n, ?_, ?_⟩
  · change t.coefficient / (commonFactor terms).coefficient = n
    rw [hcoefficient, hn, mul_div_cancel_left₀ _ hd0]
  · have hproduct : m = d * n := by exact_mod_cast hm.symm.trans hn
    calc |n| = 1 * |n| := (one_mul _).symm
      _ ≤ d * |n| := mul_le_mul_of_nonneg_right (by exact_mod_cast hd) (abs_nonneg n)
      _ = |m| := by rw [hproduct, abs_mul, Nat.abs_cast]
      _ ≤ 10 ^ 13 := hsmall

/-- The quotients by the common factor have one as their greatest common divisor. -/
theorem coefficient_commonFactor_quotients {terms : List (Term (Exact rules))}
    (h : ∀ t ∈ terms, t.Factorable) :
    (commonFactor (terms.map fun t => t.divide (commonFactor terms))).coefficient = 1 := by
  obtain ⟨d, hd, hcoefficient, -, hgreatest⟩ :=
    coefficient_commonFactor fun t ht => (h t ht).coefficient
  have hquotients : ∀ q ∈ terms.map fun t => t.divide (commonFactor terms),
      ∃ n : ℤ, q.coefficient = (n : Exact rules) ∧ |n| ≤ 10 ^ 13 :=
    List.forall_mem_map.mpr fun t ht => (factorable_divide_commonFactor h ht).coefficient
  obtain ⟨d', hd', hcoefficient', hdivides', hgreatest'⟩ := coefficient_commonFactor hquotients
  rw [List.forall_mem_map] at hdivides'
  have hd0 : (d : Exact rules) ≠ 0 := Nat.cast_ne_zero.mpr hd.ne'
  have hquotient (t : Term (Exact rules)) :
      t.coefficient = d * (t.divide (commonFactor terms)).coefficient := by
    change t.coefficient = d * (t.coefficient / (commonFactor terms).coefficient)
    rw [hcoefficient, mul_div_cancel₀ _ hd0]
  have hone : d' = 1 := by
    obtain ⟨hzero, -⟩ | hgreatest := hgreatest
    · obtain ⟨-, hone⟩ | hgreatest' := hgreatest'
      · exact hone
      · -- where all quotients are zero, every number divides them
        have hall : 0 ∣ d' := hgreatest' 0 (List.forall_mem_map.mpr fun t ht => ⟨0, by
          rw [Int.cast_zero, mul_zero]
          exact (mul_eq_zero.mp ((hquotient t).symm.trans (hzero t ht))).resolve_left hd0⟩)
        exact absurd (Nat.eq_zero_of_zero_dvd hall) hd'.ne'
    · have hproduct : d * d' ∣ d := hgreatest (d * d') fun t ht => by
        obtain ⟨n, hn⟩ := hdivides' t ht
        exact ⟨n, by rw [hquotient t, hn, Nat.cast_mul, mul_assoc]⟩
      have hle : d * d' ≤ d * 1 := (Nat.le_of_dvd hd hproduct).trans_eq (mul_one d).symm
      exact Nat.le_antisymm (Nat.le_of_mul_le_mul_left hle hd) hd'
  rw [hcoefficient', hone, Nat.cast_one]

/-- The quotients by the common factor have no common variable and no common function. -/
theorem entries_commonFactor_quotients {terms : List (Term (Exact rules))}
    (h : ∀ t ∈ terms, t.IntegerPowers) :
    (commonFactor (terms.map fun t => t.divide (commonFactor terms))).variablePowers.entries = [] ∧
      (commonFactor (terms.map fun t => t.divide (commonFactor terms))).functionPowers.entries =
        [] := by
  let quotient (t : Term (Exact rules)) := t.divide (commonFactor terms)
  have hover (t : Term (Exact rules)) (ht : t ∈ terms) : t.Over (.integers fun _ => True) :=
    integerPowers_iff_over.mp (h t ht)
  have hfactor := over_commonFactor h
  have hquotient (t : Term (Exact rules)) (ht : t ∈ terms) :
      (quotient t).Over (.integers fun _ => True) := (hover t ht).divide hfactor
  have hquotients : ∀ q ∈ terms.map quotient, q.IntegerPowers :=
    List.forall_mem_map.mpr fun t ht => integerPowers_iff_over.mpr (hquotient t ht)
  have hmap {β : Type} {table : Term (Exact rules) → List (β × Exact rules)}
      {entry : β × Exact rules} (hcommon : IsCommonEntry (terms.map quotient) table entry) :
      IsCommonEntry terms (fun t => table (quotient t)) entry := by
    obtain ⟨hpos, ⟨q, hq, hentry⟩, hle⟩ := hcommon
    obtain ⟨t, ht, rfl⟩ := List.mem_map.mp hq
    exact ⟨hpos, ⟨t, ht, hentry⟩, fun t ht => hle (quotient t) (List.mem_map_of_mem ht)⟩
  constructor <;> refine List.eq_nil_iff_forall_not_mem.mpr fun entry hentry => ?_
  · refine not_isCommonEntry_of_sub (fun t ht => (hover t ht).variablePowers.isTable)
      (fun t ht => (hquotient t ht).variablePowers.isTable) hfactor.variablePowers.isTable
      (fun _ => mem_commonFactor_variablePowers h)
      (fun t ht => ((hover t ht).exponentMap_divide hfactor).1) entry
      (hmap ((mem_commonFactor_variablePowers hquotients).mp hentry))
  · refine not_isCommonEntry_of_sub (fun t ht => (hover t ht).functionPowers.isTable)
      (fun t ht => (hquotient t ht).functionPowers.isTable) hfactor.functionPowers.isTable
      (fun _ => mem_commonFactor_functionPowers h)
      (fun t ht => ((hover t ht).exponentMap_divide hfactor).2) entry
      (hmap ((mem_commonFactor_functionPowers hquotients).mp hentry))

/-- The common factor of terms with integers is their greatest one: its coefficient is positive and
divides all coefficients, everything that divides them divides it, and it has the least exponents of
all variables and functions that are in every term with a positive exponent. The quotients by it
have the common factor one, and extraction takes it out of every sum of such terms as it is, with
all of its powers and without a message. -/
theorem commonFactor_greatest {terms : List (Term (Exact rules))}
    (h : ∀ t ∈ terms, t.Factorable) :
    (∃ d : ℕ, 0 < d ∧ (commonFactor terms).coefficient = d ∧
      (∀ t ∈ terms, ∃ n : ℤ, t.coefficient = d * n) ∧
      ((∃ t ∈ terms, t.coefficient ≠ 0) →
        ∀ k : ℕ, (∀ t ∈ terms, ∃ n : ℤ, t.coefficient = k * n) → k ∣ d)) ∧
    (∀ entry, entry ∈ (commonFactor terms).variablePowers.entries ↔
      IsCommonEntry terms (fun t => t.variablePowers.entries) entry) ∧
    (∀ entry, entry ∈ (commonFactor terms).functionPowers.entries ↔
      IsCommonEntry terms (fun t => t.functionPowers.entries) entry) ∧
    (commonFactor (terms.map fun t => t.divide (commonFactor terms))).isUnit = true ∧
    ∀ (e : Expr (Exact rules)) (threshold : LogLevel), e.factorTerms = terms →
      (∀ factor, e.commonFactor? = some factor → factor.isCovered terms = true) ∧
        e.extractFactor.run threshold = ((e.commonFactor?.map (factored terms)).getD e, []) := by
  have hpowers (t : Term (Exact rules)) (ht : t ∈ terms) : t.IntegerPowers :=
    (h t ht).toIntegerPowers
  refine ⟨?_, fun _ => mem_commonFactor_variablePowers hpowers,
    fun _ => mem_commonFactor_functionPowers hpowers, ?_, ?_⟩
  · obtain ⟨d, hd, hcoefficient, hdivides, hgreatest⟩ :=
      coefficient_commonFactor fun t ht => (h t ht).coefficient
    refine ⟨d, hd, hcoefficient, hdivides, fun ⟨t, ht, hne⟩ => ?_⟩
    exact hgreatest.resolve_left fun hzero => hne (hzero.1 t ht)
  · obtain ⟨hvariables, hfunctions⟩ := entries_commonFactor_quotients hpowers
    rw [isUnit, coefficient_commonFactor_quotients h, VariablePowers.isEmpty, hvariables,
      FunctionPowers.isEmpty, hfunctions, Scalar.isUnit, Exact.one_eq, Exact.near_self]
    rfl
  · rintro e threshold rfl
    exact ⟨fun factor => Expr.isCovered_of_commonFactor?, e.run_extractFactor threshold⟩

/-- The sum `6*x^2*sin(x)*y^(-1)*sin(x)^2 - 9*x*y*sin(x) + 0*x^3*sin(x)^2`. -/
def sineSum : Expr (Exact .standard) :=
  let sine : Expr (Exact .standard) := .func "sin" (.var "x")
  let first : Expr (Exact .standard) := .mul (.mul (.mul (.mul (.int 6) (.pow (.var "x") (.int 2)))
    sine) (.pow (.var "y") (.int (-1)))) (.pow sine (.int 2))
  let second : Expr (Exact .standard) := .mul (.mul (.mul (.int 9) (.var "x")) (.var "y")) sine
  let third : Expr (Exact .standard) :=
    .mul (.mul (.int 0) (.pow (.var "x") (.int 3))) (.pow sine (.int 2))
  .add (.sub first second) third

/-- The terms of `sineSum`. -/
def sineTerms : List (Term (Exact .standard)) :=
  let sine (n : ℤ) : FunctionPowers (Exact .standard) := ⟨[(⟨"sin", .var "x"⟩, n)]⟩
  [⟨Scalar.ofInt 6, .ofList [("x", Scalar.ofInt 2), ("y", Scalar.ofInt (-1))], sine 3, []⟩,
    ⟨Scalar.ofInt (-9), .ofList [("x", 1), ("y", 1)], sine 1, []⟩,
    ⟨0, .ofList [("x", Scalar.ofInt 3)], sine 2, []⟩]

theorem commonFactor_greatest_sineTerms :
    sineSum.factorTerms = sineTerms ∧ (∀ t ∈ sineTerms, t.Factorable) ∧
      IsCommonEntry sineTerms (fun t => t.variablePowers.entries) ("x", 1) ∧
      ¬IsCommonEntry sineTerms (fun t => t.variablePowers.entries) ("y", -1) ∧
      IsCommonEntry sineTerms (fun t => t.functionPowers.entries) (⟨"sin", .var "x"⟩, 1) ∧
      (commonFactor (sineTerms.map fun t => t.divide (commonFactor sineTerms))).isUnit = true ∧
      (sineSum.extractFactor.run .debug).2 = [] := by
  have hterms : sineSum.factorTerms = sineTerms := by decide +kernel
  have hnumber (n : ℤ) : (n : Exact .standard) ∈
      (Vocabulary.integers fun _ => True : Vocabulary .standard).numbers := ⟨n, rfl⟩
  have hsine (n : ℤ) (hne : (n : Exact .standard) ≠ 0) :
      (⟨[(⟨"sin", .var "x"⟩, n)]⟩ : FunctionPowers (Exact .standard)).Over
        (.integers fun _ => True) :=
    ⟨List.forall_mem_singleton.mpr ⟨trivial, hnumber n, hne⟩, List.nodup_singleton _⟩
  have hpowers : ∀ t ∈ sineTerms, t.Over (.integers fun _ => True) := by
    simp only [sineTerms, List.forall_mem_cons]
    refine ⟨⟨?_, hsine 3 (by decide +kernel)⟩, ⟨?_, hsine 1 (by decide +kernel)⟩,
      ⟨?_, hsine 2 (by decide +kernel)⟩, List.forall_mem_nil _⟩
    · exact VariablePowers.over_ofList (by decide +kernel) (List.forall_mem_cons.mpr
        ⟨⟨hnumber 2, by decide +kernel⟩,
          List.forall_mem_singleton.mpr ⟨hnumber (-1), by decide +kernel⟩⟩)
    · exact VariablePowers.over_ofList (by decide +kernel) (List.forall_mem_cons.mpr
        ⟨⟨hnumber 1, by decide +kernel⟩,
          List.forall_mem_singleton.mpr ⟨hnumber 1, by decide +kernel⟩⟩)
    · exact VariablePowers.over_ofList (List.pairwise_singleton _ _)
        (List.forall_mem_singleton.mpr ⟨hnumber 3, by decide +kernel⟩)
  have hfactorable : ∀ t ∈ sineTerms, t.Factorable := by
    intro t ht
    refine ⟨integerPowers_iff_over.mpr (hpowers t ht), ?_⟩
    simp only [sineTerms, List.mem_cons, List.not_mem_nil, or_false] at ht
    obtain rfl | rfl | rfl := ht
    exacts [⟨6, rfl, by decide⟩, ⟨-9, rfl, by decide⟩, ⟨0, rfl, by decide⟩]
  obtain ⟨-, hvariables, hfunctions, hunit, hextract⟩ := commonFactor_greatest hfactorable
  refine ⟨hterms, hfactorable, (hvariables _).mp (by decide +kernel),
    mt (hvariables _).mpr (by decide +kernel), (hfunctions _).mp (by decide +kernel), hunit, ?_⟩
  rw [(hextract sineSum .debug hterms).2]

end Term

end SymbolicForms
