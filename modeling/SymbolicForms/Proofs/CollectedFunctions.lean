import SymbolicForms.Proofs.ExponentialSurplus

/-!
# Collected functions

Collecting the functions of a product merges every repeated function and nothing
else. The factors are read as powers of functions and as other factors; the powers
are added up in a table, and what the product is joined from is as long as before
exactly where nothing was merged and nothing vanished. This one comparison of
lengths decides whether the expression is left as it is.
-/

namespace SymbolicForms

namespace Expr

section Reading

variable {K : Type} [Scalar K]

/-- The powers of functions among the factors. -/
def functionPowers (e : Expr K) : List (FunctionKey K × K) :=
  e.factors.filterMap PowerSplit.functionPower?

/-- The factors that are no powers of functions. -/
def plainParts (e : Expr K) : List (Expr K) :=
  e.factors.filter fun factor => (PowerSplit.functionPower? factor).isNone

/-- The factors with their powers of functions collected. -/
def collected (e : Expr K) : PowerSplit K := PowerSplit.ofFactors (fun _ => true) e.factors

/-- Functions of all names are collected: their exponents are added up one after the other, and all
other factors are kept. -/
theorem collected_eq (e : Expr K) :
    e.collected = ⟨e.functionPowers.foldl
      (fun powers power => powers.accumulate power.1 power.2) .empty, e.plainParts⟩ := by
  have hall (power? : Option (FunctionKey K × K)) : (power?.filter fun _ => true) = power? := by
    cases power? <;> rfl
  simp only [collected, PowerSplit.ofFactors, hall]
  rfl

theorem others_collected (e : Expr K) : e.collected.others = e.plainParts := by rw [collected_eq]

/-- The other factors are neither products nor powers of functions. -/
theorem plain_of_mem_collected {e : Expr K} :
    ∀ factor ∈ e.collected.others,
      factor.factors = [factor] ∧ PowerSplit.functionPower? factor = none := by
  rw [others_collected]
  intro factor h
  obtain ⟨hfactor, hnone⟩ := List.mem_filter.mp h
  exact ⟨factors_eq_singleton (ne_mul_of_mem_factors hfactor), Option.isNone_iff_eq_none.mp hnone⟩

/-- The powers of the product of the collected factors. -/
theorem functionPowers_product_collected (e : Expr K) :
    (product e.collected.factors).functionPowers =
      e.collected.powers.entries.map fun entry => (entry.1, readExponent entry.2) :=
  filterMap_factors_product plain_of_mem_collected
    (fun entry _ => functionPower?_powerExpr entry.1 entry.2) rfl

/-- The other factors of the product of the collected factors. -/
theorem plainParts_product_collected (e : Expr K) :
    (product e.collected.factors).plainParts = e.plainParts ∨
      e.plainParts = [] ∧ product e.collected.factors = .int 1 := by
  rw [← others_collected e]
  exact filter_factors_product plain_of_mem_collected
    fun entry _ => functionPower?_powerExpr entry.1 entry.2

/-- Collecting keeps the number of factors where the table has as many entries as there were powers
of functions. -/
theorem length_collected_eq_iff (e : Expr K) :
    e.collected.factors.length = e.factors.length ↔
      e.collected.powers.entries.length = e.functionPowers.length := by
  have hlength : e.plainParts.length + e.functionPowers.length = e.factors.length :=
    length_filter_add_filterMap PowerSplit.functionPower? e.factors
  rw [PowerSplit.factors, List.length_append, List.length_map, others_collected, ← hlength,
    Nat.add_left_cancel_iff]

/-- The product of the collected factors is another expression where their number has changed. -/
theorem product_collected_ne {e : Expr K} (hlong : 2 ≤ e.factors.length)
    (hlength : e.collected.factors.length ≠ e.factors.length) :
    product e.collected.factors ≠ e := by
  intro heq
  obtain hfactors | ⟨-, -, hone⟩ := @factors_product_split _ _ e.collected _ plain_of_mem_collected
  · rw [heq] at hfactors
    exact hlength (congrArg List.length hfactors).symm
  · rw [← heq, hone] at hlong
    exact Nat.not_succ_le_self 1 hlong

end Reading

section Exponents

variable {rules : Exactness} {v : Vocabulary rules} {e : Expr (Exact rules)}

/-- Powers of functions are over the numbers of the factors. -/
theorem Over.functionPowers (h : e.Over v) :
    ∀ power ∈ e.functionPowers, power.1.toExpr.Over v ∧ power.2 ∈ v.numbers := by
  have hfactors : ∀ factor ∈ e.factors, factor.Over v :=
    forall_mem_factors (fun _ _ hmul => hmul) h
  intro power hpower
  obtain ⟨factor, hfactor, hread⟩ := List.mem_filterMap.mp hpower
  have hover := hfactors factor hfactor
  obtain ⟨rfl, hone⟩ | rfl := PowerSplit.functionPower?_eq_some_iff.mp hread
  · exact ⟨hover, hone ▸ Exact.one_eq ▸ v.numbers.one_mem⟩
  · exact hover

/-- The collected powers are a table of the exponents of all powers. -/
theorem Over.collected (h : e.Over v) :
    e.collected.powers.Over v ∧
      exponentSum e.collected.powers.entries = exponentSum e.functionPowers := by
  rw [collected_eq]
  exact FunctionPowers.over_foldl_accumulate_empty h.functionPowers

/-- Powers of functions are a table where no two functions are the same and no exponent is zero. -/
theorem Over.isTable_functionPowers_iff (h : e.Over v) :
    IsTable e.functionPowers ↔
      (e.functionPowers.Pairwise fun first second => first.1.same second.1 = false) ∧
        ∀ power ∈ e.functionPowers, power.2 ≠ 0 := by
  have hdiffer : (e.functionPowers.map Prod.fst).Nodup ↔
      e.functionPowers.Pairwise fun first second => first.1.same second.1 = false := by
    rw [List.Nodup, List.pairwise_map]
    refine List.Pairwise.iff_of_mem fun {first second} hfirst hsecond => ?_
    rw [Bool.eq_false_iff, ne_eq, ne_eq, FunctionKey.same_iff_eq (h.functionPowers first hfirst).1
      (h.functionPowers second hsecond).1]
  exact ⟨fun ht => ⟨hdiffer.mp ht.nodup, ht.ne_zero⟩, fun ht => ⟨hdiffer.mpr ht.1, ht.2⟩⟩

/-- The powers of the product of the collected factors are those of the table. -/
theorem Over.functionPowers_product_collected (h : e.Over v) :
    (product e.collected.factors).functionPowers = e.collected.powers.entries := by
  rw [Expr.functionPowers_product_collected, map_readExponent h.collected.1]

/-- The number of factors is kept exactly where nothing is merged and nothing vanishes. -/
theorem Over.length_collected_eq_iff (h : e.Over v) :
    e.collected.factors.length = e.factors.length ↔ IsTable e.functionPowers :=
  (Expr.length_collected_eq_iff e).trans (h.collected.1.isTable.length_eq_iff h.collected.2)

/-- Collecting functions leaves an expression as it is or joins the collected factors. -/
theorem Over.collectFunctions_cases (h : e.Over v) :
    (e.factors.length ≤ 1 ∨ IsTable e.functionPowers) ∧ e.collectFunctions = e ∨
      (2 ≤ e.factors.length ∧ ¬IsTable e.functionPowers) ∧
        e.collectFunctions = product e.collected.factors := by
  rw [← h.length_collected_eq_iff, collectFunctions_eq]
  by_cases hkept : e.factors.length ≤ 1 ∨ e.collected.factors.length = e.factors.length
  · exact Or.inl ⟨hkept, if_pos hkept⟩
  · exact Or.inr ⟨(not_or.mp hkept).imp_left Nat.lt_of_not_le, if_neg hkept⟩

/-- Collecting keeps the total exponent of every function. -/
theorem Over.exponentSum_collectFunctions (h : e.Over v) :
    exponentSum e.collectFunctions.functionPowers = exponentSum e.functionPowers := by
  obtain ⟨-, heq⟩ | ⟨-, heq⟩ := h.collectFunctions_cases
  · rw [heq]
  · rw [heq, h.functionPowers_product_collected, h.collected.2]

/-- After collecting a product of several factors, no function is repeated and no exponent is
zero. -/
theorem Over.isTable_collectFunctions (h : e.Over v) (hlong : 2 ≤ e.factors.length) :
    IsTable e.collectFunctions.functionPowers := by
  obtain ⟨hkept, heq⟩ | ⟨-, heq⟩ := h.collectFunctions_cases
  · rw [heq]
    exact hkept.resolve_left (Nat.not_le_of_lt hlong)
  · rw [heq, h.functionPowers_product_collected]
    exact h.collected.1.isTable

/-- After collecting, no two powers are of the same function. -/
theorem Over.pairwise_collectFunctions (h : e.Over v) :
    e.collectFunctions.functionPowers.Pairwise
      fun first second => first.1.same second.1 = false := by
  obtain ⟨hshort | htable, heq⟩ | ⟨-, heq⟩ := h.collectFunctions_cases
  · rw [heq]
    have hlength : e.functionPowers.length ≤ 1 := (List.length_filterMap_le _ _).trans hshort
    match e.functionPowers, hlength with
    | [], _ => exact List.Pairwise.nil
    | [power], _ => exact List.pairwise_singleton _ power
  · rw [heq]
    exact (h.isTable_functionPowers_iff.mp htable).1
  · rw [heq, h.functionPowers_product_collected]
    exact h.collected.1.reduced.same_eq_false

/-- Collecting keeps the other factors in their order; a product of which nothing is left is one. -/
theorem Over.plainParts_collectFunctions (h : e.Over v) :
    e.collectFunctions.plainParts = e.plainParts ∨
      e.plainParts = [] ∧ e.collectFunctions = .int 1 := by
  obtain ⟨-, heq⟩ | ⟨-, heq⟩ := h.collectFunctions_cases
  · exact Or.inl (congrArg plainParts heq)
  · rw [heq]
    exact plainParts_product_collected e

/-- Exactly the expressions with at most one factor and those in which nothing can be collected stay
as they are. -/
theorem Over.collectFunctions_eq_self_iff (h : e.Over v) :
    e.collectFunctions = e ↔ e.factors.length ≤ 1 ∨ IsTable e.functionPowers := by
  obtain ⟨hkept, heq⟩ | ⟨⟨hlong, hnone⟩, heq⟩ := h.collectFunctions_cases
  · exact iff_of_true heq hkept
  · refine iff_of_false ?_ (not_or.mpr ⟨Nat.not_le_of_lt hlong, hnone⟩)
    rw [heq]
    exact product_collected_ne hlong (mt h.length_collected_eq_iff.mp hnone)

/-- Over the integers, collecting merges every repeated function and nothing else. In the result no
two factors are powers of the same function, and each function has the total of its exponents; a
product of several factors loses exactly the functions whose total is zero. All other factors keep
their order, and one is left where there would be no factor. The expression itself is the result
exactly if it has at most one factor, or no two of its powers are of the same function and none has
the exponent zero. -/
theorem collectFunctions_merges_exactly (h : e.Over (.integers fun _ => True)) :
    (e.collectFunctions.functionPowers.Pairwise
      fun first second => first.1.same second.1 = false) ∧
      (∀ key, exponentSum e.collectFunctions.functionPowers key =
        exponentSum e.functionPowers key) ∧
      (2 ≤ e.factors.length → ∀ key,
        (key ∈ e.collectFunctions.functionPowers.map Prod.fst ↔
          exponentSum e.functionPowers key ≠ 0)) ∧
      (e.collectFunctions.plainParts = e.plainParts ∨
        e.plainParts = [] ∧ e.collectFunctions = .int 1) ∧
      (e.collectFunctions = e ↔ e.factors.length ≤ 1 ∨
        (e.functionPowers.Pairwise fun first second => first.1.same second.1 = false) ∧
          ∀ power ∈ e.functionPowers, power.2 ≠ 0) := by
  have hsum := h.exponentSum_collectFunctions
  refine ⟨h.pairwise_collectFunctions, fun key => by rw [hsum], fun hlong key => ?_,
    h.plainParts_collectFunctions, ?_⟩
  · rw [(h.isTable_collectFunctions hlong).mem_keys_iff, hsum]
  · rw [h.collectFunctions_eq_self_iff, h.isTable_functionPowers_iff]

end Exponents

/-- The product `2 * cos(x)^3 * sin(x) * y * cos(x)^(-3) * sin(x)^2`. -/
def repeatedSine : Expr (Exact .standard) :=
  let sine : Expr (Exact .standard) := .func "sin" (.var "x")
  let cosine : Expr (Exact .standard) := .func "cos" (.var "x")
  .mul (.mul (.mul (.mul (.mul (.int 2) (.pow cosine (.int 3))) sine) (.var "y"))
    (.pow cosine (.int (-3)))) (.pow sine (.int 2))

theorem collectFunctions_merges_exactly_repeatedSine :
    repeatedSine.Over (.integers fun _ => True) ∧ 2 ≤ repeatedSine.factors.length ∧
      repeatedSine.collectFunctions ≠ repeatedSine ∧
      repeatedSine.collectFunctions.plainParts = [.int 2, .var "y"] ∧
      exponentSum repeatedSine.collectFunctions.functionPowers ⟨"sin", .var "x"⟩ = 3 ∧
      ⟨"cos", .var "x"⟩ ∉ repeatedSine.collectFunctions.functionPowers.map Prod.fst := by
  have hover : repeatedSine.Over (.integers fun _ => True) :=
    ⟨⟨⟨⟨⟨⟨2, rfl⟩, trivial, ⟨3, rfl⟩⟩, trivial⟩, trivial⟩, trivial, ⟨-3, rfl⟩⟩, trivial, ⟨2, rfl⟩⟩
  have hlong : 2 ≤ repeatedSine.factors.length := by decide
  have hpowers : repeatedSine.functionPowers = [(⟨"cos", .var "x"⟩, 3), (⟨"sin", .var "x"⟩, 1),
      (⟨"cos", .var "x"⟩, -3), (⟨"sin", .var "x"⟩, 2)] := by decide +kernel
  have hparts : repeatedSine.plainParts = [.int 2, .var "y"] := by decide +kernel
  obtain ⟨-, hsum, hkeys, hkept, hself⟩ := collectFunctions_merges_exactly hover
  refine ⟨hover, hlong, fun heq => ?_, ?_, ?_, ?_⟩
  · obtain hshort | ⟨hdiffer, -⟩ := hself.mp heq
    · exact absurd hlong (Nat.not_le_of_lt (Nat.lt_succ_of_le hshort))
    · rw [hpowers] at hdiffer
      have hsame := (List.pairwise_cons.mp hdiffer).1 (⟨"cos", .var "x"⟩, -3) (by simp)
      rw [FunctionKey.same_self] at hsame
      cases hsame
  · rw [hkept.resolve_right fun hnone => by simp [hparts] at hnone, hparts]
  · rw [hsum, hpowers]
    simp [exponentSum]
    norm_num
  · rw [hkeys hlong, hpowers, not_not]
    simp [exponentSum]

end Expr

end SymbolicForms
