import SymbolicForms.Proofs.TermAlgebra

/-!
# Formal expansion

The formal expansion of an expression is the formal sum of the terms into which
it is expanded. It respects sums, differences and products, and an expression
that is read as a term has the formal sum of the term when the expansions are
put for what the term keeps whole, although nothing in the term is expanded yet.
The same holds when a term is written as an expression. Expressions with one
formal expansion have one canonical sum.
-/

namespace SymbolicForms

variable {rules : Exactness}

namespace Expr

/-- The formal sum of the terms into which an expression is expanded. -/
noncomputable def expansion (e : Expr (Exact rules)) : FormalSum rules :=
  (e.fullyExpand.terms.map (Term.formal .literal)).sum

/-- Expressions with one formal expansion have one canonical sum. -/
theorem canonicalSum_eq_of_expansion_eq (hw : rules.WritesIntegers) {e e' : Expr (Exact rules)}
    (h : e.Within (.integers IsIdentifier)) (h' : e'.Within (.integers IsIdentifier))
    (heq : e.expansion = e'.expansion) : e.canonicalSum = e'.canonicalSum := by
  refine canonicalSum_eq_of_total_eq hw h h' fun key => ?_
  exact Term.total_eq_of_sum_formal_eq hw (h.fullyExpand not_false).terms
    (h'.fullyExpand not_false).terms heq key

/-- The formal expansion is added up over the addends of the expanded expression. -/
theorem expansion_eq (e : Expr (Exact rules)) : e.expansion =
    (e.fullyExpand.addends.map fun addend => (Term.ofExpr addend).formal .literal).sum := by
  rw [expansion, terms, List.map_map]
  rfl

/-- An expression that expands to no sum is the formal sum of one term. -/
theorem expansion_of_isSum_eq_false {e : Expr (Exact rules)} (h : e.fullyExpand.isSum = false) :
    e.expansion = (Term.ofExpr e.fullyExpand).formal .literal := by
  rw [expansion_eq, addends_eq_singleton h]
  exact List.sum_singleton

/-- A number expands to its multiple of one. -/
theorem expansion_const (value : Exact rules) :
    (Expr.const value).expansion = MonoidAlgebra.single 1 value :=
  (expansion_of_isSum_eq_false rfl).trans (Term.formal_constant _ value)

/-- A sum expands to the sum of the expansions. -/
theorem expansion_add (left right : Expr (Exact rules)) :
    (Expr.add left right).expansion = left.expansion + right.expansion := by
  have hexpanded : (Expr.add left right).fullyExpand = .add left.fullyExpand right.fullyExpand := by
    rw [fullyExpand] <;> simp
  rw [expansion_eq, hexpanded, addends_add, List.map_append, List.sum_append, ← expansion_eq,
    ← expansion_eq]

/-- A difference expands to the difference of the expansions. -/
theorem expansion_sub (left right : Expr (Exact rules)) :
    (Expr.sub left right).expansion = left.expansion - right.expansion := by
  have hexpanded : (Expr.sub left right).fullyExpand = .sub left.fullyExpand right.fullyExpand := by
    rw [fullyExpand] <;> simp
  have hnegated : ((right.fullyExpand.addends.map negateAddend).map fun addend =>
      (Term.ofExpr addend).formal .literal).sum = -right.expansion := by
    rw [expansion_eq, List.sum_neg, List.map_map, List.map_map]
    refine congrArg List.sum (List.map_congr_left fun addend _ => ?_)
    exact Term.formal_negateAddend .literal addend
  rw [expansion_eq, hexpanded, addends_sub, List.map_append, List.sum_append, hnegated,
    ← expansion_eq, sub_eq_add_neg]

variable {v : Vocabulary rules}

section ClosedPowers

variable (hv : ¬v.openPowers)
include hv

/-- A product expands to the product of the expansions. -/
theorem expansion_mul {left right : Expr (Exact rules)} (hl : left.Within v)
    (hr : right.Within v) :
    (Expr.mul left right).expansion = left.expansion * right.expansion := by
  have hleft := expanded_fullyExpand left
  have hright := expanded_fullyExpand right
  have hl' := hl.fullyExpand hv
  have hr' := hr.fullyExpand hv
  have hfactors (first : Expr (Exact rules)) (hf : first ∈ left.fullyExpand.addends) :
      (right.fullyExpand.addends.map fun second =>
        (Term.ofExpr (multiplySimple first second)).formal .literal).sum =
          (Term.ofExpr first).formal .literal * right.expansion := by
    rw [expansion_eq, ← List.sum_map_mul_left]
    refine congrArg List.sum (List.map_congr_left fun second hs => ?_)
    exact Term.formal_multiplySimple .literal hv (hl'.of_mem_addends hf) (hr'.of_mem_addends hs)
      (hleft.of_mem_addends hf) (hright.of_mem_addends hs)
  have hexpanded : (Expr.mul left right).fullyExpand =
      expandProduct left.fullyExpand right.fullyExpand := rfl
  rw [expansion_eq, hexpanded,
    addends_expandProduct (everywhere_fullyExpand left) (everywhere_fullyExpand right),
    List.map_flatMap, List.flatMap_def, List.sum_flatten, List.map_map]
  simp only [Function.comp_def, List.map_map]
  rw [List.map_congr_left hfactors, List.sum_map_mul_right, ← expansion_eq]

/-- A product chain expands to the product of the expansions of its factors. -/
theorem prod_expansion_factors {e : Expr (Exact rules)} (h : e.Within v) :
    (e.factors.map expansion).prod = e.expansion :=
  prod_map_factors expansion (P := Expr.Within v)
    (fun _ _ h => ⟨⟨h.1, h.2.1⟩, expansion_mul hv h.1 h.2.1⟩) h

end ClosedPowers

/-- The functions with their arguments expanded, and the expansions of the factors kept whole. -/
noncomputable def expanding : Substitution rules where
  function function := ⟨function.name, function.argument.fullyExpand⟩
  whole := expansion

end Expr

namespace Term

variable {v : Vocabulary rules}

/-- Nothing is put into a term without functions and factors kept whole. -/
theorem formal_eq_of_no_function {t : Term (Exact rules)} (hf : t.functionPowers = .empty)
    (hn : t.nested = []) (s s' : Substitution rules) : t.formal s = t.formal s' := by
  have hpowers (s : Substitution rules) :
      t.powers s = (.ofAdd t.variablePowers.exponentMap, 1, 1) := by
    rw [powers, hf]
    rfl
  rw [formal, formal, hpowers, hpowers, hn]
  rfl

/-- The formal power of a function. -/
noncomputable def functionPower (function : FunctionKey (Exact rules)) (exponent : Exact rules) :
    FormalSum rules :=
  MonoidAlgebra.single (1, .ofAdd (Finsupp.single function exponent), 1) 1

/-- A power of a function read as a term is the formal power of what is put for it. -/
theorem formal_ofFunctions_single (s : Substitution rules) {function : FunctionKey (Exact rules)}
    (hf : function.toExpr.Within v) {exponent : Exact rules}
    (he : v.FunctionExponent function.name exponent) :
    (ofFunctions (.single function exponent)).formal s =
      functionPower (s.function function) exponent := by
  have hexponents : (FunctionPowers.single function exponent).exponentMap =
      Finsupp.single function exponent := by
    have hentry : ∀ entry ∈ [(function, exponent)],
        entry.1.toExpr.Over v ∧ entry.2 ∈ v.numbers :=
      List.forall_mem_singleton.mpr ⟨hf.over, he.mem v⟩
    exact (FunctionPowers.over_foldl_accumulate_empty hentry).2.trans List.sum_singleton
  have hpowers : (ofFunctions (.single function exponent)).powers s =
      (1, .ofAdd (Finsupp.single (s.function function) exponent), 1) := by
    rw [← Finsupp.mapDomain_single, ← hexponents]
    rfl
  rw [formal, hpowers, functionPower, ← mul_one (MonoidAlgebra.single _ 1), ← Exact.one_eq]
  rfl

/-- The formal power of a function to zero is one. -/
theorem functionPower_zero (function : FunctionKey (Exact rules)) :
    functionPower function 0 = (1 : FormalSum rules) := by
  rw [functionPower, Finsupp.single_zero]
  rfl

end Term

namespace Expr

variable {v : Vocabulary rules}

/-- A power of a function is expanded to that power. -/
theorem formal_expandNumericPower_func {function : FunctionKey (Exact rules)}
    (hf : function.toExpr.Within v) {exponent : Exact rules}
    (he : v.HasExponent function.toExpr exponent) :
    (expandNumericPower function.toExpr exponent).isSum = false ∧
      (Term.ofExpr (expandNumericPower function.toExpr exponent)).formal .literal =
        Term.functionPower function exponent := by
  have hexpanded : expandNumericPower function.toExpr exponent =
      if isExpandedPower exponent then wholePower function.toExpr exponent
      else .pow function.toExpr (.const exponent) := rfl
  have hpower : (Term.ofExpr (.pow function.toExpr (.const exponent))).formal .literal =
      Term.functionPower function exponent := Term.formal_ofFunctions_single .literal hf he
  rw [hexpanded]
  split
  · next hwhole =>
    obtain ⟨n, rfl⟩ := exists_natCast_of_isExpandedPower he hwhole
    rw [wholePower, Exact.toInt_natCast, Int.toNat_natCast]
    split
    · rw [Nat.cast_zero, Term.functionPower_zero]
      exact ⟨rfl, Term.formal_unit .literal⟩
    · have hone : (1 : ℕ) = (Scalar.one : Exact rules) := Nat.cast_one.trans Exact.one_eq.symm
      rw [hone] at he ⊢
      exact ⟨rfl, Term.formal_ofFunctions_single .literal hf he⟩
    · exact ⟨rfl, hpower⟩
  · exact ⟨rfl, hpower⟩

variable (hv : ¬v.openPowers)
include hv

/-- A factor expands to its term, when expansions are put for what the term keeps whole. -/
theorem expansion_eq_formal_ofFactor {e : Expr (Exact rules)} (h : e.Within v)
    (hmul : ∀ left right, e ≠ .mul left right) :
    e.expansion = (Term.ofFactor e).formal expanding := by
  have hsame {t : Term (Exact rules)} (hf : t.functionPowers = .empty) (hn : t.nested = []) :
      t.formal .literal = t.formal expanding := Term.formal_eq_of_no_function hf hn _ _
  cases e with
  | const value => exact (expansion_of_isSum_eq_false rfl).trans (hsame rfl rfl)
  | var name => exact (expansion_of_isSum_eq_false rfl).trans (hsame rfl rfl)
  | func name argument =>
    have hone : v.FunctionExponent name (Scalar.one : Exact rules) := by
      simpa using v.functionExponent_natCast name 1
    have hexpanded : (FunctionKey.mk name argument.fullyExpand).toExpr.Within v :=
      ⟨h.1, h.2.fullyExpand hv⟩
    refine (expansion_of_isSum_eq_false rfl).trans ?_
    exact (Term.formal_ofFunctions_single .literal hexpanded hone).trans
      (Term.formal_ofFunctions_single expanding (show (FunctionKey.mk name argument).toExpr.Within v
        from h) hone).symm
  | binary op left right =>
    cases op with
    | mul => exact absurd rfl (hmul left right)
    | pow =>
      obtain ⟨exponent, rfl, he⟩ := exists_const_of_joins hv h.2.2
      cases left with
      | const value =>
        obtain ⟨n, rfl⟩ := he
        have hread : Term.ofFactor (.pow (.const value) (.const (n : Exact rules))) =
            Term.constant (value ^ n) := Term.ofPower_const value n
        have hexpanded : fullyExpand (.pow (.const value) (.const (n : Exact rules))) =
            .number (value ^ n) := expandNumericPower_const value n
        rw [expansion_of_isSum_eq_false (by rw [hexpanded]; rfl), hexpanded, hread]
        exact hsame rfl rfl
      | var name => exact (expansion_of_isSum_eq_false rfl).trans (hsame rfl rfl)
      | func name argument =>
        have hexpanded : (FunctionKey.mk name argument.fullyExpand).toExpr.Within v :=
          ⟨h.1.1, h.1.2.fullyExpand hv⟩
        have hfunction : (FunctionKey.mk name argument).toExpr.Within v := h.1
        have hpower : fullyExpand (.pow (.func name argument) (.const exponent)) =
            expandNumericPower (FunctionKey.mk name argument.fullyExpand).toExpr exponent := rfl
        obtain ⟨hsum, hformal⟩ := formal_expandNumericPower_func hexpanded he
        rw [← hpower] at hsum hformal
        refine (expansion_of_isSum_eq_false hsum).trans (hformal.trans ?_)
        exact (Term.formal_ofFunctions_single expanding hfunction he).symm
      | binary op' left' right' =>
        exact (Term.formal_whole expanding (.pow (.binary op' left' right') (.const exponent))).symm
    | add => exact (Term.formal_whole expanding (.add left right)).symm
    | sub => exact (Term.formal_whole expanding (.sub left right)).symm
    | div => exact (Term.formal_whole expanding (.div left right)).symm

/-- An expression expands to its term, when expansions are put for what the term keeps whole. -/
theorem formal_ofExpr_expanding {e : Expr (Exact rules)} (h : e.Within v) :
    (Term.ofExpr e).formal expanding = e.expansion := by
  rw [Term.formal_ofExpr expanding h, ← prod_expansion_factors hv h]
  refine congrArg List.prod (List.map_congr_left fun factor hf => ?_)
  exact (expansion_eq_formal_ofFactor hv (h.of_mem_factors hf) (ne_mul_of_mem_factors hf)).symm

/-- A negated addend expands to the opposite of the expansion. -/
theorem expansion_negateAddend {e : Expr (Exact rules)} (h : e.Within v) :
    e.negateAddend.expansion = -e.expansion := by
  rw [← formal_ofExpr_expanding hv h, ← formal_ofExpr_expanding hv h.negateAddend,
    Term.formal_negateAddend expanding]

/-- An expression expands to the sum of the expansions of its addends. -/
theorem sum_expansion_addends {e : Expr (Exact rules)} (h : e.Within v) :
    (e.addends.map expansion).sum = e.expansion :=
  sum_map_addends expansion (P := Expr.Within v)
    (fun left right h => ⟨⟨h.1, h.2.1⟩, expansion_add left right⟩)
    (fun left right h => ⟨⟨h.1, h.2.1⟩, expansion_sub left right⟩)
    (fun _ h => ⟨h.negateAddend, expansion_negateAddend hv h⟩) h

/-- A product of a list expands to the product of the expansions. -/
theorem expansion_product {es : List (Expr (Exact rules))} (h : ∀ e ∈ es, e.Within v) :
    (product es).expansion = (es.map expansion).prod := by
  refine map_product expansion (P := Expr.Within v) ?_ (fun left right hl hr => ?_) h
  · rw [int, expansion_const, ← Scalar.one, Exact.one_eq, ← MonoidAlgebra.one_def]
  · exact ⟨hl.mul hr, expansion_mul hv hl hr⟩

omit hv

/-- A sum of a list expands to the sum of the expansions. -/
theorem expansion_sum (es : List (Expr (Exact rules))) :
    (sum es).expansion = (es.map expansion).sum := by
  refine map_sum expansion ?_ expansion_add es
  rw [int, expansion_const, ← Scalar.zero, Exact.zero_eq, MonoidAlgebra.single_zero]

end Expr

namespace Term

variable {v : Vocabulary rules}

/-- The formal power of a variable. -/
noncomputable def variablePower (name : String) (exponent : Exact rules) : FormalSum rules :=
  MonoidAlgebra.single (.ofAdd (Finsupp.single name exponent), 1, 1) 1

/-- The powers of a table of variables multiply to its exponents. -/
theorem prod_variablePower (entries : List (String × Exact rules)) :
    (entries.map fun entry => variablePower entry.1 entry.2).prod =
      MonoidAlgebra.single (.ofAdd (exponentSum entries), 1, 1) 1 := by
  induction entries with
  | nil => rfl
  | cons entry rest ih =>
    have hexponents : exponentSum (entry :: rest) =
        Finsupp.single entry.1 entry.2 + exponentSum rest := List.sum_cons
    rw [List.map_cons, List.prod_cons, ih, variablePower, MonoidAlgebra.single_mul_single,
      hexponents, ofAdd_add, Prod.mk_mul_mk, Prod.mk_mul_mk, one_mul, one_mul, one_mul]

/-- The powers of a table of functions multiply to its exponents. -/
theorem prod_functionPower (function : FunctionKey (Exact rules) → FunctionKey (Exact rules))
    (entries : List (FunctionKey (Exact rules) × Exact rules)) :
    (entries.map fun entry => functionPower (function entry.1) entry.2).prod =
      MonoidAlgebra.single (1, .ofAdd ((exponentSum entries).mapDomain function), 1) 1 := by
  induction entries with
  | nil => rfl
  | cons entry rest ih =>
    have hexponents : (exponentSum (entry :: rest)).mapDomain function =
        Finsupp.single (function entry.1) entry.2 + (exponentSum rest).mapDomain function := by
      rw [exponentSum, List.map_cons, List.sum_cons, Finsupp.mapDomain_add,
        Finsupp.mapDomain_single]
      rfl
    rw [List.map_cons, List.prod_cons, ih, functionPower, MonoidAlgebra.single_mul_single,
      hexponents, ofAdd_add, Prod.mk_mul_mk, Prod.mk_mul_mk, one_mul, one_mul, one_mul]

section ClosedPowers

variable (hv : ¬v.openPowers)
include hv

/-- A power of a variable expands to its formal power. -/
theorem expansion_powerExpr_var {name : String} (hname : v.names name) {exponent : Exact rules}
    {n : ℕ} (hpos : 0 < n) (hn : exponent = n) :
    (powerExpr (.var name) exponent).expansion = variablePower name exponent := by
  have hvariable : (Expr.var name : Expr (Exact rules)).Within v := hname
  have hne : exponent ≠ 0 := by
    rw [hn]
    exact Nat.cast_ne_zero.mpr hpos.ne'
  have hmul (left right : Expr (Exact rules)) :
      powerExpr (.var name) exponent ≠ .mul left right := by
    unfold powerExpr
    split <;> simp
  have hmem : exponent ∈ v.numbers := hn ▸ v.mem_of_natCast n
  have hentry : exponentSum [(name, exponent)] = Finsupp.single name exponent := List.sum_singleton
  rw [Expr.expansion_eq_formal_ofFactor hv (within_powerExpr hvariable ⟨n, hn⟩) hmul,
    ofFactor_powerExpr_var name (v.vanishes_eq_false hmem hne), v.writtenExponent_eq hmem,
    variablePower, ← hentry, ← mul_one
      (MonoidAlgebra.single _ 1), ← Exact.one_eq]
  rfl

/-- A power of a function expands to the formal power of the function with its argument
expanded. -/
theorem expansion_powerExpr_func {function : FunctionKey (Exact rules)}
    (hf : function.toExpr.Within v) {exponent : Exact rules}
    (he : v.FunctionExponent function.name exponent) (hne : exponent ≠ 0) :
    (powerExpr function.toExpr exponent).expansion =
      functionPower (Expr.expanding.function function) exponent := by
  have hmul (left right : Expr (Exact rules)) :
      powerExpr function.toExpr exponent ≠ .mul left right := by
    unfold powerExpr
    split <;> simp [FunctionKey.toExpr]
  rw [Expr.expansion_eq_formal_ofFactor hv (within_powerExpr hf he) hmul,
    ofFactor_powerExpr_func function (v.vanishes_eq_false (he.mem v) hne),
    v.writtenExponent_eq (he.mem v),
    ← FunctionPowers.single_eq function (v.vanishes_eq_false (he.mem v) hne),
    formal_ofFunctions_single Expr.expanding hf he]

/-- The factors of a term beside its coefficient expand to its powers and the expansions of the
factors kept whole. -/
theorem Within.prod_expansion_baseFactors {t : Term (Exact rules)} (h : t.Within v) :
    (t.baseFactors.map Expr.expansion).prod =
      MonoidAlgebra.single (t.powers Expr.expanding) 1 * (t.nested.map Expr.expansion).prod := by
  have hvariables : (t.variableFactors.map Expr.expansion).prod =
      MonoidAlgebra.single (.ofAdd t.variablePowers.exponentMap, 1, 1) 1 := by
    rw [h.reduced.variableFactors_eq, List.map_map, VariablePowers.exponentMap, ← prod_variablePower]
    refine congrArg List.prod (List.map_congr_left fun entry hentry => ?_)
    obtain ⟨hname, n, hpos, hn⟩ := h.variablePowers entry hentry
    exact expansion_powerExpr_var hv hname hpos hn
  have hfunctions : (t.functionFactors.map Expr.expansion).prod = MonoidAlgebra.single
      (1, .ofAdd (t.functionPowers.exponentMap.mapDomain Expr.expanding.function), 1) 1 := by
    rw [h.reduced.functionFactors_eq, List.map_map, FunctionPowers.exponentMap,
      ← exponentSum_eq_of_perm t.functionPowers.sorted_perm, ← prod_functionPower]
    refine congrArg List.prod (List.map_congr_left fun entry hentry => ?_)
    obtain ⟨hf, he, hne⟩ :=
      h.functionPowers.entries entry (t.functionPowers.sorted_perm.mem_iff.mp hentry)
    exact expansion_powerExpr_func hv hf he hne
  rw [baseFactors, List.map_append, List.map_append, List.prod_append, List.prod_append,
    hvariables, hfunctions, MonoidAlgebra.single_mul_single, one_mul]
  have hpowers : ((.ofAdd t.variablePowers.exponentMap, 1, 1) * (1, .ofAdd
      (t.functionPowers.exponentMap.mapDomain Expr.expanding.function), 1) : Shape rules) =
        t.powers Expr.expanding :=
    Prod.ext (mul_one _) (Prod.ext (one_mul _) (one_mul _))
  rw [hpowers]

/-- A term in writing expands to the term, when expansions are put for what it keeps whole. -/
theorem Within.expansion_toExpr {t : Term (Exact rules)} (h : t.Within v) :
    t.toExpr.expansion = t.formal Expr.expanding := by
  have hbase : ∀ factor ∈ t.baseFactors, factor.Within v := fun factor hf => h.of_mem_baseFactors hf
  have hproduct := (Expr.expansion_product hv hbase).trans (h.prod_expansion_baseFactors hv)
  have hformal : t.formal Expr.expanding =
      (Expr.const t.coefficient).expansion * (Expr.product t.baseFactors).expansion := by
    rw [Expr.expansion_const, hproduct, ← mul_assoc, MonoidAlgebra.single_mul_single, one_mul,
      mul_one]
    rfl
  have hwithin : (Expr.product t.baseFactors).Within v := Expr.within_product hbase
  unfold toExpr
  split
  · next hzero =>
    rw [formal_eq_zero _ (h.isZero_iff.mp hzero), Expr.int, Expr.expansion_const, ← Scalar.zero,
      Exact.zero_eq, MonoidAlgebra.single_zero]
  split
  · next hempty =>
    rw [hformal, List.isEmpty_iff.mp hempty, Expr.expansion_product hv (List.forall_mem_nil _),
      List.map_nil, List.prod_nil, mul_one]
    rfl
  split
  · next hone =>
    rw [hformal, (v.isUnit_iff h.coefficient).mp hone, Expr.expansion_const,
      ← MonoidAlgebra.one_def, one_mul]
  split
  · next hminus =>
    rw [Exact.ofInt_eq, v.near_iff h.coefficient (v.mem_of_intCast (-1))] at hminus
    rw [hformal, hminus, Expr.expansion_mul hv (Expr.within_int (-1)) hwithin]
    rfl
  · have hcoefficient : (Expr.const t.coefficient).Within v := h.coefficient
    rw [hformal, ← Expr.expansion_mul hv hcoefficient hwithin]
    rfl

end ClosedPowers

end Term

end SymbolicForms
