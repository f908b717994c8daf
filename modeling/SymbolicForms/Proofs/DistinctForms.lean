import SymbolicForms.Proofs.StrategyMeaning

/-!
# Distinct forms and the cheapest of them

Forms are collected from results one by one: a result that counts as the same
expression as some form is left out, any other is added. Hence no form is the
same as an earlier one, and every result is represented, also those of the
further strategies that are tried while there are few forms. Expressions that
count as the same cost the same, because a cost depends on which exponents are
numbers and not on the numbers. The form that is selected is the first one of
the least cost, so no strategy has a cheaper result.
-/

namespace SymbolicForms

variable {rules : Exactness}

namespace Expr

/-- An expression that is the same as a number is a number. -/
theorem exists_const_of_same {K : Type} [Scalar K] {value : K} {e : Expr K}
    (h : (Expr.const value).same e = true) : ∃ value', e = .const value' := by
  cases e with
  | const value' => exact ⟨value', rfl⟩
  | _ => cases h

/-- Expressions that are the same cost the same. -/
theorem differentiationCost_eq_of_same {K : Type} [Scalar K] {first second : Expr K}
    (h : first.same second = true) : first.differentiationCost = second.differentiationCost := by
  induction first generalizing second with
  | const value =>
    obtain ⟨value', rfl⟩ := exists_const_of_same h
    rfl
  | var name =>
    cases second with
    | var name' => rfl
    | _ => cases h
  | func name argument ih =>
    cases second with
    | func name' argument' =>
      rw [same, Bool.and_eq_true] at h
      rw [differentiationCost, differentiationCost, ih h.2]
    | _ => cases h
  | binary op left right ihl ihr =>
    cases second with
    | binary op' left' right' =>
      rw [same, Bool.and_eq_true, Bool.and_eq_true, beq_iff_eq] at h
      obtain ⟨rfl, hl, hr⟩ := h
      cases op with
      | pow =>
        have hbase := ihl hl
        have hexponent := ihr hr
        cases right with
        | const value =>
          obtain ⟨value', rfl⟩ := exists_const_of_same hr
          rw [differentiationCost, differentiationCost, hbase]
        | _ =>
          cases right' with
          | const value' => cases hr
          | _ =>
            exact congrArg₂ (fun base exponent => (base + exponent) * Scalar.ofInt 4) hbase
              hexponent
      | _ => simp only [differentiationCost, ihl hl, ihr hr]
    | _ => cases h

end Expr

namespace Forms

/-- The forms have different expressions, and every result has the expression of some form. -/
structure Collects (forms : Forms (Exact rules)) (results : List (Expr (Exact rules))) : Prop where
  /-- No form is the same as an earlier one. -/
  distinct : forms.Pairwise fun earlier later => later.expression.same earlier.expression = false
  /-- Every result is the same as some form. -/
  represented : ∀ result ∈ results, forms.hasSame result = true

/-- Without forms and results nothing is missing. -/
theorem collects_nil : Collects [] ([] : List (Expr (Exact rules))) :=
  ⟨List.Pairwise.nil, List.forall_mem_nil _⟩

/-- Some form has an expression exactly when it is the same as the expression of one. -/
theorem hasSame_iff {K : Type} [Scalar K] {forms : Forms K} {e : Expr K} :
    forms.hasSame e = true ↔ ∃ form ∈ forms, form.expression.same e = true := List.any_eq_true

/-- What some form has, it has also when a form is added. -/
theorem hasSame_addNew {K : Type} [Scalar K] {forms : Forms K} {e : Expr K}
    (h : forms.hasSame e = true) (form : Form K) : (forms.addNew form).hasSame e = true := by
  unfold addNew
  split
  · exact h
  · rw [hasSame, List.any_append, Bool.or_eq_true]
    exact Or.inl h

/-- A form that is added is represented. -/
theorem hasSame_addNew_self (forms : Forms (Exact rules)) (form : Form (Exact rules)) :
    (forms.addNew form).hasSame form.expression = true := by
  unfold addNew
  split
  · assumption
  · exact hasSame_iff.mpr
      ⟨form, List.mem_append_right _ (List.mem_singleton_self form), Expr.same_self _⟩

/-- Fewer results are collected as well. -/
theorem Collects.mono {forms : Forms (Exact rules)} {results fewer : List (Expr (Exact rules))}
    (h : forms.Collects results) (hfewer : fewer ⊆ results) : forms.Collects fewer :=
  ⟨h.distinct, fun result hresult => h.represented result (hfewer hresult)⟩

/-- A form is added together with its result. -/
theorem Collects.addNew {forms : Forms (Exact rules)} {results : List (Expr (Exact rules))}
    (h : forms.Collects results) (form : Form (Exact rules)) :
    (forms.addNew form).Collects (results ++ [form.expression]) where
  distinct := by
    unfold Forms.addNew
    split
    · exact h.distinct
    · next hnew =>
      refine List.pairwise_append.mpr ⟨h.distinct, List.pairwise_singleton _ _,
        fun earlier hearlier later hlater => ?_⟩
      rw [List.mem_singleton.mp hlater, Expr.same_comm]
      exact Bool.eq_false_iff.mpr fun hsame => hnew (hasSame_iff.mpr ⟨earlier, hearlier, hsame⟩)
  represented result hresult := by
    rcases List.mem_append.mp hresult with hold | hself
    · exact hasSame_addNew (h.represented result hold) form
    · rw [List.mem_singleton.mp hself]
      exact hasSame_addNew_self forms form

end Forms

namespace Selection

/-- A position has the least of some costs, and earlier ones are greater. -/
structure FirstLeast (costs : List (Exact rules)) (position : ℕ) (cost : Exact rules) : Prop where
  /-- The cost stands at the position. -/
  getElem?_eq : costs[position]? = some cost
  /-- No cost is less. -/
  le : ∀ other ∈ costs, cost ≤ other
  /-- The costs in front of the position are greater. -/
  lt : ∀ other ∈ costs.take position, cost < other

/-- One more cost is compared with the least one so far. -/
theorem FirstLeast.append_singleton {costs : List (Exact rules)} {best : ℕ} {cost : Exact rules}
    (h : FirstLeast costs best cost) (candidate : Exact rules) :
    if candidate < cost then FirstLeast (costs ++ [candidate]) costs.length candidate
    else FirstLeast (costs ++ [candidate]) best cost := by
  obtain ⟨hbest, -⟩ := List.getElem?_eq_some_iff.mp h.getElem?_eq
  split
  · next hlt =>
    refine ⟨List.getElem?_concat_length, fun other hother => ?_, fun other hother => ?_⟩
    · rcases List.mem_append.mp hother with hold | hself
      · exact hlt.le.trans (h.le other hold)
      · exact (List.mem_singleton.mp hself).ge
    · rw [List.take_left] at hother
      exact hlt.trans_le (h.le other hother)
  · next hge =>
    refine ⟨by rw [List.getElem?_append_left hbest, h.getElem?_eq], fun other hother => ?_,
      fun other hother => ?_⟩
    · rcases List.mem_append.mp hother with hold | hself
      · exact h.le other hold
      · exact (List.mem_singleton.mp hself).symm ▸ not_lt.mp hge
    · rw [List.take_append_of_le_length hbest.le] at hother
      exact h.lt other hother

/-- The search goes on from the least cost so far. -/
theorem FirstLeast.leastFrom {costs : List (Exact rules)} {best : ℕ} {cost : Exact rules}
    (h : FirstLeast costs best cost) (rest : List (Exact rules)) :
    ∃ least, FirstLeast (costs ++ rest) (leastFrom costs.length best cost rest) least := by
  induction rest generalizing costs best cost with
  | nil => exact ⟨cost, by rwa [List.append_nil]⟩
  | cons candidate rest ih =>
    have hnext := h.append_singleton candidate
    have hlength : costs.length + 1 = (costs ++ [candidate]).length := by
      rw [List.length_append, List.length_singleton]
    have hrest : costs ++ candidate :: rest = (costs ++ [candidate]) ++ rest := by
      rw [List.append_assoc, List.singleton_append]
    rw [Selection.leastFrom, hrest, hlength]
    by_cases hlt : candidate < cost
    · rw [if_pos hlt] at hnext
      rw [if_pos ((Exact.lt_iff _ _).mpr hlt)]
      exact ih hnext
    · rw [if_neg hlt] at hnext
      rw [if_neg (mt (Exact.lt_iff _ _).mp hlt)]
      exact ih hnext

/-- The least cost is found at its first position. -/
theorem exists_firstLeast_leastIndex {costs : List (Exact rules)} (hne : costs ≠ []) :
    ∃ least, FirstLeast costs (leastIndex costs) least := by
  obtain ⟨cost, rest, rfl⟩ := List.exists_cons_of_ne_nil hne
  have hfirst : FirstLeast [cost] 0 cost :=
    ⟨rfl, fun other hother => (List.mem_singleton.mp hother).ge, fun _ hother => nomatch hother⟩
  exact hfirst.leastFrom rest

/-- The selected position is that of the least cost; a single candidate needs no comparison. -/
theorem value_cheapestIndex {K : Type} [Scalar K] (candidates : List (Expr K))
    (threshold : LogLevel) : (cheapestIndex candidates).value threshold =
      leastIndex (candidates.map Expr.differentiationCost) := by
  match candidates with
  | [] => rfl
  | [_] => rfl
  | _ :: _ :: _ => rfl

/-- The selected candidate is the first one of the least cost. -/
theorem exists_value_cheapest_firstLeast {α : Type} (expression : α → Expr (Exact rules))
    {candidates : List α} (hne : candidates ≠ []) (threshold : LogLevel) :
    ∃ position candidate, candidates[position]? = some candidate ∧
      (cheapest expression candidates).value threshold = .ok candidate ∧
      FirstLeast (candidates.map fun other => (expression other).differentiationCost) position
        (expression candidate).differentiationCost := by
  obtain ⟨first, rest, rfl⟩ := List.exists_cons_of_ne_nil hne
  have hcosts : ((first :: rest).map fun other => (expression other).differentiationCost) ≠ [] :=
    List.cons_ne_nil _ _
  obtain ⟨least, hleast⟩ := exists_firstLeast_leastIndex hcosts
  have hfound := hleast.getElem?_eq
  rw [List.getElem?_map, Option.map_eq_some_iff] at hfound
  obtain ⟨candidate, hcandidate, rfl⟩ := hfound
  refine ⟨_, candidate, hcandidate, ?_, hleast⟩
  rw [cheapest, Logged.value_bind, value_cheapestIndex, Logged.value_pure, List.map_map]
  exact congrArg (fun found => Except.ok (Option.getD found first)) hcandidate

end Selection

namespace Expr

/-- The strategies whose results are always among the distinct forms. -/
def mainStrategies {K : Type} [Scalar K] : List (Expr K → Logged (Expr K)) :=
  [cleanup false, cleanup true, factorStrategy, fractionStrategy, fullySimplify]

/-- The strategies that are tried while there are few forms. -/
def paddingStrategies {K : Type} [Scalar K] : List (Expr K → Logged (Expr K)) :=
  [partialStrategy, alternativeStrategy]

/-- The results of some strategies. -/
def results {K : Type} (strategies : List (Expr K → Logged (Expr K))) (e : Expr K)
    (threshold : LogLevel) : List (Expr K) :=
  strategies.map fun strategy => (strategy e).value threshold

/-- The result of a strategy is collected when it is added. -/
theorem collects_addStrategy (e : Expr (Exact rules)) (threshold : LogLevel)
    {forms : Forms (Exact rules)} {found : List (Expr (Exact rules))} (h : forms.Collects found)
    (number : ℕ) (strategy : Expr (Exact rules) → Logged (Expr (Exact rules))) (kind : FormKind)
    (label : String) :
    ((e.addStrategy number strategy kind label forms).value threshold).Collects
      (found ++ [(strategy e).value threshold]) := by
  rw [value_addStrategy]
  exact h.addNew ⟨_, kind, label⟩

/-- Where there are enough forms, no strategy is tried; otherwise its result is collected. -/
theorem collects_addIfFew (e : Expr (Exact rules)) (threshold : LogLevel)
    {forms : Forms (Exact rules)} {found : List (Expr (Exact rules))} (h : forms.Collects found)
    (number : ℕ) (strategy : Expr (Exact rules) → Logged (Expr (Exact rules))) (kind : FormKind)
    (label : String) :
    (fewForms ≤ forms.length →
      (e.addIfFew number strategy kind label forms).value threshold = forms) ∧
    (forms.length < fewForms →
      ((e.addIfFew number strategy kind label forms).value threshold).Collects
        (found ++ [(strategy e).value threshold])) := by
  constructor
  · intro henough
    rw [addIfFew, if_neg (Nat.not_lt.mpr henough), Logged.value_pure]
  · intro hfew
    rw [addIfFew, if_pos hfew]
    exact collects_addStrategy e threshold h number strategy kind label

/-- The distinct forms collect the results of the main strategies, and those of the padding
strategies unless there are enough forms without them. -/
theorem collects_distinctForms (e : Expr (Exact rules)) (threshold : LogLevel) :
    let forms := e.distinctForms.value threshold
    forms.Collects (results mainStrategies e threshold) ∧
      (fewForms ≤ forms.length ∨ forms.Collects (results paddingStrategies e threshold)) := by
  have hexpanded := collects_addStrategy e threshold Forms.collects_nil 1 (cleanup false)
    .expanded "expanded"
  have hidentities := collects_addStrategy e threshold hexpanded 2 (cleanup true)
    .structural "trig simplified"
  have hfactored := collects_addStrategy e threshold hidentities 3 factorStrategy
    .factored "factored"
  have hreduced := collects_addStrategy e threshold hfactored 4 fractionStrategy
    .factored "fraction reduced"
  have hmain := collects_addStrategy e threshold hreduced 5 fullySimplify
    .factored "fully simplified"
  rw [value_distinctForms]
  simp only [strategyForms, Logged.value_bind]
  generalize (e.addStrategy 5 fullySimplify _ _ _).value threshold = forms at hmain ⊢
  obtain ⟨hkept, hadded⟩ := collects_addIfFew e threshold hmain 6 partialStrategy
    .structural "intermediate"
  obtain henough | hfew := le_or_gt fewForms forms.length
  · -- enough forms before the padding strategies: neither of them is tried
    have hkept' := (collects_addIfFew e threshold hmain 7 alternativeStrategy
      .structural "alternative").1 henough
    rw [hkept henough, hkept']
    exact ⟨hmain, Or.inl henough⟩
  have hpartial := hadded hfew
  generalize (e.addIfFew 6 partialStrategy _ _ forms).value threshold = forms at hpartial ⊢
  obtain ⟨hkept, hadded⟩ := collects_addIfFew e threshold hpartial 7 alternativeStrategy
    .structural "alternative"
  obtain henough | hfew := le_or_gt fewForms forms.length
  · rw [hkept henough]
    exact ⟨hpartial.mono (List.subset_append_left _ _), Or.inl henough⟩
  · have hall := hadded hfew
    rw [List.append_assoc] at hall
    exact ⟨hall.mono (List.subset_append_left _ _),
      Or.inr (hall.mono (List.subset_append_right _ _))⟩

/-- No distinct form is the same as an earlier one. The result of every main strategy is
represented, and so are the results of the padding strategies unless there are enough forms.
Preparation for differentiation gives the first form of the least cost, which is at most the cost of
the result of every main strategy. -/
theorem distinctForms_represent_and_prepared_isFirstLeast (e : Expr (Exact rules))
    (threshold : LogLevel) :
    let forms := e.distinctForms.value threshold
    let represented (strategy : Expr (Exact rules) → Logged (Expr (Exact rules))) : Prop :=
      ∃ form ∈ forms, form.expression.same ((strategy e).value threshold) = true
    (forms.Pairwise fun earlier later => later.expression.same earlier.expression = false) ∧
      (∀ strategy ∈ mainStrategies, represented strategy) ∧
      (fewForms ≤ forms.length ∨ ∀ strategy ∈ paddingStrategies, represented strategy) ∧
      ∃ position form, forms[position]? = some form ∧
        e.prepareForDifferentiation.value threshold = .ok form.expression ∧
        (∀ earlier ∈ forms.take position,
          form.expression.differentiationCost < earlier.expression.differentiationCost) ∧
        (∀ other ∈ forms,
          form.expression.differentiationCost ≤ other.expression.differentiationCost) ∧
        ∀ strategy ∈ mainStrategies, form.expression.differentiationCost ≤
          ((strategy e).value threshold).differentiationCost := by
  intro forms represented
  obtain ⟨hmain, hpadding⟩ := collects_distinctForms e threshold
  have hrepresented {strategies : List (Expr (Exact rules) → Logged (Expr (Exact rules)))}
      (h : forms.Collects (results strategies e threshold)) :
      ∀ strategy ∈ strategies, represented strategy := fun strategy hstrategy =>
    Forms.hasSame_iff.mp (h.represented _ (List.mem_map_of_mem hstrategy))
  have hne : forms ≠ [] := by
    obtain ⟨form, hform, -⟩ := hrepresented hmain _ List.mem_cons_self
    exact List.ne_nil_of_mem hform
  obtain ⟨position, form, hform, hcheapest, hleast⟩ :=
    Selection.exists_value_cheapest_firstLeast Form.expression hne threshold
  have hle (other : Form (Exact rules)) (hother : other ∈ forms) :
      form.expression.differentiationCost ≤ other.expression.differentiationCost :=
    hleast.le _ (List.mem_map_of_mem hother)
  refine ⟨hmain.distinct, hrepresented hmain, hpadding.imp_right hrepresented, position, form,
    hform, ?_, fun earlier hearlier => ?_, hle, fun strategy hstrategy => ?_⟩
  · rw [prepareForDifferentiation, Logged.value_bind, Logged.value_bind, Logged.value_pure,
      Selection.cheapestForm, hcheapest]
    rfl
  · refine hleast.lt _ ?_
    rw [← List.map_take]
    exact List.mem_map_of_mem hearlier
  · obtain ⟨other, hother, hsame⟩ := hrepresented hmain strategy hstrategy
    exact (hle other hother).trans_eq (differentiationCost_eq_of_same hsame)

end Expr

end SymbolicForms
