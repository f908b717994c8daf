import SymbolicForms.Proofs.Names
import SymbolicForms.Proofs.StrategyMeaning

/-!
# Names that passes keep

Every pass keeps to the names of its expression. Only trigonometric identities
bring in functions, and these are the six functions of an angle. Rounds of
passes, their repetition, the forms of an expression and the strategies are made
of passes, so none of them leads out of names that include these six.
-/

namespace SymbolicForms

variable {K : Type} {names : Names}

/-- The functions that identities bring in. -/
def Names.identityFunctions : Set String := {"sin", "cos", "tan", "cot", "sec", "csc"}

namespace PowerSplit

variable [Scalar K]

/-- What is read as a power of a function has the names of the factor. -/
theorem namesIn_functionPower? {factor : Expr K} (h : factor.NamesIn names)
    {power : FunctionKey K × K} (hp : functionPower? factor = some power) :
    power.1.toExpr.NamesIn names := by
  obtain ⟨rfl, -⟩ | rfl := functionPower?_eq_some_iff.mp hp
  · exact h
  · exact h.1

/-- The parts of a split, joined again, have the names of its powers and other factors. -/
theorem namesIn_factors {split : PowerSplit K} (hp : split.powers.NamesIn names)
    (ho : ∀ factor ∈ split.others, factor.NamesIn names) :
    ∀ factor ∈ split.factors, factor.NamesIn names := by
  refine List.forall_mem_append.mpr ⟨ho, List.forall_mem_map.mpr fun entry hentry => ?_⟩
  exact Term.namesIn_powerExpr (hp entry hentry) entry.2

/-- Collecting powers of functions keeps the names of the factors. -/
theorem namesIn_ofFactors (accepts : String → Bool) {factors : List (Expr K)}
    (h : ∀ factor ∈ factors, factor.NamesIn names) :
    (ofFactors accepts factors).powers.NamesIn names ∧
      ∀ factor ∈ (ofFactors accepts factors).others, factor.NamesIn names := by
  constructor
  · refine FunctionPowers.NamesIn.foldl_accumulate Prod.snd (fun power hpower => ?_)
      FunctionPowers.namesIn_empty
    obtain ⟨factor, hfactor, hread⟩ := List.mem_filterMap.mp hpower
    exact namesIn_functionPower? (h factor hfactor) (Option.filter_eq_some_iff.mp hread).1
  · exact fun factor hfactor => h factor (List.mem_filter.mp hfactor).1

end PowerSplit

namespace Term

variable [Scalar K]

/-- The variables that terms share are among those of the first one. -/
theorem NamesIn.commonVariables {first : Term K} (h : first.NamesIn names)
    (others : List (Term K)) : (commonVariables first others).NamesIn names := by
  intro entry hentry
  rw [entries_commonVariables] at hentry
  obtain ⟨old, hold, hread⟩ := List.mem_filterMap.mp hentry
  obtain ⟨least, -, rfl⟩ := Option.map_eq_some_iff.mp hread
  exact h.variablePowers old hold

/-- The functions that terms share are among those of the first one. -/
theorem NamesIn.commonFunctions {first : Term K} (h : first.NamesIn names)
    (others : List (Term K)) : (commonFunctions first others).NamesIn names := by
  have collected (entries : List (FunctionKey K × K))
      (he : ∀ entry ∈ entries, entry.1.toExpr.NamesIn names) (powers : FunctionPowers K)
      (hp : powers.NamesIn names) :
      (entries.foldl (fun powers entry => powers.set entry.1 entry.2) powers).NamesIn names := by
    induction entries generalizing powers with
    | nil => exact hp
    | cons entry rest ih =>
      obtain ⟨hentry, hrest⟩ := List.forall_mem_cons.mp he
      exact ih hrest _ (hp.set hentry entry.2)
  refine collected _ (fun entry hentry => ?_) _ FunctionPowers.namesIn_empty
  obtain ⟨old, hold, hread⟩ := List.mem_filterMap.mp hentry
  obtain ⟨least, -, rfl⟩ := Option.map_eq_some_iff.mp hread
  exact h.functionPowers old hold

/-- The common factor of terms has no names but theirs. -/
theorem namesIn_commonFactor {terms : List (Term K)} (h : ∀ t ∈ terms, t.NamesIn names) :
    (commonFactor terms).NamesIn names := by
  cases terms with
  | nil => exact namesIn_constant _
  | cons first others =>
    have hfirst := h first List.mem_cons_self
    exact ⟨hfirst.commonVariables others, hfirst.commonFunctions others, List.forall_mem_nil _⟩

/-- A factor taken out of terms brings in no names but its own. -/
theorem namesIn_factored {terms : List (Term K)} (h : ∀ t ∈ terms, t.NamesIn names)
    {factor : Term K} (hf : factor.NamesIn names) : (factored terms factor).NamesIn names := by
  have hrest : (Expr.sum (terms.map fun t => (t.divide factor).toExpr)).NamesIn names :=
    Expr.namesIn_sum (List.forall_mem_map.mpr fun t ht => ((h t ht).divide hf).toExpr)
  unfold factored
  dsimp only
  split
  · exact hrest
  · exact ⟨hf.toExpr, hrest⟩

end Term

namespace ExponentialSides

variable [Scalar K]

/-- The names on the two sides of a quotient are among given ones. -/
def NamesIn (names : Names) (sides : ExponentialSides K) : Prop :=
  sides.top.NamesIn names ∧ sides.bottom.NamesIn names

/-- Cancelling the common exponentials brings in no names. -/
theorem NamesIn.cancelCommon {sides : ExponentialSides K} (h : sides.NamesIn names) :
    (sides.common.foldl ExponentialSides.cancel sides).NamesIn names :=
  forall_mem_cancelCommon (P := fun function => function.toExpr.NamesIn names) h.1 h.2

end ExponentialSides

namespace Expr

/-- A pass leads from expressions with given names to such expressions. -/
def KeepsNames (names : Names) (pass : Expr K → Expr K) : Prop :=
  ∀ ⦃e⦄, e.NamesIn names → (pass e).NamesIn names

/-- Passes that keep names may be applied one after another. -/
theorem KeepsNames.comp {first second : Expr K → Expr K} (hsecond : KeepsNames names second)
    (hfirst : KeepsNames names first) : KeepsNames names fun e => second (first e) :=
  fun _ h => hsecond (hfirst h)

/-- A rule that joins two operands keeps names from the leaves to the root if it keeps them at one
operator. -/
theorem keepsNames_rebuild {join : Op → Expr K → Expr K → Expr K}
    (hjoin : ∀ op left right, (Expr.binary op left right).NamesIn names →
      (join op left right).NamesIn names) : KeepsNames names (rebuild join) := by
  intro e h
  induction e with
  | const value => exact h
  | var name => exact h
  | func name argument ih => exact ⟨h.1, ih h.2⟩
  | binary op left right ihl ihr => exact hjoin _ _ _ ⟨ihl h.1, ihr h.2⟩

variable [Scalar K]

/-- A pass that keeps names may be repeated until nothing changes. -/
theorem KeepsNames.settle {round : Expr K → Expr K} (h : KeepsNames names round) (limit : ℕ) :
    KeepsNames names (settle round limit) :=
  fun _ he => settle_of_invariant _ (fun _ hx => h hx) limit he

section Cleanup

theorem keepsNames_foldConstants : KeepsNames names (foldConstants (K := K)) := by
  refine keepsNames_rebuild fun op left right h => ?_
  unfold Op.foldNumbers
  split
  · split
    · exact trivial
    · exact h
  · exact h

theorem keepsNames_removeZeros : KeepsNames names (removeZeros (K := K)) := by
  refine keepsNames_rebuild fun op left right h => ?_
  unfold Op.removeZero
  split
  · split
    · exact h.2
    split
    · exact h.1
    · exact h
  · split
    · exact trivial
    · exact h
  · exact h

theorem keepsNames_removeOnes : KeepsNames names (removeOnes (K := K)) := by
  refine keepsNames_rebuild fun op left right h => ?_
  unfold Op.removeOne
  split
  · split
    · exact h.2
    split
    · exact h.1
    · exact h
  · exact h

theorem keepsNames_simplifyPowers : KeepsNames names (simplifyPowers (K := K)) := by
  refine keepsNames_rebuild fun op left right h => ?_
  unfold Op.removePower
  split
  · split
    · exact trivial
    split
    · exact h.1
    · exact h
  · exact h

end Cleanup

section NumericFactors

/-- Multiplying runs of numbers keeps the names of the factors. -/
theorem namesIn_mergeRuns (run : Option K) {factors : List (Expr K)}
    (h : ∀ factor ∈ factors, factor.NamesIn names) :
    ∀ factor ∈ mergeRuns run factors, factor.NamesIn names :=
  forall_mem_mergeRuns_of_const (fun _ => trivial) run h

theorem keepsNames_foldChain : KeepsNames names (foldChain (K := K)) := by
  intro e h
  unfold foldChain
  split
  · dsimp only
    split
    · exact h
    · exact namesIn_product (namesIn_mergeRuns none fun factor hfactor => h.of_mem_factors hfactor)
  · exact h

theorem keepsNames_foldInside : KeepsNames names (foldInside (K := K)) := by
  intro e h
  induction e with
  | const value => exact h
  | var name => exact h
  | func name argument ih => exact ⟨h.1, keepsNames_foldChain (ih h.2)⟩
  | binary op left right ihl ihr =>
    have hl := ihl h.1
    have hr := ihr h.2
    cases op with
    | mul => exact ⟨hl, hr⟩
    | _ => exact ⟨keepsNames_foldChain hl, keepsNames_foldChain hr⟩

theorem keepsNames_foldNumericFactors : KeepsNames names (foldNumericFactors (K := K)) :=
  keepsNames_foldChain.comp keepsNames_foldInside

end NumericFactors

section Trigonometry

/-- The angle of a product of sine and cosine has names of the product. -/
theorem NamesIn.of_sineCosine? {e : Expr K} (h : e.NamesIn names) {found : AngleMatch K}
    (hfound : sineCosine? e = some found) : found.angle.NamesIn names :=
  (h.of_mem_factors (sine_mem_factors hfound)).2

/-- The angle of a square has names of the square. -/
theorem NamesIn.of_square? {function : String} {e : Expr K} (h : e.NamesIn names)
    {found : AngleMatch K} (hfound : square? function e = some found) :
    found.angle.NamesIn names := by
  obtain ⟨exponent, hsquare⟩ := exists_square_mem_factors hfound
  exact (h.of_mem_factors hsquare).1.2

/-- The angle of a pair of squares has names of the first one. -/
theorem NamesIn.of_squarePair? {function other : String} {left right : Expr K}
    (h : left.NamesIn names) {found : AngleMatch K}
    (hfound : squarePair? function other left right = some found) : found.angle.NamesIn names := by
  unfold squarePair? at hfound
  split at hfound
  · next first second hfirst hsecond =>
    rw [Option.ite_none_right_eq_some, Option.some_inj] at hfound
    exact hfound.2 ▸ h.of_square? hfirst
  · cases hfound

/-- A named function of a double angle, with a number in front, has that name and the names of the
angle. -/
theorem NamesIn.scaled_doubleAngle {angle : Expr K} (h : angle.NamesIn names) {name : String}
    (hname : name ∈ names.functionNames) (factor : K) :
    (scaled factor (.func name (doubleAngle angle))).NamesIn names := by
  have hfunction : (Expr.func name (doubleAngle angle)).NamesIn names := ⟨hname, trivial, h⟩
  unfold scaled
  split
  · exact hfunction
  · exact ⟨trivial, hfunction⟩

/-- A rule that keeps names at the root keeps them in a sweep. -/
theorem keepsNames_sweep {rule : Expr K → Expr K} (hrule : KeepsNames names rule) :
    KeepsNames names (sweep rule) := by
  intro e h
  rw [sweep_eq_rebuild]
  exact keepsNames_rebuild (fun op left right hoperands => hrule hoperands) h

theorem keepsNames_pythagoreanRule : KeepsNames names (pythagoreanRule (K := K)) := by
  intro e h
  unfold pythagoreanRule
  split
  · split
    · exact trivial
    split
    · exact trivial
    · exact h
  · exact h

variable (hidentities : Names.identityFunctions ⊆ names.functionNames)
include hidentities

theorem keepsNames_doubleAngleRule : KeepsNames names (doubleAngleRule (K := K)) := by
  have hsin : "sin" ∈ names.functionNames := hidentities (by simp [Names.identityFunctions])
  have hcos : "cos" ∈ names.functionNames := hidentities (by simp [Names.identityFunctions])
  intro e h
  unfold doubleAngleRule
  split
  · split
    · next found hfound => exact (h.of_sineCosine? hfound).scaled_doubleAngle hsin _
    · exact h
  · split
    · next found hfound => exact (h.1.of_squarePair? hfound).scaled_doubleAngle hcos _
    · exact h
  · exact h

theorem keepsNames_quotientRule : KeepsNames names (quotientRule (K := K)) := by
  have known {name : String} (hname : name ∈ Names.identityFunctions) {angle : Expr K}
      (hangle : angle.NamesIn names) : (Expr.func name angle).NamesIn names :=
    ⟨hidentities hname, hangle⟩
  intro e h
  unfold quotientRule
  split
  · split
    · exact known (by simp [Names.identityFunctions]) h.1.2
    split
    · exact known (by simp [Names.identityFunctions]) h.1.2
    · exact h
  · split
    · exact known (by simp [Names.identityFunctions]) h.2.2
    split
    · exact known (by simp [Names.identityFunctions]) h.2.2
    · exact h
  · exact h

/-- All trigonometric identities together bring in no names but those of the six functions. -/
theorem keepsNames_trigonometricForm : KeepsNames names (trigonometricForm (K := K)) := by
  have hround : KeepsNames names (trigonometricRound (K := K)) :=
    (keepsNames_sweep (keepsNames_quotientRule hidentities)).comp
      ((keepsNames_sweep keepsNames_pythagoreanRule).comp
        (keepsNames_sweep (keepsNames_doubleAngleRule hidentities)))
  exact keepsNames_foldNumericFactors.comp (hround.settle roundLimit)

end Trigonometry

section Factors

/-- Collecting equal functions in a product brings in no names. -/
theorem keepsNames_collectFunctions : KeepsNames names (collectFunctions (K := K)) := by
  intro e h
  rw [collectFunctions_eq]
  dsimp only
  split
  · exact h
  · have hsplit := PowerSplit.namesIn_ofFactors (fun _ => true)
      fun factor hfactor => h.of_mem_factors hfactor
    exact namesIn_product (PowerSplit.namesIn_factors hsplit.1 hsplit.2)

/-- Taking out a common factor brings in no names. -/
theorem NamesIn.of_factorOut? {e factored : Expr K} (h : e.NamesIn names)
    (hf : e.factorOut? = some factored) : factored.NamesIn names := by
  have hterms : ∀ t ∈ e.factorTerms, t.NamesIn names :=
    List.forall_mem_map.mpr fun addend haddend =>
      Term.namesIn_ofExpr (keepsNames_collectFunctions (h.of_mem_addends haddend))
  obtain ⟨factor, hfactor, rfl⟩ := Option.map_eq_some_iff.mp hf
  have hcommon : factor.NamesIn names := by
    unfold commonFactor? at hfactor
    split at hfactor
    · cases hfactor
    · dsimp only at hfactor
      rw [Option.ite_none_left_eq_some, Option.some_inj] at hfactor
      exact hfactor.2 ▸ Term.namesIn_commonFactor hterms
  refine Term.namesIn_factored hterms ?_
  split
  · exact hcommon
  · exact Term.namesIn_constant _

/-- Extraction of a common factor keeps names. -/
theorem keepsNames_extractFactor (threshold : LogLevel) :
    KeepsNames names fun e : Expr K => e.extractFactor.value threshold := by
  intro e h
  simp only [extractFactor, Logged.value_bind, Logged.value_pure, value_extractFactor?]
  cases hfactored : e.factorOut? with
  | none => exact h
  | some factored => exact h.of_factorOut? hfactored

end Factors

section Exponentials

/-- One cancellation of exponentials brings in no names. -/
theorem NamesIn.of_cancelExponentialsOnce? {e next : Expr K} (h : e.NamesIn names)
    (hn : e.cancelExponentialsOnce? = some next) : next.NamesIn names := by
  have splitted {side : Expr K} (hside : side.NamesIn names) :=
    PowerSplit.namesIn_ofFactors (· == exponentialName)
      fun factor hfactor => hside.of_mem_factors hfactor
  unfold cancelExponentialsOnce? at hn
  split at hn
  · next numerator denominator =>
    dsimp only at hn
    rw [Option.ite_none_left_eq_some, Option.some_inj] at hn
    obtain ⟨-, rfl⟩ := hn
    obtain ⟨htop, htopOthers⟩ := splitted h.1
    obtain ⟨hbottom, hbottomOthers⟩ := splitted h.2
    have hsides : ExponentialSides.NamesIn names
        ⟨numerator.splitExponentials.powers, denominator.splitExponentials.powers⟩ :=
      ⟨htop, hbottom⟩
    have hreduced := hsides.cancelCommon
    exact ⟨namesIn_product (PowerSplit.namesIn_factors hreduced.1 htopOthers),
      namesIn_product (PowerSplit.namesIn_factors hreduced.2 hbottomOthers)⟩
  · cases hn

/-- Repeated cancellation of exponentials brings in no names. -/
theorem NamesIn.of_cancelRounds? (limit : ℕ) {e cancelled : Expr K} (h : e.NamesIn names)
    (hc : cancelRounds? limit e = some cancelled) : cancelled.NamesIn names := by
  induction limit generalizing e cancelled with
  | zero => cases hc
  | succ limit ih =>
    unfold cancelRounds? at hc
    split at hc
    · cases hc
    · next step hstep =>
      have hnext := h.of_cancelExponentialsOnce? hstep
      rw [Option.ite_none_left_eq_some, Option.some_inj] at hc
      obtain ⟨-, rfl⟩ := hc
      cases hrounds : cancelRounds? limit step with
      | none => exact hnext
      | some last => exact ih hnext hrounds

/-- Cancellation of exponentials keeps names. -/
theorem keepsNames_cancelExponentials : KeepsNames names (cancelExponentials (K := K)) := by
  intro e h
  unfold cancelExponentials
  cases hcancelled : e.cancelExponentials? with
  | none => exact h
  | some cancelled => exact h.of_cancelRounds? cancellationLimit hcancelled

end Exponentials

end Expr

namespace Forms

/-- The names of all forms are among given ones. -/
def NamesIn (names : Names) (forms : Forms K) : Prop :=
  ∀ form ∈ forms, form.expression.NamesIn names

/-- A form with such names may be added. -/
theorem NamesIn.addNew [Scalar K] {forms : Forms K} (h : forms.NamesIn names) {form : Form K}
    (hf : form.expression.NamesIn names) : (forms.addNew form).NamesIn names := by
  intro other hother
  obtain hmem | rfl := mem_addNew hother
  · exact h other hmem
  · exact hf

/-- The expression of a form that may be missing, or else another one with such names. -/
theorem NamesIn.getD_map {forms : Forms K} (h : forms.NamesIn names) {form? : Option (Form K)}
    (hmem : ∀ form, form? = some form → form ∈ forms) {e : Expr K} (he : e.NamesIn names) :
    ((form?.map Form.expression).getD e).NamesIn names := by
  cases form? with
  | none => exact he
  | some form => exact h form (hmem form rfl)

end Forms

namespace Expr

variable [Scalar K]

section Forms

/-- A changed expression with such names may be added, if there is one. -/
theorem namesIn_addChanged (e : Expr K) {forms : Forms K} (h : forms.NamesIn names)
    {changed? : Option (Expr K)}
    (hc : ∀ changed, changed? = some changed → changed.NamesIn names) (label : String) :
    (e.addChanged forms changed? label).NamesIn names := by
  unfold addChanged
  split
  · exact h
  · next changed =>
    split
    · exact h
    · exact h.addNew (hc changed rfl)

/-- The forms of an expression have its names. -/
theorem NamesIn.formsWith {e : Expr K} (h : e.NamesIn names) {factored? : Option (Expr K)}
    (hf : ∀ factored, factored? = some factored → factored.NamesIn names) :
    (e.formsWith factored?).NamesIn names := by
  have hstandard : Forms.NamesIn names [⟨e, .expanded, Form.standardLabel⟩] :=
    List.forall_mem_singleton.mpr h
  unfold Expr.formsWith
  split
  · next numerator denominator =>
    dsimp only
    have hquotient : ∀ changed, ((factored?.filter fun top => !top.same numerator).map
        fun top => Expr.div top denominator) = some changed → changed.NamesIn names := by
      intro changed hchanged
      obtain ⟨top, htop, rfl⟩ := Option.map_eq_some_iff.mp hchanged
      exact ⟨hf top (Option.filter_eq_some_iff.mp htop).1, h.2⟩
    refine namesIn_addChanged _ (namesIn_addChanged _ hstandard hquotient _)
      (fun changed hchanged => ?_) _
    refine NamesIn.of_cancelRounds? cancellationLimit ?_ hchanged
    generalize ((factored?.filter fun top => !top.same numerator).map
      fun top => Expr.div top denominator) = quotient? at hquotient
    cases quotient? with
    | none => exact h
    | some quotient => exact hquotient quotient rfl
  · exact namesIn_addChanged _ hstandard hf _

/-- The expression, its factored form and its form without common exponentials have its names. -/
theorem NamesIn.allForms {e : Expr K} (h : e.NamesIn names) (threshold : LogLevel) :
    (e.allForms.value threshold).NamesIn names := by
  have hpart : e.factoredPart.NamesIn names := by
    unfold factoredPart
    split
    · exact h.1
    · exact h
  rw [value_allForms]
  exact h.formsWith fun factored hfactored => hpart.of_factorOut? hfactored

end Forms

section Strategies

/-- Putting numbers at their places keeps names. -/
theorem NamesIn.putFrom {e : Expr K} (h : e.NamesIn names) (steps : List ℕ) (index : ℕ) :
    (e.putFrom steps index).1.NamesIn names := by
  induction e generalizing index with
  | const value => exact trivial
  | var name => exact h
  | func name argument ih => exact ⟨h.1, ih h.2 index⟩
  | binary op left right ihl ihr => exact ⟨ihl h.1 index, ihr h.2 _⟩

theorem keepsNames_placed (step : ℕ) : KeepsNames names (placed (K := K) step) :=
  fun _ h => h.putFrom _ _

/-- A step by a function that keeps names keeps them. -/
theorem keepsNames_tryStep_ofFunction (step : String) {function : Expr K → Expr K}
    (h : KeepsNames names function) (threshold : LogLevel) :
    KeepsNames names fun e => (tryStep step (.ofFunction function) e).value threshold :=
  h.comp (keepsNames_placed 0)

/-- A step by a function with messages keeps names if its results do. -/
theorem keepsNames_tryStep_ofLogged (step : String) {function : Expr K → Logged (Expr K)}
    {threshold : LogLevel} (h : KeepsNames names fun e => (function e).value threshold) :
    KeepsNames names fun e => (tryStep step (.ofLogged function) e).value threshold :=
  h.comp (keepsNames_placed 0)

/-- Adding the result of a strategy that keeps names keeps the names of all forms. -/
theorem NamesIn.addStrategy {e : Expr K} (h : e.NamesIn names)
    {strategy : Expr K → Logged (Expr K)} {threshold : LogLevel}
    (hs : KeepsNames names fun e => (strategy e).value threshold) {forms : Forms K}
    (hforms : forms.NamesIn names) (number : ℕ) (kind : FormKind) (label : String) :
    ((e.addStrategy number strategy kind label forms).value threshold).NamesIn names :=
  hforms.addNew (hs (keepsNames_placed number h))

/-- Adding it only while there are few forms does so as well. -/
theorem NamesIn.addIfFew {e : Expr K} (h : e.NamesIn names)
    {strategy : Expr K → Logged (Expr K)} {threshold : LogLevel}
    (hs : KeepsNames names fun e => (strategy e).value threshold) {forms : Forms K}
    (hforms : forms.NamesIn names) (number : ℕ) (kind : FormKind) (label : String) :
    ((e.addIfFew number strategy kind label forms).value threshold).NamesIn names := by
  unfold Expr.addIfFew
  split
  · exact h.addStrategy hs hforms number kind label
  · exact hforms

variable (threshold : LogLevel)

theorem keepsNames_canonicalStep :
    KeepsNames names fun e : Expr K => (canonicalStep e).value threshold :=
  keepsNames_tryStep_ofLogged _ fun _ h => h.canonicalForm

theorem keepsNames_constantStep :
    KeepsNames names fun e : Expr K => (constantStep e).value threshold :=
  keepsNames_tryStep_ofFunction _ keepsNames_foldConstants threshold

theorem keepsNames_zeroStep : KeepsNames names fun e : Expr K => (zeroStep e).value threshold :=
  keepsNames_tryStep_ofFunction _ keepsNames_removeZeros threshold

theorem keepsNames_oneStep : KeepsNames names fun e : Expr K => (oneStep e).value threshold :=
  keepsNames_tryStep_ofFunction _ keepsNames_removeOnes threshold

theorem keepsNames_powerStep : KeepsNames names fun e : Expr K => (powerStep e).value threshold :=
  keepsNames_tryStep_ofFunction _ keepsNames_simplifyPowers threshold

/-- Canonical form without zeros and ones keeps names. -/
theorem keepsNames_alternativeStrategy :
    KeepsNames names fun e : Expr K => (alternativeStrategy e).value threshold := by
  have hones := (@keepsNames_oneStep K names _ threshold).comp
    ((keepsNames_zeroStep threshold).comp (keepsNames_canonicalStep threshold))
  simpa only [alternativeStrategy, Logged.value_bind] using hones

variable (hidentities : Names.identityFunctions ⊆ names.functionNames)
include hidentities

theorem keepsNames_trigonometryStep :
    KeepsNames names fun e : Expr K => (trigonometryStep e).value threshold :=
  keepsNames_tryStep_ofLogged _ (keepsNames_trigonometricForm hidentities)

/-- One round of all cleanup steps keeps names. -/
theorem keepsNames_cleanupRound (trigonometry : Bool) :
    KeepsNames names fun e : Expr K => (cleanupRound trigonometry e).value threshold := by
  have hconstants := (@keepsNames_constantStep K names _ threshold).comp
    (keepsNames_canonicalStep threshold)
  have hones := (keepsNames_oneStep threshold).comp
    ((keepsNames_zeroStep threshold).comp hconstants)
  cases trigonometry with
  | true =>
    have hpowers := (keepsNames_powerStep threshold).comp
      ((keepsNames_trigonometryStep threshold hidentities).comp hones)
    simpa only [cleanupRound, Logged.value_bind, if_true] using hpowers
  | false =>
    have hpowers := (keepsNames_powerStep threshold).comp hones
    simpa only [cleanupRound, Logged.value_bind, Bool.false_eq_true, if_false, Logged.value_pure]
      using hpowers

/-- Cleanup until nothing changes keeps names. -/
theorem keepsNames_cleanup (trigonometry : Bool) :
    KeepsNames names fun e : Expr K => (cleanup trigonometry e).value threshold := by
  have hround := (keepsNames_cleanupRound (K := K) threshold hidentities trigonometry).settle
    roundLimit
  simpa only [cleanup, value_settleLogged] using hround

/-- Full simplification keeps names. -/
theorem keepsNames_fullySimplify :
    KeepsNames names fun e : Expr K => (fullySimplify e).value threshold := by
  simpa only [fullySimplify, Logged.value_bind, Logged.value_pure] using
    keepsNames_cleanup (K := K) threshold hidentities true

/-- Canonical form with trigonometric identities keeps names. -/
theorem keepsNames_prepare : KeepsNames names fun e : Expr K => (prepare e).value threshold := by
  have hidentity := (keepsNames_trigonometryStep (K := K) threshold hidentities).comp
    (keepsNames_canonicalStep threshold)
  simpa only [prepare, Logged.value_bind] using hidentity

/-- Canonical form, numbers and trigonometric identities keep names. -/
theorem keepsNames_partialStrategy :
    KeepsNames names fun e : Expr K => (partialStrategy e).value threshold := by
  have hidentity := (keepsNames_trigonometryStep (K := K) threshold hidentities).comp
    ((keepsNames_constantStep threshold).comp (keepsNames_canonicalStep threshold))
  simpa only [partialStrategy, Logged.value_bind] using hidentity

/-- Factoring the numerator of a prepared quotient keeps names. -/
theorem keepsNames_factorStrategy :
    KeepsNames names fun e : Expr K => (factorStrategy e).value threshold := by
  intro e h
  have hprepared : ((prepare e).value threshold).NamesIn names :=
    keepsNames_prepare threshold hidentities h
  simp only [factorStrategy, Logged.value_bind]
  generalize (prepare e).value threshold = prepared at hprepared
  split
  · have hforms := (keepsNames_placed 0 hprepared).allForms threshold
    exact hforms.getD_map (fun form hform => List.mem_of_find?_eq_some hform) hprepared
  · exact hprepared

/-- Cancelling the exponentials of a prepared quotient keeps names. -/
theorem keepsNames_fractionStrategy :
    KeepsNames names fun e : Expr K => (fractionStrategy e).value threshold := by
  intro e h
  have hprepared : ((prepare e).value threshold).NamesIn names :=
    keepsNames_prepare threshold hidentities h
  simp only [fractionStrategy, Logged.value_bind]
  generalize (prepare e).value threshold = prepared at hprepared
  split
  · have hforms := (keepsNames_placed 0 hprepared).allForms threshold
    refine hforms.getD_map (fun form hform => ?_) hprepared
    rw [Option.orElse_eq_orElse, Option.orElse_eq_or] at hform
    obtain hlabelled | ⟨-, hlast⟩ := Option.or_eq_some_iff.mp hform
    · exact List.mem_of_find?_eq_some hlabelled
    · exact List.mem_of_getLast? hlast
  · exact hprepared

/-- The distinct forms of an expression have no names but its own and the six functions. -/
theorem NamesIn.distinctForms {e : Expr K} (h : e.NamesIn names) :
    (e.distinctForms.value threshold).NamesIn names := by
  have hnone : Forms.NamesIn names ([] : Forms K) := List.forall_mem_nil _
  have hexpanded := h.addStrategy (keepsNames_cleanup threshold hidentities false) hnone
    1 .expanded "expanded"
  have hidentity := h.addStrategy (keepsNames_cleanup threshold hidentities true) hexpanded
    2 .structural "trig simplified"
  have hfactored := h.addStrategy (keepsNames_factorStrategy threshold hidentities) hidentity
    3 .factored "factored"
  have hfraction := h.addStrategy (keepsNames_fractionStrategy threshold hidentities) hfactored
    4 .factored "fraction reduced"
  have hfull := h.addStrategy (keepsNames_fullySimplify threshold hidentities) hfraction
    5 .factored "fully simplified"
  have hpartial := h.addIfFew (keepsNames_partialStrategy threshold hidentities) hfull
    6 .structural "intermediate"
  have hall := h.addIfFew (keepsNames_alternativeStrategy threshold) hpartial
    7 .structural "alternative"
  rw [value_distinctForms, strategyForms]
  simpa only [Logged.value_bind] using hall

end Strategies

end Expr

end SymbolicForms
