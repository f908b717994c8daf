import SymbolicForms.Proofs.ExactNumbers
import SymbolicForms.Strategies

/-!
# Messages at different levels

A computation is graded when the threshold of its messages does nothing but
remove messages: its result is the same at every threshold, and of the messages
of the most talkative run those are kept whose level is not below the threshold.
Results without messages and single messages are graded, and so is one graded
computation after another, at whatever results they branch. All simplifications,
strategies and selections are therefore graded.
-/

namespace SymbolicForms

namespace Logged

variable {α β : Type}

/-- The threshold of a computation does nothing but remove messages. -/
structure Graded (action : Logged α) : Prop where
  /-- The result does not depend on the threshold. -/
  value_eq : ∀ threshold, action.value threshold = action.value .debug
  /-- Messages of a level below the threshold are removed, and no others. -/
  messages_eq : ∀ threshold, action.messages threshold =
    (action.messages .debug).filter fun message => decide (threshold.rank ≤ message.level.rank)
  /-- Where messages are off, there are none. -/
  messages_off : action.messages .off = []

/-- A result without messages is graded. -/
theorem graded_pure (result : α) : (pure result : Logged α).Graded :=
  ⟨fun _ => rfl, fun _ => rfl, rfl⟩

/-- Some messages of one level are graded. -/
theorem graded_emitAll (level : LogLevel) (tag : String) (texts : Unit → List String) :
    (emitAll level tag texts).Graded := by
  have hlevel (threshold : LogLevel) (message : Message)
      (hm : message ∈ (texts ()).map (Message.mk level tag)) :
      decide (threshold.rank ≤ message.level.rank) = decide (threshold.rank ≤ level.rank) := by
    obtain ⟨text, -, rfl⟩ := List.mem_map.mp hm
    rfl
  refine ⟨fun _ => rfl, fun threshold => ?_, by cases level <;> rfl⟩
  rw [messages_emitAll, messages_emitAll]
  by_cases hoff : level = .off
  · subst hoff
    rfl
  · -- at the lowest threshold all messages are kept, at any other one all or none
    have hdebug : LogLevel.debug.keeps level = true := by
      simp [LogLevel.keeps, hoff, LogLevel.rank]
    have hkeeps : threshold.keeps level = decide (threshold.rank ≤ level.rank) := by
      simp [LogLevel.keeps, hoff]
    rw [hdebug, if_pos rfl, List.filter_congr (hlevel threshold), hkeeps]
    by_cases hbelow : threshold.rank ≤ level.rank <;> simp [hbelow]

/-- A message is graded. -/
theorem graded_emit (level : LogLevel) (tag : String) (text : Unit → String) :
    (emit level tag text).Graded := graded_emitAll level tag _

/-- Graded computations one after another are graded. -/
theorem Graded.bind {action : Logged α} {next : α → Logged β} (h : action.Graded)
    (hnext : ∀ result, (next result).Graded) : (action >>= next).Graded where
  value_eq threshold := by
    rw [value_bind, value_bind, h.value_eq threshold, (hnext _).value_eq threshold]
  messages_eq threshold := by
    rw [messages_bind, messages_bind, h.value_eq threshold, h.messages_eq threshold,
      (hnext _).messages_eq threshold, List.filter_append]
  messages_off := by
    rw [messages_bind, h.messages_off, (hnext _).messages_off, List.append_nil]

/-- A function of a graded result is graded. -/
theorem Graded.bind_pure {action : Logged α} (h : action.Graded) (f : α → β) :
    (action >>= fun result => pure (f result)).Graded :=
  h.bind fun _ => graded_pure _

end Logged

open Logged

namespace Selection

variable {K : Type} [Scalar K]

/-- Selecting a position is graded. -/
theorem graded_cheapestIndex (candidates : List (Expr K)) : (cheapestIndex candidates).Graded := by
  unfold cheapestIndex
  split
  · exact graded_pure _
  · exact graded_pure _
  · exact (graded_emitAll _ _ _).bind fun _ => graded_pure _

/-- Selecting a candidate is graded. -/
theorem graded_cheapest {α : Type} (expression : α → Expr K) (candidates : List α) :
    (cheapest expression candidates).Graded := by
  cases candidates with
  | nil => exact graded_pure _
  | cons first rest => exact (graded_cheapestIndex _).bind_pure _

end Selection

namespace Expr

variable {K : Type} [Scalar K]

/-- Canonicalizing is graded. -/
theorem graded_canonicalize (e : Expr K) : e.canonicalize.Graded :=
  (graded_emit _ _ _).bind fun _ => graded_pure _

/-- Trigonometric simplification is graded. -/
theorem graded_simplifyTrigonometry (e : Expr K) : e.simplifyTrigonometry.Graded :=
  (graded_emit _ _ _).bind fun _ => graded_pure _

/-- Looking for a common factor is graded. -/
theorem graded_extractFactor? (e : Expr K) : e.extractFactor?.Graded := by
  unfold extractFactor?
  split
  · exact graded_pure _
  · split
    · exact graded_pure _
    · exact (graded_emit _ _ _).bind fun _ => graded_pure _

/-- Taking a common factor out is graded. -/
theorem graded_extractFactor (e : Expr K) : e.extractFactor.Graded :=
  (graded_extractFactor? e).bind_pure _

/-- Writing an expression in all forms is graded. -/
theorem graded_allForms (e : Expr K) : e.allForms.Graded :=
  (graded_extractFactor? _).bind fun _ => (graded_emit _ _ _).bind fun _ => graded_pure _

/-- A step is graded when its simplification is, whether or not it fails. -/
theorem graded_tryStep {simplification : Simplification K} (h : ∀ e, (simplification e).Graded)
    (step : String) (e : Expr K) : (tryStep step simplification e).Graded := by
  refine (h _).bind fun outcome => ?_
  cases outcome with
  | ok result => exact (graded_emit _ _ _).bind fun _ => graded_pure _
  | error failure => exact (graded_emit _ _ _).bind fun _ => graded_pure _

/-- A step without messages of its own is graded. -/
theorem graded_tryStep_ofFunction (step : String) (function : Expr K → Expr K) (e : Expr K) :
    (tryStep step (.ofFunction function) e).Graded :=
  graded_tryStep (fun _ => graded_pure _) step e

/-- A step by a graded function is graded. -/
theorem graded_tryStep_ofLogged {function : Expr K → Logged (Expr K)}
    (h : ∀ e, (function e).Graded) (step : String) (e : Expr K) :
    (tryStep step (.ofLogged function) e).Graded :=
  graded_tryStep (fun x => (h x).bind_pure _) step e

/-- Repeating a graded round is graded. -/
theorem graded_settleLogged {round : Expr K → Logged (Expr K)} (h : ∀ e, (round e).Graded)
    (limit : Nat) (e : Expr K) : (settleLogged round limit e).Graded := by
  induction limit generalizing e with
  | zero => exact graded_pure e
  | succ limit ih =>
    refine (h e).bind fun next => ?_
    split
    · exact graded_pure next
    · exact ih next

theorem graded_canonicalStep (e : Expr K) : (canonicalStep e).Graded :=
  graded_tryStep_ofLogged graded_canonicalize _ e

theorem graded_constantStep (e : Expr K) : (constantStep e).Graded :=
  graded_tryStep_ofFunction _ _ e

theorem graded_zeroStep (e : Expr K) : (zeroStep e).Graded := graded_tryStep_ofFunction _ _ e

theorem graded_oneStep (e : Expr K) : (oneStep e).Graded := graded_tryStep_ofFunction _ _ e

theorem graded_trigonometryStep (e : Expr K) : (trigonometryStep e).Graded :=
  graded_tryStep_ofLogged graded_simplifyTrigonometry _ e

theorem graded_powerStep (e : Expr K) : (powerStep e).Graded := graded_tryStep_ofFunction _ _ e

/-- One round of all cleanup steps is graded. -/
theorem graded_cleanupRound (trigonometry : Bool) (e : Expr K) :
    (cleanupRound trigonometry e).Graded := by
  refine (graded_canonicalStep e).bind fun e => (graded_constantStep e).bind fun e =>
    (graded_zeroStep e).bind fun e => (graded_oneStep e).bind fun e => ?_
  split
  · exact (graded_trigonometryStep e).bind graded_powerStep
  · exact (graded_pure e).bind graded_powerStep

/-- Cleanup until nothing changes is graded. -/
theorem graded_cleanup (trigonometry : Bool) (e : Expr K) : (cleanup trigonometry e).Graded :=
  graded_settleLogged (graded_cleanupRound trigonometry) roundLimit e

/-- Full simplification is graded. -/
theorem graded_fullySimplify (e : Expr K) : e.fullySimplify.Graded :=
  (graded_cleanup true e).bind fun _ => (graded_emit _ _ _).bind fun _ => graded_pure _

/-- Canonical form with trigonometric identities is graded. -/
theorem graded_prepare (e : Expr K) : e.prepare.Graded :=
  (graded_canonicalStep e).bind graded_trigonometryStep

/-- The strategy that factors a quotient is graded. -/
theorem graded_factorStrategy (e : Expr K) : e.factorStrategy.Graded := by
  refine (graded_prepare e).bind fun prepared => ?_
  split
  · exact (graded_allForms _).bind_pure _
  · exact graded_pure _

/-- The strategy that cancels the exponentials of a quotient is graded. -/
theorem graded_fractionStrategy (e : Expr K) : e.fractionStrategy.Graded := by
  refine (graded_prepare e).bind fun prepared => ?_
  split
  · exact (graded_allForms _).bind_pure _
  · exact graded_pure _

theorem graded_partialStrategy (e : Expr K) : e.partialStrategy.Graded :=
  (graded_canonicalStep e).bind fun e => (graded_constantStep e).bind graded_trigonometryStep

theorem graded_alternativeStrategy (e : Expr K) : e.alternativeStrategy.Graded :=
  (graded_canonicalStep e).bind fun e => (graded_zeroStep e).bind graded_oneStep

/-- Adding the result of a graded strategy is graded. -/
theorem graded_addStrategy {strategy : Expr K → Logged (Expr K)} (h : ∀ e, (strategy e).Graded)
    (e : Expr K) (number : Nat) (kind : FormKind) (label : String) (forms : Forms K) :
    (e.addStrategy number strategy kind label forms).Graded := (h _).bind_pure _

/-- Adding it only while there are few forms is graded. -/
theorem graded_addIfFew {strategy : Expr K → Logged (Expr K)} (h : ∀ e, (strategy e).Graded)
    (e : Expr K) (number : Nat) (kind : FormKind) (label : String) (forms : Forms K) :
    (e.addIfFew number strategy kind label forms).Graded := by
  unfold addIfFew
  split
  · exact graded_addStrategy h e number kind label forms
  · exact graded_pure forms

/-- Collecting the distinct results of all strategies is graded. -/
theorem graded_strategyForms (e : Expr K) : e.strategyForms.Graded :=
  (graded_addStrategy (graded_cleanup false) e _ _ _ _).bind fun _ =>
  (graded_addStrategy (graded_cleanup true) e _ _ _ _).bind fun _ =>
  (graded_addStrategy graded_factorStrategy e _ _ _ _).bind fun _ =>
  (graded_addStrategy graded_fractionStrategy e _ _ _ _).bind fun _ =>
  (graded_addStrategy graded_fullySimplify e _ _ _ _).bind fun _ =>
  (graded_addIfFew graded_partialStrategy e _ _ _ _).bind fun _ =>
  graded_addIfFew graded_alternativeStrategy e _ _ _ _

/-- Telling about the distinct forms is graded. -/
theorem graded_distinctForms (e : Expr K) : e.distinctForms.Graded :=
  (graded_strategyForms e).bind fun _ => (graded_emit _ _ _).bind fun _ =>
    (graded_emitAll _ _ _).bind fun _ => graded_pure _

/-- Preparing for differentiation is graded. -/
theorem graded_prepareForDifferentiation (e : Expr K) : e.prepareForDifferentiation.Graded :=
  (graded_distinctForms e).bind fun _ => (Selection.graded_cheapest _ _).bind_pure _

/-- At every threshold, each operation that leaves messages has the result of the most talkative
run, and of its messages those that are not below the threshold. Steps may run any simplification
without messages, which returns or fails as it likes, and any graded one. -/
theorem graded_operations (e : Expr K) (candidates : List (Expr K)) (forms : Forms K) :
    e.canonicalize.Graded ∧ e.simplifyTrigonometry.Graded ∧ e.extractFactor.Graded ∧
      e.allForms.Graded ∧
      (∀ (step : String) (function : Expr K → Except StepFailure (Expr K)),
        (tryStep step (fun x => pure (function x)) e).Graded) ∧
      (∀ (step : String) (simplification : Simplification K),
        (∀ x, (simplification x).Graded) → (tryStep step simplification e).Graded) ∧
      e.fullySimplify.Graded ∧ e.distinctForms.Graded ∧ e.prepareForDifferentiation.Graded ∧
      (Selection.cheapestExpression candidates).Graded ∧ (Selection.cheapestForm forms).Graded := by
  have hsteps (step : String) (simplification : Simplification K)
      (h : ∀ x, (simplification x).Graded) : (tryStep step simplification e).Graded :=
    graded_tryStep h step e
  exact ⟨graded_canonicalize e, graded_simplifyTrigonometry e, graded_extractFactor e,
    graded_allForms e, fun step function => hsteps step _ fun x => graded_pure (function x), hsteps,
    graded_fullySimplify e, graded_distinctForms e, graded_prepareForDifferentiation e,
    Selection.graded_cheapest id candidates, Selection.graded_cheapest Form.expression forms⟩

/-- A simplification that tells what it is given and then fails. -/
def reportingFailure : Simplification (Exact .standard) := fun e => do
  Logged.emit .info "rules" fun _ => "given " ++ e.render
  return .error ⟨"no rule"⟩

/-- Of a step that reports and fails, only the failure is left when reports are not kept. -/
theorem graded_operations_reportingFailure :
    (∀ x, (reportingFailure x).Graded) ∧
      (tryStep "rewrite" reportingFailure (.var "x")).messages .info =
        [⟨.info, "rules", "given x"⟩, ⟨.warn, "engine", "rewrite failed on x: no rule"⟩] ∧
      (tryStep "rewrite" reportingFailure (.var "x")).messages .warn =
        [⟨.warn, "engine", "rewrite failed on x: no rule"⟩] := by
  have hgraded (x : Expr (Exact .standard)) : (reportingFailure x).Graded :=
    (graded_emit _ _ _).bind fun _ => graded_pure _
  obtain ⟨-, -, -, -, -, hstep, -⟩ :=
    graded_operations (.var "x" : Expr (Exact .standard)) [] []
  have hrun := hstep "rewrite" reportingFailure hgraded
  refine ⟨hgraded, ?_, ?_⟩
  · rw [hrun.messages_eq]
    rfl
  · rw [hrun.messages_eq]
    rfl

end Expr

end SymbolicForms
