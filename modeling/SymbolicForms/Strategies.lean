import SymbolicForms.CanonicalForm
import SymbolicForms.Cleanup
import SymbolicForms.Placement
import SymbolicForms.Selection
import SymbolicForms.Trigonometry

/-!
# Strategies

A step applies one simplification to an expression whose numbers have been put
at their places; if the simplification fails, the step leaves the expression as
it is. Steps make up rounds, rounds are repeated until nothing changes, and the
strategies built from them give the distinct forms of an expression. The
cheapest of these is ready for differentiation.
-/

namespace SymbolicForms

/-- The failure of a simplification. -/
structure StepFailure where
  /-- What went wrong. -/
  message : String

/-- A simplification that may leave messages and may fail. -/
abbrev Simplification (K : Type) := Expr K → Logged (Except StepFailure (Expr K))

namespace Simplification

variable {K : Type}

/-- A function as a simplification. -/
def ofFunction (function : Expr K → Expr K) : Simplification K := fun e => return .ok (function e)

/-- A function with messages as a simplification. -/
def ofLogged (function : Expr K → Logged (Expr K)) : Simplification K := fun e => do
  return .ok (← function e)

/-- A simplification that always fails. -/
def failing (message : String) : Simplification K := fun _ => return .error ⟨message⟩

end Simplification

/-- The number of forms below which further strategies are tried. -/
def fewForms : Nat := 3

namespace Expr

variable {K : Type} [Scalar K]

/-- Apply a simplification under a name. A failure leaves the expression as it is. -/
def tryStep (step : String) (simplification : Simplification K) (e : Expr K) : Logged (Expr K) := do
  match ← simplification (e.placed 0) with
  | .ok result =>
    Logged.emit .debug "engine" fun _ =>
      step ++ " " ++ (if result.same e then "unchanged" else "-> " ++ result.render)
    return result
  | .error failure =>
    Logged.emit .warn "engine" fun _ => step ++ " failed on " ++ e.render ++ ": " ++ failure.message
    return e

/-- A step that cannot fail has the result of its function on the placed expression. -/
@[simp] theorem value_tryStep_ofFunction (step : String) (function : Expr K → Expr K) (e : Expr K)
    (threshold : LogLevel) :
    (tryStep step (.ofFunction function) e).value threshold = function (e.placed 0) := rfl

/-- A step that cannot fail has the result of its function on the placed expression, messages
aside. -/
@[simp] theorem value_tryStep_ofLogged (step : String) (function : Expr K → Logged (Expr K))
    (e : Expr K) (threshold : LogLevel) :
    (tryStep step (.ofLogged function) e).value threshold =
      (function (e.placed 0)).value threshold := rfl

/-- A step that fails changes nothing. -/
@[simp] theorem value_tryStep_failing (step message : String) (e : Expr K) (threshold : LogLevel) :
    (tryStep step (.failing message) e).value threshold = e := rfl

/-- The step to canonical form. -/
def canonicalStep : Expr K → Logged (Expr K) := tryStep "canonicalize" (.ofLogged canonicalize)

/-- The step that evaluates numbers. -/
def constantStep : Expr K → Logged (Expr K) := tryStep "fold constants" (.ofFunction foldConstants)

/-- The step that removes zeros. -/
def zeroStep : Expr K → Logged (Expr K) := tryStep "remove zeros" (.ofFunction removeZeros)

/-- The step that removes ones. -/
def oneStep : Expr K → Logged (Expr K) := tryStep "remove ones" (.ofFunction removeOnes)

/-- The step that applies trigonometric identities. -/
def trigonometryStep : Expr K → Logged (Expr K) := tryStep "trig" (.ofLogged simplifyTrigonometry)

/-- The step that simplifies powers. -/
def powerStep : Expr K → Logged (Expr K) := tryStep "simplify powers" (.ofFunction simplifyPowers)

/-- One round of all cleanup steps, with or without trigonometric identities. -/
def cleanupRound (trigonometry : Bool) (e : Expr K) : Logged (Expr K) := do
  let e ← canonicalStep e
  let e ← constantStep e
  let e ← zeroStep e
  let e ← oneStep e
  let e ← if trigonometry then trigonometryStep e else pure e
  powerStep e

/-- Cleanup until nothing changes. -/
def cleanup (trigonometry : Bool) (e : Expr K) : Logged (Expr K) :=
  settleLogged (cleanupRound trigonometry) roundLimit e

/-- Cleanup with trigonometric identities until nothing changes, with a message about the change. -/
def fullySimplify (e : Expr K) : Logged (Expr K) := do
  let result ← cleanup true e
  Logged.emit .debug "engine" fun _ =>
    "iterative_simplify " ++ e.render ++ " -> " ++ result.render
  return result

/-- Canonical form with trigonometric identities. -/
def prepare (e : Expr K) : Logged (Expr K) := do trigonometryStep (← canonicalStep e)

/-- The prepared expression; a quotient with its numerator factored. -/
def factorStrategy (e : Expr K) : Logged (Expr K) := do
  let prepared ← prepare e
  match prepared with
  | .binary .div _ _ =>
    let forms ← (prepared.placed 0).allForms
    return ((forms.labelled? Form.numeratorLabel).map Form.expression).getD prepared
  | _ => return prepared

/-- The prepared expression; a quotient with its exponentials cancelled, or else its last form. -/
def fractionStrategy (e : Expr K) : Logged (Expr K) := do
  let prepared ← prepare e
  match prepared with
  | .binary .div _ _ =>
    let forms ← (prepared.placed 0).allForms
    return (((forms.labelled? Form.cancelledLabel) <|> forms.getLast?).map Form.expression).getD
      prepared
  | _ => return prepared

/-- Canonical form, numbers and trigonometric identities, once. -/
def partialStrategy (e : Expr K) : Logged (Expr K) := do
  trigonometryStep (← constantStep (← canonicalStep e))

/-- Canonical form without zeros and ones, once. -/
def alternativeStrategy (e : Expr K) : Logged (Expr K) := do
  oneStep (← zeroStep (← canonicalStep e))

/-- The expression as its only form. -/
def givenForm (e : Expr K) : Forms K := [⟨e, .structural, "original"⟩]

/-- Add the result of a strategy to the forms, if it is new. The number of the strategy is its first
step, so that no two strategies compute the same numbers. -/
def addStrategy (e : Expr K) (number : Nat) (strategy : Expr K → Logged (Expr K)) (kind : FormKind)
    (label : String) (forms : Forms K) : Logged (Forms K) := do
  return forms.addNew ⟨← strategy (e.placed number), kind, label⟩

/-- Add the result of a strategy only while there are few forms. -/
def addIfFew (e : Expr K) (number : Nat) (strategy : Expr K → Logged (Expr K)) (kind : FormKind)
    (label : String) (forms : Forms K) : Logged (Forms K) :=
  if forms.length < fewForms then e.addStrategy number strategy kind label forms else pure forms

/-- Apply simplifications one after another. All results are kept, up to a failure. -/
def pipeline {ε : Type} : List (Expr K → Logged (Except ε (Expr K))) → Expr K →
    Logged (Except ε (List (Expr K)))
  | [], _ => return .ok []
  | simplification :: rest, e => do
    match ← simplification (e.placed 0) with
    | .error cause => return .error cause
    | .ok next => return (← pipeline rest next).map (next :: ·)

/-- The distinct results of all strategies. -/
def strategyForms (e : Expr K) : Logged (Forms K) := do
  let forms ← e.addStrategy 1 (cleanup false) .expanded "expanded" []
  let forms ← e.addStrategy 2 (cleanup true) .structural "trig simplified" forms
  let forms ← e.addStrategy 3 factorStrategy .factored "factored" forms
  let forms ← e.addStrategy 4 fractionStrategy .factored "fraction reduced" forms
  let forms ← e.addStrategy 5 fullySimplify .factored "fully simplified" forms
  let forms ← e.addIfFew 6 partialStrategy .structural "intermediate" forms
  e.addIfFew 7 alternativeStrategy .structural "alternative" forms

/-- The distinct forms of an expression, with messages about them. -/
def distinctForms (e : Expr K) : Logged (Forms K) := do
  let forms ← e.strategyForms
  Logged.emit .info "engine" fun _ =>
    toString forms.length ++ " distinct form(s) for " ++ e.render
  Logged.emitAll .debug "engine" fun _ =>
    forms.map fun form => "  " ++ form.label ++ ": " ++ form.expression.render
  return forms

/-- The form of an expression that is cheapest to differentiate. -/
def prepareForDifferentiation (e : Expr K) : Logged (Except SelectionError (Expr K)) := do
  return (← Selection.cheapestForm (← e.distinctForms)).map Form.expression

end Expr

end SymbolicForms
