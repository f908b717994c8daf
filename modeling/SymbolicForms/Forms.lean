import SymbolicForms.ExponentialCancellation
import SymbolicForms.Text

/-!
# Forms of an expression

One expression can be written in several forms. A collection of forms keeps
them in the order in which they were found, each with its kind and a label. The
forms found here are the expression itself, the expression with a common factor
taken out, and a quotient with its exponentials cancelled.
-/

namespace SymbolicForms

/-- The kinds of forms. -/
inductive FormKind where
  /-- Multiplied out. -/
  | expanded
  /-- With common factors taken out. -/
  | factored
  /-- Collected into groups. -/
  | grouped
  /-- Changed in its structure. -/
  | structural
  /-- Of a kind without a name. -/
  | unnamed
  deriving DecidableEq, Repr

namespace FormKind

/-- The name of a kind. -/
def name : FormKind → String
  | .expanded => "EXPANDED"
  | .factored => "FACTORED"
  | .grouped => "GROUPED"
  | .structural => "STRUCTURAL"
  | .unnamed => "?"

/-- The kind of a name. -/
def ofName (text : String) : FormKind :=
  ([.expanded, .factored, .grouped, .structural].find? fun kind => text == name kind).getD .unnamed

end FormKind

/-- An expression in one of its forms. -/
structure Form (K : Type) where
  /-- The expression. -/
  expression : Expr K
  /-- What kind of form it is. -/
  kind : FormKind
  /-- How the form was found. -/
  label : String

/-- Forms in the order in which they were found. -/
abbrev Forms (K : Type) := List (Form K)

namespace Forms

variable {K : Type} [Scalar K]

/-- Some form has the same expression. -/
def hasSame (forms : Forms K) (e : Expr K) : Bool := forms.any fun form => form.expression.same e

/-- Add a form at the end, unless some form has the same expression. -/
def addNew (forms : Forms K) (form : Form K) : Forms K :=
  if forms.hasSame form.expression then forms else forms ++ [form]

/-- The forms without repeated expressions; the first of each is kept. -/
def distinct (forms : Forms K) : Forms K := forms.foldl addNew []

/-- The first form with a label. -/
def labelled? (forms : Forms K) (label : String) : Option (Form K) :=
  forms.find? fun form => form.label == label

end Forms

namespace Form

/-- The label of the expression as it was given. -/
def standardLabel : String := "standard form"

/-- The label of a quotient whose numerator was factored. -/
def numeratorLabel : String := "numerator factored"

/-- The label of a quotient whose exponentials were cancelled. -/
def cancelledLabel : String := "exp cancelled"

/-- The label of a factored expression. -/
def factoredLabel : String := "factored"

end Form

namespace Expr

variable {K : Type} [Scalar K]

/-- Add a changed expression as a factored form, if there is one and it differs from the
expression and from all forms. -/
def addChanged (e : Expr K) (forms : Forms K) (changed? : Option (Expr K)) (label : String) :
    Forms K :=
  match changed? with
  | none => forms
  | some changed => if changed.same e then forms else forms.addNew ⟨changed, .factored, label⟩

/-- The forms of an expression, given what factoring does to it, or to its numerator if it is a
quotient. -/
def formsWith (e : Expr K) (factored? : Option (Expr K)) : Forms K :=
  let standard : Forms K := [⟨e, .expanded, Form.standardLabel⟩]
  match e with
  | .binary .div numerator denominator =>
    let quotient? := (factored?.filter fun top => !top.same numerator).map fun top =>
      Expr.div top denominator
    let cancelled? := (quotient?.getD e).cancelExponentials?
    e.addChanged (e.addChanged standard quotient? Form.numeratorLabel) cancelled?
      Form.cancelledLabel
  | _ => e.addChanged standard factored? Form.factoredLabel

/-- The part of an expression that is factored: the numerator of a quotient, or all of it. -/
def factoredPart : Expr K → Expr K
  | .binary .div numerator _ => numerator
  | e => e

/-- The expression, its factored form, and its form without common exponentials. -/
def allForms (e : Expr K) : Logged (Forms K) := do
  let forms := e.formsWith (← e.factoredPart.extractFactor?)
  Logged.emit .debug "forms" fun _ => toString forms.length ++ " form(s) for " ++ e.render
  return forms

/-- Messages aside, the forms follow from what factoring does. -/
@[simp] theorem value_allForms (e : Expr K) (threshold : LogLevel) :
    e.allForms.value threshold = e.formsWith e.factoredPart.factorOut? := by
  simp [allForms]

end Expr

end SymbolicForms
