import SymbolicForms.Expansion
import SymbolicForms.Log
import SymbolicForms.StableSort

/-!
# Canonical form of a sum

An expression is expanded, its addends are read as terms, like terms are
collected, and the terms are put in order. A quotient at the root keeps its bar:
its two sides are brought to canonical form separately.
-/

namespace SymbolicForms

/-- Like terms collected into one, beside the key they share. -/
structure TermGroup (K : Type) where
  /-- The key of the terms of the group. -/
  key : String
  /-- The sum of the terms of the group. -/
  term : Term K

namespace Term

variable {K : Type} [Scalar K]

/-- Add a term to the first group of its key that it is similar to, or begin a new group. -/
def addToGroups (key : String) (t : Term K) : List (TermGroup K) → List (TermGroup K)
  | [] => [⟨key, t⟩]
  | group :: rest =>
    if group.key == key then
      match group.term.merge? t with
      | some total => ⟨group.key, total⟩ :: rest
      | none => group :: addToGroups key t rest
    else group :: addToGroups key t rest

/-- The groups of like terms, in the order in which they first appear. -/
def groups (terms : List (Term K)) : List (TermGroup K) :=
  terms.foldl (fun groups t => addToGroups t.baseKey t groups) []

/-- Collect like terms and drop those whose coefficients cancel. -/
def mergeLike (terms : List (Term K)) : List (Term K) :=
  ((groups terms).map TermGroup.term).filter fun t => !t.isZero

/-- Terms in their order. -/
def sort (terms : List (Term K)) : List (Term K) := StableSort.sort precedes terms

/-- The sum of terms as an expression. -/
def sumExpr (terms : List (Term K)) : Expr K := .sum (terms.map toExpr)

end Term

namespace Expr

variable {K : Type} [Scalar K]

/-- The terms of the addends of an expression. -/
def terms (e : Expr K) : List (Term K) := e.addends.map Term.ofExpr

/-- The canonical form of an expression as one sum. -/
def canonicalSum (e : Expr K) : Expr K :=
  Term.sumExpr (Term.sort (Term.mergeLike e.fullyExpand.terms))

/-- The canonical form of an expression. -/
def canonicalForm : Expr K → Expr K
  | .binary .div numerator denominator => .div (canonicalSum numerator) (canonicalSum denominator)
  | e => canonicalSum e

/-- The canonical form of an expression, with a message about the change. -/
def canonicalize (e : Expr K) : Logged (Expr K) := do
  let result := e.canonicalForm
  Logged.emit .debug "canonicalize" fun _ => e.render ++ " -> " ++ result.render
  return result

/-- Messages aside, canonicalizing gives the canonical form. -/
@[simp] theorem value_canonicalize (e : Expr K) (threshold : LogLevel) :
    e.canonicalize.value threshold = e.canonicalForm := rfl

end Expr

end SymbolicForms
