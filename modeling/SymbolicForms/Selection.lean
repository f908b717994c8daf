import SymbolicForms.Forms
import SymbolicForms.Statistics

/-!
# Selection of a form

Among several candidates the one that is cheapest to differentiate is selected;
of equally cheap ones the first. There has to be at least one candidate.
-/

namespace SymbolicForms

/-- The reason for which nothing is selected. -/
inductive SelectionError where
  /-- There are no candidates. -/
  | noCandidates
  deriving DecidableEq, Repr

/-- The message of a selection error. -/
def SelectionError.message : SelectionError → String
  | .noCandidates => "empty input: no candidate forms to select from"

namespace Selection

variable {K : Type} [Scalar K]

/-- The position of the least of some costs, where a later cost has to be strictly below all earlier
ones. The arguments are the next position, and the best position so far with its cost. -/
def leastFrom (next best : Nat) (cost : K) : List K → Nat
  | [] => best
  | candidate :: rest =>
    if Scalar.lt candidate cost then leastFrom (next + 1) next candidate rest
    else leastFrom (next + 1) best cost rest

/-- The position of the least cost; the first one of equals. -/
def leastIndex : List K → Nat
  | [] => 0
  | cost :: rest => leastFrom 1 0 cost rest

/-- A line about each candidate, with a mark at the selected one. -/
def report (selected : Nat) (candidates : List (Expr K)) : List String :=
  candidates.zipIdx.map fun candidate =>
    (if candidate.2 = selected then "* " else "  ") ++ candidate.1.render ++ " [" ++
      candidate.1.statisticsText ++ "]"

/-- The position of the cheapest candidate. A single candidate is selected without a comparison. -/
def cheapestIndex (candidates : List (Expr K)) : Logged Nat :=
  match candidates with
  | [] => return 0
  | [_] => return 0
  | first :: second :: rest => do
    let all := first :: second :: rest
    let selected := leastIndex (all.map Expr.differentiationCost)
    Logged.emitAll .debug "select" fun _ => report selected all
    return selected

/-- The cheapest candidate, given the expression of each. -/
def cheapest {α : Type} (expression : α → Expr K) (candidates : List α) :
    Logged (Except SelectionError α) :=
  match candidates with
  | [] => return .error .noCandidates
  | first :: rest => do
    let selected ← cheapestIndex ((first :: rest).map expression)
    return .ok (((first :: rest)[selected]?).getD first)

/-- The cheapest expression. -/
def cheapestExpression (candidates : List (Expr K)) : Logged (Except SelectionError (Expr K)) :=
  cheapest id candidates

/-- The cheapest form. -/
def cheapestForm (forms : Forms K) : Logged (Except SelectionError (Form K)) :=
  cheapest Form.expression forms

end Selection

end SymbolicForms
