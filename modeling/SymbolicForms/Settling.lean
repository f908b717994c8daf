import SymbolicForms.Expression
import SymbolicForms.Log

/-!
# Rounds until nothing changes

A round is repeated until its result is the same expression as its input, or a
limit of rounds is reached.
-/

namespace SymbolicForms

/-- The number of rounds after which the repetition stops in any case. -/
def roundLimit : Nat := 10

namespace Expr

variable {K : Type} [Scalar K]

/-- Repeat a round until its result is the same as its input, at most as often as the limit says. -/
def settle (round : Expr K → Expr K) : Nat → Expr K → Expr K
  | 0, e => e
  | limit + 1, e =>
    let next := round e
    if next.same e then next else settle round limit next

/-- Repeat a round with messages until its result is the same as its input. -/
def settleLogged (round : Expr K → Logged (Expr K)) : Nat → Expr K → Logged (Expr K)
  | 0, e => pure e
  | limit + 1, e => do
    let next ← round e
    if next.same e then return next else settleLogged round limit next

/-- Messages aside, repeating a round with messages repeats its results. -/
theorem value_settleLogged (round : Expr K → Logged (Expr K)) (limit : Nat) (e : Expr K)
    (threshold : LogLevel) :
    (settleLogged round limit e).value threshold =
      settle (fun x => (round x).value threshold) limit e := by
  induction limit generalizing e with
  | zero => rfl
  | succ limit ih =>
    rw [settleLogged, Logged.value_bind, settle]
    split
    · rfl
    · exact ih _

end Expr

end SymbolicForms
