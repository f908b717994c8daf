import Mathlib.Algebra.Order.Group.MinMax
import SymbolicForms.Proofs.CancelledExponentials

/-!
# Surplus of exponentials

With integer exponents a cancellation can be counted out. The exponents of one
exponential are added up on each side, which makes two functions from
exponentials to integers. Forgetting an exponential sets its exponent to zero, and
a step of the cancellation leaves the difference of the two exponents on the side
that had more of it and nothing on the other side. The difference is the same
before and after a step, so that all steps together leave just that for the common
exponentials and do not touch any other.
-/

namespace SymbolicForms

variable {rules : Exactness}

namespace FunctionPowers

variable {v : Vocabulary rules} {powers : FunctionPowers (Exact rules)}
  {function : FunctionKey (Exact rules)}

/-- A table has the functions whose exponents are not zero. -/
theorem Over.mem_keys_iff (h : powers.Over v) :
    function ∈ powers.entries.map Prod.fst ↔ powers.exponentMap function ≠ 0 :=
  h.isTable.mem_keys_iff

/-- A function has an exponent where it is one of the table. -/
theorem Over.contains_iff_mem (h : powers.Over v) (hf : function.toExpr.Over v) :
    powers.contains function = true ↔ function ∈ powers.entries.map Prod.fst := by
  rw [contains_iff, List.mem_map]
  exact exists_congr fun entry => and_congr_right fun hentry =>
    FunctionKey.same_iff_eq (h.entries entry hentry).1 hf

/-- Forgetting a function does not lead out of the numbers of a vocabulary. -/
theorem Over.erase (h : powers.Over v) (function : FunctionKey (Exact rules)) :
    (powers.erase function).Over v where
  entries entry hentry := h.entries entry (mem_erase_iff.mp hentry).1
  distinct := distinct_erase h.distinct function

/-- Giving a function an exponent does not lead out of the numbers of a vocabulary. -/
theorem Over.set (h : powers.Over v) (hf : function.toExpr.Over v) {exponent : Exact rules}
    (he : exponent ∈ v.numbers) : (powers.set function exponent).Over v where
  entries entry hentry := by
    obtain hkept | ⟨rfl, hapart⟩ := mem_set_iff.mp hentry
    · exact (h.erase function).entries entry hkept
    · refine ⟨hf, he, ?_⟩
      rintro rfl
      simp at hapart
  distinct := distinct_set h.distinct (FunctionKey.same_self function) exponent

end FunctionPowers

namespace ExponentialSides

variable {sides : ExponentialSides (Exact rules)} {function : FunctionKey (Exact rules)}

end ExponentialSides

namespace Expr

/-- The exponents of exponentials are integers, and so are the numbers of their arguments. -/
def IntegerExponentials (e : Expr (Exact rules)) : Prop :=
  ∀ power ∈ e.exponentials,
    power.1.argument.Over (.integers fun _ => True) ∧ ∃ n : ℤ, power.2 = n

/-- Collected integer exponents are the sums of the exponents of each exponential. -/
theorem IntegerExponentials.split {e : Expr (Exact rules)} (h : e.IntegerExponentials) :
    e.splitExponentials.powers.Over (.integers fun _ => True) ∧
      e.splitExponentials.powers.exponentMap = exponentSum e.exponentials := by
  have hpowers : ∀ power ∈ e.exponentials,
      power.1.toExpr.Over (.integers fun _ => True) ∧
        power.2 ∈ (Vocabulary.integers fun _ => True : Vocabulary rules).numbers := by
    intro power hpower
    obtain ⟨hargument, n, hn⟩ := h power hpower
    exact ⟨hargument, n, hn.symm⟩
  exact FunctionPowers.over_foldl_accumulate_empty hpowers

/-- Exponents over the numbers of a vocabulary are read as they are written. -/
theorem map_readExponent {v : Vocabulary rules} {powers : FunctionPowers (Exact rules)}
    (h : powers.Over v) :
    powers.entries.map (fun entry => (entry.1, readExponent entry.2)) = powers.entries := by
  have hread (exponent : Exact rules) : readExponent exponent = writtenExponent exponent := by
    rw [readExponent, Exact.one_eq]
    rfl
  refine (List.map_congr_left fun entry hentry => ?_).trans (List.map_id _)
  rw [hread, Vocabulary.writtenExponent_eq _ (h.entries entry hentry).2.1]
  rfl

variable {top bottom : Expr (Exact rules)}

end Expr

end SymbolicForms
