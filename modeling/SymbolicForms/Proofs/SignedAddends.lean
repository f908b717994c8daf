import SymbolicForms.Proofs.ExpandedForm
import SymbolicForms.Proofs.FieldMeaning

/-!
# Signed addends

An operand of a chain of sums and differences becomes an addend by a change of
sign for each difference on whose right side it stands. A change of sign has
three shapes, and repeated changes pass through several of them: minus one is put
in front of an operand, and from then on the number in front changes its sign.
Whatever the shape, the term of an addend has its coefficient negated and is
otherwise the same, so that an addend differs from its operand in at most the
sign, and does so where the number of right sides is odd.
-/

namespace SymbolicForms

namespace Expr

variable {K : Type}

/-- The operands of a chain of sums and differences from left to right, each with the number of
differences on whose right side it stands. -/
def operands : Expr K → List (ℕ × Expr K)
  | .binary .add left right => operands left ++ operands right
  | .binary .sub left right =>
    operands left ++ (operands right).map fun operand => (operand.1 + 1, operand.2)
  | e => [(0, e)]

/-- The number of sums and differences in a chain of them. -/
def joints : Expr K → ℕ
  | .binary .add left right => joints left + joints right + 1
  | .binary .sub left right => joints left + joints right + 1
  | _ => 0

section Chain

variable [Scalar K]

/-- An addend is its operand with a change of sign for each right side on which the operand
stands. -/
theorem addends_eq_map_operands (e : Expr K) :
    e.addends = e.operands.map fun operand => negateAddend^[operand.1] operand.2 := by
  induction e with
  | binary op left right ihl ihr =>
    cases op with
    | add => rw [addends_add, operands, List.map_append, ihl, ihr]
    | sub =>
      rw [addends_sub, operands, List.map_append, ihl, ihr, List.map_map, List.map_map]
      refine congrArg _ (List.map_congr_left fun operand _ => ?_)
      exact (Function.iterate_succ_apply' negateAddend operand.1 operand.2).symm
    | _ => rfl
  | _ => rfl

/-- Every sum or difference of a chain joins one more addend to it. -/
theorem length_addends (e : Expr K) : e.addends.length = e.joints + 1 := by
  induction e with
  | binary op left right ihl ihr =>
    cases op with
    | add =>
      rw [addends_add, List.length_append, ihl, ihr, joints]
      omega
    | sub =>
      rw [addends_sub, List.length_append, List.length_map, ihl, ihr, joints]
      omega
    | _ => rfl
  | _ => rfl

/-- What has changed its sign is a number or a product. -/
theorem isSum_negateAddend (e : Expr K) : e.negateAddend.isSum = false := by
  unfold negateAddend
  split <;> rfl

/-- No addend is a sum or a difference. -/
theorem isSum_of_mem_addends {e addend : Expr K} (h : addend ∈ e.addends) :
    addend.isSum = false :=
  forall_mem_addends (P := fun _ => True) (Q := fun addend => addend.isSum = false)
    (fun _ _ _ => ⟨trivial, trivial⟩) (fun _ _ _ => ⟨trivial, trivial⟩) (fun _ hsum _ => hsum)
    (fun addend _ => addend.isSum_negateAddend) trivial addend h

end Chain

end Expr

namespace Term

variable {rules : Exactness}

/-- A number in front of the factors read so far stays in front of all of them. -/
theorem foldl_multiply_scaled (factor : Exact rules) (t : Term (Exact rules))
    (factors : List (Expr (Exact rules))) :
    let read := fun t factor => multiply t (ofFactor factor)
    factors.foldl read { t with coefficient := factor * t.coefficient } =
      { factors.foldl read t with coefficient := factor * (factors.foldl read t).coefficient } := by
  intro read
  induction factors generalizing t with
  | nil => rfl
  | cons e rest ih =>
    have hstep : read { t with coefficient := factor * t.coefficient } e =
        { read t e with coefficient := factor * (read t e).coefficient } :=
      congrArg (Term.mk · _ _ _) (mul_assoc factor t.coefficient (ofFactor e).coefficient)
    rw [List.foldl_cons, List.foldl_cons, hstep, ih]

/-- A product with a number in front is read as the other operand with its coefficient multiplied by
the number. -/
theorem ofExpr_mul_const (factor : Exact rules) (e : Expr (Exact rules)) :
    ofExpr (.mul (.const factor) e) =
      { ofExpr e with coefficient := factor * (ofExpr e).coefficient } := by
  have hstart : unit.multiply (ofFactor (.const factor)) =
      { (unit : Term (Exact rules)) with coefficient := factor * unit.coefficient } := by
    rw [ofFactor, (reduced_constant factor).unit_multiply, unit, Exact.one_eq]
    exact congrArg constant (mul_one factor).symm
  have hfactors : (Expr.mul (.const factor) e).factors = .const factor :: e.factors :=
    Expr.factors_mul _ _
  rw [ofExpr_eq_foldl, hfactors, List.foldl_cons, hstart, ofExpr_eq_foldl e]
  exact foldl_multiply_scaled factor unit e.factors

/-- A change of sign negates the coefficient of the term and keeps the rest of it. -/
theorem ofExpr_negateAddend (e : Expr (Exact rules)) :
    ofExpr e.negateAddend = { ofExpr e with coefficient := -(ofExpr e).coefficient } := by
  obtain ⟨value, rfl, hn⟩ | ⟨factor, right, rfl, hn⟩ | hn := Expr.negateAddend_cases e <;> rw [hn]
  · rfl
  · rw [ofExpr_mul_const, ofExpr_mul_const, neg_mul]
  · rw [Expr.int, ofExpr_mul_const, Exact.ofInt_eq, Int.cast_neg, Int.cast_one, neg_one_mul]

/-- A term with its coefficient negated where the number of changes of sign is odd. -/
def signed (changes : ℕ) (t : Term (Exact rules)) : Term (Exact rules) :=
  { t with coefficient := if Odd changes then -t.coefficient else t.coefficient }

/-- Of repeated changes of sign only their parity shows in the term. -/
theorem ofExpr_iterate_negateAddend (changes : ℕ) (e : Expr (Exact rules)) :
    ofExpr (Expr.negateAddend^[changes] e) = (ofExpr e).signed changes := by
  induction changes with
  | zero => rfl
  | succ changes ih =>
    rw [Function.iterate_succ_apply', ofExpr_negateAddend, ih]
    simp only [signed, Nat.odd_add_one]
    by_cases hodd : Odd changes
    · simp only [hodd, not_true_eq_false, if_true, if_false, neg_neg]
    · simp only [hodd, not_false_eq_true, if_true, if_false]

end Term

namespace Expr

variable {rules : Exactness}

/-- The terms of an expression are those of its operands, with their signs. -/
theorem terms_eq_map_operands (e : Expr (Exact rules)) :
    e.terms = e.operands.map fun operand => (Term.ofExpr operand.2).signed operand.1 := by
  rw [terms, addends_eq_map_operands, List.map_map]
  exact List.map_congr_left fun operand _ => Term.ofExpr_iterate_negateAddend operand.1 operand.2

/-- Joining the addends of an expression again gives a sum with the same addends. -/
theorem addends_sum_addends (e : Expr (Exact rules)) : (sum e.addends).addends = e.addends := by
  rw [addends_sum e.addends_ne_nil]
  have hsingle : e.addends.flatMap addends = e.addends.flatMap fun addend => [addend] :=
    List.flatMap_congr fun addend ha => addends_eq_singleton (isSum_of_mem_addends ha)
  rw [hsingle, List.flatMap_singleton']

section Value

variable {F : Type*} [Field F] [CharZero F] {I : Interpretation rules F}
  (hI : ∀ value, I.number value = Exact.toField F value)
include hI

/-- Where numbers are those of a field, a change of sign gives the opposite value. -/
theorem value_negateAddend_of_field (e : Expr (Exact rules)) :
    e.negateAddend.value I = -e.value I := by
  have hneg (value : Exact rules) : I.number (-value) = -I.number value := by
    rw [hI, hI, map_neg]
  obtain ⟨value, rfl, hn⟩ | ⟨factor, right, rfl, hn⟩ | hn := negateAddend_cases e <;> rw [hn]
  · exact hneg value
  · rw [value_mul, value_mul, value, value, hneg, neg_mul]
  · have hminus : (Expr.int (-1) : Expr (Exact rules)).value I = -1 := by
      rw [int, value, hI, Exact.ofInt_eq, map_intCast, Int.cast_neg, Int.cast_one]
    rw [value_mul, hminus, neg_one_mul]

/-- Where numbers are those of a field, the value of an expression is the sum of the values of its
addends. -/
theorem sum_value_addends_of_field (e : Expr (Exact rules)) :
    (e.addends.map (value I)).sum = e.value I :=
  sum_map_addends (value I) (P := fun _ => True)
    (fun left right _ => ⟨⟨trivial, trivial⟩, value_add left right⟩)
    (fun left right _ => ⟨⟨trivial, trivial⟩, value_sub left right⟩)
    (fun e _ => ⟨trivial, value_negateAddend_of_field hI e⟩) trivial

end Value

/-- The addends of an expression are no sums, and there is one more of them than there are sums and
differences in the chain. In a field of characteristic zero, whatever functions, quotients and
powers mean, their values add up to that of the expression. Each addend is an operand after its
changes of sign: its term is that of the operand, with the coefficient negated exactly where the
operand stands on the right side of an odd number of differences. The sum of the addends has the
same addends again. -/
theorem addends_signed_and_faithful (e : Expr (Exact rules)) :
    (∀ addend ∈ e.addends, addend.isSum = false) ∧
    e.addends.length = e.joints + 1 ∧
    (∀ (F : Type*) [Field F] [CharZero F] (I : Interpretation rules F),
      (∀ value, I.number value = Exact.toField F value) →
        (e.addends.map (value I)).sum = e.value I) ∧
    (e.addends = (e.operands.map fun operand => negateAddend^[operand.1] operand.2) ∧
      e.terms = e.operands.map fun operand => (Term.ofExpr operand.2).signed operand.1) ∧
    (sum e.addends).addends = e.addends :=
  ⟨fun _ => isSum_of_mem_addends, e.length_addends,
    fun _ _ _ _ hI => sum_value_addends_of_field hI e,
    ⟨e.addends_eq_map_operands, e.terms_eq_map_operands⟩, e.addends_sum_addends⟩

/-- The difference `x - (2 - (sin(x) - (x*y - 3*z)))`. -/
def nestedDifference : Expr (Exact .standard) :=
  .sub (.var "x") (.sub (.int 2) (.sub (.func "sin" (.var "x"))
    (.sub (.mul (.var "x") (.var "y")) (.mul (.int 3) (.var "z")))))

/-- A meaning in which every function is the square, a power is its base, and a variable has the
length of its name as its value. -/
def squares : Interpretation .standard ℚ :=
  .inField (fun name => name.length) (fun _ t => t ^ 2) fun base _ => base

theorem addends_signed_and_faithful_nestedDifference :
    nestedDifference.addends =
      [.var "x", .int (-2), .mul (.int 1) (.func "sin" (.var "x")),
        .mul (.int (-1)) (.mul (.var "x") (.var "y")), .mul (.int 3) (.var "z")] ∧
    nestedDifference.addends.length = 5 ∧
    (nestedDifference.addends.map (value squares)).sum = nestedDifference.value squares ∧
    (nestedDifference.operands.map Prod.fst = [0, 1, 2, 3, 4] ∧
      nestedDifference.terms = nestedDifference.operands.map fun operand =>
        (Term.ofExpr operand.2).signed operand.1) ∧
    (sum nestedDifference.addends).addends = nestedDifference.addends := by
  obtain ⟨-, hlength, hvalue, ⟨-, hterms⟩, hagain⟩ := addends_signed_and_faithful nestedDifference
  exact ⟨by decide +kernel, hlength, hvalue ℚ _ fun _ => rfl, ⟨rfl, hterms⟩, hagain⟩

end Expr

end SymbolicForms
