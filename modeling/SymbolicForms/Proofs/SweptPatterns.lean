import Mathlib.Tactic.NormNum
import SymbolicForms.Proofs.Nodes
import SymbolicForms.Proofs.TrigonometryMeaning

/-!
# Patterns left by trigonometric sweeps

A sweep visits every operator once, after its operands, and does not look again
at what its rule puts there. One visit is enough: the angle of a match stands
inside an operand that has been swept, and a number times a function of an angle,
or twice an angle, is a product of sine and cosine only if the angle is one. So
no pattern is left anywhere, and the same sweep changes nothing any more. No law
of numbers is needed for this.
-/

namespace SymbolicForms

namespace Expr

variable {K : Type}

section Sweep

variable {P : Expr K → Prop} {rule : Expr K → Expr K}

/-- What holds of numbers, variables and functions, and everywhere in what a rule makes of an
operator between operands that have it everywhere, holds everywhere after a sweep. -/
theorem everywhere_sweep [Scalar K] (hconst : ∀ value, P (.const value))
    (hvar : ∀ name, P (.var name)) (hfunc : ∀ name argument, P (.func name argument))
    (hrule : ∀ op left right, left.Everywhere P → right.Everywhere P →
      (rule (.binary op left right)).Everywhere P) (e : Expr K) : (sweep rule e).Everywhere P := by
  rw [sweep_eq_rebuild]
  exact everywhere_rebuild hconst hvar hfunc hrule e

/-- A rule that leaves an operator alone where something holds everywhere gives back an expression
in which it holds everywhere. -/
theorem sweep_eq_self [Scalar K]
    (hrule : ∀ op left right, (Expr.binary op left right).Everywhere P →
      rule (.binary op left right) = .binary op left right) {e : Expr K} (h : e.Everywhere P) :
    sweep rule e = e := by
  rw [sweep_eq_rebuild]
  exact rebuild_eq_self hrule h

end Sweep

variable [Scalar K]

/-- A number in front makes no product of sine and cosine. -/
theorem sineCosine?_mul_const_eq_none {value : K} {e : Expr K} (h : e.sineCosine? = none) :
    (Expr.mul (.const value) e).sineCosine? = none := by
  have hothers : otherFactors (Expr.mul (.const value) e).factors = otherFactors e.factors := by
    rw [factors_mul]
    rfl
  rw [Option.eq_none_iff_forall_not_mem] at h ⊢
  intro found hfound
  obtain ⟨angle, heq, hsame, -⟩ := mem_sineCosine?_iff.mp hfound
  rw [hothers] at heq
  exact h ⟨numericFactor e.factors, found.angle⟩
    (mem_sineCosine?_iff.mpr ⟨angle, heq, hsame, rfl⟩)

/-- What is no product is no product of sine and cosine. -/
theorem sineCosine?_eq_none_of_ne_mul {e : Expr K} (h : ∀ left right, e ≠ .mul left right) :
    e.sineCosine? = none := by
  have hlength : (otherFactors e.factors).length ≤ 1 := by
    rw [factors_eq_singleton h]
    exact List.length_filter_le _ _
  refine Option.eq_none_iff_forall_not_mem.mpr fun found hfound => ?_
  obtain ⟨angle, hothers, -⟩ := mem_sineCosine?_iff.mp hfound
  rcases hothers with heq | heq <;> simp [heq] at hlength

/-- The angle of a product of sine and cosine stands in a factor. -/
theorem exists_factor_of_sineCosine? {e : Expr K} {found : AngleMatch K}
    (h : found ∈ e.sineCosine?) : ∃ factor ∈ e.factors, found.angle ∈ factor.nodes :=
  ⟨_, sine_mem_factors h, argument_mem_nodes "sin" found.angle⟩

/-- The angle of a square is inside. -/
theorem angle_mem_nodes_of_square? {function : String} {e : Expr K} {found : AngleMatch K}
    (h : found ∈ e.square? function) : found.angle ∈ e.nodes := by
  obtain ⟨exponent, hsquare⟩ := exists_square_mem_factors h
  have hinside := left_nodes_subset .pow _ (.const exponent)
    (argument_mem_nodes function found.angle)
  exact nodes_subset_of_mem (e.factors_subset_nodes hsquare) hinside

/-- The sides are multiples of squares of the two functions, with the same angle and coefficients
near each other. -/
def SquaresMatch (function other : String) (left right : Expr K) : Prop :=
  ∃ first ∈ left.square? function, ∃ second ∈ right.square? other,
    first.angle.same second.angle = true ∧ Scalar.near first.coefficient second.coefficient = true

/-- A pair of squares is found where there is one, and its angle and coefficient are the first
ones. -/
theorem mem_squarePair?_iff {function other : String} {left right : Expr K}
    {found : AngleMatch K} :
    found ∈ squarePair? function other left right ↔
      found ∈ left.square? function ∧ ∃ second ∈ right.square? other,
        found.agrees second = true := by
  unfold squarePair?
  split
  · next first second hfirst hsecond =>
    simp only [Option.mem_def, hfirst, hsecond, Option.ite_none_right_eq_some, Option.some_inj,
      exists_eq_left']
    constructor
    · rintro ⟨hagrees, rfl⟩
      exact ⟨rfl, hagrees⟩
    · rintro ⟨rfl, hagrees⟩
      exact ⟨hagrees, rfl⟩
  · next hnone =>
    refine ⟨fun h => absurd h (by simp), ?_⟩
    rintro ⟨hfirst, second, hsecond, -⟩
    exact absurd hsecond (hnone found second hfirst)

/-- No pair of squares is found exactly where there is none. -/
theorem squarePair?_eq_none_iff {function other : String} {left right : Expr K} :
    squarePair? function other left right = none ↔ ¬ SquaresMatch function other left right := by
  rw [Option.eq_none_iff_forall_not_mem]
  simp only [mem_squarePair?_iff, SquaresMatch, AngleMatch.agrees, Bool.and_eq_true, not_and,
    not_exists]

/-- At the root stands neither a product of sine and cosine of one angle nor a difference of their
squares. -/
def HasNoDoubleAngle : Expr K → Prop
  | .binary .mul left right => (Expr.mul left right).sineCosine? = none
  | .binary .sub left right => ¬ SquaresMatch "cos" "sin" left right
  | _ => True

/-- At the root stands no sum of squares of sine and cosine of one angle, in either order. -/
def HasNoPythagoras : Expr K → Prop
  | .binary .add left right =>
    ¬ SquaresMatch "sin" "cos" left right ∧ ¬ SquaresMatch "cos" "sin" left right
  | _ => True

/-- A quotient of sine and cosine of one angle, or one divided by either. -/
inductive IsQuotientPattern : Expr K → Prop where
  | tangent {angle angle' : Expr K} (h : angle.same angle' = true) :
    IsQuotientPattern (.div (.func "sin" angle) (.func "cos" angle'))
  | cotangent {angle angle' : Expr K} (h : angle.same angle' = true) :
    IsQuotientPattern (.div (.func "cos" angle) (.func "sin" angle'))
  | secant {value : K} {angle : Expr K} (h : Scalar.isUnit value = true) :
    IsQuotientPattern (.div (.const value) (.func "cos" angle))
  | cosecant {value : K} {angle : Expr K} (h : Scalar.isUnit value = true) :
    IsQuotientPattern (.div (.const value) (.func "sin" angle))

/-- Where no product of sine and cosine stands at the root, none is found. -/
theorem HasNoDoubleAngle.sineCosine?_eq_none {e : Expr K} (h : e.HasNoDoubleAngle) :
    e.sineCosine? = none := by
  by_cases hmul : ∃ left right, e = .mul left right
  · obtain ⟨left, right, rfl⟩ := hmul
    exact h
  · exact sineCosine?_eq_none_of_ne_mul fun left right heq => hmul ⟨left, right, heq⟩

/-- A number times an expression has no pattern that the expression does not have. -/
theorem everywhere_hasNoDoubleAngle_mul_const {value : K} {e : Expr K}
    (h : e.Everywhere HasNoDoubleAngle) :
    (Expr.mul (.const value) e).Everywhere HasNoDoubleAngle :=
  everywhere_binary.mpr ⟨sineCosine?_mul_const_eq_none h.self.sineCosine?_eq_none,
    everywhere_const.mpr trivial, h⟩

/-- A multiple of a function of twice an angle has no pattern that the angle does not have. -/
theorem everywhere_hasNoDoubleAngle_scaled {factor : K} {name : String} {angle : Expr K}
    (h : angle.Everywhere HasNoDoubleAngle) :
    (scaled factor (.func name (doubleAngle angle))).Everywhere HasNoDoubleAngle := by
  have hfunction : (Expr.func name (doubleAngle angle)).Everywhere HasNoDoubleAngle :=
    everywhere_func.mpr ⟨trivial, everywhere_hasNoDoubleAngle_mul_const h⟩
  unfold scaled
  split
  · exact hfunction
  · exact everywhere_hasNoDoubleAngle_mul_const hfunction

/-- Between operands without patterns the rule for double angles leaves none. -/
theorem everywhere_doubleAngleRule (op : Op) {left right : Expr K}
    (hl : left.Everywhere HasNoDoubleAngle) (hr : right.Everywhere HasNoDoubleAngle) :
    (doubleAngleRule (.binary op left right)).Everywhere HasNoDoubleAngle := by
  cases op with
  | mul =>
    rw [doubleAngleRule]
    split
    · next found hfound =>
      obtain ⟨factor, hfactor, hangle⟩ := exists_factor_of_sineCosine? hfound
      rw [factors_mul, List.mem_append] at hfactor
      refine everywhere_hasNoDoubleAngle_scaled ?_
      obtain hleft | hright := hfactor
      · exact (hl.of_mem (left.factors_subset_nodes hleft)).of_mem hangle
      · exact (hr.of_mem (right.factors_subset_nodes hright)).of_mem hangle
    · next hnone => exact everywhere_binary.mpr ⟨hnone, hl, hr⟩
  | sub =>
    rw [doubleAngleRule]
    split
    · next found hfound =>
      have hangle := angle_mem_nodes_of_square? (mem_squarePair?_iff.mp hfound).1
      exact everywhere_hasNoDoubleAngle_scaled (hl.of_mem hangle)
    · next hnone => exact everywhere_binary.mpr ⟨squarePair?_eq_none_iff.mp hnone, hl, hr⟩
  | _ => exact everywhere_binary.mpr ⟨trivial, hl, hr⟩

/-- Between operands without patterns the rule for sums of squares leaves none. -/
theorem everywhere_pythagoreanRule (op : Op) {left right : Expr K}
    (hl : left.Everywhere HasNoPythagoras) (hr : right.Everywhere HasNoPythagoras) :
    (pythagoreanRule (.binary op left right)).Everywhere HasNoPythagoras := by
  cases op with
  | add =>
    rw [pythagoreanRule]
    split
    · exact everywhere_const.mpr trivial
    · next hfirst =>
      split
      · exact everywhere_const.mpr trivial
      · next hsecond =>
        exact everywhere_binary.mpr
          ⟨⟨squarePair?_eq_none_iff.mp hfirst, squarePair?_eq_none_iff.mp hsecond⟩, hl, hr⟩
  | _ => exact everywhere_binary.mpr ⟨trivial, hl, hr⟩

/-- At the root stands no quotient pattern. -/
def HasNoQuotient (e : Expr K) : Prop := ¬ e.IsQuotientPattern

/-- Only quotients are patterns. -/
theorem hasNoQuotient_of_ne_div {e : Expr K} (h : ∀ left right, e ≠ .div left right) :
    e.HasNoQuotient := by
  rintro (_ | _ | _ | _) <;> exact h _ _ rfl

/-- The rule for quotients leaves everything else alone. -/
theorem quotientRule_eq_self {e : Expr K} (h : e.HasNoQuotient) : quotientRule e = e := by
  unfold quotientRule
  split
  · next name angle name' angle' =>
    split
    · next hsine =>
      rw [Bool.and_eq_true, Bool.and_eq_true, beq_iff_eq, beq_iff_eq] at hsine
      obtain ⟨⟨rfl, rfl⟩, hangle⟩ := hsine
      exact absurd (.tangent hangle) h
    split
    · next hcosine =>
      rw [Bool.and_eq_true, Bool.and_eq_true, beq_iff_eq, beq_iff_eq] at hcosine
      obtain ⟨⟨rfl, rfl⟩, hangle⟩ := hcosine
      exact absurd (.cotangent hangle) h
    · rfl
  · next value name angle =>
    split
    · next hcosine =>
      rw [Bool.and_eq_true, beq_iff_eq] at hcosine
      obtain ⟨hunit, rfl⟩ := hcosine
      exact absurd (.secant hunit) h
    split
    · next hsine =>
      rw [Bool.and_eq_true, beq_iff_eq] at hsine
      obtain ⟨hunit, rfl⟩ := hsine
      exact absurd (.cosecant hunit) h
    · rfl
  · rfl

/-- A quotient pattern becomes a function of an angle from one of the operands. -/
theorem exists_quotientRule_eq {op : Op} {left right : Expr K}
    (h : (Expr.binary op left right).IsQuotientPattern) :
    ∃ name, ∃ angle ∈ left.nodes ++ right.nodes,
      quotientRule (.binary op left right) = .func name angle := by
  cases h with
  | tangent h =>
    exact ⟨"tan", _, List.mem_append_left _ (argument_mem_nodes _ _), by simp [quotientRule, h]⟩
  | cotangent h =>
    exact ⟨"cot", _, List.mem_append_left _ (argument_mem_nodes _ _), by simp [quotientRule, h]⟩
  | secant h =>
    exact ⟨"sec", _, List.mem_append_right _ (argument_mem_nodes _ _), by simp [quotientRule, h]⟩
  | cosecant h =>
    exact ⟨"csc", _, List.mem_append_right _ (argument_mem_nodes _ _), by simp [quotientRule, h]⟩

/-- Between operands without patterns the rule for quotients leaves none. -/
theorem everywhere_quotientRule (op : Op) {left right : Expr K}
    (hl : left.Everywhere HasNoQuotient) (hr : right.Everywhere HasNoQuotient) :
    (quotientRule (.binary op left right)).Everywhere HasNoQuotient := by
  by_cases hpattern : (Expr.binary op left right).IsQuotientPattern
  · obtain ⟨name, angle, hangle, heq⟩ := exists_quotientRule_eq hpattern
    rw [heq]
    refine everywhere_func.mpr ⟨hasNoQuotient_of_ne_div (by simp), ?_⟩
    obtain hleft | hright := List.mem_append.mp hangle
    · exact hl.of_mem hleft
    · exact hr.of_mem hright
  · rw [quotientRule_eq_self hpattern]
    exact everywhere_binary.mpr ⟨hpattern, hl, hr⟩

/-- After a sweep for double angles there is no place for another one. -/
theorem everywhere_applyDoubleAngle (e : Expr K) :
    e.applyDoubleAngle.Everywhere HasNoDoubleAngle :=
  everywhere_sweep (fun _ => trivial) (fun _ => trivial) (fun _ _ => trivial)
    (fun op _ _ => everywhere_doubleAngleRule op) e

/-- After a sweep for sums of squares there is none. -/
theorem everywhere_applyPythagorean (e : Expr K) :
    e.applyPythagorean.Everywhere HasNoPythagoras :=
  everywhere_sweep (fun _ => trivial) (fun _ => trivial) (fun _ _ => trivial)
    (fun op _ _ => everywhere_pythagoreanRule op) e

/-- After a sweep for quotients there is none of the patterns. -/
theorem everywhere_applyQuotients (e : Expr K) : e.applyQuotients.Everywhere HasNoQuotient :=
  everywhere_sweep (fun _ => hasNoQuotient_of_ne_div (by simp))
    (fun _ => hasNoQuotient_of_ne_div (by simp)) (fun _ _ => hasNoQuotient_of_ne_div (by simp))
    (fun op _ _ => everywhere_quotientRule op) e

/-- Without a place for double angles nothing is changed. -/
theorem applyDoubleAngle_eq_self_of_everywhere {e : Expr K} (h : e.Everywhere HasNoDoubleAngle) :
    e.applyDoubleAngle = e := by
  refine sweep_eq_self (fun op left right hnode => ?_) h
  cases op with
  | mul => rw [doubleAngleRule, hnode.self.sineCosine?_eq_none]
  | sub => rw [doubleAngleRule, squarePair?_eq_none_iff.mpr hnode.self]
  | _ => rfl

/-- Without sums of squares nothing is changed. -/
theorem applyPythagorean_eq_self_of_everywhere {e : Expr K} (h : e.Everywhere HasNoPythagoras) :
    e.applyPythagorean = e := by
  refine sweep_eq_self (fun op left right hnode => ?_) h
  cases op with
  | add =>
    obtain ⟨hfirst, hsecond⟩ := hnode.self
    rw [pythagoreanRule, squarePair?_eq_none_iff.mpr hfirst, squarePair?_eq_none_iff.mpr hsecond]
  | _ => rfl

/-- Without quotient patterns nothing is changed. -/
theorem applyQuotients_eq_self_of_everywhere {e : Expr K} (h : e.Everywhere HasNoQuotient) :
    e.applyQuotients = e :=
  sweep_eq_self (fun _ _ _ hnode => quotientRule_eq_self hnode.self) h

/-- One sweep of each kind leaves none of its patterns at any node, and a second one changes
nothing. -/
theorem sweeps_leave_no_pattern (e : Expr K) :
    (∀ left right, Expr.mul left right ∈ e.applyDoubleAngle.nodes →
      (Expr.mul left right).sineCosine? = none) ∧
    (∀ left right, Expr.sub left right ∈ e.applyDoubleAngle.nodes →
      ¬ SquaresMatch "cos" "sin" left right) ∧
    (∀ left right, Expr.add left right ∈ e.applyPythagorean.nodes →
      ¬ SquaresMatch "sin" "cos" left right ∧ ¬ SquaresMatch "cos" "sin" left right) ∧
    (∀ node ∈ e.applyQuotients.nodes, ¬ node.IsQuotientPattern) ∧
    e.applyDoubleAngle.applyDoubleAngle = e.applyDoubleAngle ∧
    e.applyPythagorean.applyPythagorean = e.applyPythagorean ∧
    e.applyQuotients.applyQuotients = e.applyQuotients :=
  ⟨fun _ _ hnode => e.everywhere_applyDoubleAngle _ hnode,
    fun _ _ hnode => e.everywhere_applyDoubleAngle _ hnode,
    fun _ _ hnode => e.everywhere_applyPythagorean _ hnode,
    fun _ hnode => e.everywhere_applyQuotients _ hnode,
    applyDoubleAngle_eq_self_of_everywhere e.everywhere_applyDoubleAngle,
    applyPythagorean_eq_self_of_everywhere e.everywhere_applyPythagorean,
    applyQuotients_eq_self_of_everywhere e.everywhere_applyQuotients⟩

/-- The square of a function of `x`. -/
def squareOf (function : String) : Expr (Exact .standard) :=
  .pow (.func function (.var "x")) (.int 2)

/-- The quotient `sin(x)*cos(x)*(cos(x)^2-3*sin(x)^2) / (sin(x)^2+3*cos(x)^2)`. -/
def unevenSquares : Expr (Exact .standard) :=
  .div (.mul (.mul (.func "sin" (.var "x")) (.func "cos" (.var "x")))
      (.sub (squareOf "cos") (.mul (.int 3) (squareOf "sin"))))
    (.add (squareOf "sin") (.mul (.int 3) (squareOf "cos")))

theorem sweeps_leave_no_pattern_unevenSquares :
    (Expr.mul (.const (1 / 2)) (.func "sin" (.mul (.int 2) (.var "x"))) ∈
        unevenSquares.applyDoubleAngle.nodes ∧
      (Expr.mul (.const (1 / 2 : Exact .standard))
        (.func "sin" (.mul (.int 2) (.var "x")))).sineCosine? = none) ∧
    (Expr.sub (squareOf "cos") (.mul (.int 3) (squareOf "sin")) ∈
        unevenSquares.applyDoubleAngle.nodes ∧
      ¬ SquaresMatch "cos" "sin" (squareOf "cos") (.mul (.int 3) (squareOf "sin"))) ∧
    (Expr.add (squareOf "sin") (.mul (.int 3) (squareOf "cos")) ∈
        unevenSquares.applyPythagorean.nodes ∧
      ¬ SquaresMatch "sin" "cos" (squareOf "sin") (.mul (.int 3) (squareOf "cos")) ∧
      ¬ SquaresMatch "cos" "sin" (squareOf "sin") (.mul (.int 3) (squareOf "cos"))) ∧
    (unevenSquares ∈ unevenSquares.applyQuotients.nodes ∧ ¬ unevenSquares.IsQuotientPattern) ∧
    unevenSquares.applyDoubleAngle.applyDoubleAngle = unevenSquares.applyDoubleAngle := by
  obtain ⟨hproduct, hdifference, hsum, hquotient, hagain, -⟩ :=
    sweeps_leave_no_pattern unevenSquares
  have hnewProduct : Expr.mul (.const (1 / 2)) (.func "sin" (.mul (.int 2) (.var "x"))) ∈
      unevenSquares.applyDoubleAngle.nodes := by decide +kernel
  have hkeptDifference : Expr.sub (squareOf "cos") (.mul (.int 3) (squareOf "sin")) ∈
      unevenSquares.applyDoubleAngle.nodes := by decide +kernel
  have hkeptSum : Expr.add (squareOf "sin") (.mul (.int 3) (squareOf "cos")) ∈
      unevenSquares.applyPythagorean.nodes := by decide +kernel
  have hkeptQuotient : unevenSquares ∈ unevenSquares.applyQuotients.nodes := by decide +kernel
  exact ⟨⟨hnewProduct, hproduct _ _ hnewProduct⟩,
    ⟨hkeptDifference, hdifference _ _ hkeptDifference⟩, ⟨hkeptSum, hsum _ _ hkeptSum⟩,
    ⟨hkeptQuotient, hquotient _ hkeptQuotient⟩, hagain⟩

end Expr

end SymbolicForms
