import SymbolicForms.Proofs.ExactNumbers
import SymbolicForms.Chain

/-!
# Expressions within a vocabulary

A vocabulary says from which numbers, names and exponents expressions are made.
No two of its numbers are near each other, so that within a vocabulary equality
up to the margin is equality. Taking products and sums apart and joining them
again does not lead out of a vocabulary.
-/

namespace SymbolicForms

/-- The numbers, names and exponents from which expressions are made. -/
structure Vocabulary (rules : Exactness) where
  /-- The numbers. -/
  numbers : Subring (Exact rules)
  /-- No two of the numbers are near each other. -/
  separated : ∀ a ∈ numbers, ∀ b ∈ numbers, Scalar.near a b = true → a = b
  /-- The names of variables and functions. -/
  names : String → Prop
  /-- The functions whose powers may have negative exponents. -/
  signed : String → Prop
  /-- Exponents need not be numbers. -/
  openPowers : Prop

namespace Vocabulary

variable {rules : Exactness} (v : Vocabulary rules)

/-- Integers with natural exponents, and the given names. -/
def integers (names : String → Prop) : Vocabulary rules where
  numbers := (Int.castRingHom (Exact rules)).range
  separated := by
    rintro _ ⟨m, rfl⟩ _ ⟨n, rfl⟩ h
    exact congrArg _ ((Exact.near_intCast m n).mp h)
  names := names
  signed := fun _ => False
  openPowers := False

/-- All numbers and names with natural exponents, where there is no margin. -/
def rationals (h : rules.margin = 0) : Vocabulary rules where
  numbers := ⊤
  separated := fun a _ b _ => (Exact.near_iff_eq h a b).mp
  names := fun _ => True
  signed := fun _ => False
  openPowers := False

/-- A number is an exponent of powers of a function. -/
def FunctionExponent (name : String) (exponent : Exact rules) : Prop :=
  ∃ n : ℤ, exponent = n ∧ (0 ≤ n ∨ v.signed name)

/-- A number is an exponent of powers of a base. -/
def HasExponent : Expr (Exact rules) → Exact rules → Prop
  | .func name _, exponent => v.FunctionExponent name exponent
  | _, exponent => ∃ n : ℕ, exponent = n

/-- Two operands may be joined by an operator: the exponent of a power has to suit its base. -/
def Joins : Op → Expr (Exact rules) → Expr (Exact rules) → Prop
  | .pow, base, .const exponent => v.HasExponent base exponent
  | .pow, _, _ => v.openPowers
  | _, _, _ => True

/-- Natural numbers are exponents of every function. -/
theorem functionExponent_natCast (name : String) (n : ℕ) : v.FunctionExponent name n :=
  ⟨n, by rw [Int.cast_natCast], Or.inl (Int.natCast_nonneg n)⟩

/-- Natural numbers are exponents of every base. -/
theorem hasExponent_natCast (base : Expr (Exact rules)) (n : ℕ) : v.HasExponent base n := by
  cases base with
  | func name argument => exact v.functionExponent_natCast name n
  | _ => exact ⟨n, rfl⟩

/-- Within a vocabulary, near numbers are equal. -/
theorem near_iff {a b : Exact rules} (ha : a ∈ v.numbers) (hb : b ∈ v.numbers) :
    Scalar.near a b = true ↔ a = b :=
  ⟨v.separated a ha b hb, fun h => h ▸ Exact.near_self a⟩

/-- Every vocabulary has the integers. -/
theorem mem_of_intCast (n : ℤ) : (n : Exact rules) ∈ v.numbers := intCast_mem v.numbers n

/-- Every vocabulary has the natural numbers. -/
theorem mem_of_natCast (n : ℕ) : (n : Exact rules) ∈ v.numbers := natCast_mem v.numbers n

/-- Within a vocabulary, only zero vanishes. -/
theorem vanishes_iff {a : Exact rules} (ha : a ∈ v.numbers) :
    Scalar.vanishes a = true ↔ a = 0 := by
  rw [Scalar.vanishes, Exact.zero_eq, v.near_iff ha v.numbers.zero_mem]

/-- Numbers of a vocabulary that are not zero do not vanish. -/
theorem vanishes_eq_false {a : Exact rules} (ha : a ∈ v.numbers) (hne : a ≠ 0) :
    Scalar.vanishes a = false := by
  rw [Bool.eq_false_iff, ne_eq, v.vanishes_iff ha]
  exact hne

/-- Within a vocabulary, only one counts as one. -/
theorem isUnit_iff {a : Exact rules} (ha : a ∈ v.numbers) : Scalar.isUnit a = true ↔ a = 1 := by
  rw [Scalar.isUnit, Exact.one_eq, v.near_iff ha v.numbers.one_mem]

/-- Exponents of functions are numbers of the vocabulary. -/
theorem FunctionExponent.mem {name : String} {exponent : Exact rules}
    (h : v.FunctionExponent name exponent) : exponent ∈ v.numbers := by
  obtain ⟨n, rfl, -⟩ := h
  exact v.mem_of_intCast n

/-- The sum of two exponents of a function is one of them. -/
theorem FunctionExponent.add {name : String} {a b : Exact rules}
    (ha : v.FunctionExponent name a) (hb : v.FunctionExponent name b) :
    v.FunctionExponent name (a + b) := by
  obtain ⟨m, rfl, hm⟩ := ha
  obtain ⟨n, rfl, hn⟩ := hb
  refine ⟨m + n, (Int.cast_add m n).symm, ?_⟩
  by_cases hsigned : v.signed name
  · exact Or.inr hsigned
  · exact Or.inl (add_nonneg (hm.resolve_right hsigned) (hn.resolve_right hsigned))

end Vocabulary

namespace Expr

variable {rules : Exactness}

/-- Every expression is the same as itself. -/
@[simp] theorem same_self (e : Expr (Exact rules)) : e.same e = true := by
  induction e with
  | const value => simp [same]
  | var name => simp [same]
  | func name argument ih => simp [same, ih]
  | binary op left right ihl ihr => simp [same, ihl, ihr]

/-- Where numbers agree with each other both ways, so do expressions. -/
theorem same_comm_of_agree {K : Type} [Scalar K]
    (h : ∀ a b : K, Scalar.agree a b = Scalar.agree b a) (first second : Expr K) :
    first.same second = second.same first := by
  induction first generalizing second with
  | const value =>
    cases second with
    | const value' => exact h value value'
    | _ => rfl
  | var name =>
    cases second with
    | var name' => exact Bool.beq_comm
    | _ => rfl
  | func name argument ih =>
    cases second with
    | func name' argument' => simp only [same, ih argument', Bool.beq_comm (a := name)]
    | _ => rfl
  | binary op left right ihl ihr =>
    cases second with
    | binary op' left' right' =>
      simp only [same, ihl left', ihr right', Bool.beq_comm (a := op)]
    | _ => rfl

/-- Of two expressions, each is the same as the other. -/
theorem same_comm (first second : Expr (Exact rules)) :
    first.same second = second.same first := same_comm_of_agree Exact.near_comm first second

variable (v : Vocabulary rules)

/-- All numbers of an expression are from a vocabulary, whatever its names and exponents are. -/
def Over : Expr (Exact rules) → Prop
  | .const value => value ∈ v.numbers
  | .var _ => True
  | .func _ argument => Over argument
  | .binary _ left right => Over left ∧ Over right

/-- An expression is made from a vocabulary. -/
def Within : Expr (Exact rules) → Prop
  | .const value => value ∈ v.numbers
  | .var name => v.names name
  | .func name argument => v.names name ∧ Within argument
  | .binary op left right => Within left ∧ Within right ∧ v.Joins op left right

variable {v}

/-- Integers are within every vocabulary. -/
theorem within_int (n : ℤ) : (Expr.int n : Expr (Exact rules)).Within v := v.mem_of_intCast n

/-- A product of expressions within a vocabulary is within it. -/
theorem Within.mul {left right : Expr (Exact rules)} (hl : left.Within v) (hr : right.Within v) :
    (Expr.mul left right).Within v := ⟨hl, hr, trivial⟩

/-- A sum of expressions within a vocabulary is within it. -/
theorem Within.add {left right : Expr (Exact rules)} (hl : left.Within v) (hr : right.Within v) :
    (Expr.add left right).Within v := ⟨hl, hr, trivial⟩

/-- A quotient of expressions within a vocabulary is within it. -/
theorem Within.div {left right : Expr (Exact rules)} (hl : left.Within v) (hr : right.Within v) :
    (Expr.div left right).Within v := ⟨hl, hr, trivial⟩

/-- A power to one of the exponents of its base is within the vocabulary. -/
theorem Within.pow {base : Expr (Exact rules)} {exponent : Exact rules} (hb : base.Within v)
    (he : v.HasExponent base exponent) : (Expr.pow base (.const exponent)).Within v := by
  refine ⟨hb, ?_, he⟩
  cases base with
  | func name argument => exact Vocabulary.FunctionExponent.mem v he
  | _ =>
    obtain ⟨n, rfl⟩ := he
    exact v.mem_of_natCast n

/-- The numbers of an expression are from its vocabulary. -/
theorem Within.over {e : Expr (Exact rules)} (h : e.Within v) : e.Over v := by
  induction e with
  | const value => exact h
  | var name => trivial
  | func name argument ih => exact ih h.2
  | binary op left right ihl ihr => exact ⟨ihl h.1, ihr h.2.1⟩

/-- Over the numbers of a vocabulary, expressions that count as the same are equal. -/
theorem Over.same_iff_eq {first second : Expr (Exact rules)} (hf : first.Over v)
    (hs : second.Over v) : first.same second = true ↔ first = second := by
  induction first generalizing second with
  | const value =>
    cases second with
    | const value' => simp only [same, Exact.agree_eq, v.near_iff hf hs, const.injEq]
    | _ => simp [same]
  | var name => cases second <;> simp [same]
  | func name argument ih =>
    cases second with
    | func name' argument' =>
      have harguments : argument.same argument' = true ↔ argument = argument' := ih hf hs
      simp [same, harguments]
    | _ => simp [same]
  | binary op left right ihl ihr =>
    cases second with
    | binary op' left' right' => simp [same, ihl hf.1 hs.1, ihr hf.2 hs.2]
    | _ => simp [same]

/-- Within a vocabulary, expressions that count as the same are equal. -/
theorem same_iff_eq {first second : Expr (Exact rules)} (hf : first.Within v)
    (hs : second.Within v) : first.same second = true ↔ first = second :=
  hf.over.same_iff_eq hs.over

/-- Within a vocabulary, an expression near an integer is that integer. -/
theorem isNear_iff_eq {e : Expr (Exact rules)} (h : e.Within v) (n : ℤ) :
    e.isNear (n : Exact rules) = true ↔ e = .int n := by
  cases e with
  | const value => simp [isNear, int, v.near_iff h (v.mem_of_intCast n)]
  | _ => simp [isNear, int]

/-- Within a vocabulary, an expression near zero is zero. -/
theorem isZero_iff_eq {e : Expr (Exact rules)} (h : e.Within v) : e.isZero = true ↔ e = .int 0 :=
  isNear_iff_eq h 0

/-- Within a vocabulary, an expression near one is one. -/
theorem isOne_iff_eq {e : Expr (Exact rules)} (h : e.Within v) : e.isOne = true ↔ e = .int 1 :=
  isNear_iff_eq h 1

/-- Where exponents are numbers, an exponent is a number that suits its base. -/
theorem exists_const_of_joins (hv : ¬v.openPowers) {base exponent : Expr (Exact rules)}
    (h : v.Joins .pow base exponent) :
    ∃ value, exponent = .const value ∧ v.HasExponent base value := by
  cases exponent with
  | const value => exact ⟨value, rfl, h⟩
  | _ => exact absurd h hv

/-- The factors of an expression within a vocabulary are within it. -/
theorem Within.of_mem_factors {e factor : Expr (Exact rules)} (h : e.Within v)
    (hf : factor ∈ e.factors) : factor.Within v :=
  forall_mem_factors (fun _ _ h => ⟨h.1, h.2.1⟩) h factor hf

/-- A product of a list within a vocabulary is within it. -/
theorem within_product {es : List (Expr (Exact rules))} (h : ∀ e ∈ es, e.Within v) :
    (product es).Within v := product_induction (within_int 1) (fun _ _ => Within.mul) h

/-- A sum of a list within a vocabulary is within it. -/
theorem within_sum {es : List (Expr (Exact rules))} (h : ∀ e ∈ es, e.Within v) :
    (sum es).Within v := sum_induction (within_int 0) (fun _ _ => Within.add) h

/-- Either an addend has a number in front, whose sign is changed, or it is multiplied by minus
one. -/
theorem negateAddend_cases (e : Expr (Exact rules)) :
    (∃ value, e = .const value ∧ e.negateAddend = .const (-value)) ∨
    (∃ factor right, e = .mul (.const factor) right ∧
      e.negateAddend = .mul (.const (-factor)) right) ∨
    e.negateAddend = .mul (.int (-1)) e := by
  unfold negateAddend
  split
  · next value => exact Or.inl ⟨value, rfl, rfl⟩
  · next factor right => exact Or.inr (Or.inl ⟨factor, right, rfl, rfl⟩)
  · exact Or.inr (Or.inr rfl)

/-- A negated addend within a vocabulary is within it. -/
theorem Within.negateAddend {e : Expr (Exact rules)} (h : e.Within v) :
    e.negateAddend.Within v := by
  obtain ⟨value, rfl, hn⟩ | ⟨factor, right, rfl, hn⟩ | hn := negateAddend_cases e <;> rw [hn]
  · exact v.numbers.neg_mem h
  · exact Within.mul (v.numbers.neg_mem h.1) h.2.1
  · exact (within_int (-1)).mul h

/-- The addends of an expression within a vocabulary are within it. -/
theorem Within.of_mem_addends {e addend : Expr (Exact rules)} (h : e.Within v)
    (ha : addend ∈ e.addends) : addend.Within v :=
  forall_mem_addends (P := Expr.Within v) (Q := Expr.Within v) (fun _ _ h => ⟨h.1, h.2.1⟩)
    (fun _ _ h => ⟨h.1, h.2.1⟩) (fun _ _ h => h) (fun _ h => h.negateAddend) h addend ha

end Expr

end SymbolicForms
