import SymbolicForms.Proofs.Vocabulary

/-!
# Meaning of expressions

An interpretation gives every number, variable, function and operator a meaning
in a commutative ring; sums, differences and products have their usual one. A
power to a number and a power to any other exponent are interpreted apart. An
interpretation is faithful to a vocabulary when it respects the arithmetic of
its numbers and exponents. The value of a product is then the product of the
values of its factors, and the value of a sum the sum of those of its addends.
-/

namespace SymbolicForms

/-- A meaning in a commutative ring for everything but sums, differences and products. -/
structure Interpretation (rules : Exactness) (R : Type*) where
  /-- The values of numbers. -/
  number : Exact rules → R
  /-- The values of variables. -/
  valuation : String → R
  /-- The meanings of functions. -/
  functions : String → R → R
  /-- The meaning of quotients. -/
  quotient : R → R → R
  /-- The meaning of powers to a number. -/
  numericPower : R → Exact rules → R
  /-- The meaning of powers to any other exponent. -/
  power : R → R → R

namespace Interpretation

variable {rules : Exactness} {R : Type*} [CommRing R]

/-- The value of two operands joined by an operator. The right operand may be a number. -/
def join (I : Interpretation rules R) (op : Op) (left right : R) (number? : Option (Exact rules)) :
    R :=
  match op, number? with
  | .add, _ => left + right
  | .sub, _ => left - right
  | .mul, _ => left * right
  | .div, _ => I.quotient left right
  | .pow, some exponent => I.numericPower left exponent
  | .pow, none => I.power left right

/-- The interpretation respects the numbers and exponents of a vocabulary. -/
structure Faithful (I : Interpretation rules R) (v : Vocabulary rules) : Prop where
  /-- Integers are those of the ring. -/
  number_intCast : ∀ n : ℤ, I.number n = n
  /-- Sums of numbers are sums in the ring. -/
  number_add : ∀ ⦃a b⦄, a ∈ v.numbers → b ∈ v.numbers → I.number (a + b) = I.number a + I.number b
  /-- Products of numbers are products in the ring. -/
  number_mul : ∀ ⦃a b⦄, a ∈ v.numbers → b ∈ v.numbers → I.number (a * b) = I.number a * I.number b
  /-- Natural powers are those of the ring. -/
  numericPower_natCast : ∀ (base : R) (n : ℕ), I.numericPower base n = base ^ n
  /-- Powers of functions with negative exponents follow the law of exponents. -/
  numericPower_add : ∀ ⦃name⦄, v.signed name → ∀ (argument : R) (m n : ℤ),
    I.numericPower (I.functions name argument) (m + n : ℤ) =
      I.numericPower (I.functions name argument) m * I.numericPower (I.functions name argument) n

/-- Integers and natural powers in a commutative ring, where functions and quotients may mean
anything. -/
def inRing (valuation : String → R) (functions : String → R → R) (quotient : R → R → R) :
    Interpretation rules R where
  number value := (⌊value⌋ : R)
  valuation := valuation
  functions := functions
  quotient := quotient
  numericPower base exponent := base ^ ⌊exponent⌋₊
  power _ _ := 0

/-- Integers and natural powers of a commutative ring are respected. -/
theorem faithful_inRing (valuation : String → R) (functions : String → R → R)
    (quotient : R → R → R) (names : String → Prop) :
    Faithful (inRing valuation functions quotient : Interpretation rules R) (.integers names) where
  number_intCast n := by simp [inRing]
  number_add := by
    rintro _ _ ⟨m, rfl⟩ ⟨n, rfl⟩
    simp [inRing]
  number_mul := by
    rintro _ _ ⟨m, rfl⟩ ⟨n, rfl⟩
    simp [inRing, ← Int.cast_mul]
  numericPower_natCast base n := by simp [inRing]
  numericPower_add _ h := False.elim h

namespace Faithful

variable {I : Interpretation rules R} {v : Vocabulary rules} (hI : I.Faithful v)
include hI

theorem number_zero : I.number 0 = 0 := by
  simpa only [Int.cast_zero] using hI.number_intCast 0

theorem number_one : I.number 1 = 1 := by
  simpa only [Int.cast_one] using hI.number_intCast 1

/-- The opposite of a number has the opposite value. -/
theorem number_neg {a : Exact rules} (ha : a ∈ v.numbers) : I.number (-a) = -I.number a := by
  have h := hI.number_mul (v.mem_of_intCast (-1)) ha
  rwa [hI.number_intCast, Int.cast_neg, Int.cast_one, neg_one_mul, Int.cast_neg, Int.cast_one,
    neg_one_mul] at h

/-- Natural powers of numbers are powers in the ring. -/
theorem number_pow {a : Exact rules} (ha : a ∈ v.numbers) (n : ℕ) :
    I.number (a ^ n) = I.number a ^ n := by
  induction n with
  | zero => rw [pow_zero, pow_zero, hI.number_one]
  | succ n ih => rw [pow_succ, pow_succ, hI.number_mul (pow_mem ha n) ha, ih]

end Faithful

end Interpretation

namespace Expr

section Chains

variable {K : Type} {P : Expr K → Prop}

/-- What turns products into products and is passed on to factors turns a product chain into the
product over its factors. -/
theorem prod_map_factors {M : Type*} [Monoid M] (f : Expr K → M)
    (hmul : ∀ left right, P (.mul left right) →
      (P left ∧ P right) ∧ f (.mul left right) = f left * f right)
    {e : Expr K} (h : P e) : (e.factors.map f).prod = f e := by
  induction e with
  | binary op left right ihl ihr =>
    cases op with
    | mul =>
      obtain ⟨⟨hl, hr⟩, heq⟩ := hmul left right h
      rw [factors_mul, List.map_append, List.prod_append, ihl hl, ihr hr, heq]
    | _ => exact List.prod_singleton
  | _ => exact List.prod_singleton

variable [Scalar K]

/-- What turns products into products turns the product of a list into the product over the list. -/
theorem map_product {M : Type*} [Monoid M] (f : Expr K → M) (hone : f (.int 1) = 1)
    (hmul : ∀ left right, P left → P right →
      P (.mul left right) ∧ f (.mul left right) = f left * f right)
    {es : List (Expr K)} (h : ∀ e ∈ es, P e) : f (product es) = (es.map f).prod := by
  cases es with
  | nil => exact hone
  | cons first rest =>
    have joined (acc : Expr K) (hacc : P acc) (hrest : ∀ e ∈ rest, P e) :
        f (rest.foldl .mul acc) = f acc * (rest.map f).prod := by
      clear h
      induction rest generalizing acc with
      | nil => exact (mul_one _).symm
      | cons second rest ih =>
        obtain ⟨hsecond, hrest⟩ := List.forall_mem_cons.mp hrest
        obtain ⟨hnext, heq⟩ := hmul acc second hacc hsecond
        rw [List.foldl_cons, ih _ hnext hrest, heq, List.map_cons, List.prod_cons, mul_assoc]
    obtain ⟨hfirst, hrest⟩ := List.forall_mem_cons.mp h
    exact joined first hfirst hrest

/-- What turns sums into sums turns the sum of a list into the sum over the list. -/
theorem map_sum {M : Type*} [AddMonoid M] (f : Expr K → M) (hzero : f (.int 0) = 0)
    (hadd : ∀ left right, f (.add left right) = f left + f right) (es : List (Expr K)) :
    f (sum es) = (es.map f).sum := by
  cases es with
  | nil => exact hzero
  | cons first rest =>
    have joined (acc : Expr K) : f (rest.foldl .add acc) = f acc + (rest.map f).sum := by
      induction rest generalizing acc with
      | nil => exact (add_zero _).symm
      | cons second rest ih =>
        rw [List.foldl_cons, ih, hadd, List.map_cons, List.sum_cons, add_assoc]
    exact joined first

/-- What turns sums into sums and differences into differences, changes its sign with an addend and
is passed on to operands turns a chain of sums and differences into the sum over its addends. -/
theorem sum_map_addends {M : Type*} [AddCommGroup M] (f : Expr K → M)
    (hadd : ∀ left right, P (.add left right) →
      (P left ∧ P right) ∧ f (.add left right) = f left + f right)
    (hsub : ∀ left right, P (.sub left right) →
      (P left ∧ P right) ∧ f (.sub left right) = f left - f right)
    (hneg : ∀ e, P e → P e.negateAddend ∧ f e.negateAddend = -f e) {e : Expr K} (h : P e) :
    (e.addends.map f).sum = f e := by
  induction e with
  | binary op left right ihl ihr =>
    cases op with
    | add =>
      obtain ⟨⟨hl, hr⟩, heq⟩ := hadd left right h
      rw [addends_add, List.map_append, List.sum_append, ihl hl, ihr hr, heq]
    | sub =>
      obtain ⟨⟨hl, hr⟩, heq⟩ := hsub left right h
      have hright : ∀ addend ∈ right.addends, P addend :=
        forall_mem_addends (fun left right h => (hadd left right h).1)
          (fun left right h => (hsub left right h).1) (fun _ _ h => h) (fun e h => (hneg e h).1) hr
      have hnegated : ((right.addends.map negateAddend).map f).sum = -f right := by
        rw [← ihr hr, List.sum_neg, List.map_map, List.map_map]
        exact congrArg List.sum (List.map_congr_left fun addend ha =>
          (hneg addend (hright addend ha)).2)
      rw [addends_sub, List.map_append, List.sum_append, ihl hl, hnegated, heq, sub_eq_add_neg]
    | _ => exact List.sum_singleton
  | _ => exact List.sum_singleton

end Chains

variable {rules : Exactness} {R : Type*} [CommRing R]

/-- The value of an expression. -/
def value (I : Interpretation rules R) : Expr (Exact rules) → R
  | .const number => I.number number
  | .var name => I.valuation name
  | .func name argument => I.functions name (value I argument)
  | .binary op left right => I.join op (value I left) (value I right) right.number?

variable {I : Interpretation rules R}

theorem value_add (left right : Expr (Exact rules)) :
    (Expr.add left right).value I = left.value I + right.value I := rfl

theorem value_sub (left right : Expr (Exact rules)) :
    (Expr.sub left right).value I = left.value I - right.value I := rfl

theorem value_mul (left right : Expr (Exact rules)) :
    (Expr.mul left right).value I = left.value I * right.value I := rfl

theorem value_div (left right : Expr (Exact rules)) :
    (Expr.div left right).value I = I.quotient (left.value I) (right.value I) := rfl

theorem value_pow_const (base : Expr (Exact rules)) (exponent : Exact rules) :
    (Expr.pow base (.const exponent)).value I = I.numericPower (base.value I) exponent := rfl

/-- The value of a product chain is the product of the values of its factors. -/
theorem prod_value_factors (e : Expr (Exact rules)) :
    (e.factors.map (value I)).prod = e.value I :=
  prod_map_factors (value I) (P := fun _ => True)
    (fun left right _ => ⟨⟨trivial, trivial⟩, value_mul left right⟩) trivial

/-- Where the number one has the value one, the value of a product is the product of the values. -/
theorem value_product_of_number_one (hone : I.number 1 = 1) (es : List (Expr (Exact rules))) :
    (product es).value I = (es.map (value I)).prod := by
  refine map_product (value I) (P := fun _ => True) ?_ (fun left right _ _ => ?_)
    fun _ _ => trivial
  · have h : I.number ((1 : ℤ) : Exact rules) = 1 := by rw [Int.cast_one, hone]
    exact h
  · exact ⟨trivial, value_mul left right⟩

variable {v : Vocabulary rules} (hI : I.Faithful v)
include hI

theorem value_int (n : ℤ) : (Expr.int n : Expr (Exact rules)).value I = n := hI.number_intCast n

/-- The value of a product is the product of the values. -/
theorem value_product (es : List (Expr (Exact rules))) :
    (product es).value I = (es.map (value I)).prod :=
  value_product_of_number_one hI.number_one es

/-- The value of a sum is the sum of the values. -/
theorem value_sum (es : List (Expr (Exact rules))) :
    (sum es).value I = (es.map (value I)).sum :=
  map_sum (value I) ((value_int hI 0).trans Int.cast_zero) value_add es

/-- A negated addend has the opposite value. -/
theorem value_negateAddend {e : Expr (Exact rules)} (h : e.Within v) :
    e.negateAddend.value I = -e.value I := by
  obtain ⟨number, rfl, hn⟩ | ⟨factor, right, rfl, hn⟩ | hn := negateAddend_cases e <;> rw [hn]
  · exact hI.number_neg h
  · rw [value_mul, value_mul, value, value, hI.number_neg h.1, neg_mul]
  · rw [value_mul, value_int hI, Int.cast_neg, Int.cast_one, neg_one_mul]

/-- The value of an expression is the sum of the values of its addends. -/
theorem sum_value_addends {e : Expr (Exact rules)} (h : e.Within v) :
    (e.addends.map (value I)).sum = e.value I :=
  sum_map_addends (value I) (P := Expr.Within v)
    (fun left right h => ⟨⟨h.1, h.2.1⟩, value_add left right⟩)
    (fun left right h => ⟨⟨h.1, h.2.1⟩, value_sub left right⟩)
    (fun _ h => ⟨h.negateAddend, value_negateAddend hI h⟩) h

end Expr

end SymbolicForms
