import SymbolicForms.Proofs.TermMeaning
import SymbolicForms.Expansion

/-!
# Meaning of expanded expressions

Multiplying out keeps the value and does not lead out of a vocabulary: products
of addends add up to the product of the sums by distributivity, repeated
products are powers, and a power of a power multiplies the exponents. Exponents
have to be numbers here, because a number that comes into being as an exponent
changes the kind of the power.
-/

namespace SymbolicForms

namespace Expr

variable {rules : Exactness} {v : Vocabulary rules}

/-- A product of two factors is within their vocabulary. -/
theorem within_multiplySimple {left right : Expr (Exact rules)} (hl : left.Within v)
    (hr : right.Within v) : (multiplySimple left right).Within v := by
  unfold multiplySimple
  split
  · exact v.numbers.mul_mem hl hr
  · split
    · exact within_int 0
    split
    · exact hr
    split
    · exact hl
    · exact Term.within_toExpr ((Term.within_ofExpr hl).multiply (Term.within_ofExpr hr))

/-- A distributed product is within the vocabulary of its operands. -/
theorem within_expandProduct {left right : Expr (Exact rules)} (hl : left.Within v)
    (hr : right.Within v) : (expandProduct left right).Within v := by
  refine expandProduct_induction (within_int 0) (fun _ _ => Within.add)
    fun first hfirst second hsecond => ?_
  exact within_multiplySimple (hl.of_mem_addends hfirst) (hr.of_mem_addends hsecond)

/-- A repeated product is within the vocabulary of its base. -/
theorem within_repeatedProduct {base : Expr (Exact rules)} (h : base.Within v) (count : ℕ) :
    (repeatedProduct base count).Within v := by
  induction count with
  | zero => exact h
  | succ count ih => exact within_expandProduct ih h

/-- A small whole power is within the vocabulary of its base. -/
theorem within_wholePower {base : Expr (Exact rules)} (h : base.Within v) (n : ℕ) :
    (wholePower base (n : Exact rules)).Within v := by
  unfold wholePower
  split
  · exact within_int 1
  · exact h
  · next count hcount =>
    split
    · exact within_repeatedProduct h (count + 1)
    · exact h.pow (v.hasExponent_natCast base n)

/-- An exponent that is multiplied out is a natural number. -/
theorem exists_natCast_of_isExpandedPower {base : Expr (Exact rules)} {exponent : Exact rules}
    (he : v.HasExponent base exponent) (h : isExpandedPower exponent = true) :
    ∃ n : ℕ, exponent = n := by
  cases base with
  | func name argument =>
    obtain ⟨n, rfl, -⟩ := he
    simp only [isExpandedPower, Bool.and_eq_true, Exact.le_iff, Exact.zero_eq,
      Int.cast_nonneg_iff] at h
    lift n to ℕ using h.1.2
    exact ⟨n, Int.cast_natCast n⟩
  | _ => exact he

/-- A natural power of a number is evaluated. -/
theorem expandNumericPower_const (value : Exact rules) (n : ℕ) :
    expandNumericPower (.const value) (n : Exact rules) = .number (value ^ n) := by
  rw [expandNumericPower, if_pos (Exact.hasPower_natCast value n), Exact.power_natCast]

/-- A power of an expanded base is within its vocabulary. -/
theorem within_expandNumericPower {base : Expr (Exact rules)} {exponent : Exact rules}
    (hb : base.Within v) (he : v.HasExponent base exponent) :
    (expandNumericPower base exponent).Within v := by
  unfold expandNumericPower
  split
  · exact hb.pow he
  · obtain ⟨n, rfl⟩ := he
    rw [Exact.hasPower_natCast, if_pos rfl, Exact.power_natCast]
    exact pow_mem hb n
  · split
    · next h =>
      obtain ⟨n, rfl⟩ := exists_natCast_of_isExpandedPower he h
      exact within_wholePower hb n
    · exact hb.pow he

/-- A multiple of an exponent is one of the exponents of the base. -/
theorem hasExponent_mul_natCast {base : Expr (Exact rules)} {exponent : Exact rules}
    (he : v.HasExponent base exponent) (n : ℕ) : v.HasExponent base (exponent * n) := by
  cases base with
  | func name argument =>
    obtain ⟨m, rfl, hm⟩ := he
    refine ⟨m * n, by push_cast; rfl, hm.imp_left fun hm => ?_⟩
    exact mul_nonneg hm (Int.natCast_nonneg n)
  | _ =>
    obtain ⟨m, rfl⟩ := he
    exact ⟨m * n, by push_cast; rfl⟩

/-- A power of a power is the base with both exponents multiplied. -/
theorem expandPower_pow (base : Expr (Exact rules)) (inner outer : Exact rules) :
    expandPower (.pow base (.const inner)) (.const outer) =
      expandPower base (.const (inner * outer)) := rfl

/-- Any base is such a power or is raised by itself. -/
theorem expandPower_cases (base : Expr (Exact rules)) (exponent : Exact rules) :
    (∃ below inner, base = .pow below (.const inner)) ∨
      expandPower base (.const exponent) = expandNumericPower base exponent := by
  cases base with
  | binary op left right =>
    cases op with
    | pow =>
      cases right with
      | const inner => exact Or.inl ⟨left, inner, rfl⟩
      | _ => exact Or.inr rfl
    | _ => exact Or.inr rfl
  | _ => exact Or.inr rfl

/-- A power with a number for its exponent is within the vocabulary of its base. -/
theorem within_expandPower {base : Expr (Exact rules)} {exponent : Exact rules}
    (hb : base.Within v) (he : v.HasExponent base exponent) :
    (expandPower base (.const exponent)).Within v := by
  induction base generalizing exponent with
  | binary op left right ihl ihr =>
    obtain ⟨below, inner, heq⟩ | h := expandPower_cases (.binary op left right) exponent
    · cases heq
      obtain ⟨n, rfl⟩ := he
      exact ihl hb.1 (hasExponent_mul_natCast hb.2.2 n)
    · exact h ▸ within_expandNumericPower hb he
  | _ => exact within_expandNumericPower hb he

/-- Expansion keeps the name of a function, and with it its exponents. -/
theorem hasExponent_fullyExpand {base : Expr (Exact rules)} {exponent : Exact rules}
    (he : v.HasExponent base exponent) : v.HasExponent base.fullyExpand exponent := by
  cases base with
  | func name argument => exact he
  | _ =>
    obtain ⟨n, rfl⟩ := he
    exact v.hasExponent_natCast _ n

/-- Expansion does not lead out of a vocabulary. -/
theorem Within.fullyExpand (hv : ¬v.openPowers) {e : Expr (Exact rules)} (h : e.Within v) :
    e.fullyExpand.Within v := by
  induction e with
  | const value => exact h
  | var name => exact h
  | func name argument ih => exact ⟨h.1, ih h.2⟩
  | binary op left right ihl ihr =>
    cases op with
    | mul => exact within_expandProduct (ihl h.1) (ihr h.2.1)
    | pow =>
      obtain ⟨value, rfl, he⟩ := exists_const_of_joins hv h.2.2
      exact within_expandPower (ihl h.1) (hasExponent_fullyExpand he)
    | _ => exact ⟨ihl h.1, ihr h.2.1, trivial⟩

variable {R : Type*} [CommRing R] {I : Interpretation rules R} (hI : I.Faithful v)
include hI

/-- A product of two factors has the product of their values. -/
theorem value_multiplySimple {left right : Expr (Exact rules)} (hl : left.Within v)
    (hr : right.Within v) : (multiplySimple left right).value I = left.value I * right.value I := by
  unfold multiplySimple
  split
  · exact hI.number_mul hl hr
  · split
    · next hzero =>
      rw [Bool.or_eq_true, isZero_iff_eq hl, isZero_iff_eq hr] at hzero
      obtain rfl | rfl := hzero <;> simp [value_int hI]
    split
    · next hone =>
      obtain rfl := (isOne_iff_eq hl).mp hone
      simp [value_int hI]
    split
    · next hone =>
      obtain rfl := (isOne_iff_eq hr).mp hone
      simp [value_int hI]
    · have hl' := Term.within_ofExpr hl
      have hr' := Term.within_ofExpr hr
      rw [Term.value_toExpr hI (hl'.multiply hr'), Term.value_multiply hI hl' hr',
        Term.value_ofExpr hI hl, Term.value_ofExpr hI hr]

/-- A distributed product has the product of the values. -/
theorem value_expandProduct {left right : Expr (Exact rules)} (hl : left.Within v)
    (hr : right.Within v) : (expandProduct left right).value I = left.value I * right.value I := by
  have row (first : Expr (Exact rules)) (hfirst : first.Within v) :
      ((right.addends.map (multiplySimple first)).map (value I)).sum =
        first.value I * right.value I := by
    rw [List.map_map, ← sum_value_addends hI hr, ← List.sum_map_mul_left]
    exact congrArg List.sum (List.map_congr_left fun second hsecond =>
      value_multiplySimple hI hfirst (hr.of_mem_addends hsecond))
  have rows (firsts : List (Expr (Exact rules))) (h : ∀ first ∈ firsts, first.Within v) :
      ((firsts.flatMap fun first => right.addends.map (multiplySimple first)).map
        (value I)).sum = (firsts.map (value I)).sum * right.value I := by
    induction firsts with
    | nil => exact (zero_mul _).symm
    | cons first rest ih =>
      obtain ⟨hfirst, hrest⟩ := List.forall_mem_cons.mp h
      rw [List.flatMap_cons, List.map_append, List.sum_append, row first hfirst, ih hrest,
        List.map_cons, List.sum_cons, add_mul]
  unfold expandProduct
  split
  · exact value_multiplySimple hI hl hr
  · rw [value_sum hI, rows left.addends fun first h => hl.of_mem_addends h,
      sum_value_addends hI hl]

/-- A repeated product has a power of the value. -/
theorem value_repeatedProduct {base : Expr (Exact rules)} (h : base.Within v) (count : ℕ) :
    (repeatedProduct base count).value I = base.value I ^ (count + 1) := by
  induction count with
  | zero => rw [repeatedProduct, zero_add, pow_one]
  | succ count ih =>
    rw [repeatedProduct, value_expandProduct hI (within_repeatedProduct h count) h, ih, ← pow_succ]

/-- A small whole power has the power of the value. -/
theorem value_wholePower {base : Expr (Exact rules)} (h : base.Within v) (n : ℕ) :
    (wholePower base (n : Exact rules)).value I = base.value I ^ n := by
  unfold wholePower
  rw [Exact.toInt_natCast, Int.toNat_natCast]
  split
  · rw [value_int hI, Int.cast_one, pow_zero]
  · rw [pow_one]
  · next count =>
    split
    · exact value_repeatedProduct hI h (count + 1)
    · exact hI.numericPower_natCast _ _

/-- A power of an expanded base has the power of the value. -/
theorem value_expandNumericPower {base : Expr (Exact rules)} {exponent : Exact rules}
    (hb : base.Within v) (he : v.HasExponent base exponent) :
    (expandNumericPower base exponent).value I = I.numericPower (base.value I) exponent := by
  unfold expandNumericPower
  split
  · rfl
  · obtain ⟨n, rfl⟩ := he
    rw [Exact.hasPower_natCast, if_pos rfl, Exact.power_natCast, hI.numericPower_natCast]
    exact hI.number_pow hb n
  · split
    · next h =>
      obtain ⟨n, rfl⟩ := exists_natCast_of_isExpandedPower he h
      rw [value_wholePower hI hb, hI.numericPower_natCast]
    · rfl

/-- Raising a power to a natural exponent multiplies the exponents. -/
theorem numericPower_mul_natCast {base : Expr (Exact rules)} {exponent : Exact rules}
    (he : v.HasExponent base exponent) (n : ℕ) :
    I.numericPower (base.value I) (exponent * n) =
      I.numericPower (base.value I) exponent ^ n := by
  cases base with
  | func name argument =>
    induction n with
    | zero => simpa using hI.numericPower_natCast ((func name argument).value I) 0
    | succ n ih =>
      have hmul : v.FunctionExponent name (exponent * n) := hasExponent_mul_natCast he n
      have hadd : FunctionPowers.powerValue I ⟨name, argument⟩ (exponent * n + exponent) =
          FunctionPowers.powerValue I ⟨name, argument⟩ (exponent * n) *
            FunctionPowers.powerValue I ⟨name, argument⟩ exponent :=
        FunctionPowers.powerValue_add hI hmul he
      rw [Nat.cast_succ, mul_add, mul_one, pow_succ, ← ih]
      exact hadd
  | _ =>
    obtain ⟨m, rfl⟩ := he
    rw [← Nat.cast_mul, hI.numericPower_natCast, hI.numericPower_natCast, pow_mul]

/-- A power with a number for its exponent has the power of the value. -/
theorem value_expandPower {base : Expr (Exact rules)} {exponent : Exact rules}
    (hb : base.Within v) (he : v.HasExponent base exponent) :
    (expandPower base (.const exponent)).value I = I.numericPower (base.value I) exponent := by
  induction base generalizing exponent with
  | binary op left right ihl ihr =>
    obtain ⟨below, inner, heq⟩ | h := expandPower_cases (.binary op left right) exponent
    · cases heq
      obtain ⟨n, rfl⟩ := he
      rw [expandPower_pow, ihl hb.1 (hasExponent_mul_natCast hb.2.2 n),
        numericPower_mul_natCast hI hb.2.2, value_pow_const, hI.numericPower_natCast]
    · rw [h, value_expandNumericPower hI hb he]
  | _ => exact value_expandNumericPower hI hb he

/-- Expansion keeps the value. -/
theorem value_fullyExpand (hv : ¬v.openPowers) {e : Expr (Exact rules)} (h : e.Within v) :
    e.fullyExpand.value I = e.value I := by
  induction e with
  | const value => rfl
  | var name => rfl
  | func name argument ih => exact congrArg (I.functions name) (ih h.2)
  | binary op left right ihl ihr =>
    have hl := h.1.fullyExpand hv
    have hr := h.2.1.fullyExpand hv
    cases op with
    | mul =>
      exact (value_expandProduct hI hl hr).trans (congrArg₂ (· * ·) (ihl h.1) (ihr h.2.1))
    | pow =>
      obtain ⟨value, rfl, he⟩ := exists_const_of_joins hv h.2.2
      refine (value_expandPower hI hl (hasExponent_fullyExpand he)).trans ?_
      rw [ihl h.1, value_pow_const]
    | add => exact congrArg₂ (· + ·) (ihl h.1) (ihr h.2.1)
    | sub => exact congrArg₂ (· - ·) (ihl h.1) (ihr h.2.1)
    | div => exact congrArg₂ I.quotient (ihl h.1) (ihr h.2.1)

end Expr

end SymbolicForms
