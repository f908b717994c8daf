import Mathlib.Data.List.Permutation
import SymbolicForms.Proofs.ExactNumbers
import SymbolicForms.CommonFactor
import SymbolicForms.Trigonometry

/-!
# Matches of one angle

A product of sine and cosine and a multiple of a square are found by their
factors that are no numbers: one sine and one cosine, or one square. A list of
factors is a permutation of these and of numbers exactly where they are all that
is left without the numbers, so neither the order nor the grouping of the factors
matters. The same is found in one pass that multiplies the numbers up and keeps
what it has seen in a slot for each function. It stops at the first factor that
does not fit, and nothing behind such a factor could make up for it.
-/

namespace SymbolicForms

namespace Expr

section Numbers

variable {K : Type}

/-- Factors are some that are no numbers and some numbers, in any order, exactly where the first are
the other factors and the second are the numbers of the list. -/
theorem perm_append_numbers_iff {factors others : List (Expr K)}
    (h : ∀ factor ∈ others, factor.isNumber = false) (numbers : List K) :
    factors.Perm (others ++ numbers.map .const) ↔
      (otherFactors factors).Perm others ∧ (factors.filterMap number?).Perm numbers := by
  have hothers : otherFactors (others ++ numbers.map Expr.const) = others := by
    rw [otherFactors, List.filter_append, List.filter_map]
    have hkept : others.filter (fun factor => !factor.isNumber) = others :=
      List.filter_eq_self.mpr fun factor hf => by rw [h factor hf]; rfl
    have hdropped : numbers.filter ((fun factor : Expr K => !factor.isNumber) ∘ Expr.const) = [] :=
      List.filter_eq_nil_iff.mpr fun _ _ => Bool.false_ne_true
    rw [hkept, hdropped, List.map_nil, List.append_nil]
  have hnumbers : (others ++ numbers.map Expr.const).filterMap number? = numbers := by
    have hnone : others.filterMap number? = [] :=
      List.filterMap_eq_nil_iff.mpr fun factor hf =>
        Option.not_isSome_iff_eq_none.mp (Bool.eq_false_iff.mp (h factor hf))
    rw [List.filterMap_append, hnone, List.nil_append, List.filterMap_map]
    exact List.filterMap_some
  constructor
  · intro hperm
    exact ⟨hothers ▸ hperm.filter _, hnumbers ▸ hperm.filterMap number?⟩
  · rintro ⟨hfirst, hsecond⟩
    exact (perm_otherFactors factors).trans (hfirst.append (hsecond.map Expr.const))

end Numbers

section Passes

variable {K : Type} [Scalar K]

/-- One pass over factors that looks for a sine and a cosine of one angle. It carries the product of
the numbers so far and the angles of the sine and the cosine that have been seen, and gives up at a
second sine, a second cosine and any other factor. -/
def readSineCosine (total : K) (sine cosine : Option (Expr K)) :
    List (Expr K) → Option (AngleMatch K)
  | [] =>
    match sine, cosine with
    | some angle, some angle' => if angle.same angle' then some ⟨total, angle⟩ else none
    | _, _ => none
  | .const value :: rest => readSineCosine (total * value) sine cosine rest
  | .func name angle :: rest =>
    if name == "sin" then
      if sine.isSome then none else readSineCosine total (some angle) cosine rest
    else if name == "cos" then
      if cosine.isSome then none else readSineCosine total sine (some angle) rest
    else none
  | _ :: _ => none

/-- One pass over factors that looks for the square of a function. It carries the product of the
numbers so far and the angle and exponent of the power of the function that has been seen, where the
function itself has the exponent one, and gives up at a second power and any other factor. -/
def readSquare (function : String) (total : K) (power : Option (Expr K × K)) :
    List (Expr K) → Option (AngleMatch K)
  | [] =>
    match power with
    | some (angle, exponent) =>
      if Scalar.near exponent (Scalar.ofInt 2) then some ⟨total, angle⟩ else none
    | none => none
  | .const value :: rest => readSquare function (total * value) power rest
  | factor :: rest =>
    match PowerSplit.functionPower? factor with
    | some (⟨name, angle⟩, exponent) =>
      if name == function then
        if power.isSome then none else readSquare function total (some (angle, exponent)) rest
      else none
    | none => none

end Passes

variable {rules : Exactness}

/-- The factors are one sine, one cosine of the same angle and numbers, in any order; the match has
the angle of the sine and the product of the numbers. -/
def IsSineCosine (factors : List (Expr (Exact rules))) (found : AngleMatch (Exact rules)) : Prop :=
  ∃ (angle : Expr (Exact rules)) (numbers : List (Exact rules)),
    factors.Perm (.func "sin" found.angle :: .func "cos" angle :: numbers.map .const) ∧
      found.angle.same angle = true ∧ found.coefficient = numbers.prod

/-- The factors are one power of the function with an exponent near two and numbers, in any order;
the match has the angle of the function and the product of the numbers. -/
def IsSquareOf (function : String) (factors : List (Expr (Exact rules)))
    (found : AngleMatch (Exact rules)) : Prop :=
  ∃ (exponent : Exact rules) (numbers : List (Exact rules)),
    factors.Perm (.pow (.func function found.angle) (.const exponent) :: numbers.map .const) ∧
      Scalar.near exponent (Scalar.ofInt 2) = true ∧ found.coefficient = numbers.prod

/-- The order of the factors does not matter for a product of sine and cosine. -/
theorem isSineCosine_congr {factors other : List (Expr (Exact rules))} (h : factors.Perm other)
    {found : AngleMatch (Exact rules)} : IsSineCosine factors found ↔ IsSineCosine other found :=
  exists₂_congr fun _ _ => and_congr_left fun _ => h.congr_left _

/-- The order of the factors does not matter for a square. -/
theorem isSquareOf_congr {function : String} {factors other : List (Expr (Exact rules))}
    (h : factors.Perm other) {found : AngleMatch (Exact rules)} :
    IsSquareOf function factors found ↔ IsSquareOf function other found :=
  exists₂_congr fun _ _ => and_congr_left fun _ => h.congr_left _

/-- The product of the numbers of a list, without any order. -/
theorem numericFactor_eq_prod (factors : List (Expr (Exact rules))) :
    numericFactor factors = (factors.filterMap number?).prod := by
  rw [numericFactor, Exact.one_eq, List.prod_eq_foldl]

/-- A number in front multiplies the product of the numbers. -/
theorem numericFactor_const_cons (value : Exact rules) (rest : List (Expr (Exact rules))) :
    numericFactor (.const value :: rest) = value * numericFactor rest := by
  rw [numericFactor_eq_prod, numericFactor_eq_prod]
  exact List.prod_cons

/-- Without factors the product of the numbers is one. -/
theorem numericFactor_nil : numericFactor ([] : List (Expr (Exact rules))) = 1 := Exact.one_eq

/-- Factors that are no numbers, with numbers of a product among them in any order, are the other
factors of the list, and the product is that of its numbers. -/
theorem exists_perm_append_numbers_iff {factors others : List (Expr (Exact rules))}
    (h : ∀ factor ∈ others, factor.isNumber = false) (total : Exact rules) :
    (∃ numbers : List (Exact rules),
      factors.Perm (others ++ numbers.map .const) ∧ total = numbers.prod) ↔
      (otherFactors factors).Perm others ∧ total = numericFactor factors := by
  rw [numericFactor_eq_prod]
  constructor
  · rintro ⟨numbers, hperm, htotal⟩
    obtain ⟨hothers, hnumbers⟩ := (perm_append_numbers_iff h numbers).mp hperm
    exact ⟨hothers, htotal.trans hnumbers.prod_eq.symm⟩
  · rintro ⟨hothers, htotal⟩
    exact ⟨_, (perm_append_numbers_iff h _).mpr ⟨hothers, .refl _⟩, htotal⟩

/-- A product of sine and cosine is found exactly where there is one. -/
theorem mem_sineCosine?_iff_isSineCosine {e : Expr (Exact rules)}
    {found : AngleMatch (Exact rules)} :
    found ∈ e.sineCosine? ↔ IsSineCosine e.factors found := by
  have hfactors (angle : Expr (Exact rules)) :=
    @exists_perm_append_numbers_iff _ e.factors [.func "sin" found.angle, .func "cos" angle]
      (by simp [isNumber, number?]) found.coefficient
  simp only [List.perm_pair] at hfactors
  rw [mem_sineCosine?_iff]
  constructor
  · rintro ⟨angle, hothers, hsame, hcoefficient⟩
    obtain ⟨numbers, hperm, hprod⟩ := (hfactors angle).mpr ⟨hothers, hcoefficient⟩
    exact ⟨angle, numbers, hperm, hsame, hprod⟩
  · rintro ⟨angle, numbers, hperm, hsame, hprod⟩
    obtain ⟨hothers, hcoefficient⟩ := (hfactors angle).mp ⟨numbers, hperm, hprod⟩
    exact ⟨angle, hothers, hsame, hcoefficient⟩

/-- The square of a function is found exactly where there is one. -/
theorem mem_square?_iff_isSquareOf {function : String} {e : Expr (Exact rules)}
    {found : AngleMatch (Exact rules)} :
    found ∈ e.square? function ↔ IsSquareOf function e.factors found := by
  have hfactors (exponent : Exact rules) :=
    @exists_perm_append_numbers_iff _ e.factors
      [.pow (.func function found.angle) (.const exponent)]
      (by simp [isNumber, number?]) found.coefficient
  simp only [List.perm_singleton] at hfactors
  rw [mem_square?_iff]
  constructor
  · rintro ⟨exponent, hothers, hnear, hcoefficient⟩
    obtain ⟨numbers, hperm, hprod⟩ := (hfactors exponent).mpr ⟨hothers, hcoefficient⟩
    exact ⟨exponent, numbers, hperm, hnear, hprod⟩
  · rintro ⟨exponent, numbers, hperm, hnear, hprod⟩
    obtain ⟨hothers, hcoefficient⟩ := (hfactors exponent).mp ⟨numbers, hperm, hprod⟩
    exact ⟨exponent, hothers, hnear, hcoefficient⟩

section SineCosinePass

/-- The factors are the sine of an angle and the cosine of the same angle, in any order. -/
def IsPair (angle : Expr (Exact rules)) (factors : List (Expr (Exact rules))) : Prop :=
  ∃ angle', factors.Perm [.func "sin" angle, .func "cos" angle'] ∧ angle.same angle' = true

/-- The sine and the cosine that a pass has seen. -/
def seen (sine cosine : Option (Expr (Exact rules))) : List (Expr (Exact rules)) :=
  sine.toList.map (.func "sin") ++ cosine.toList.map (.func "cos")

/-- The order of a pair does not matter. -/
theorem isPair_congr {angle : Expr (Exact rules)} {factors other : List (Expr (Exact rules))}
    (h : factors.Perm other) : IsPair angle factors ↔ IsPair angle other :=
  exists_congr fun _ => and_congr_left fun _ => h.congr_left _

/-- A sine that a pass has seen stands in front. -/
theorem perm_seen_sine (angle : Expr (Exact rules)) (cosine : Option (Expr (Exact rules)))
    (rest : List (Expr (Exact rules))) :
    (seen (some angle) cosine ++ rest).Perm (.func "sin" angle :: (seen none cosine ++ rest)) :=
  .refl _

/-- A cosine that a pass has seen can be put in front. -/
theorem perm_seen_cosine (sine : Option (Expr (Exact rules))) (angle : Expr (Exact rules))
    (rest : List (Expr (Exact rules))) :
    (seen sine (some angle) ++ rest).Perm (.func "cos" angle :: (seen sine none ++ rest)) := by
  cases sine with
  | none => exact .refl _
  | some first => exact .swap _ _ _

/-- Two functions of one name are not in a pair. -/
theorem not_isPair_of_twice {angle first second : Expr (Exact rules)} (name : String)
    {rest : List (Expr (Exact rules))} :
    ¬IsPair angle (.func name first :: .func name second :: rest) := by
  rintro ⟨angle', hperm, -⟩
  obtain rfl : rest = [] := by simpa using hperm.length_eq
  rcases List.perm_pair.mp hperm with heq | heq
  · simp only [List.cons.injEq, func.injEq] at heq
    exact absurd (heq.1.1.symm.trans heq.2.1.1) (by decide)
  · simp only [List.cons.injEq, func.injEq] at heq
    exact absurd (heq.2.1.1.symm.trans heq.1.1) (by decide)

/-- What is neither sine nor cosine is not in a pair. -/
theorem not_isPair_of_mem {angle factor : Expr (Exact rules)}
    {factors : List (Expr (Exact rules))} (hmem : factor ∈ factors)
    (h : ∀ angle, factor ≠ .func "sin" angle ∧ factor ≠ .func "cos" angle) :
    ¬IsPair angle factors := by
  rintro ⟨angle', hperm, -⟩
  rcases List.mem_pair.mp (hperm.mem_iff.mp hmem) with rfl | rfl
  · exact (h angle).1 rfl
  · exact (h angle').2 rfl

/-- A sine in front of a cosine is a pair of its angle. -/
theorem isPair_iff {angle first second : Expr (Exact rules)} :
    IsPair angle [.func "sin" first, .func "cos" second] ↔
      first = angle ∧ first.same second = true := by
  constructor
  · rintro ⟨angle', hperm, hsame⟩
    rcases List.perm_pair.mp hperm with heq | heq
    · simp only [List.cons.injEq, func.injEq] at heq
      obtain ⟨⟨-, rfl⟩, ⟨-, rfl⟩, -⟩ := heq
      exact ⟨rfl, hsame⟩
    · simp only [List.cons.injEq, func.injEq] at heq
      exact absurd heq.1.1 (by decide)
  · rintro ⟨rfl, hsame⟩
    exact ⟨second, .refl _, hsame⟩

/-- The pass finds what is a pair together with what it has seen. -/
theorem mem_readSineCosine_iff {total : Exact rules} {sine cosine : Option (Expr (Exact rules))}
    {factors : List (Expr (Exact rules))} {found : AngleMatch (Exact rules)} :
    found ∈ readSineCosine total sine cosine factors ↔
      IsPair found.angle (seen sine cosine ++ otherFactors factors) ∧
        found.coefficient = total * numericFactor factors := by
  -- What is seen and what is to come are one list: a step only moves a factor from the second part
  -- to the first, and where the pass gives up the list cannot be a pair.
  fun_induction readSineCosine total sine cosine factors with
  | case1 total angle angle' hsame =>
    rw [Option.mem_def, Option.some_inj, numericFactor_nil, mul_one]
    constructor
    · rintro rfl
      exact ⟨⟨angle', .refl _, hsame⟩, rfl⟩
    · rintro ⟨hpair, hcoefficient⟩
      obtain ⟨rfl, -⟩ := isPair_iff.mp hpair
      exact congrArg (AngleMatch.mk · found.angle) hcoefficient.symm
  | case2 total angle angle' hsame =>
    refine iff_of_false (Option.not_mem_none _) fun ⟨hpair, _⟩ => hsame ?_
    obtain ⟨rfl, hsame⟩ := isPair_iff.mp hpair
    exact hsame
  | case3 total sine cosine hslots =>
    refine iff_of_false (Option.not_mem_none _) fun ⟨⟨angle', hperm, _⟩, _⟩ => ?_
    cases sine with
    | none => cases cosine <;> simp [seen, otherFactors] at hperm
    | some angle =>
      cases cosine with
      | none => simp [seen, otherFactors] at hperm
      | some other => exact hslots angle other rfl rfl
  | case4 total sine cosine value rest ih =>
    rw [ih, otherFactors_const_cons, numericFactor_const_cons, mul_assoc]
  | case5 total sine cosine name angle rest hname hsome =>
    obtain rfl := beq_iff_eq.mp hname
    obtain ⟨first, rfl⟩ := Option.isSome_iff_exists.mp hsome
    refine iff_of_false (Option.not_mem_none _) fun ⟨hpair, _⟩ => ?_
    rw [otherFactors_cons rfl,
      isPair_congr ((perm_seen_sine first cosine _).trans (List.perm_middle.cons _))] at hpair
    exact not_isPair_of_twice "sin" hpair
  | case6 total sine cosine name angle rest hname hslot ih =>
    obtain rfl := beq_iff_eq.mp hname
    obtain rfl := Option.not_isSome_iff_eq_none.mp hslot
    rw [ih, isPair_congr ((perm_seen_sine angle cosine _).trans List.perm_middle.symm)]
    rfl
  | case7 total sine cosine name angle rest hsine hname hsome =>
    obtain rfl := beq_iff_eq.mp hname
    obtain ⟨first, rfl⟩ := Option.isSome_iff_exists.mp hsome
    refine iff_of_false (Option.not_mem_none _) fun ⟨hpair, _⟩ => ?_
    rw [otherFactors_cons rfl,
      isPair_congr ((perm_seen_cosine sine first _).trans (List.perm_middle.cons _))] at hpair
    exact not_isPair_of_twice "cos" hpair
  | case8 total sine cosine name angle rest hsine hname hslot ih =>
    obtain rfl := beq_iff_eq.mp hname
    obtain rfl := Option.not_isSome_iff_eq_none.mp hslot
    rw [ih, isPair_congr ((perm_seen_cosine sine angle _).trans List.perm_middle.symm)]
    rfl
  | case9 total sine cosine name angle rest hsine hcosine =>
    refine iff_of_false (Option.not_mem_none _) fun ⟨hpair, _⟩ => ?_
    refine not_isPair_of_mem (List.mem_append_right _ List.mem_cons_self) (fun _ => ?_) hpair
    exact ⟨fun heq => hsine (beq_iff_eq.mpr (func.inj heq).1),
      fun heq => hcosine (beq_iff_eq.mpr (func.inj heq).1)⟩
  | case10 total sine cosine factor rest hnumber hfunc =>
    refine iff_of_false (Option.not_mem_none _) fun ⟨hpair, _⟩ => ?_
    rw [otherFactors_cons (isNumber_eq_false hnumber)] at hpair
    refine not_isPair_of_mem (List.mem_append_right _ List.mem_cons_self) ?_ hpair
    exact fun angle => ⟨hfunc "sin" angle, hfunc "cos" angle⟩

/-- A product of sine and cosine is a pair and numbers. -/
theorem mem_sineCosine?_iff_isPair {e : Expr (Exact rules)} {found : AngleMatch (Exact rules)} :
    found ∈ e.sineCosine? ↔ IsPair found.angle (otherFactors e.factors) ∧
      found.coefficient = numericFactor e.factors := by
  simp only [mem_sineCosine?_iff, IsPair, List.perm_pair, ← exists_and_right, and_assoc]

/-- One pass over the factors finds the products of sine and cosine. -/
theorem sineCosine?_eq_readSineCosine (e : Expr (Exact rules)) :
    e.sineCosine? = readSineCosine 1 none none e.factors := by
  refine Option.ext fun found => ?_
  rw [← Option.mem_def, ← Option.mem_def, mem_sineCosine?_iff_isPair, mem_readSineCosine_iff,
    one_mul]
  rfl

end SineCosinePass

section SquarePass

/-- A pass that has seen a power of the function finds it in front of numbers. -/
theorem mem_readSquare_some_iff {function : String} {total : Exact rules}
    {power : Expr (Exact rules) × Exact rules} {factors : List (Expr (Exact rules))}
    {found : AngleMatch (Exact rules)} :
    found ∈ readSquare function total (some power) factors ↔
      otherFactors factors = [] ∧ Scalar.near power.2 (Scalar.ofInt 2) = true ∧
        found = ⟨total * numericFactor factors, power.1⟩ := by
  induction factors generalizing total with
  | nil =>
    rw [readSquare, Option.mem_def, Option.ite_none_right_eq_some, Option.some_inj,
      numericFactor_nil, mul_one, @eq_comm _ found]
    exact (and_iff_right rfl).symm
  | cons factor rest ih =>
    cases factor with
    | const value =>
      rw [readSquare, ih, otherFactors_const_cons, numericFactor_const_cons, mul_assoc]
    | _ =>
      refine iff_of_false ?_ fun h => List.cons_ne_nil _ _ h.1
      simp only [readSquare]
      split <;> simp

/-- At a factor that is no number, a pass that has seen no power goes on exactly if the factor is a
power of the function. -/
theorem mem_readSquare_cons_iff {function : String} {total : Exact rules}
    {factor : Expr (Exact rules)} (h : ∀ value, factor ≠ .const value)
    {rest : List (Expr (Exact rules))} {found : AngleMatch (Exact rules)} :
    found ∈ readSquare function total none (factor :: rest) ↔ ∃ angle exponent,
      PowerSplit.functionPower? factor = some (⟨function, angle⟩, exponent) ∧
        found ∈ readSquare function total (some (angle, exponent)) rest := by
  rw [readSquare]
  · split
    · next name angle exponent hpower =>
      split
      · next hname =>
        obtain rfl := beq_iff_eq.mp hname
        simp [hpower]
      · next hname =>
        refine iff_of_false (Option.not_mem_none _) ?_
        rintro ⟨angle', exponent', heq, -⟩
        simp_all
    · next hpower => simp [hpower]
  · exact h

/-- The pass finds a square and numbers. -/
theorem mem_readSquare_none_iff {function : String} {total : Exact rules}
    {factors : List (Expr (Exact rules))} {found : AngleMatch (Exact rules)} :
    found ∈ readSquare function total none factors ↔ ∃ exponent,
      otherFactors factors = [.pow (.func function found.angle) (.const exponent)] ∧
        Scalar.near exponent (Scalar.ofInt 2) = true ∧
        found.coefficient = total * numericFactor factors := by
  induction factors generalizing total with
  | nil =>
    refine iff_of_false (Option.not_mem_none _) ?_
    rintro ⟨exponent, hothers, -⟩
    exact List.cons_ne_nil _ _ hothers.symm
  | cons factor rest ih =>
    by_cases hnumber : ∃ value, factor = .const value
    · obtain ⟨value, rfl⟩ := hnumber
      rw [readSquare, ih, otherFactors_const_cons, numericFactor_const_cons, mul_assoc]
    rw [not_exists] at hnumber
    rw [mem_readSquare_cons_iff hnumber, otherFactors_cons (isNumber_eq_false hnumber),
      numericFactor_cons (isNumber_eq_false hnumber)]
    constructor
    · rintro ⟨angle, exponent, hpower, hfound⟩
      obtain ⟨hothers, hnear, rfl⟩ := mem_readSquare_some_iff.mp hfound
      obtain ⟨-, hone⟩ | hfactor := PowerSplit.functionPower?_eq_some_iff.mp hpower
      · -- The function itself has the exponent one, which is not near two.
        obtain rfl : exponent = 1 := hone.trans Exact.one_eq
        have htwo : (1 : ℤ) = 2 := (Exact.near_intCast 1 2).mp (by simpa using hnear)
        exact absurd htwo (by decide)
      · exact ⟨exponent, by rw [hothers, hfactor]; rfl, hnear, rfl⟩
    · rintro ⟨exponent, hothers, hnear, hcoefficient⟩
      obtain ⟨hfactor, hrest⟩ := List.cons_eq_cons.mp hothers
      refine ⟨found.angle, exponent, hfactor ▸ rfl, mem_readSquare_some_iff.mpr ⟨hrest, hnear, ?_⟩⟩
      rw [← hcoefficient]

/-- One pass over the factors finds the squares of a function. -/
theorem square?_eq_readSquare (function : String) (e : Expr (Exact rules)) :
    e.square? function = readSquare function 1 none e.factors := by
  refine Option.ext fun found => ?_
  rw [← Option.mem_def, ← Option.mem_def, mem_square?_iff, mem_readSquare_none_iff, one_mul]

end SquarePass

/-- Products of sine and cosine and squares of a function are found exactly where the factors are
those of the pattern and numbers, with the product of the numbers as coefficient. Neither the order
nor the grouping of the factors matters, and one pass over the factors finds the same. -/
theorem mem_angleMatches_iff (e : Expr (Exact rules)) (function : String) :
    (∀ found, found ∈ e.sineCosine? ↔ IsSineCosine e.factors found) ∧
      (∀ found, found ∈ e.square? function ↔ IsSquareOf function e.factors found) ∧
      (∀ other : Expr (Exact rules), other.factors.Perm e.factors →
        other.sineCosine? = e.sineCosine? ∧ other.square? function = e.square? function) ∧
      e.sineCosine? = readSineCosine 1 none none e.factors ∧
      e.square? function = readSquare function 1 none e.factors := by
  refine ⟨fun _ => mem_sineCosine?_iff_isSineCosine, fun _ => mem_square?_iff_isSquareOf,
    fun other hperm => ⟨?_, ?_⟩, sineCosine?_eq_readSineCosine e, square?_eq_readSquare function e⟩
  · refine Option.ext fun found => ?_
    rw [← Option.mem_def, ← Option.mem_def, mem_sineCosine?_iff_isSineCosine,
      mem_sineCosine?_iff_isSineCosine, isSineCosine_congr hperm]
  · refine Option.ext fun found => ?_
    rw [← Option.mem_def, ← Option.mem_def, mem_square?_iff_isSquareOf, mem_square?_iff_isSquareOf,
      isSquareOf_congr hperm]


/-- The product `3 * (sin(x) * (2 * cos(x)))`. -/
def nestedProduct : Expr (Exact .strict) :=
  .mul (.int 3) (.mul (.func "sin" (.var "x")) (.mul (.int 2) (.func "cos" (.var "x"))))

/-- The product `cos(x) * 2 * 3 * sin(x)`. -/
def regroupedProduct : Expr (Exact .strict) :=
  .mul (.mul (.mul (.func "cos" (.var "x")) (.int 2)) (.int 3)) (.func "sin" (.var "x"))

theorem mem_angleMatches_iff_nestedProduct :
    regroupedProduct.factors.Perm nestedProduct.factors ∧
      regroupedProduct.sineCosine? = nestedProduct.sineCosine? ∧
      regroupedProduct.square? "sin" = nestedProduct.square? "sin" ∧
      ⟨6, .var "x"⟩ ∈ nestedProduct.sineCosine? := by
  have hperm : regroupedProduct.factors.Perm nestedProduct.factors := by decide
  obtain ⟨hsine, hsquare⟩ := (mem_angleMatches_iff nestedProduct "sin").2.2.1 _ hperm
  refine ⟨hperm, hsine, hsquare, ((mem_angleMatches_iff nestedProduct "sin").1 _).mpr ?_⟩
  refine ⟨.var "x", [3, 2], by decide, rfl, ?_⟩
  norm_num

end Expr

end SymbolicForms
