import SymbolicForms.Chain

/-!
# Numeric factors of product chains

Neighbouring numbers in a product chain are multiplied into one, and a product
of one is dropped. A chain without anything to fold keeps its grouping.
-/

namespace SymbolicForms

namespace Expr

variable {K : Type} [Scalar K]

/-- The product of the numbers in a list of factors. -/
def numericFactor (factors : List (Expr K)) : K :=
  (factors.filterMap number?).foldl (· * ·) Scalar.one

/-- The factors that are not numbers. -/
def otherFactors (factors : List (Expr K)) : List (Expr K) :=
  factors.filter fun factor => !factor.isNumber

section OtherFactors

omit [Scalar K]

/-- A number is not among the other factors. -/
@[simp] theorem otherFactors_const_cons (value : K) (rest : List (Expr K)) :
    otherFactors (.const value :: rest) = otherFactors rest := rfl

/-- What is no number is among the other factors. -/
theorem otherFactors_cons {factor : Expr K} (h : factor.isNumber = false)
    (rest : List (Expr K)) : otherFactors (factor :: rest) = factor :: otherFactors rest :=
  List.filter_cons_of_pos (by rw [h]; rfl)

/-- The other factors are factors. -/
theorem mem_of_mem_otherFactors {factors : List (Expr K)} {factor : Expr K}
    (h : factor ∈ otherFactors factors) : factor ∈ factors :=
  (List.mem_filter.mp h).1

/-- The numbers of a list can be put behind its other factors. -/
theorem perm_otherFactors (factors : List (Expr K)) :
    factors.Perm (otherFactors factors ++ (factors.filterMap number?).map .const) := by
  have hread : ∀ factor ∈ factors, ∀ value ∈ factor.number?, Expr.const value = factor := by
    intro factor _ value hvalue
    cases factor <;> cases hvalue
    rfl
  have hperm := perm_filter_append_filterMap number? id Expr.const hread
  simp only [List.map_id, ← Option.not_isSome] at hperm
  exact hperm

end OtherFactors

/-- What is no number does not change the product of the numbers. -/
theorem numericFactor_cons {factor : Expr K} (h : factor.isNumber = false)
    (rest : List (Expr K)) : numericFactor (factor :: rest) = numericFactor rest := by
  have hnone : factor.number? = none := Option.not_isSome_iff_eq_none.mp (Bool.eq_false_iff.mp h)
  rw [numericFactor, List.filterMap_cons_none hnone, numericFactor]

/-- A finished run of numbers in front of other factors; a run whose product is one is dropped. -/
def finishRun (total : K) (rest : List (Expr K)) : List (Expr K) :=
  if Scalar.isUnit total then rest else .number total :: rest

/-- Multiply each run of neighbouring numbers into one. The first argument is the product of the run
in progress. -/
def mergeRuns : Option K → List (Expr K) → List (Expr K)
  | none, [] => []
  | some total, [] => finishRun total []
  | run, .const value :: rest => mergeRuns (some (run.getD Scalar.one * value)) rest
  | none, factor :: rest => factor :: mergeRuns none rest
  | some total, factor :: rest => finishRun total (factor :: mergeRuns none rest)

/-- What holds of all factors of a list holds of what the list is merged to, if it holds of the
numbers of a kind that has one and all products with numbers of the list. -/
theorem forall_mem_mergeRuns {P : Expr K → Prop} (N : K → Prop)
    (hnumber : ∀ total, N total → P (.number total)) (hone : N Scalar.one)
    (hmul : ∀ total value, N total → P (.const value) → N (total * value)) {run : Option K}
    (hrun : ∀ total ∈ run, N total) {factors : List (Expr K)} (h : ∀ factor ∈ factors, P factor) :
    ∀ factor ∈ mergeRuns run factors, P factor := by
  have finished {total : K} (htotal : N total) {rest : List (Expr K)}
      (hrest : ∀ factor ∈ rest, P factor) : ∀ factor ∈ finishRun total rest, P factor := by
    unfold finishRun
    split
    · exact hrest
    · exact List.forall_mem_cons.mpr ⟨hnumber total htotal, hrest⟩
  fun_induction mergeRuns run factors with
  | case1 => exact h
  | case2 total => exact finished (hrun total rfl) h
  | case3 run value rest ih =>
    obtain ⟨hvalue, hrest⟩ := List.forall_mem_cons.mp h
    have hstart : N (run.getD Scalar.one) := by
      cases run with
      | none => exact hone
      | some total => exact hrun total rfl
    refine ih (fun total htotal => ?_) hrest
    obtain rfl := Option.some_inj.mp htotal
    exact hmul _ value hstart hvalue
  | case4 factor rest hnumber' ih =>
    obtain ⟨hfactor, hrest⟩ := List.forall_mem_cons.mp h
    exact List.forall_mem_cons.mpr ⟨hfactor, ih hrun hrest⟩
  | case5 total factor rest hnumber' ih =>
    obtain ⟨hfactor, hrest⟩ := List.forall_mem_cons.mp h
    exact finished (hrun total rfl)
      (List.forall_mem_cons.mpr ⟨hfactor, ih (fun _ hnone => nomatch hnone) hrest⟩)

/-- What holds of all numbers and of all factors of a list holds of what the list is merged to. -/
theorem forall_mem_mergeRuns_of_const {P : Expr K → Prop} (hconst : ∀ value, P (.const value))
    (run : Option K) {factors : List (Expr K)} (h : ∀ factor ∈ factors, P factor) :
    ∀ factor ∈ mergeRuns run factors, P factor :=
  forall_mem_mergeRuns (fun _ => True) (fun _ _ => hconst _) trivial (fun _ _ _ _ => trivial)
    (fun _ _ => trivial) h

/-- Fold the numbers of a product chain. Folding shortens a chain with anything to fold; any other
chain stays as it is. -/
def foldChain : Expr K → Expr K
  | .binary .mul left right =>
    let factors := (Expr.mul left right).factors
    let merged := mergeRuns none factors
    if merged.length = factors.length then .mul left right else product merged
  | e => e

/-- Fold the numbers of all product chains inside an expression, but not of the chain at its
root. -/
def foldInside : Expr K → Expr K
  | .const value => .const value
  | .var name => .var name
  | .func name argument => .func name (foldChain (foldInside argument))
  | .binary .mul left right => .mul (foldInside left) (foldInside right)
  | .binary op left right => .binary op (foldChain (foldInside left)) (foldChain (foldInside right))

/-- Fold the numbers of all product chains. -/
def foldNumericFactors (e : Expr K) : Expr K := foldChain (foldInside e)

end Expr

end SymbolicForms
