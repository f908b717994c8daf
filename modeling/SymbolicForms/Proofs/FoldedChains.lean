import Mathlib.Data.List.Chain
import SymbolicForms.NumericFactors
import SymbolicForms.Proofs.Nodes
import SymbolicForms.Proofs.UnitFactors

/-!
# Folded chains

In a folded list of factors no two numbers are neighbours and no number is one.
Merging makes a list folded and keeps its other factors in their order, and it
keeps the length of exactly the lists that are folded already. The parts of a
folded list are folded, so a chain that keeps its grouping has nothing to fold in
any of its chains, and folding its operands one by one comes to the same. One
pass therefore leaves nothing to fold anywhere, and a second one changes nothing.
The only law of numbers that is needed is that neither the factor one nor entering
an expression changes whether a number is a unit.
-/

namespace SymbolicForms

namespace Expr

variable {K : Type}

section Lists

variable [Scalar K]

/-- A list of factors in which nothing can be folded. -/
structure Folded (factors : List (Expr K)) : Prop where
  /-- No two numbers are neighbours. -/
  apart : factors.IsChain fun first second => ¬(first.isNumber ∧ second.isNumber)
  /-- No number is one. -/
  isOne_eq_false : ∀ factor ∈ factors, factor.isOne = false

/-- Whether a list is folded can be tested. -/
instance (factors : List (Expr K)) : Decidable (Folded factors) :=
  decidable_of_iff
    (factors.IsChain (fun first second => ¬(first.isNumber ∧ second.isNumber)) ∧
      ∀ factor ∈ factors, factor.isOne = false)
    ⟨fun h => ⟨h.1, h.2⟩, fun h => ⟨h.apart, h.isOne_eq_false⟩⟩

/-- There is nothing to fold without factors. -/
theorem Folded.nil : Folded ([] : List (Expr K)) := ⟨.nil, List.forall_mem_nil _⟩

/-- Nothing can be folded behind a factor, the factor is not one, and it is not a number in front of
a number. -/
theorem folded_cons {factor : Expr K} {rest : List (Expr K)} :
    Folded (factor :: rest) ↔
      (∀ next ∈ rest.head?, ¬(factor.isNumber ∧ next.isNumber)) ∧
        factor.isOne = false ∧ Folded rest := by
  constructor
  · rintro ⟨hapart, hone⟩
    obtain ⟨hnext, hapart⟩ := List.isChain_cons.mp hapart
    obtain ⟨hfactor, hone⟩ := List.forall_mem_cons.mp hone
    exact ⟨hnext, hfactor, hapart, hone⟩
  · rintro ⟨hnext, hfactor, hapart, hone⟩
    exact ⟨List.isChain_cons.mpr ⟨hnext, hapart⟩, List.forall_mem_cons.mpr ⟨hfactor, hone⟩⟩

/-- A factor that is no number takes no part in folding. -/
theorem folded_cons_of_isNumber_eq_false {factor : Expr K} (h : factor.isNumber = false)
    {rest : List (Expr K)} : Folded (factor :: rest) ↔ Folded rest := by
  have hone : factor.isOne = false := isNear_eq_false h _
  simp [folded_cons, h, hone]

/-- In front of a factor that is no number, a number can be folded only if it is one. -/
theorem folded_const_cons {value : K} {rest : List (Expr K)}
    (h : ∀ next ∈ rest.head?, next.isNumber = false) :
    Folded (.const value :: rest) ↔ Scalar.isUnit value = false ∧ Folded rest := by
  have hnext : ∀ next ∈ rest.head?, ¬((Expr.const value).isNumber ∧ next.isNumber) :=
    fun next hmem hboth => Bool.eq_false_iff.mp (h next hmem) hboth.2
  rw [folded_cons]
  exact and_iff_right hnext

/-- The parts of a folded list are folded. -/
theorem Folded.of_append {front back : List (Expr K)} (h : Folded (front ++ back)) :
    Folded front ∧ Folded back :=
  have hone := List.forall_mem_append.mp h.isOne_eq_false
  ⟨⟨h.apart.left_of_append, hone.1⟩, ⟨h.apart.right_of_append, hone.2⟩⟩

/-- Whether an expression is one shows in its number. -/
theorem isOne_eq (e : Expr K) : e.isOne = e.number?.any Scalar.isUnit := by cases e <;> rfl

/-- What keeps all numbers keeps what can be folded. -/
theorem folded_map {f : Expr K → Expr K} {factors : List (Expr K)}
    (h : ∀ factor ∈ factors, (f factor).number? = factor.number?) :
    Folded (factors.map f) ↔ Folded factors := by
  induction factors with
  | nil => rfl
  | cons factor rest ih =>
    obtain ⟨hfactor, hrest⟩ := List.forall_mem_cons.mp h
    rw [List.map_cons, folded_cons, folded_cons, ih hrest, isOne_eq, isOne_eq, hfactor]
    refine and_congr_left fun _ => ?_
    cases rest with
    | nil => simp
    | cons next rest =>
      have hnext := (List.forall_mem_cons.mp hrest).1
      simp [isNumber, hfactor, hnext]

omit [Scalar K] in
/-- What keeps all numbers keeps the order of the other factors. -/
theorem otherFactors_map {f : Expr K → Expr K} {factors : List (Expr K)}
    (h : ∀ factor ∈ factors, (f factor).number? = factor.number?) :
    otherFactors (factors.map f) = (otherFactors factors).map f := by
  rw [otherFactors, otherFactors, List.filter_map]
  refine congrArg _ (List.filter_congr fun factor hfactor => ?_)
  simp [isNumber, h factor hfactor]

end Lists

section Runs

variable [Scalar K]

/-- Merging keeps the factors that are no numbers. -/
theorem otherFactors_mergeRuns (run : Option K) (factors : List (Expr K)) :
    otherFactors (mergeRuns run factors) = otherFactors factors := by
  have finished (total : K) (rest : List (Expr K)) :
      otherFactors (finishRun total rest) = otherFactors rest := by
    unfold finishRun
    split <;> rfl
  have other {factor : Expr K} (h : ∀ value, factor ≠ .const value) (rest : List (Expr K)) :
      otherFactors (factor :: rest) = factor :: otherFactors rest :=
    otherFactors_cons (isNumber_eq_false h) rest
  fun_induction mergeRuns run factors with
  | case1 => rfl
  | case2 total => exact finished total []
  | case3 run value rest ih => exact ih
  | case4 factor rest hnumber ih => rw [other hnumber, other hnumber, ih]
  | case5 total factor rest hnumber ih => rw [finished, other hnumber, other hnumber, ih]

/-- A finished run is one number or none. -/
theorem length_finishRun (total : K) (rest : List (Expr K)) :
    (finishRun total rest).length = rest.length + if Scalar.isUnit total then 0 else 1 := by
  unfold finishRun
  split <;> rfl

/-- The factors that are still to be merged, with the product of the run in progress in front. -/
def pending : Option K → List (Expr K) → List (Expr K)
  | none, factors => factors
  | some total, factors => .const total :: factors

/-- Merging makes no list longer. -/
theorem length_mergeRuns_le (run : Option K) (factors : List (Expr K)) :
    (mergeRuns run factors).length ≤ (pending run factors).length := by
  fun_induction mergeRuns run factors with
  | case1 => exact le_rfl
  | case2 total =>
    rw [length_finishRun, pending]
    split <;> simp
  | case3 run value rest ih =>
    refine ih.trans ?_
    cases run <;> simp [pending]
  | case4 factor rest hnumber ih => exact Nat.succ_le_succ ih
  | case5 total factor rest hnumber ih =>
    rw [length_finishRun]
    simp only [pending, List.length_cons] at ih ⊢
    split <;> omega

variable [Scalar.KeepsUnits K]

/-- Merging keeps the length of a list exactly if nothing in it can be folded. -/
theorem length_mergeRuns_eq_iff (run : Option K) (factors : List (Expr K)) :
    (mergeRuns run factors).length = (pending run factors).length ↔
      Folded (pending run factors) := by
  fun_induction mergeRuns run factors with
  | case1 => exact ⟨fun _ => .nil, fun _ => rfl⟩
  | case2 total =>
    rw [length_finishRun, pending, folded_const_cons (by simp), and_iff_left Folded.nil]
    cases Scalar.isUnit total <;> simp
  | case3 run value rest ih =>
    cases run with
    | none =>
      -- the run starts with the factor one
      have hunit : (Expr.const (Scalar.one * value)).isOne = (Expr.const value).isOne :=
        Scalar.KeepsUnits.isUnit_one_mul value
      refine ih.trans ?_
      rw [pending, pending, folded_cons, folded_cons, Option.getD_none, hunit]
      rfl
    | some total =>
      -- two numbers become one
      have hle := length_mergeRuns_le (some (total * value)) rest
      simp only [pending, List.length_cons, Option.getD_some] at hle ⊢
      refine ⟨fun hlength => by omega, fun h => ?_⟩
      exact absurd ⟨rfl, rfl⟩ ((folded_cons.mp h).1 _ rfl)
  | case4 factor rest hnumber ih =>
    rw [pending, folded_cons_of_isNumber_eq_false (isNumber_eq_false hnumber)]
    exact Nat.succ_inj.trans ih
  | case5 total factor rest hnumber ih =>
    have hle := length_mergeRuns_le none rest
    have hfactor := isNumber_eq_false hnumber
    rw [length_finishRun, pending, folded_const_cons (by simpa using hfactor),
      folded_cons_of_isNumber_eq_false hfactor]
    simp only [pending, List.length_cons] at ih hle ⊢
    rw [← ih]
    cases Scalar.isUnit total <;> simp
    omega

/-- A finished run in front of a factor that is no number leaves nothing to fold. -/
theorem Folded.finishRun (total : K) {rest : List (Expr K)} (h : Folded rest)
    (hnext : ∀ next ∈ rest.head?, next.isNumber = false) : Folded (finishRun total rest) := by
  unfold Expr.finishRun
  split
  · exact h
  · next hunit =>
    refine (folded_const_cons hnext).mpr ⟨?_, h⟩
    rw [Scalar.KeepsUnits.isUnit_fresh]
    exact Bool.eq_false_iff.mpr hunit

/-- Merging leaves nothing to fold. -/
theorem folded_mergeRuns (run : Option K) (factors : List (Expr K)) :
    Folded (mergeRuns run factors) := by
  fun_induction mergeRuns run factors with
  | case1 => exact .nil
  | case2 total => exact Folded.nil.finishRun total (by simp)
  | case3 run value rest ih => exact ih
  | case4 factor rest hnumber ih =>
    exact (folded_cons_of_isNumber_eq_false (isNumber_eq_false hnumber)).mpr ih
  | case5 total factor rest hnumber ih =>
    have hfactor := isNumber_eq_false hnumber
    have hrest := (folded_cons_of_isNumber_eq_false hfactor).mpr ih
    exact hrest.finishRun total (by simpa using hfactor)

end Runs

section Chains

variable [Scalar K]

/-- The expression is no product, or nothing can be folded in its chain. -/
def HasFoldedChain : Expr K → Prop
  | .binary .mul left right => Folded (Expr.mul left right).factors
  | _ => True

/-- A folded list of factors makes a folded chain. -/
theorem Folded.hasFoldedChain {e : Expr K} (h : Folded e.factors) : e.HasFoldedChain := by
  unfold HasFoldedChain
  split
  · exact h
  · trivial

/-- Where a chain is folded and its factors have folded chains everywhere, so has the chain. -/
theorem everywhere_of_factors {e : Expr K} (hfolded : Folded e.factors)
    (h : ∀ factor ∈ e.factors, factor.Everywhere HasFoldedChain) :
    e.Everywhere HasFoldedChain := by
  induction e with
  | binary op left right ihl ihr =>
    cases op with
    | mul =>
      have hparts := hfolded
      rw [factors_mul] at h hparts
      obtain ⟨hl, hr⟩ := List.forall_mem_append.mp h
      exact everywhere_binary.mpr ⟨hfolded, ihl hparts.of_append.1 hl, ihr hparts.of_append.2 hr⟩
    | _ => exact h _ List.mem_cons_self
  | _ => exact h _ List.mem_cons_self

/-- The product of merged factors has these as its factors, if there are any left. -/
theorem factors_product_mergeRuns (e : Expr K) (hne : mergeRuns none e.factors ≠ []) :
    (product (mergeRuns none e.factors)).factors = mergeRuns none e.factors :=
  factors_product hne <| forall_mem_mergeRuns_of_const (fun _ => rfl) none fun _ hfactor =>
    factors_eq_singleton (ne_mul_of_mem_factors hfactor)

/-- Folding the numbers of a chain keeps its other factors. -/
theorem otherFactors_foldChain (e : Expr K) :
    otherFactors e.foldChain.factors = otherFactors e.factors := by
  unfold foldChain
  split
  · next left right =>
    dsimp only
    split
    · rfl
    · have hmerged := otherFactors_mergeRuns none (Expr.mul left right).factors
      by_cases hnil : mergeRuns none (Expr.mul left right).factors = []
      · rw [← hmerged, hnil]
        rfl
      · rw [factors_product_mergeRuns _ hnil, hmerged]
  · rfl

/-- An expression that is no product keeps its number, if it is one. -/
theorem number?_foldNumericFactors {e : Expr K} (h : ∀ left right, e ≠ .mul left right) :
    e.foldNumericFactors.number? = e.number? := by
  cases e with
  | binary op left right =>
    cases op with
    | mul => exact absurd rfl (h left right)
    | _ => rfl
  | _ => rfl

/-- Folding inside an expression folds each of its factors. -/
theorem factors_foldInside (e : Expr K) :
    e.foldInside.factors = e.factors.map foldNumericFactors := by
  induction e with
  | binary op left right ihl ihr =>
    cases op with
    | mul => rw [foldInside, factors_mul, factors_mul, ihl, ihr, List.map_append]
    | _ => rfl
  | _ => rfl

/-- Folding inside an expression changes nothing of what can be folded in its chain. -/
theorem folded_factors_foldInside (e : Expr K) :
    Folded e.foldInside.factors ↔ Folded e.factors := by
  rw [factors_foldInside]
  exact folded_map fun _ hfactor => number?_foldNumericFactors (ne_mul_of_mem_factors hfactor)

/-- The other factors of a folded expression are the folded other factors of the expression. -/
theorem otherFactors_foldNumericFactors (e : Expr K) :
    otherFactors e.foldNumericFactors.factors =
      (otherFactors e.factors).map foldNumericFactors := by
  rw [foldNumericFactors, otherFactors_foldChain, factors_foldInside]
  exact otherFactors_map fun _ hfactor => number?_foldNumericFactors (ne_mul_of_mem_factors hfactor)

variable [Scalar.KeepsUnits K]

/-- Folding the numbers of a folded chain, or of what is no product, changes nothing. -/
theorem HasFoldedChain.foldChain_eq_self {e : Expr K} (h : e.HasFoldedChain) :
    e.foldChain = e := by
  unfold foldChain
  split
  · exact if_pos ((length_mergeRuns_eq_iff none _).mpr h)
  · rfl

/-- A chain in which something can be folded becomes the product of the merged factors. -/
theorem foldChain_mul_of_not_folded {left right : Expr K}
    (h : ¬Folded (Expr.mul left right).factors) :
    (Expr.mul left right).foldChain = product (mergeRuns none (Expr.mul left right).factors) :=
  if_neg fun hlength => h ((length_mergeRuns_eq_iff none _).mp hlength)

/-- The product of merged factors has folded chains everywhere if the factors have. -/
theorem everywhere_product_mergeRuns {e : Expr K}
    (h : ∀ factor ∈ e.factors, factor.Everywhere HasFoldedChain) :
    (product (mergeRuns none e.factors)).Everywhere HasFoldedChain := by
  by_cases hnil : mergeRuns none e.factors = []
  · rw [hnil]
    exact everywhere_const.mpr trivial
  · refine everywhere_of_factors ?_ ?_ <;> rw [factors_product_mergeRuns e hnil]
    · exact folded_mergeRuns none _
    · exact forall_mem_mergeRuns_of_const (fun _ => everywhere_const.mpr trivial) none h

/-- Folding the numbers of a chain leaves folded chains everywhere if the factors have them. -/
theorem everywhere_foldChain {e : Expr K}
    (h : ∀ factor ∈ e.factors, factor.Everywhere HasFoldedChain) :
    e.foldChain.Everywhere HasFoldedChain := by
  cases e with
  | binary op left right =>
    cases op with
    | mul =>
      by_cases hfolded : Folded (Expr.mul left right).factors
      · rw [hfolded.hasFoldedChain.foldChain_eq_self]
        exact everywhere_of_factors hfolded h
      · rw [foldChain_mul_of_not_folded hfolded]
        exact everywhere_product_mergeRuns h
    | _ => exact h _ List.mem_cons_self
  | _ => exact h _ List.mem_cons_self

/-- Folding inside an expression leaves folded chains everywhere in its factors. -/
theorem everywhere_factors_foldInside (e : Expr K) :
    ∀ factor ∈ e.foldInside.factors, factor.Everywhere HasFoldedChain := by
  induction e with
  | const value => exact List.forall_mem_singleton.mpr (everywhere_const.mpr trivial)
  | var name => exact List.forall_mem_singleton.mpr (everywhere_var.mpr trivial)
  | func name argument ih =>
    exact List.forall_mem_singleton.mpr (everywhere_func.mpr ⟨trivial, everywhere_foldChain ih⟩)
  | binary op left right ihl ihr =>
    cases op with
    | mul =>
      rw [foldInside, factors_mul]
      exact List.forall_mem_append.mpr ⟨ihl, ihr⟩
    | _ =>
      exact List.forall_mem_singleton.mpr
        (everywhere_binary.mpr ⟨trivial, everywhere_foldChain ihl, everywhere_foldChain ihr⟩)

/-- A folded expression has folded chains everywhere. -/
theorem everywhere_foldNumericFactors (e : Expr K) :
    e.foldNumericFactors.Everywhere HasFoldedChain :=
  everywhere_foldChain (everywhere_factors_foldInside e)

/-- An expression with folded chains everywhere stays as it is. -/
theorem foldNumericFactors_eq_self_of_everywhere {e : Expr K} (h : e.Everywhere HasFoldedChain) :
    e.foldNumericFactors = e := by
  have hinside (e : Expr K) (h : e.Everywhere HasFoldedChain) : e.foldInside = e := by
    induction e with
    | const value => rfl
    | var name => rfl
    | func name argument ih =>
      obtain ⟨-, hargument⟩ := everywhere_func.mp h
      rw [foldInside, ih hargument, hargument.self.foldChain_eq_self]
    | binary op left right ihl ihr =>
      obtain ⟨-, hl, hr⟩ := everywhere_binary.mp h
      have hleft := hl.self.foldChain_eq_self
      have hright := hr.self.foldChain_eq_self
      cases op <;> simp only [foldInside, ihl hl, ihr hr, hleft, hright]
  rw [foldNumericFactors, hinside e h, h.self.foldChain_eq_self]

/-- A product in whose chain nothing can be folded keeps its grouping: its operands are folded. -/
theorem foldNumericFactors_mul_of_folded {left right : Expr K}
    (h : Folded (Expr.mul left right).factors) :
    (Expr.mul left right).foldNumericFactors =
      .mul left.foldNumericFactors right.foldNumericFactors := by
  have hparts := h
  rw [factors_mul] at hparts
  obtain ⟨hl, hr⟩ := hparts.of_append
  have operand {part : Expr K} (hpart : Folded part.factors) :
      part.foldNumericFactors = part.foldInside :=
    ((folded_factors_foldInside part).mpr hpart).hasFoldedChain.foldChain_eq_self
  rw [operand hl, operand hr, operand h, foldInside]

/-- A product in whose chain something can be folded becomes the product of its folded factors,
merged. -/
theorem foldNumericFactors_mul_of_not_folded {left right : Expr K}
    (h : ¬Folded (Expr.mul left right).factors) :
    (Expr.mul left right).foldNumericFactors =
      product (mergeRuns none ((Expr.mul left right).factors.map foldNumericFactors)) := by
  have hinside := mt (folded_factors_foldInside _).mp h
  rw [← factors_foldInside, foldNumericFactors]
  exact foldChain_mul_of_not_folded hinside

/-- After folding, no product has two neighbouring numbers among its factors or a factor that is
one. A chain with something to fold becomes the product of its folded factors, merged; any other
chain keeps its grouping. The other factors are the folded ones of the chain, in their order, and
folding once more changes nothing. -/
theorem foldNumericFactors_normalForm (e : Expr K) :
    (∀ left right, Expr.mul left right ∈ e.foldNumericFactors.nodes →
      Folded (Expr.mul left right).factors) ∧
    (∀ left right, e = .mul left right →
      Folded e.factors ∧ e.foldNumericFactors =
        .mul left.foldNumericFactors right.foldNumericFactors ∨
      ¬Folded e.factors ∧ e.foldNumericFactors =
        product (mergeRuns none (e.factors.map foldNumericFactors))) ∧
    otherFactors e.foldNumericFactors.factors = (otherFactors e.factors).map foldNumericFactors ∧
    e.foldNumericFactors.foldNumericFactors = e.foldNumericFactors := by
  have hfolded := everywhere_foldNumericFactors e
  refine ⟨fun left right hnode => hfolded _ hnode, ?_, otherFactors_foldNumericFactors e,
    foldNumericFactors_eq_self_of_everywhere hfolded⟩
  rintro left right rfl
  by_cases hchain : Folded (Expr.mul left right).factors
  · exact Or.inl ⟨hchain, foldNumericFactors_mul_of_folded hchain⟩
  · exact Or.inr ⟨hchain, foldNumericFactors_mul_of_not_folded hchain⟩

/-- The product `(2*0.5*x)*(y*3*(4*sin(1*z*7)))` of doubles. -/
def scatteredNumbers : Expr Float :=
  .mul (.mul (.mul (.int 2) (.const 0.5)) (.var "x"))
    (.mul (.mul (.var "y") (.int 3))
      (.mul (.int 4) (.func "sin" (.mul (.mul (.int 1) (.var "z")) (.int 7)))))

theorem foldNumericFactors_normalForm_scatteredNumbers :
    (Expr.mul (.var "z") (.const 7) ∈ scatteredNumbers.foldNumericFactors.nodes ∧
      Folded (Expr.mul (.var "z") (.const 7) : Expr Float).factors) ∧
    scatteredNumbers.foldNumericFactors =
      product [.var "x", .var "y", .const 12, .func "sin" (.mul (.var "z") (.const 7))] ∧
    otherFactors scatteredNumbers.foldNumericFactors.factors =
      [.var "x", .var "y", .func "sin" (.mul (.var "z") (.const 7))] ∧
    scatteredNumbers.foldNumericFactors.foldNumericFactors =
      scatteredNumbers.foldNumericFactors := by
  obtain ⟨hnodes, hshape, hothers, hagain⟩ := foldNumericFactors_normalForm scatteredNumbers
  have hnode : Expr.mul (.var "z") (.const 7) ∈ scatteredNumbers.foldNumericFactors.nodes := by
    decide +kernel
  refine ⟨⟨hnode, hnodes _ _ hnode⟩, ?_, hothers.trans (by decide +kernel), hagain⟩
  obtain ⟨hfolded, -⟩ | ⟨-, hproduct⟩ := hshape _ _ rfl
  · exact absurd hfolded (by decide +kernel)
  · exact hproduct.trans (by decide +kernel)

end Chains

end Expr

end SymbolicForms
