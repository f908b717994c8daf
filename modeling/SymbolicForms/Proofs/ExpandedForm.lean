import SymbolicForms.Proofs.LikeTerms
import SymbolicForms.Proofs.MultipliedOut

/-!
# Expanded form

In an expanded expression no product has a sum among its factors, also below
powers, and so an expansion is expanded. The distributed product of expansions
is the sum of the products of their addends, and each of these is read as the
product of the terms it came from. What an addend keeps whole is a quotient or a
power of joined operands, and nothing else, and the canonical form is known from
the totals of the expansion.
-/

namespace SymbolicForms

namespace Expr

variable {rules : Exactness} {v : Vocabulary rules}

mutual

/-- No product has a sum among its factors, also below powers. -/
def Expanded : Expr (Exact rules) → Prop
  | .binary .add left right => left.Expanded ∧ right.Expanded
  | .binary .sub left right => left.Expanded ∧ right.Expanded
  | .binary .mul left right => left.Undivided ∧ right.Undivided
  | .binary .pow base _ => base.Expanded
  | _ => True

/-- An expanded expression that is no sum. -/
def Undivided : Expr (Exact rules) → Prop
  | .binary .add _ _ => False
  | .binary .sub _ _ => False
  | .binary .mul left right => left.Undivided ∧ right.Undivided
  | .binary .pow base _ => base.Expanded
  | _ => True

end

/-- An expression that is no sum is undivided when it is expanded. -/
theorem undivided_iff {e : Expr (Exact rules)} :
    e.Undivided ↔ e.Expanded ∧ e.isSum = false := by
  cases e with
  | binary op left right =>
    cases op with
    | add => exact ⟨False.elim, fun h => nomatch h.2⟩
    | sub => exact ⟨False.elim, fun h => nomatch h.2⟩
    | div => exact ⟨fun _ => ⟨trivial, rfl⟩, fun _ => trivial⟩
    | _ => exact ⟨fun h => ⟨h, rfl⟩, And.left⟩
  | _ => exact ⟨fun _ => ⟨trivial, rfl⟩, fun _ => trivial⟩

/-- What is undivided is no sum. -/
theorem Undivided.isSum_eq_false {e : Expr (Exact rules)} (h : e.Undivided) : e.isSum = false :=
  (undivided_iff.mp h).2

/-- A sum is expanded when its operands are. -/
theorem expanded_add {left right : Expr (Exact rules)} :
    (add left right).Expanded ↔ left.Expanded ∧ right.Expanded := Iff.rfl

/-- A difference is expanded when its operands are. -/
theorem expanded_sub {left right : Expr (Exact rules)} :
    (sub left right).Expanded ↔ left.Expanded ∧ right.Expanded := Iff.rfl

/-- A product is undivided when its operands are. -/
theorem undivided_mul {left right : Expr (Exact rules)} :
    (mul left right).Undivided ↔ left.Undivided ∧ right.Undivided := Iff.rfl

/-- The factors of an undivided expression are undivided. -/
theorem Undivided.of_mem_factors {e factor : Expr (Exact rules)} (h : e.Undivided)
    (hf : factor ∈ e.factors) : factor.Undivided :=
  forall_mem_factors (fun _ _ => undivided_mul.mp) h factor hf

/-- Every expression has an addend. -/
theorem addends_ne_nil (e : Expr (Exact rules)) : e.addends ≠ [] := by
  induction e with
  | binary op left right ihl ihr =>
    cases op with
    | add =>
      rw [addends_add]
      exact List.append_ne_nil_of_left_ne_nil ihl _
    | sub =>
      rw [addends_sub]
      exact List.append_ne_nil_of_left_ne_nil ihl _
    | _ => exact List.cons_ne_nil _ _
  | _ => exact List.cons_ne_nil _ _

/-- The addends of a sum of at least one expression are theirs. -/
theorem addends_sum {es : List (Expr (Exact rules))} (h : es ≠ []) :
    (sum es).addends = es.flatMap addends := by
  obtain ⟨first, rest, rfl⟩ := List.exists_cons_of_ne_nil h
  have joined (acc : Expr (Exact rules)) :
      (rest.foldl add acc).addends = acc.addends ++ rest.flatMap addends := by
    clear h
    induction rest generalizing acc with
    | nil => exact (List.append_nil _).symm
    | cons second rest ih =>
      rw [List.foldl_cons, ih, addends_add, List.flatMap_cons, List.append_assoc]
  exact joined first

/-- A negated addend is undivided when the addend is. -/
theorem Undivided.negateAddend {e : Expr (Exact rules)} (h : e.Undivided) :
    e.negateAddend.Undivided :=
  negateAddend_induction (P := Undivided) (fun _ => trivial) (fun _ _ h => h.2)
    (fun _ _ h => ⟨trivial, h⟩) h

/-- The addends of an expanded expression are undivided. -/
theorem Expanded.of_mem_addends {e addend : Expr (Exact rules)} (h : e.Expanded)
    (ha : addend ∈ e.addends) : addend.Undivided :=
  forall_mem_addends (P := Expr.Expanded) (Q := Undivided) (fun _ _ => expanded_add.mp)
    (fun _ _ => expanded_sub.mp) (fun _ hs h => undivided_iff.mpr ⟨h, hs⟩)
    (fun _ h => h.negateAddend) h addend ha

/-- What is multiplied out everywhere is expanded. -/
theorem Everywhere.expanded {e : Expr (Exact rules)} (h : e.Everywhere MultipliedOut) :
    e.Expanded := by
  induction e with
  | binary op left right ihl ihr =>
    obtain ⟨hroot, hl, hr⟩ := everywhere_binary.mp h
    cases op with
    | mul => exact ⟨undivided_iff.mpr ⟨ihl hl, hroot.1⟩, undivided_iff.mpr ⟨ihr hr, hroot.2⟩⟩
    | div => exact trivial
    | pow => exact ihl hl
    | _ => exact ⟨ihl hl, ihr hr⟩
  | _ => exact trivial

/-- Full expansion gives an expanded expression. -/
theorem expanded_fullyExpand (e : Expr (Exact rules)) : e.fullyExpand.Expanded :=
  (everywhere_fullyExpand e).expanded

end Expr

namespace Term

variable {rules : Exactness} {v : Vocabulary rules}

/-- An undivided factor is read as a number, a power of variables, a power of a function, or as
itself, if it stays whole. -/
theorem ofFactor_cases {e : Expr (Exact rules)} (h : e.Within v) (hv : ¬v.openPowers)
    (hmul : ∀ left right, e ≠ .mul left right) (hu : e.Undivided) :
    (∃ value, ofFactor e = constant value) ∨ (∃ powers, ofFactor e = ofVariables powers) ∨
      (∃ function exponent, ofFactor e = ofFunctions (.single function exponent) ∧
        (e = function.toExpr ∨ e = .pow function.toExpr (.const exponent))) ∨
      (ofFactor e = whole e ∧ e.staysWhole = true) := by
  cases e with
  | const value => exact Or.inl ⟨value, rfl⟩
  | var name => exact Or.inr (Or.inl ⟨_, rfl⟩)
  | func name argument =>
    exact Or.inr (Or.inr (Or.inl ⟨⟨name, argument⟩, Scalar.one, rfl, Or.inl rfl⟩))
  | binary op left right =>
    cases op with
    | add => exact False.elim hu
    | sub => exact False.elim hu
    | mul => exact absurd rfl (hmul left right)
    | div => exact Or.inr (Or.inr (Or.inr ⟨rfl, rfl⟩))
    | pow =>
      obtain ⟨exponent, rfl, he⟩ := Expr.exists_const_of_joins hv h.2.2
      cases left with
      | const value =>
        obtain ⟨n, rfl⟩ := he
        exact Or.inl ⟨value ^ n, ofPower_const value n⟩
      | var name => exact Or.inr (Or.inl ⟨_, rfl⟩)
      | func name argument =>
        exact Or.inr (Or.inr (Or.inl ⟨⟨name, argument⟩, exponent, rfl, Or.inr rfl⟩))
      | binary op' left' right' => exact Or.inr (Or.inr (Or.inr ⟨rfl, rfl⟩))

/-- An undivided factor that is kept whole stays whole. -/
theorem staysWhole_of_mem_nested {e : Expr (Exact rules)} (h : e.Within v) (hv : ¬v.openPowers)
    (hmul : ∀ left right, e ≠ .mul left right) (hu : e.Undivided)
    (he : e ∈ (ofFactor e).nested) : e.staysWhole = true := by
  obtain ⟨value, hread⟩ | ⟨powers, hread⟩ | ⟨function, exponent, hread, -⟩ | ⟨-, hwhole⟩ :=
    ofFactor_cases h hv hmul hu
  · exact absurd (hread ▸ he) List.not_mem_nil
  · exact absurd (hread ▸ he) List.not_mem_nil
  · exact absurd (hread ▸ he) List.not_mem_nil
  · exact hwhole

/-- What an undivided expression keeps whole stays whole. -/
theorem staysWhole_of_mem_nested_ofExpr {e : Expr (Exact rules)} (h : e.Within v)
    (hv : ¬v.openPowers) (hu : e.Undivided) :
    ∀ kept ∈ (ofExpr e).nested, kept.staysWhole = true := by
  refine ofExpr_induction (P := fun t => ∀ kept ∈ t.nested, kept.staysWhole = true)
    (List.forall_mem_nil _) (fun _ _ ht ho => List.forall_mem_append.mpr ⟨ht, ho⟩)
    fun factor hf kept hkept => ?_
  obtain rfl := List.mem_singleton.mp (nested_ofFactor_subset factor hkept)
  exact staysWhole_of_mem_nested (h.of_mem_factors hf) hv (Expr.ne_mul_of_mem_factors hf)
    (hu.of_mem_factors hf) hkept

/-- An undivided expression is read as a collected term. -/
theorem collected_ofExpr {e : Expr (Exact rules)} (h : e.Within v) (hv : ¬v.openPowers)
    (hu : e.Undivided) : (ofExpr e).Collected v :=
  ⟨within_ofExpr h, staysWhole_of_mem_nested_ofExpr h hv hu⟩

/-- A product of collected terms is collected. -/
theorem Collected.multiply {t other : Term (Exact rules)} (h : t.Collected v)
    (ho : other.Collected v) : (t.multiply other).Collected v :=
  ⟨h.toWithin.multiply ho.toWithin, fun e he =>
    (List.mem_append.mp he).elim (h.whole e) (ho.whole e)⟩

end Term

namespace Expr

variable {rules : Exactness}

/-- A distributed product of what is multiplied out everywhere is the sum of the products of the
addends. -/
theorem addends_expandProduct {left right : Expr (Exact rules)}
    (hl : left.Everywhere MultipliedOut) (hr : right.Everywhere MultipliedOut) :
    (expandProduct left right).addends = left.addends.flatMap fun first =>
      right.addends.map (multiplySimple first) := by
  have hproduct (first : Expr (Exact rules)) (hf : first ∈ left.addends)
      (second : Expr (Exact rules)) (hs : second ∈ right.addends) :
      (multiplySimple first second).addends = [multiplySimple first second] :=
    addends_eq_singleton
      ((hl.of_mem_addends hf).multiplySimple (hr.of_mem_addends hs)).isSum_eq_false
  unfold expandProduct
  split
  · next hsums =>
    rw [Bool.and_eq_true, Bool.not_eq_true', Bool.not_eq_true'] at hsums
    have hleft := addends_eq_singleton hsums.1
    have hright := addends_eq_singleton hsums.2
    have honly := hproduct left (hleft ▸ List.mem_singleton_self left) right
      (hright ▸ List.mem_singleton_self right)
    rw [hleft, hright, honly]
    rfl
  · have hnonempty : (left.addends.flatMap fun first =>
        right.addends.map (multiplySimple first)) ≠ [] := by
      obtain ⟨first, rest, hfirst⟩ := List.exists_cons_of_ne_nil (addends_ne_nil left)
      obtain ⟨second, rest', hsecond⟩ := List.exists_cons_of_ne_nil (addends_ne_nil right)
      rw [hfirst, hsecond]
      exact List.cons_ne_nil _ _
    rw [addends_sum hnonempty, List.flatMap_assoc]
    refine List.flatMap_congr fun first hf => ?_
    rw [List.flatMap_map, List.flatMap_congr fun second hs => hproduct first hf second hs]
    exact List.flatMap_pure_eq_map _ _

section ClosedPowers

variable {v : Vocabulary rules} (hv : ¬v.openPowers)
include hv

/-- A product of undivided factors is read as the product of their terms, perhaps with its functions
in order, unless both are without a coefficient. -/
theorem ofExpr_multiplySimple {left right : Expr (Exact rules)} (hl : left.Within v)
    (hr : right.Within v) (hl' : left.Undivided) (hr' : right.Undivided) :
    let product := (Term.ofExpr left).multiply (Term.ofExpr right)
    Term.ofExpr (multiplySimple left right) = product ∨
      Term.ofExpr (multiplySimple left right) = product.inOrder ∨
      (Term.ofExpr (multiplySimple left right)).coefficient = 0 ∧ product.coefficient = 0 := by
  intro product
  have hleft := Term.collected_ofExpr hl hv hl'
  have hright := Term.collected_ofExpr hr hv hr'
  have hproduct : product.Collected v := hleft.multiply hright
  have hone : Term.ofExpr (.int 1 : Expr (Exact rules)) = Term.unit := rfl
  have hzero : (Term.ofExpr (.int 0 : Expr (Exact rules))).coefficient = 0 := Exact.zero_eq
  unfold multiplySimple
  split
  · next first second =>
    have hsecond : (Term.constant second).Within v := Term.within_constant hr
    exact Or.inl (hsecond.reduced.constant_multiply first).symm
  · split
    · next hvanishes =>
      rw [Bool.or_eq_true, isZero_iff_eq hl, isZero_iff_eq hr] at hvanishes
      refine Or.inr (Or.inr ⟨hzero, ?_⟩)
      change _ * _ = _
      obtain rfl | rfl := hvanishes
      · exact (congrArg (· * _) Exact.zero_eq).trans (zero_mul _)
      · exact (congrArg (_ * ·) Exact.zero_eq).trans (mul_zero _)
    split
    · next hunit =>
      obtain rfl := (isOne_iff_eq hl).mp hunit
      exact Or.inl (by rw [← hright.toWithin.reduced.unit_multiply, ← hone])
    split
    · next hunit =>
      obtain rfl := (isOne_iff_eq hr).mp hunit
      exact Or.inl (Term.multiply_unit _).symm
    · by_cases hcoefficient : product.coefficient = 0
      · rw [Term.toExpr, if_pos (hproduct.toWithin.isZero_iff.mpr hcoefficient)]
        exact Or.inr (Or.inr ⟨hzero, hcoefficient⟩)
      · exact Or.inr (Or.inl (hproduct.ofExpr_toExpr hcoefficient))

/-- The addends of an expanded expression are read as collected terms. -/
theorem Expanded.collected {e : Expr (Exact rules)} (h' : e.Expanded) (h : e.Within v) :
    ∀ t ∈ e.terms, t.Collected v := by
  intro t ht
  obtain ⟨addend, ha, rfl⟩ := List.mem_map.mp ht
  exact Term.collected_ofExpr (h.of_mem_addends ha) hv (h'.of_mem_addends ha)

end ClosedPowers

/-- The total of a key in the expansion of an expression. -/
def expandedTotal (key : String) (e : Expr (Exact rules)) : Exact rules :=
  Term.total key e.fullyExpand.terms

/-- Expressions with the same totals in their expansions have one canonical sum. -/
theorem canonicalSum_eq_of_total_eq (hw : rules.WritesIntegers) {e e' : Expr (Exact rules)}
    (h : e.Within (.integers IsIdentifier)) (h' : e'.Within (.integers IsIdentifier))
    (htotal : ∀ key, expandedTotal key e = expandedTotal key e') :
    e.canonicalSum = e'.canonicalSum := by
  have hcollected {e : Expr (Exact rules)} (h : e.Within (.integers IsIdentifier)) :
      ∀ t ∈ e.fullyExpand.terms, t.Collected (.integers IsIdentifier) :=
    (expanded_fullyExpand _).collected not_false (h.fullyExpand not_false)
  exact Term.sumExpr_eq_of_total_eq hw (hcollected h) (hcollected h') htotal

/-- The canonical form of anything but a quotient is one sum. -/
theorem canonicalForm_eq_canonicalSum {e : Expr (Exact rules)}
    (h : ∀ numerator denominator, e ≠ .div numerator denominator) :
    e.canonicalForm = e.canonicalSum := by
  unfold canonicalForm
  split
  · next numerator denominator => exact absurd rfl (h numerator denominator)
  · rfl

end Expr

end SymbolicForms
