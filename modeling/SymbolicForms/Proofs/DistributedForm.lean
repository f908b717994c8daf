import SymbolicForms.Proofs.KeptParts

/-!
# Distributed form

An expression is distributed when multiplying out has nothing left to do: no
operand of a product is a sum, and no sum has a power that is multiplied out.
Unlike the expanded form this is asked of all parts, also below functions and
quotients, but not of exponents. What is multiplied out everywhere is
distributed, and so is every canonical sum, because it keeps only parts of an
expansion.
-/

namespace SymbolicForms

variable {rules : Exactness} {v : Vocabulary rules}

namespace Expr

/-- No operand of a product is a sum, and no sum has a power that is multiplied out, however deep
they stand. -/
def Distributed : Expr (Exact rules) → Prop
  | .const _ => True
  | .var _ => True
  | .func _ argument => argument.Distributed
  | .binary .add left right => left.Distributed ∧ right.Distributed
  | .binary .sub left right => left.Distributed ∧ right.Distributed
  | .binary .mul left right =>
    (left.Distributed ∧ left.isSum = false) ∧ right.Distributed ∧ right.isSum = false
  | .binary .div left right => left.Distributed ∧ right.Distributed
  | .binary .pow base exponent => base.Distributed ∧ (base.isSum = true →
      ∀ value, exponent = .const value → isExpandedPower value = false)

/-- What is multiplied out everywhere is distributed. -/
theorem Everywhere.distributed {e : Expr (Exact rules)} (h : e.Everywhere MultipliedOut) :
    e.Distributed := by
  induction e with
  | const value => exact trivial
  | var name => exact trivial
  | func name argument ih => exact ih (everywhere_func.mp h).2
  | binary op left right ihl ihr =>
    obtain ⟨hroot, hl, hr⟩ := everywhere_binary.mp h
    cases op with
    | mul => exact ⟨⟨ihl hl, hroot.1⟩, ihr hr, hroot.2⟩
    | pow =>
      refine ⟨ihl hl, fun hsum value heq => ?_⟩
      subst heq
      exact hroot.1 hsum
    | _ => exact ⟨ihl hl, ihr hr⟩

/-- Full expansion gives a distributed expression. -/
theorem distributed_fullyExpand (e : Expr (Exact rules)) : e.fullyExpand.Distributed :=
  (everywhere_fullyExpand e).distributed

/-- A distributed expression that is no sum may stand in a product. -/
structure DistributedFactor (e : Expr (Exact rules)) : Prop where
  /-- The factor is distributed. -/
  distributed : e.Distributed
  /-- The factor is no sum. -/
  isSum_eq_false : e.isSum = false

/-- Numbers are distributed factors. -/
theorem distributedFactor_const (value : Exact rules) :
    (Expr.const value).DistributedFactor := ⟨trivial, rfl⟩

/-- A product of distributed factors is one. -/
theorem DistributedFactor.mul {left right : Expr (Exact rules)} (hl : left.DistributedFactor)
    (hr : right.DistributedFactor) : (Expr.mul left right).DistributedFactor :=
  ⟨⟨⟨hl.1, hl.2⟩, hr.1, hr.2⟩, rfl⟩

/-- A power of a distributed base is a distributed factor, unless it is multiplied out. -/
theorem Distributed.pow {base : Expr (Exact rules)} (h : base.Distributed) {exponent : Exact rules}
    (hs : base.isSum = true → isExpandedPower exponent = false) :
    (Expr.pow base (.const exponent)).DistributedFactor := by
  refine ⟨⟨h, fun hsum value heq => ?_⟩, rfl⟩
  cases heq
  exact hs hsum

/-- The product of distributed factors is one. -/
theorem distributedFactor_product {es : List (Expr (Exact rules))}
    (h : ∀ e ∈ es, e.DistributedFactor) : (product es).DistributedFactor :=
  product_induction (distributedFactor_const _) (fun _ _ => DistributedFactor.mul) h

/-- A sum of distributed expressions is distributed. -/
theorem distributed_sum {es : List (Expr (Exact rules))} (h : ∀ e ∈ es, e.Distributed) :
    (sum es).Distributed :=
  sum_induction (P := Distributed) trivial (fun _ _ hl hr => ⟨hl, hr⟩) h

/-- The kept parts of a distributed expression are distributed. -/
theorem Distributed.of_mem_keptParts {e part : Expr (Exact rules)} (h : e.Distributed)
    (hp : part ∈ e.keptParts) : part.Distributed := by
  induction e with
  | const value => exact absurd hp List.not_mem_nil
  | var name => exact absurd hp List.not_mem_nil
  | func name argument => exact List.mem_singleton.mp hp ▸ h
  | binary op left right ihl ihr =>
    cases op with
    | add =>
      rw [keptParts, List.mem_append] at hp
      exact hp.elim (ihl h.1) (ihr h.2)
    | sub =>
      rw [keptParts, List.mem_append] at hp
      exact hp.elim (ihl h.1) (ihr h.2)
    | mul =>
      rw [keptParts, List.mem_append] at hp
      exact hp.elim (ihl h.1.1) (ihr h.2.1)
    | div => exact List.mem_singleton.mp hp ▸ h
    | pow =>
      cases left with
      | const value => exact absurd hp List.not_mem_nil
      | var name => exact absurd hp List.not_mem_nil
      | func name argument => exact List.mem_singleton.mp hp ▸ h.1
      | binary op' left' right' => exact List.mem_singleton.mp hp ▸ h

end Expr

/-- A factor that stays whole is no sum. -/
theorem Expr.isSum_of_staysWhole {e : Expr (Exact rules)} (h : e.staysWhole = true) :
    e.isSum = false := by
  unfold staysWhole at h
  split at h
  · rfl
  · rfl
  · cases h

/-- A collected term that keeps distributed parts is a distributed factor in writing. -/
theorem Term.Collected.distributedFactor_toExpr {t : Term (Exact rules)} (h : t.Collected v)
    (hp : ∀ part ∈ t.keptParts, part.Distributed) : t.toExpr.DistributedFactor := by
  have hpower (base : Expr (Exact rules)) (hbase : base.DistributedFactor)
      (exponent : Exact rules) : (powerExpr base exponent).DistributedFactor := by
    unfold powerExpr
    split
    · exact hbase
    · exact hbase.1.pow fun hsum => absurd hsum (Bool.eq_false_iff.mp hbase.2)
  refine toExpr_induction Expr.distributedFactor_const
    (fun value _ => (Expr.distributedFactor_const value).mul)
    (Expr.distributedFactor_product fun factor hf => ?_)
  obtain ⟨entry, -, rfl⟩ | ⟨entry, hentry, rfl⟩ | hf := cases_of_mem_baseFactors hf
  · exact hpower (.var entry.1) ⟨trivial, rfl⟩ _
  · have hargument := hp _ (argument_mem_keptParts (List.mem_map_of_mem hentry))
    exact hpower entry.1.toExpr ⟨hargument, rfl⟩ _
  · exact ⟨hp factor (t.nested_subset_keptParts hf), Expr.isSum_of_staysWhole (h.whole _ hf)⟩

namespace Expr

section ClosedPowers

variable (hv : ¬v.openPowers)
include hv

/-- The terms of a canonical sum are distributed factors in writing. -/
theorem distributedFactor_toExpr_canonicalTerms {e : Expr (Exact rules)} (h : e.Within v) :
    ∀ t ∈ e.canonicalTerms, t.toExpr.DistributedFactor := by
  intro t ht
  refine (collected_canonicalTerms hv h t ht).1.distributedFactor_toExpr fun part hpart => ?_
  exact (distributed_fullyExpand e).of_mem_keptParts
    (keptParts_canonicalTerms_subset hv h t ht hpart)

/-- A canonical sum is distributed. -/
theorem distributed_canonicalSum {e : Expr (Exact rules)} (h : e.Within v) :
    e.canonicalSum.Distributed :=
  distributed_sum (List.forall_mem_map.mpr fun t ht =>
    (distributedFactor_toExpr_canonicalTerms hv h t ht).distributed)

end ClosedPowers

end Expr

end SymbolicForms
