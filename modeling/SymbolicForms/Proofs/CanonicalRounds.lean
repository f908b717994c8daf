import SymbolicForms.Proofs.SettledExpansion

/-!
# Canonicalizing again

The terms of a canonical sum are pairwise different, in order, and none of them
vanishes, so reading the sum gives them back and collecting leaves them alone. A
canonical sum is therefore its own canonical form exactly when it is its own
expansion. Expanding it once more settles it, and canonicalization comes to rest
after three rounds: one to distribute, one to collect what the first one kept
whole, and one for the sides of a quotient that has come to stand at the root.
-/

namespace SymbolicForms

variable {rules : Exactness} {v : Vocabulary rules}

namespace Term

/-- Terms of one key with the same factors beside their coefficients. -/
structure Alike (t other : Term (Exact rules)) : Prop where
  /-- The keys are the same. -/
  baseKey : t.baseKey = other.baseKey
  /-- The variables are the same. -/
  variablePowers : t.variablePowers = other.variablePowers
  /-- The functions are the same up to order. -/
  functionPowers : t.functionPowers.entries.Perm other.functionPowers.entries
  /-- The factors that are kept whole are the same. -/
  nested : t.nested = other.nested

/-- Being alike does not depend on which term comes first. -/
theorem Alike.symm {t other : Term (Exact rules)} (h : t.Alike other) : other.Alike t :=
  ⟨h.1.symm, h.2.symm, h.3.symm, h.4.symm⟩

/-- Terms that are alike are alike when their functions are put in order. -/
theorem alike_inOrder_iff {t other : Term (Exact rules)} :
    t.inOrder.Alike other.inOrder ↔ t.Alike other := by
  have hperm := t.functionPowers.sorted_perm
  have hperm' := other.functionPowers.sorted_perm
  constructor
  · rintro ⟨hkey, hvariables, hfunctions, hnested⟩
    rw [baseKey_inOrder, baseKey_inOrder] at hkey
    exact ⟨hkey, hvariables, hperm.symm.trans (hfunctions.trans hperm'), hnested⟩
  · rintro ⟨hkey, hvariables, hfunctions, hnested⟩
    refine ⟨?_, hvariables, hperm.trans (hfunctions.trans hperm'.symm), hnested⟩
    rw [baseKey_inOrder, baseKey_inOrder, hkey]

/-- Terms of one key are added exactly when they are alike. -/
theorem Within.similar_iff_alike {t other : Term (Exact rules)} (h : t.Within v)
    (ho : other.Within v) (hkey : t.baseKey = other.baseKey) :
    t.similar other = true ↔ t.Alike other := by
  rw [h.similar_iff ho]
  exact ⟨fun ⟨hvariables, hfunctions, hnested⟩ => ⟨hkey, hvariables, hfunctions, hnested⟩,
    fun ⟨_, hvariables, hfunctions, hnested⟩ => ⟨hvariables, hfunctions, hnested⟩⟩

/-- A term that is not alike to the term of a group passes the group by. -/
theorem addToGroups_of_not_alike {t : Term (Exact rules)} {group : TermGroup (Exact rules)}
    {rest : List (TermGroup (Exact rules))} (hg : group.term.Within v)
    (hkey : group.key = group.term.baseKey) (ht : t.Within v) (h : ¬group.term.Alike t) :
    addToGroups t.baseKey t (group :: rest) = group :: addToGroups t.baseKey t rest := by
  rw [addToGroups]
  split
  · next hsame =>
    have hbase : group.term.baseKey = t.baseKey := hkey.symm.trans (beq_iff_eq.mp hsame)
    have hsimilar := mt (hg.similar_iff_alike ht hbase).mp h
    have hnone : group.term.merge? t = none := if_neg hsimilar
    rw [hnone]
  · rfl

/-- A term that is alike to the term of a group is added to it. -/
theorem addToGroups_of_alike {t : Term (Exact rules)} {group : TermGroup (Exact rules)}
    (hg : group.term.Within v) (hkey : group.key = group.term.baseKey) (ht : t.Within v)
    (h : group.term.Alike t) (rest : List (TermGroup (Exact rules))) :
    addToGroups t.baseKey t (group :: rest) = ⟨group.key,
      { group.term with coefficient := group.term.coefficient + t.coefficient }⟩ :: rest := by
  have hmerge : group.term.merge? t =
      some { group.term with coefficient := group.term.coefficient + t.coefficient } :=
    merge?_eq_some_iff.mpr ⟨(hg.similar_iff_alike ht h.baseKey).mpr h, rfl⟩
  rw [addToGroups, if_pos (beq_iff_eq.mpr (hkey.trans h.baseKey)), hmerge]

/-- The group of a single term. -/
def ownGroup (t : Term (Exact rules)) : TermGroup (Exact rules) := ⟨t.baseKey, t⟩

/-- A term that is like none of the grouped terms gets a group of its own. -/
theorem addToGroups_of_new {groups : List (TermGroup (Exact rules))}
    (hg : ∀ group ∈ groups, group.term.Within v ∧ group.key = group.term.baseKey)
    {t : Term (Exact rules)} (ht : t.Within v) (hnew : ∀ group ∈ groups, ¬group.term.Alike t) :
    addToGroups t.baseKey t groups = groups ++ [ownGroup t] := by
  induction groups with
  | nil => rfl
  | cons group rest ih =>
    obtain ⟨⟨hgroup, hkey⟩, hrest⟩ := List.forall_mem_cons.mp hg
    obtain ⟨hpass, hlater⟩ := List.forall_mem_cons.mp hnew
    rw [addToGroups_of_not_alike hgroup hkey ht hpass, ih hrest hlater, List.cons_append]

/-- Groups of terms of a vocabulary of which no two are alike. -/
structure SeparateGroups (v : Vocabulary rules) (groups : List (TermGroup (Exact rules))) :
    Prop where
  /-- The term of a group is within the vocabulary, and the group has its key. -/
  terms : ∀ group ∈ groups, group.term.Within v ∧ group.key = group.term.baseKey
  /-- No two terms are alike. -/
  separate : groups.Pairwise fun group later => ¬group.term.Alike later.term

/-- Adding a term keeps the groups separate. -/
theorem SeparateGroups.addToGroups {groups : List (TermGroup (Exact rules))}
    (h : SeparateGroups v groups) {t : Term (Exact rules)} (ht : t.Within v) :
    SeparateGroups v (addToGroups t.baseKey t groups) := by
  induction groups with
  | nil => exact ⟨List.forall_mem_singleton.mpr ⟨ht, rfl⟩, List.pairwise_singleton _ _⟩
  | cons group rest ih =>
    obtain ⟨⟨hgroup, hkey⟩, hrest⟩ := List.forall_mem_cons.mp h.terms
    obtain ⟨hfirst, hseparate⟩ := List.pairwise_cons.mp h.separate
    by_cases halike : group.term.Alike t
    · rw [addToGroups_of_alike hgroup hkey ht halike]
      have hmerged : ({ group.term with coefficient := group.term.coefficient + t.coefficient } :
          Term (Exact rules)).Within v :=
        ⟨v.numbers.add_mem hgroup.coefficient ht.coefficient, hgroup.variablePowers,
          hgroup.functionPowers, hgroup.nested⟩
      refine ⟨List.forall_mem_cons.mpr ⟨⟨hmerged, hkey⟩, hrest⟩,
        List.pairwise_cons.mpr ⟨fun later hlater hfound => hfirst later hlater ?_, hseparate⟩⟩
      exact ⟨hfound.1, hfound.2, hfound.3, hfound.4⟩
    · obtain ⟨hterms, hpairs⟩ := ih ⟨hrest, hseparate⟩
      rw [addToGroups_of_not_alike hgroup hkey ht halike]
      refine ⟨List.forall_mem_cons.mpr ⟨⟨hgroup, hkey⟩, hterms⟩,
        List.pairwise_cons.mpr ⟨fun later hlater hfound => ?_, hpairs⟩⟩
      obtain ⟨source, hsource, coefficient, hlater⟩ := exists_of_mem_addToGroups hlater
      rw [hlater] at hfound
      have hfound : group.term.Alike source := ⟨hfound.1, hfound.2, hfound.3, hfound.4⟩
      obtain rfl | hsource := List.mem_cons.mp hsource
      · exact halike hfound
      · obtain ⟨later, hmem, rfl⟩ := List.mem_map.mp hsource
        exact hfirst later hmem hfound

/-- The groups of some terms are separate. -/
theorem separateGroups_groups {terms : List (Term (Exact rules))} (h : ∀ t ∈ terms, t.Within v) :
    SeparateGroups v (groups terms) :=
  List.foldlRecOn (motive := SeparateGroups v) terms _ ⟨List.forall_mem_nil _, List.Pairwise.nil⟩
    fun _ hgroups t ht => hgroups.addToGroups (h t ht)

/-- No two collected terms are alike. -/
theorem pairwise_mergeLike {terms : List (Term (Exact rules))} (h : ∀ t ∈ terms, t.Within v) :
    (mergeLike terms).Pairwise fun t later => ¬t.Alike later :=
  (List.pairwise_map.mpr (separateGroups_groups h).separate).filter _

/-- Terms of which no two are alike and none vanishes are collected already. -/
theorem mergeLike_of_pairwise {terms : List (Term (Exact rules))} (h : ∀ t ∈ terms, t.Within v)
    (hne : ∀ t ∈ terms, t.coefficient ≠ 0)
    (hp : terms.Pairwise fun t later => ¬t.Alike later) : mergeLike terms = terms := by
  have grouped (terms before : List (Term (Exact rules)))
      (h : ∀ t ∈ before ++ terms, t.Within v)
      (hp : (before ++ terms).Pairwise fun t later => ¬t.Alike later) :
      terms.foldl (fun groups t => addToGroups t.baseKey t groups) (before.map ownGroup) =
        (before ++ terms).map ownGroup := by
    induction terms generalizing before with
    | nil => rw [List.append_nil, List.foldl_nil]
    | cons t rest ih =>
      have hbefore (earlier : Term (Exact rules)) (he : earlier ∈ before) : earlier.Within v :=
        h earlier (List.mem_append_left _ he)
      have hnew (earlier : Term (Exact rules)) (he : earlier ∈ before) : ¬earlier.Alike t :=
        (List.pairwise_append.mp hp).2.2 earlier he t List.mem_cons_self
      have hall : before ++ t :: rest = (before ++ [t]) ++ rest := by
        rw [List.append_assoc, List.singleton_append]
      have hgroups : addToGroups t.baseKey t (before.map ownGroup) =
          (before ++ [t]).map ownGroup := by
        rw [addToGroups_of_new (List.forall_mem_map.mpr fun earlier he => ⟨hbefore earlier he, rfl⟩)
          (h t (by simp)) (List.forall_mem_map.mpr hnew), List.map_append]
        rfl
      rw [List.foldl_cons, hgroups, ih (before ++ [t]) (hall ▸ h) (hall ▸ hp), hall]
  have hgroups : groups terms = terms.map ownGroup := grouped terms [] h hp
  have hterms : (groups terms).map TermGroup.term = terms := by
    rw [hgroups, List.map_map]
    exact List.map_id _
  rw [mergeLike, hterms]
  refine List.filter_eq_self.mpr fun t ht => ?_
  rw [Bool.not_eq_true', Bool.eq_false_iff]
  exact mt (h t ht).isZero_iff.mp (hne t ht)

end Term

namespace Expr

/-- A sum of settled expressions is settled. -/
theorem settled_sum {es : List (Expr (Exact rules))} (h : ∀ e ∈ es, e.Settled) :
    (sum es).Settled :=
  sum_induction (P := Settled) trivial
    (fun _ _ hl hr => hl.binary hr (by decide) (by decide)) h

section ClosedPowers

variable (hv : ¬v.openPowers)
include hv

/-- The canonical sum of a distributed expression is settled. -/
theorem Distributed.settled_canonicalSum {e : Expr (Exact rules)} (h : e.Within v)
    (h' : e.Distributed) : e.canonicalSum.Settled := by
  refine settled_sum fun written hwritten => ?_
  obtain ⟨t, ht, rfl⟩ := List.mem_map.mp hwritten
  refine (collected_canonicalTerms hv h t ht).1.settled_toExpr fun part hpart => ?_
  exact (h'.settled_fullyExpand hv h).1.of_mem_keptParts
    (keptParts_canonicalTerms_subset hv h t ht hpart)

/-- No two terms of a canonical sum are alike. -/
theorem pairwise_canonicalTerms {e : Expr (Exact rules)} (h : e.Within v) :
    e.canonicalTerms.Pairwise fun t later => ¬t.Alike later :=
  (List.Perm.pairwise_iff (fun hxy hyx => hxy hyx.symm) (StableSort.sort_perm _ _)).mpr
    (Term.pairwise_mergeLike (h.fullyExpand hv).terms)

/-- The terms of a canonical sum stand in order, also with their functions in order. -/
theorem sorted_map_inOrder_canonicalTerms {e : Expr (Exact rules)} (h : e.Within v) :
    StableSort.Sorted Term.precedes (e.canonicalTerms.map Term.inOrder) := by
  have hterms := collected_canonicalTerms hv h
  have hsorted : StableSort.Sorted Term.precedes e.canonicalTerms :=
    StableSort.sorted_sort (Term.weakOrder_precedes v)
      (Term.within_mergeLike (h.fullyExpand hv).terms)
  refine List.pairwise_map.mpr (hsorted.imp_of_mem fun {t later} ht hlater hafter => ?_)
  have ht := (hterms t ht).1
  have hlater := (hterms later hlater).1
  rw [Term.precedes_eq hlater.toWithin ht.toWithin] at hafter
  rw [Term.precedes_eq hlater.inOrder.toWithin ht.inOrder.toWithin, Term.rank_inOrder,
    Term.rank_inOrder]
  exact hafter

/-- A canonical sum of at least one term is read as its terms, with their functions in order. -/
theorem terms_canonicalSum {e : Expr (Exact rules)} (h : e.Within v)
    (hne : e.canonicalTerms ≠ []) :
    e.canonicalSum.terms = e.canonicalTerms.map Term.inOrder := by
  have hterms := collected_canonicalTerms hv h
  have hwritten : e.canonicalTerms.map Term.toExpr ≠ [] := mt List.map_eq_nil_iff.mp hne
  have haddends : e.canonicalSum.addends = e.canonicalTerms.map Term.toExpr := by
    change (sum (e.canonicalTerms.map Term.toExpr)).addends = _
    rw [addends_sum hwritten, List.flatMap_map]
    have hsingle (t : Term (Exact rules)) (ht : t ∈ e.canonicalTerms) :
        t.toExpr.addends = [t.toExpr] :=
      addends_eq_singleton (distributedFactor_toExpr_canonicalTerms hv h t ht).isSum_eq_false
    rw [List.flatMap_congr hsingle]
    exact List.flatMap_pure_eq_map _ _
  rw [terms, haddends, List.map_map]
  exact List.map_congr_left fun t ht => (hterms t ht).1.ofExpr_toExpr (hterms t ht).2

omit hv in
/-- A canonical sum without terms is zero. -/
theorem canonicalSum_eq_zero {e : Expr (Exact rules)} (h : e.canonicalTerms = []) :
    e.canonicalSum = .int 0 := by
  change Term.sumExpr e.canonicalTerms = _
  rw [h]
  rfl

/-- Reading the terms of a canonical sum, collecting them, sorting them and writing their sum gives
the canonical sum. -/
theorem sumExpr_terms_canonicalSum {e : Expr (Exact rules)} (h : e.Within v) :
    Term.sumExpr (Term.sort (Term.mergeLike e.canonicalSum.terms)) = e.canonicalSum := by
  by_cases hne : e.canonicalTerms = []
  · have hvanishes : (Term.constant (Scalar.ofInt 0) : Term (Exact rules)).isZero = true :=
      Exact.near_self _
    have hnothing : Term.mergeLike (.int 0 : Expr (Exact rules)).terms = [] := by
      change [(Term.constant (Scalar.ofInt 0) : Term (Exact rules))].filter (!·.isZero) = []
      rw [List.filter_cons, hvanishes]
      rfl
    rw [canonicalSum_eq_zero hne, hnothing, Term.sort, StableSort.sort_of_sorted List.Pairwise.nil]
    rfl
  · have hterms := collected_canonicalTerms hv h
    have hinOrder (t : Term (Exact rules)) (ht : t ∈ e.canonicalTerms.map Term.inOrder) :
        t.Within v ∧ t.coefficient ≠ 0 := by
      obtain ⟨source, hsource, rfl⟩ := List.mem_map.mp ht
      exact ⟨(hterms source hsource).1.inOrder.toWithin, (hterms source hsource).2⟩
    have hpairs : (e.canonicalTerms.map Term.inOrder).Pairwise fun t later => ¬t.Alike later :=
      List.pairwise_map.mpr ((pairwise_canonicalTerms hv h).imp (mt Term.alike_inOrder_iff.mp))
    rw [terms_canonicalSum hv h hne, Term.mergeLike_of_pairwise (fun t ht => (hinOrder t ht).1)
      (fun t ht => (hinOrder t ht).2) hpairs, Term.sort,
      StableSort.sort_of_sorted (sorted_map_inOrder_canonicalTerms hv h), Term.sumExpr_map_inOrder]
    rfl

/-- A canonical sum that is its own expansion is its own canonical sum. -/
theorem canonicalSum_canonicalSum {e : Expr (Exact rules)} (h : e.Within v)
    (heq : e.canonicalSum.fullyExpand = e.canonicalSum) :
    e.canonicalSum.canonicalSum = e.canonicalSum := by
  have hagain : e.canonicalSum.canonicalSum =
      Term.sumExpr (Term.sort (Term.mergeLike e.canonicalSum.terms)) := by
    rw [canonicalSum, heq]
  rw [hagain, sumExpr_terms_canonicalSum hv h]

/-- A canonical form is distributed. -/
theorem distributed_canonicalForm {e : Expr (Exact rules)} (h : e.Within v) :
    e.canonicalForm.Distributed := by
  unfold canonicalForm
  split
  · exact ⟨distributed_canonicalSum hv h.1, distributed_canonicalSum hv h.2.1⟩
  · exact distributed_canonicalSum hv h

/-- The canonical form of a distributed expression is settled. -/
theorem Distributed.settled_canonicalForm {e : Expr (Exact rules)} (h : e.Within v)
    (h' : e.Distributed) : e.canonicalForm.Settled := by
  unfold canonicalForm
  split
  · exact (Distributed.settled_canonicalSum hv h.1 h'.1).binary
      (Distributed.settled_canonicalSum hv h.2.1 h'.2) (by decide) (by decide)
  · exact Distributed.settled_canonicalSum hv h h'

/-- A canonical form is its own canonical form exactly when it is its own expansion and, where a
quotient has come to stand at the root, the two sides are their own canonical sums. -/
theorem canonicalForm_canonicalForm_iff {e : Expr (Exact rules)} (h : e.Within v) :
    e.canonicalForm.canonicalForm = e.canonicalForm ↔
      e.canonicalForm.fullyExpand = e.canonicalForm ∧
        ((∀ numerator denominator, e ≠ .div numerator denominator) →
          ∀ left right, e.canonicalForm = .div left right →
            left.canonicalSum = left ∧ right.canonicalSum = right) := by
  have hwithin := Within.canonicalForm hv h
  have hsettled := (distributed_canonicalForm hv h).settled_canonicalForm hv hwithin
  constructor
  · intro heq
    rw [heq] at hsettled
    refine ⟨hsettled.fullyExpand_eq, fun _ left right hdiv => ?_⟩
    rw [hdiv] at heq
    injection heq with _ hleft hright
    exact ⟨hleft, hright⟩
  · rintro ⟨hexpanded, hsides⟩
    by_cases hquotient : ∃ numerator denominator, e = .div numerator denominator
    · obtain ⟨numerator, denominator, rfl⟩ := hquotient
      change Expr.div numerator.canonicalSum.fullyExpand denominator.canonicalSum.fullyExpand =
        .div numerator.canonicalSum denominator.canonicalSum at hexpanded
      injection hexpanded with _ hleft hright
      exact congrArg₂ Expr.div (canonicalSum_canonicalSum hv h.1 hleft)
        (canonicalSum_canonicalSum hv h.2.1 hright)
    · push Not at hquotient
      by_cases hroot : ∃ left right, e.canonicalForm = .div left right
      · obtain ⟨left, right, hdiv⟩ := hroot
        obtain ⟨hleft, hright⟩ := hsides hquotient left right hdiv
        rw [hdiv]
        exact congrArg₂ Expr.div hleft hright
      · push Not at hroot
        rw [canonicalForm_eq_canonicalSum hroot]
        rw [canonicalForm_eq_canonicalSum hquotient] at hexpanded ⊢
        exact canonicalSum_canonicalSum hv h hexpanded

/-- A fourth round of canonicalization changes nothing. -/
theorem canonicalForm_settles {e : Expr (Exact rules)} (h : e.Within v) :
    e.canonicalForm.canonicalForm.canonicalForm.canonicalForm =
      e.canonicalForm.canonicalForm.canonicalForm := by
  have hfirst := Within.canonicalForm hv h
  have hsecond := Within.canonicalForm hv hfirst
  have hsettled := (distributed_canonicalForm hv h).settled_canonicalForm hv hfirst
  have hthird := (distributed_canonicalForm hv hfirst).settled_canonicalForm hv hsecond
  refine (canonicalForm_canonicalForm_iff hv hsecond).mpr
    ⟨hthird.fullyExpand_eq, fun hsum left right hdiv => ?_⟩
  -- without a quotient at the root the second round has settled the sum already
  have hroot (numerator denominator : Expr (Exact rules)) :
      e.canonicalForm ≠ .div numerator denominator := fun heq =>
    hsum numerator.canonicalSum denominator.canonicalSum (congrArg canonicalForm heq)
  have hrest : e.canonicalForm.canonicalForm.canonicalForm = e.canonicalForm.canonicalForm := by
    rw [canonicalForm_eq_canonicalSum hsum]
    rw [canonicalForm_eq_canonicalSum hroot] at hsettled ⊢
    exact canonicalSum_canonicalSum hv hfirst hsettled.fullyExpand_eq
  rw [hrest] at hdiv
  exact absurd hdiv (hsum left right)

end ClosedPowers

/-- Canonicalizing an expression of integers and natural exponents twice is canonicalizing it once
exactly when the first result is its own expansion and, where a quotient has come to stand at its
root, the two sides of the quotient are their own canonical sums. The third result is the fourth
one in any case. -/
theorem canonicalize_again_iff_and_settles {names : String → Prop} {e : Expr (Exact rules)}
    (h : e.Within (.integers names)) (threshold : LogLevel) :
    let again (e : Expr (Exact rules)) := e.canonicalize.value threshold
    (again (again e) = again e ↔
      (again e).fullyExpand = again e ∧
        ((∀ numerator denominator, e ≠ .div numerator denominator) →
          ∀ left right, again e = .div left right →
            left.canonicalSum = left ∧ right.canonicalSum = right)) ∧
      again (again (again (again e))) = again (again (again e)) := by
  have hv : ¬(Vocabulary.integers names : Vocabulary rules).openPowers := not_false
  exact ⟨canonicalForm_canonicalForm_iff hv h, canonicalForm_settles hv h⟩

/-- The product `f(y - x) * (z + 1)`. -/
def differenceCallTimesSum : Expr (Exact .standard) :=
  .mul (.func "f" (.sub (.var "y") (.var "x"))) (.add (.var "z") (.int 1))

theorem canonicalize_again_differenceCallTimesSum :
    differenceCallTimesSum.Within (.integers fun _ => True) ∧
      (differenceCallTimesSum.canonicalize.value .off).canonicalize.value .off =
        differenceCallTimesSum.canonicalize.value .off := by
  have hcall : (Expr.func "f" (.sub (.var "y") (.var "x")) : Expr (Exact .standard)).Within
      (.integers fun _ => True) := ⟨trivial, trivial, trivial, trivial⟩
  have hsum : (Expr.add (.var "z") (.int 1) : Expr (Exact .standard)).Within
      (.integers fun _ => True) := ⟨trivial, within_int 1, trivial⟩
  have hwithin : differenceCallTimesSum.Within (.integers fun _ => True) := hcall.mul hsum
  have hform : differenceCallTimesSum.canonicalForm.isSum = true := by decide +kernel
  have hexpanded : differenceCallTimesSum.canonicalForm.fullyExpand =
      differenceCallTimesSum.canonicalForm := by
    decide +kernel
  refine ⟨hwithin, (canonicalize_again_iff_and_settles hwithin .off).1.mpr
    ⟨hexpanded, fun _ left right hdiv => ?_⟩⟩
  have hdiv : differenceCallTimesSum.canonicalForm = .div left right := hdiv
  rw [hdiv] at hform
  cases hform

/-- The product `1 * ((x + x) / y)`, which becomes a quotient whose sides are not collected. -/
def unitTimesQuotient : Expr (Exact .standard) :=
  .mul (.int 1) (.div (.add (.var "x") (.var "x")) (.var "y"))

theorem canonicalize_again_ne_unitTimesQuotient :
    unitTimesQuotient.Within (.integers fun _ => True) ∧
      (unitTimesQuotient.canonicalize.value .off).canonicalize.value .off ≠
        unitTimesQuotient.canonicalize.value .off := by
  have hquotient : (Expr.div (.add (.var "x") (.var "x")) (.var "y") :
      Expr (Exact .standard)).Within (.integers fun _ => True) :=
    ⟨⟨trivial, trivial, trivial⟩, trivial, trivial⟩
  refine ⟨(within_int 1).mul hquotient, ?_⟩
  rw [value_canonicalize, value_canonicalize]
  decide +kernel

/-- The call `f((y - e) * (z + 1))`, in which `e` is negated and then multiplied by one. -/
def callOfProduct (e : Expr (Exact .standard)) : Expr (Exact .standard) :=
  .func "f" (.mul (.sub (.var "y") e) (.add (.var "z") (.int 1)))

-- the first round leaves the power `x^1` in the argument
example : (callOfProduct (.pow (.var "x") (.int 1))).canonicalForm.canonicalForm ≠
    (callOfProduct (.pow (.var "x") (.int 1))).canonicalForm := by decide +kernel

/-- The difference `2 * ((f((y - x^1) * (z + 1)) + f((y - x^1) * (z + 1))) / w) -
(f((y - x) * (z + 1)) + f((y - x) * (z + 1))) / w`. -/
def differenceOfQuotients : Expr (Exact .standard) :=
  let double (e : Expr (Exact .standard)) := .div (.add e e) (.var "w")
  .sub (.mul (.int 2) (double (callOfProduct (.pow (.var "x") (.int 1)))))
    (double (callOfProduct (.var "x")))

-- only the second round finds the quotients alike, and only the third one collects the numerator
example : differenceOfQuotients.canonicalForm.canonicalForm.canonicalForm ≠
    differenceOfQuotients.canonicalForm.canonicalForm := by decide +kernel

end Expr

end SymbolicForms
