import SymbolicForms.Proofs.CanonicalNormalForm

/-!
# Classes of like terms

Similar terms have the same key, so a term is added to the group of the terms it
is similar to, whatever else is grouped under the key. While terms are added
there is one group for each class of similar terms, in the order in which the
classes first appear, and its coefficient is the total of the class so far. A
group that has come to zero keeps its place, since it may grow again; only the
groups that are zero in the end are dropped. Nothing else is grouped under a key
when the terms are read from expressions, as these keep whole nothing but joined
operands: then terms with one key are similar.
-/

namespace SymbolicForms

/-- Only the element with a property is left when no two elements have it. -/
theorem filter_eq_singleton {α : Type} {P : α → Bool} {items : List α} {item : α}
    (hmem : item ∈ items) (hitem : P item = true)
    (hpairs : items.Pairwise fun first second => ¬(P first = true ∧ P second = true)) :
    items.filter P = [item] := by
  induction items with
  | nil => exact absurd hmem List.not_mem_nil
  | cons first rest ih =>
    obtain ⟨hfirst, hrest⟩ := List.pairwise_cons.mp hpairs
    obtain rfl | hlater := List.mem_cons.mp hmem
    · have hnone : rest.filter P = [] :=
        List.filter_eq_nil_iff.mpr fun other hother hP => hfirst other hother ⟨hitem, hP⟩
      rw [List.filter_cons_of_pos hitem, hnone]
    · rw [List.filter_cons_of_neg fun hP => hfirst item hlater ⟨hP, hitem⟩, ih hlater hrest]

namespace Term

variable {rules : Exactness}

/-- The sum of the coefficients of the terms that are similar to a term. -/
def classTotal (terms : List (Term (Exact rules))) (t : Term (Exact rules)) : Exact rules :=
  ((terms.filter fun other => other.similar t).map coefficient).sum

/-- The position of the first term that is similar to a term. -/
def classPosition (terms : List (Term (Exact rules))) (t : Term (Exact rules)) : ℕ :=
  terms.findIdx fun other => other.similar t

/-- One more term adds its coefficient to the total of its class. -/
theorem classTotal_append_singleton (terms : List (Term (Exact rules)))
    (t other : Term (Exact rules)) :
    classTotal (terms ++ [t]) other =
      classTotal terms other + if t.similar other then t.coefficient else 0 := by
  have hlast : ((([t].filter fun term => term.similar other).map coefficient).sum : Exact rules) =
      if t.similar other then t.coefficient else 0 := by
    cases hs : t.similar other <;> simp [hs]
  rw [classTotal, List.filter_append, List.map_append, List.sum_append, hlast]
  rfl

/-- Being alike passes on. -/
theorem Alike.trans {t other third : Term (Exact rules)} (h : t.Alike other)
    (h' : other.Alike third) : t.Alike third :=
  ⟨h.1.trans h'.1, h.2.trans h'.2, h.3.trans h'.3, h.4.trans h'.4⟩

/-- A group with a term added to it, if the term is similar to its own. -/
def absorb (t : Term (Exact rules)) (group : TermGroup (Exact rules)) : TermGroup (Exact rules) :=
  ⟨group.key, { group.term with
    coefficient := group.term.coefficient + if t.similar group.term then t.coefficient else 0 }⟩

/-- A group whose term is not similar stays as it is. -/
theorem absorb_of_not_similar {t : Term (Exact rules)} {group : TermGroup (Exact rules)}
    (h : t.similar group.term = false) : absorb t group = group := by
  rw [absorb, h, if_neg Bool.false_ne_true, add_zero]

/-- There is one group for each class of similar terms, in the order in which the classes first
appear, and its coefficient is the total of the class. -/
structure Classifies (terms : List (Term (Exact rules))) (groups : List (TermGroup (Exact rules))) :
    Prop where
  /-- The coefficient of a group is the total of its class. -/
  coefficient_eq : ∀ group ∈ groups, group.term.coefficient = classTotal terms group.term
  /-- No class of a group is empty. -/
  exists_term : ∀ group ∈ groups, ∃ t ∈ terms, t.similar group.term = true
  /-- Every term belongs to the class of some group. -/
  exists_group : ∀ t ∈ terms, ∃ group ∈ groups, t.similar group.term = true
  /-- The classes of earlier groups appear first. -/
  ordered : groups.Pairwise fun group later =>
    classPosition terms group.term < classPosition terms later.term

namespace Classifies

variable {terms : List (Term (Exact rules))} {groups : List (TermGroup (Exact rules))}
  (h : Classifies terms groups) {t : Term (Exact rules)}
include h

/-- No position of a group changes. -/
theorem classPosition_append {group : TermGroup (Exact rules)} (hgroup : group ∈ groups) :
    classPosition (terms ++ [t]) group.term = classPosition terms group.term := by
  have hfound := List.findIdx_lt_length.mpr (h.exists_term group hgroup)
  rw [classPosition, List.findIdx_append, if_pos hfound]
  rfl

/-- A term whose class has a group changes nothing but the coefficient of this group. -/
theorem map_absorb (hfound : ∃ group ∈ groups, t.similar group.term = true) :
    Classifies (terms ++ [t]) (groups.map (absorb t)) where
  coefficient_eq := List.forall_mem_map.mpr fun group hgroup => by
    have htotal := classTotal_append_singleton terms t group.term
    rw [← h.coefficient_eq group hgroup] at htotal
    exact htotal.symm
  exists_term := List.forall_mem_map.mpr fun group hgroup => by
    obtain ⟨other, hother, hs⟩ := h.exists_term group hgroup
    exact ⟨other, List.mem_append_left _ hother, hs⟩
  exists_group other hother := by
    have hclass : ∃ group ∈ groups, other.similar group.term = true := by
      obtain hother | hother := List.mem_append.mp hother
      · exact h.exists_group other hother
      · exact List.mem_singleton.mp hother ▸ hfound
    obtain ⟨group, hgroup, hs⟩ := hclass
    exact ⟨absorb t group, List.mem_map_of_mem hgroup, hs⟩
  ordered := by
    refine List.pairwise_map.mpr (h.ordered.imp_of_mem fun {group later} hgroup hlater hlt => ?_)
    rw [← h.classPosition_append hgroup, ← h.classPosition_append hlater] at hlt
    exact hlt

/-- A term of a new class gets a group of its own behind all others. -/
theorem append_ownGroup (hself : t.similar t = true)
    (hnew : ∀ group ∈ groups, t.similar group.term = false)
    (hnone : ∀ other ∈ terms, other.similar t = false) :
    Classifies (terms ++ [t]) (groups ++ [ownGroup t]) where
  coefficient_eq := by
    refine List.forall_mem_append.mpr ⟨fun group hgroup => ?_, List.forall_mem_singleton.mpr ?_⟩
    · rw [h.coefficient_eq group hgroup, classTotal_append_singleton, hnew group hgroup,
        if_neg Bool.false_ne_true, add_zero]
    · have hempty : (terms.filter fun other => other.similar t) = [] :=
        List.filter_eq_nil_iff.mpr fun other hother => Bool.eq_false_iff.mp (hnone other hother)
      change t.coefficient = classTotal (terms ++ [t]) t
      rw [classTotal_append_singleton, if_pos hself, classTotal, hempty]
      exact (zero_add _).symm
  exists_term := by
    refine List.forall_mem_append.mpr ⟨fun group hgroup => ?_, List.forall_mem_singleton.mpr ?_⟩
    · obtain ⟨other, hother, hs⟩ := h.exists_term group hgroup
      exact ⟨other, List.mem_append_left _ hother, hs⟩
    · exact ⟨t, List.mem_append_right _ (List.mem_singleton_self t), hself⟩
  exists_group := by
    refine List.forall_mem_append.mpr ⟨fun other hother => ?_, List.forall_mem_singleton.mpr ?_⟩
    · obtain ⟨group, hgroup, hs⟩ := h.exists_group other hother
      exact ⟨group, List.mem_append_left _ hgroup, hs⟩
    · exact ⟨ownGroup t, List.mem_append_right _ (List.mem_singleton_self _), hself⟩
  ordered := by
    have hlast : classPosition (terms ++ [t]) t = terms.length := by
      rw [classPosition, List.findIdx_append, List.findIdx_eq_length.mpr hnone,
        if_neg (lt_irrefl _), List.findIdx_singleton, if_pos hself, zero_add]
    refine List.pairwise_append.mpr ⟨?_, List.pairwise_singleton _ _, fun group hgroup =>
      List.forall_mem_singleton.mpr ?_⟩
    · refine h.ordered.imp_of_mem fun {group later} hgroup hlater hlt => ?_
      rwa [h.classPosition_append hgroup, h.classPosition_append hlater]
    · rw [h.classPosition_append hgroup]
      exact (List.findIdx_lt_length.mpr (h.exists_term group hgroup)).trans_eq hlast.symm

end Classifies

section Keys

variable (hw : rules.WritesIntegers)
include hw

/-- Among integers and identifiers, similar terms are alike. -/
theorem similar_iff_alike {t other : Term (Exact rules)} (h : t.Within (.integers IsIdentifier))
    (ho : other.Within (.integers IsIdentifier)) : t.similar other = true ↔ t.Alike other :=
  ⟨fun hs => (h.similar_iff_alike ho (baseKey_eq_of_similar hw h ho hs)).mp hs,
    fun halike => (h.similar_iff_alike ho halike.baseKey).mpr halike⟩

/-- Every term is similar to itself. -/
theorem similar_self {t : Term (Exact rules)} (h : t.Within (.integers IsIdentifier)) :
    t.similar t = true :=
  (similar_iff_alike hw h h).mpr ⟨rfl, rfl, .refl _, rfl⟩

/-- Of two similar terms, each is similar to the other. -/
theorem similar_comm {t other : Term (Exact rules)} (h : t.Within (.integers IsIdentifier))
    (ho : other.Within (.integers IsIdentifier)) : t.similar other = other.similar t := by
  rw [Bool.eq_iff_iff, similar_iff_alike hw h ho, similar_iff_alike hw ho h]
  exact ⟨Alike.symm, Alike.symm⟩

/-- Terms are similar to both of two similar terms or to none. -/
theorem similar_congr {t t' other : Term (Exact rules)} (h : t.Within (.integers IsIdentifier))
    (h' : t'.Within (.integers IsIdentifier)) (ho : other.Within (.integers IsIdentifier))
    (hs : t.similar t' = true) : other.similar t = other.similar t' := by
  have halike := (similar_iff_alike hw h h').mp hs
  rw [Bool.eq_iff_iff, similar_iff_alike hw ho h, similar_iff_alike hw ho h']
  exact ⟨fun hother => hother.trans halike, fun hother => hother.trans halike.symm⟩

/-- Similar terms have one total. -/
theorem classTotal_eq_of_similar {terms : List (Term (Exact rules))}
    (hterms : ∀ other ∈ terms, other.Within (.integers IsIdentifier)) {t t' : Term (Exact rules)}
    (h : t.Within (.integers IsIdentifier)) (h' : t'.Within (.integers IsIdentifier))
    (hs : t.similar t' = true) : classTotal terms t = classTotal terms t' := by
  have hclass : (terms.filter fun other => other.similar t) =
      terms.filter fun other => other.similar t' :=
    List.filter_congr fun other hother => similar_congr hw h h' (hterms other hother) hs
  rw [classTotal, classTotal, hclass]

/-- A term of a class that has a group is added to this group, and to no other. -/
theorem addToGroups_of_similar {groups : List (TermGroup (Exact rules))}
    (h : SeparateGroups (.integers IsIdentifier) groups) {t : Term (Exact rules)}
    (ht : t.Within (.integers IsIdentifier))
    (hfound : ∃ group ∈ groups, t.similar group.term = true) :
    addToGroups t.baseKey t groups = groups.map (absorb t) := by
  induction groups with
  | nil =>
    obtain ⟨group, hgroup, -⟩ := hfound
    exact absurd hgroup List.not_mem_nil
  | cons group rest ih =>
    obtain ⟨⟨hgroup, hkey⟩, hrest⟩ := List.forall_mem_cons.mp h.terms
    obtain ⟨hfirst, hseparate⟩ := List.pairwise_cons.mp h.separate
    rw [List.map_cons]
    by_cases hs : t.similar group.term = true
    · have halike : group.term.Alike t := ((similar_iff_alike hw ht hgroup).mp hs).symm
      have hothers : rest.map (absorb t) = rest := by
        refine (List.map_congr_left fun later hlater => absorb_of_not_similar ?_).trans
          (List.map_id rest)
        refine Bool.eq_false_iff.mpr fun hlike => hfirst later hlater (halike.trans ?_)
        exact (similar_iff_alike hw ht (hrest later hlater).1).mp hlike
      rw [addToGroups_of_alike hgroup hkey ht halike, hothers, absorb, if_pos hs]
    · have halike : ¬group.term.Alike t := fun halike =>
        hs ((similar_iff_alike hw ht hgroup).mpr halike.symm)
      have hlater : ∃ later ∈ rest, t.similar later.term = true := by
        obtain ⟨found, hmem, hlike⟩ := hfound
        obtain rfl | hmem := List.mem_cons.mp hmem
        · exact absurd hlike hs
        · exact ⟨found, hmem, hlike⟩
      rw [addToGroups_of_not_alike hgroup hkey ht halike, ih ⟨hrest, hseparate⟩ hlater,
        absorb_of_not_similar (Bool.eq_false_iff.mpr hs)]

/-- Adding a term to the groups of some terms gives the groups of these terms and the new one. -/
theorem Classifies.addToGroups {terms : List (Term (Exact rules))}
    {groups : List (TermGroup (Exact rules))} (h : Classifies terms groups)
    (hgroups : SeparateGroups (.integers IsIdentifier) groups)
    (hterms : ∀ other ∈ terms, other.Within (.integers IsIdentifier)) {t : Term (Exact rules)}
    (ht : t.Within (.integers IsIdentifier)) :
    Classifies (terms ++ [t]) (addToGroups t.baseKey t groups) := by
  by_cases hfound : ∃ group ∈ groups, t.similar group.term = true
  · rw [addToGroups_of_similar hw hgroups ht hfound]
    exact h.map_absorb hfound
  · push Not at hfound
    have halike (group : TermGroup (Exact rules)) (hgroup : group ∈ groups) :
        ¬t.Alike group.term :=
      mt (similar_iff_alike hw ht (hgroups.terms group hgroup).1).mpr (hfound group hgroup)
    have hnone (other : Term (Exact rules)) (hother : other ∈ terms) : other.similar t = false := by
      obtain ⟨group, hgroup, hs⟩ := h.exists_group other hother
      have hwithin := hterms other hother
      have hclass := (similar_iff_alike hw hwithin (hgroups.terms group hgroup).1).mp hs
      refine Bool.eq_false_iff.mpr fun hlike => halike group hgroup ?_
      exact ((similar_iff_alike hw hwithin ht).mp hlike).symm.trans hclass
    rw [addToGroups_of_new hgroups.terms ht fun group hgroup => mt Alike.symm (halike group hgroup)]
    exact h.append_ownGroup (similar_self hw ht)
      (fun group hgroup => Bool.eq_false_iff.mpr (hfound group hgroup)) hnone

/-- Grouping some terms gives one group for each class. -/
theorem classifies_groups {terms : List (Term (Exact rules))}
    (hterms : ∀ t ∈ terms, t.Within (.integers IsIdentifier)) :
    Classifies terms (groups terms) := by
  induction terms using List.reverseRecOn with
  | nil => exact ⟨List.forall_mem_nil _, List.forall_mem_nil _, List.forall_mem_nil _,
      List.Pairwise.nil⟩
  | append_singleton terms t ih =>
    obtain ⟨hbefore, ht⟩ := List.forall_mem_append.mp hterms
    rw [groups, List.foldl_append]
    exact (ih hbefore).addToGroups hw (separateGroups_groups hbefore) hbefore
      (ht t (List.mem_singleton_self t))

/-- Collected terms are the sums of the classes whose totals are not zero. -/
theorem mem_mergeLike_iff {terms : List (Term (Exact rules))}
    (hterms : ∀ t ∈ terms, t.Within (.integers IsIdentifier)) {result : Term (Exact rules)} :
    result ∈ mergeLike terms ↔
      (∃ group ∈ groups terms, group.term = result) ∧ classTotal terms result ≠ 0 := by
  have hclassifies := classifies_groups hw hterms
  have hkept (group : TermGroup (Exact rules)) (hgroup : group ∈ groups terms) :
      group.term.isZero = false ↔ classTotal terms group.term ≠ 0 := by
    have hwithin := ((separateGroups_groups hterms).terms group hgroup).1
    rw [Bool.eq_false_iff, ne_eq, hwithin.isZero_iff, hclassifies.coefficient_eq group hgroup]
  rw [mergeLike, List.mem_filter, List.mem_map, Bool.not_eq_true']
  refine and_congr_right fun hfound => ?_
  obtain ⟨group, hgroup, rfl⟩ := hfound
  exact hkept group hgroup

/-- Among terms read from expressions of integers and identifiers, collecting like terms gives no
two similar ones. Each class of similar terms whose total is not zero has exactly one result, with
this total as its coefficient; classes whose total is zero have none, and there are no results
beside. The results stand in the order in which their classes first appear. -/
theorem mergeLike_sums_classes {es : List (Expr (Exact rules))}
    (h : ∀ e ∈ es, e.Within (.integers IsIdentifier)) :
    let terms := es.map ofExpr
    let merged := mergeLike terms
    (merged.Pairwise fun t later => t.similar later = false ∧ later.similar t = false) ∧
      (∀ t ∈ terms, classTotal terms t ≠ 0 →
        ∃ result, (merged.filter fun other => other.similar t) = [result] ∧
          result.coefficient = classTotal terms t) ∧
      (∀ t ∈ terms, classTotal terms t = 0 → ∀ result ∈ merged, result.similar t = false) ∧
      (∀ result ∈ merged, ∃ t ∈ terms, result.similar t = true) ∧
      merged.Pairwise fun t later => classPosition terms t < classPosition terms later := by
  intro terms merged
  have hterms : ∀ t ∈ terms, t.Within (.integers IsIdentifier) :=
    List.forall_mem_map.mpr fun e he => within_ofExpr (h e he)
  have hmerged : ∀ t ∈ merged, t.Within (.integers IsIdentifier) := within_mergeLike hterms
  have hclassifies := classifies_groups hw hterms
  have hdistinct : merged.Pairwise fun t later =>
      t.similar later = false ∧ later.similar t = false := by
    refine (pairwise_mergeLike hterms).imp_of_mem fun {t later} ht hlater halike => ?_
    have hfirst := mt (similar_iff_alike hw (hmerged t ht) (hmerged later hlater)).mp halike
    have hsecond := similar_comm hw (hmerged t ht) (hmerged later hlater)
    exact ⟨Bool.eq_false_iff.mpr hfirst, hsecond ▸ Bool.eq_false_iff.mpr hfirst⟩
  refine ⟨hdistinct, fun t ht hne => ?_, fun t ht hzero result hresult => ?_,
    fun result hresult => ?_, ?_⟩
  · obtain ⟨group, hgroup, hs⟩ := hclassifies.exists_group t ht
    have hwithin := ((separateGroups_groups hterms).terms group hgroup).1
    have htotal := classTotal_eq_of_similar hw hterms (hterms t ht) hwithin hs
    have hmem : group.term ∈ merged :=
      (mem_mergeLike_iff hw hterms).mpr ⟨⟨group, hgroup, rfl⟩, htotal ▸ hne⟩
    refine ⟨group.term, ?_, (hclassifies.coefficient_eq group hgroup).trans htotal.symm⟩
    refine filter_eq_singleton hmem (similar_comm hw (hterms t ht) hwithin ▸ hs) ?_
    refine hdistinct.imp_of_mem fun {first second} hfirst hsecond hpair hboth => ?_
    have hclass := similar_congr hw (hmerged second hsecond) (hterms t ht) (hmerged first hfirst)
      hboth.2
    rw [hpair.1, hboth.1] at hclass
    cases hclass
  · refine Bool.eq_false_iff.mpr fun hs => ((mem_mergeLike_iff hw hterms).mp hresult).2 ?_
    rw [classTotal_eq_of_similar hw hterms (hmerged result hresult) (hterms t ht) hs, hzero]
  · obtain ⟨⟨group, hgroup, rfl⟩, -⟩ := (mem_mergeLike_iff hw hterms).mp hresult
    obtain ⟨t, ht, hs⟩ := hclassifies.exists_term group hgroup
    exact ⟨t, ht, similar_comm hw (hterms t ht) (hmerged _ hresult) ▸ hs⟩
  · have hordered : ((groups terms).map TermGroup.term).Pairwise fun t later =>
        classPosition terms t < classPosition terms later :=
      List.pairwise_map.mpr hclassifies.ordered
    exact hordered.filter _

end Keys

/-- The call `f(x)`. -/
def callOfX : Expr (Exact .standard) := .func "f" (.var "x")

/-- The list `2 * f(x)`, `f(x)^2`, `-2 * f(x)`, `y`, `f(x)`, `-1 * y`, in which the calls come to
zero and grow again, and the variable comes to zero. -/
def callsAndVariable : List (Expr (Exact .standard)) :=
  [.mul (.int 2) callOfX, .pow callOfX (.int 2), .mul (.int (-2)) callOfX, .var "y", callOfX,
    .mul (.int (-1)) (.var "y")]

theorem mergeLike_sums_classes_callsAndVariable :
    (∀ e ∈ callsAndVariable, e.Within (.integers IsIdentifier)) ∧
      let merged := mergeLike (callsAndVariable.map ofExpr)
      (∃ result, (merged.filter fun other => other.similar (ofExpr callOfX)) = [result] ∧
        result.coefficient = 1) ∧
      ∀ result ∈ merged, result.similar (ofExpr (.var "y")) = false := by
  have hf : IsIdentifier "f" := isIdentifier_of_letter 'f' rfl rfl rfl
  have hx : IsIdentifier "x" := isIdentifier_of_letter 'x' rfl rfl rfl
  have hy : IsIdentifier "y" := isIdentifier_of_letter 'y' rfl rfl rfl
  have hcall : callOfX.Within (.integers IsIdentifier) := ⟨hf, hx⟩
  have hvariable : (Expr.var "y" : Expr (Exact .standard)).Within (.integers IsIdentifier) := hy
  have hwithin : ∀ e ∈ callsAndVariable, e.Within (.integers IsIdentifier) := by
    simp only [callsAndVariable, List.forall_mem_cons]
    exact ⟨(Expr.within_int 2).mul hcall, ⟨hcall, Expr.within_int 2, 2, rfl, Or.inl (by decide)⟩,
      (Expr.within_int (-2)).mul hcall, hvariable, hcall, (Expr.within_int (-1)).mul hvariable,
      List.forall_mem_nil _⟩
  obtain ⟨-, hsums, hzero, -⟩ := mergeLike_sums_classes Exactness.writesIntegers_standard hwithin
  have hcalls : classTotal (callsAndVariable.map ofExpr) (ofExpr callOfX) = 1 := by decide +kernel
  have hvariables : classTotal (callsAndVariable.map ofExpr) (ofExpr (.var "y")) = 0 := by
    decide +kernel
  have hcallMem : callOfX ∈ callsAndVariable := by simp [callsAndVariable]
  have hvariableMem : Expr.var "y" ∈ callsAndVariable := by simp [callsAndVariable]
  obtain ⟨result, hresult, htotal⟩ := hsums _ (List.mem_map_of_mem hcallMem)
    (hcalls.trans_ne one_ne_zero)
  exact ⟨hwithin, ⟨result, hresult, htotal.trans hcalls⟩,
    hzero _ (List.mem_map_of_mem hvariableMem) hvariables⟩

/-- Among terms read from expressions of integers and identifiers, those and only those that are
similar have one key. -/
theorem baseKey_eq_iff_similar (hw : rules.WritesIntegers) {e e' : Expr (Exact rules)}
    (h : e.Within (.integers IsIdentifier)) (h' : e'.Within (.integers IsIdentifier)) :
    (ofExpr e).baseKey = (ofExpr e').baseKey ↔ (ofExpr e).similar (ofExpr e') = true := by
  have ht := joined_ofExpr h
  have ht' := joined_ofExpr h'
  constructor
  · intro hkey
    obtain ⟨hvariables, hfunctions, hnested⟩ := baseKey_inj hw ht ht' hkey
    have hperm : (ofExpr e).functionPowers.entries.Perm (ofExpr e').functionPowers.entries :=
      (FunctionPowers.sorted_perm _).symm.trans
        ((List.Perm.of_eq hfunctions).trans (FunctionPowers.sorted_perm _))
    exact (ht.toWithin.similar_iff ht'.toWithin).mpr ⟨hvariables, hperm, hnested⟩
  · exact baseKey_eq_of_similar hw ht.toWithin ht'.toWithin

/-- The product `f(x) * (x + -1) * y^2 * g(-3)`. -/
def callsAndSum : Expr (Exact .standard) :=
  .mul (.mul (.mul callOfX (.add (.var "x") (.int (-1)))) (.pow (.var "y") (.int 2)))
    (.func "g" (.int (-3)))

/-- The product `y * g(-3) * -5 * f(x) * y * (x + -1)`. -/
def callsAndSumReordered : Expr (Exact .standard) :=
  .mul (.mul (.mul (.mul (.mul (.var "y") (.func "g" (.int (-3)))) (.int (-5))) callOfX)
    (.var "y")) (.add (.var "x") (.int (-1)))

theorem baseKey_eq_iff_similar_callsAndSum :
    callsAndSum.Within (.integers IsIdentifier) ∧
      callsAndSumReordered.Within (.integers IsIdentifier) ∧
      (ofExpr callsAndSum).similar (ofExpr callsAndSumReordered) = true ∧
      (ofExpr callsAndSum).baseKey = (ofExpr callsAndSumReordered).baseKey ∧
      (ofExpr callsAndSum).baseKey ≠ (ofExpr callOfX).baseKey := by
  have hf : IsIdentifier "f" := isIdentifier_of_letter 'f' rfl rfl rfl
  have hg : IsIdentifier "g" := isIdentifier_of_letter 'g' rfl rfl rfl
  have hx : IsIdentifier "x" := isIdentifier_of_letter 'x' rfl rfl rfl
  have hy : IsIdentifier "y" := isIdentifier_of_letter 'y' rfl rfl rfl
  have hcall : callOfX.Within (.integers IsIdentifier) := ⟨hf, hx⟩
  have hother : (Expr.func "g" (.int (-3)) : Expr (Exact .standard)).Within
      (.integers IsIdentifier) := ⟨hg, Expr.within_int (-3)⟩
  have hvariable : (Expr.var "y" : Expr (Exact .standard)).Within (.integers IsIdentifier) := hy
  have hsum : (Expr.add (.var "x") (.int (-1)) : Expr (Exact .standard)).Within
      (.integers IsIdentifier) := Expr.Within.add hx (Expr.within_int (-1))
  have hsquare : (Expr.pow (.var "y") (.int 2) : Expr (Exact .standard)).Within
      (.integers IsIdentifier) := ⟨hy, Expr.within_int 2, 2, rfl⟩
  have hfirst : callsAndSum.Within (.integers IsIdentifier) :=
    ((hcall.mul hsum).mul hsquare).mul hother
  have hsecond : callsAndSumReordered.Within (.integers IsIdentifier) :=
    ((((hvariable.mul hother).mul (Expr.within_int (-5))).mul hcall).mul hvariable).mul hsum
  have hsimilar : (ofExpr callsAndSum).similar (ofExpr callsAndSumReordered) = true := by
    decide +kernel
  have hdiffers : ¬(ofExpr callsAndSum).similar (ofExpr callOfX) = true := by decide +kernel
  have hw := Exactness.writesIntegers_standard
  exact ⟨hfirst, hsecond, hsimilar, (baseKey_eq_iff_similar hw hfirst hsecond).mpr hsimilar,
    mt (baseKey_eq_iff_similar hw hfirst hcall).mp hdiffers⟩

end Term

end SymbolicForms
