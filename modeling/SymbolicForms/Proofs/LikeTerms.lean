import SymbolicForms.Proofs.CollectedTerms
import SymbolicForms.Proofs.SortedOrder

/-!
# Like terms

Within a vocabulary of integers and identifiers, a key belongs to one product.
Every group of like terms therefore has its own key, the terms of one key are
all found, and what is collected has for each key the total of the coefficients.
The order of terms is total, so the order in which terms came does not show in
the result: the sum of collected terms depends on the totals alone.
-/

namespace SymbolicForms

variable {rules : Exactness}

namespace FunctionPowers

/-- The entries of a table beside the texts of their functions. -/
def withTexts (powers : FunctionPowers (Exact rules)) :
    List (String × (FunctionKey (Exact rules) × Exact rules)) :=
  powers.entries.map fun entry => (entry.1.text, entry)

theorem map_snd_withTexts (powers : FunctionPowers (Exact rules)) :
    powers.withTexts.map Prod.snd = powers.entries := by
  rw [withTexts, List.map_map]
  exact List.map_id _

theorem fst_of_mem_withTexts {powers : FunctionPowers (Exact rules)} :
    ∀ pair ∈ powers.withTexts, pair.1 = pair.2.1.text := by
  intro pair hpair
  obtain ⟨entry, -, rfl⟩ := List.mem_map.mp hpair
  rfl

/-- The order of texts is a strict weak order. -/
theorem weakOrder_text : StableSort.WeakOrder
    (fun first second : String × (FunctionKey (Exact rules) × Exact rules) =>
      decide (first.1 < second.1)) fun pair => pair.1 = pair.2.1.text :=
  StableSort.weakOrder_of_order Prod.fst fun _ _ _ _ => rfl

/-- Functions are put in the same order however they were inserted. -/
theorem sorted_eq_of_perm (hw : rules.WritesIntegers)
    {powers other : FunctionPowers (Exact rules)} (h : powers.Within (.integers IsIdentifier))
    (hperm : powers.entries.Perm other.entries) : powers.sorted = other.sorted := by
  rw [sorted, sorted, ← withTexts, ← withTexts]
  refine StableSort.map_sort_eq weakOrder_text (r := fun x y => ¬y.1.text < x.1.text)
    fst_of_mem_withTexts fst_of_mem_withTexts
    (fun a b ha hb hab => ?_) (fun x y hx hy hxy hyx => ?_) ?_
  · rw [← ha, ← hb]
    exact of_decide_eq_false hab
  · rw [map_snd_withTexts] at hx hy
    have hy := hperm.mem_iff.mpr hy
    have htext : x.1.text = y.1.text := le_antisymm (not_lt.mp hxy) (not_lt.mp hyx)
    have hfunction : x.1.toExpr = y.1.toExpr :=
      Expr.key_inj hw (h.entries x hx).1 (h.entries y hy).1 htext
    have hkey : x.1 = y.1 := by
      obtain ⟨⟨name, argument⟩, exponent⟩ := x
      obtain ⟨⟨name', argument'⟩, exponent'⟩ := y
      cases hfunction
      rfl
    exact List.inj_on_of_nodup_map h.distinct hx hy hkey
  · rw [map_snd_withTexts, map_snd_withTexts]
    exact hperm

/-- In the order of their texts, no function stands behind one with a greater text. -/
theorem pairwise_sorted (powers : FunctionPowers (Exact rules)) :
    powers.sorted.Pairwise fun first second => ¬second.1.text < first.1.text := by
  have hsorted := StableSort.sorted_sort weakOrder_text (@fst_of_mem_withTexts rules powers)
  refine List.pairwise_map.mpr (hsorted.imp_of_mem fun {a b} ha hb hab => ?_)
  have ha := fst_of_mem_withTexts a ((StableSort.sort_perm _ _).mem_iff.mp ha)
  have hb := fst_of_mem_withTexts b ((StableSort.sort_perm _ _).mem_iff.mp hb)
  rw [← ha, ← hb]
  exact of_decide_eq_false hab

/-- Functions in the order of their texts stay in this order. -/
theorem sorted_of_pairwise {powers : FunctionPowers (Exact rules)}
    (h : powers.entries.Pairwise fun first second => ¬second.1.text < first.1.text) :
    powers.sorted = powers.entries := by
  have hsorted : StableSort.Sorted
      (fun first second : String × (FunctionKey (Exact rules) × Exact rules) =>
        decide (first.1 < second.1)) powers.withTexts :=
    List.pairwise_map.mpr (h.imp decide_eq_false)
  rw [sorted, ← withTexts, StableSort.sort_of_sorted hsorted, map_snd_withTexts]

end FunctionPowers

namespace Term

/-- What a term adds to the total of a key. -/
def share (key : String) (t : Term (Exact rules)) : Exact rules :=
  if t.baseKey = key then t.coefficient else 0

/-- The total of the coefficients of a key. -/
def total (key : String) (terms : List (Term (Exact rules))) : Exact rules :=
  (terms.map (share key)).sum

@[simp] theorem total_nil (key : String) : total key ([] : List (Term (Exact rules))) = 0 := rfl

@[simp] theorem total_cons (key : String) (t : Term (Exact rules))
    (rest : List (Term (Exact rules))) :
    total key (t :: rest) = share key t + total key rest := List.sum_cons

@[simp] theorem total_append (key : String) (first second : List (Term (Exact rules))) :
    total key (first ++ second) = total key first + total key second := by
  rw [total, List.map_append, List.sum_append, total, total]

/-- A key that no term has a total of zero. -/
theorem total_eq_zero {key : String} {terms : List (Term (Exact rules))}
    (h : ∀ t ∈ terms, t.baseKey ≠ key) : total key terms = 0 := by
  refine List.sum_eq_zero fun value hvalue => ?_
  obtain ⟨t, ht, rfl⟩ := List.mem_map.mp hvalue
  exact if_neg (h t ht)

/-- Where every key occurs once, the total of a key is the coefficient of its term. -/
theorem total_of_mem {terms : List (Term (Exact rules))} (h : (terms.map baseKey).Nodup)
    {t : Term (Exact rules)} (ht : t ∈ terms) : total t.baseKey terms = t.coefficient := by
  induction terms with
  | nil => cases ht
  | cons first rest ih =>
    obtain ⟨hfirst, hrest⟩ := List.nodup_cons.mp h
    rw [total_cons]
    obtain rfl | ht := List.mem_cons.mp ht
    · have hothers (other : Term (Exact rules)) (hother : other ∈ rest) :
          other.baseKey ≠ t.baseKey := fun heq => hfirst (heq ▸ List.mem_map_of_mem hother)
      rw [share, if_pos rfl, total_eq_zero hothers, add_zero]
    · have hne : first.baseKey ≠ t.baseKey := fun heq => hfirst (heq ▸ List.mem_map_of_mem ht)
      rw [share, if_neg hne, zero_add, ih hrest ht]

/-- Groups of collected terms, each with a key of its own. -/
structure DistinctGroups (groups : List (TermGroup (Exact rules))) : Prop where
  /-- The term of a group is collected, and the group has its key. -/
  terms : ∀ group ∈ groups, group.term.Collected (.integers IsIdentifier) ∧
    group.key = group.term.baseKey
  /-- No key is repeated. -/
  distinct : (groups.map TermGroup.key).Nodup

/-- The total of a key over groups. -/
def groupTotal (key : String) (groups : List (TermGroup (Exact rules))) : Exact rules :=
  total key (groups.map TermGroup.term)

section Collecting

variable (hw : rules.WritesIntegers)
include hw

/-- Terms of one key are added. -/
theorem Collected.merge?_eq {t other : Term (Exact rules)}
    (h : t.Collected (.integers IsIdentifier)) (ho : other.Collected (.integers IsIdentifier))
    (hkey : t.baseKey = other.baseKey) :
    t.merge? other = some { t with coefficient := t.coefficient + other.coefficient } := by
  obtain ⟨hvariables, hfunctions, hnested⟩ := baseKey_inj hw h.joined ho.joined hkey
  have hperm : t.functionPowers.entries.Perm other.functionPowers.entries :=
    t.functionPowers.sorted_perm.symm.trans (hfunctions ▸ other.functionPowers.sorted_perm)
  exact merge?_eq_some_iff.mpr
    ⟨(h.toWithin.similar_iff ho.toWithin).mpr ⟨hvariables, hperm, hnested⟩, rfl⟩

/-- Adding a term to groups keeps their keys apart and adds the coefficient of the term to the total
of its key. -/
theorem DistinctGroups.addToGroups {groups : List (TermGroup (Exact rules))}
    (h : DistinctGroups groups) {t : Term (Exact rules)}
    (ht : t.Collected (.integers IsIdentifier)) :
    DistinctGroups (addToGroups t.baseKey t groups) ∧
      (∀ key ∈ (addToGroups t.baseKey t groups).map TermGroup.key,
        key = t.baseKey ∨ key ∈ groups.map TermGroup.key) ∧
      ∀ key, groupTotal key (addToGroups t.baseKey t groups) =
        groupTotal key groups + share key t := by
  induction groups with
  | nil =>
    refine ⟨⟨List.forall_mem_singleton.mpr ⟨ht, rfl⟩, List.nodup_singleton _⟩, fun key hkey => ?_,
      fun key => ?_⟩
    · exact Or.inl (List.mem_singleton.mp hkey)
    · simp [Term.addToGroups, groupTotal]
  | cons group rest ih =>
    obtain ⟨hterms, hdistinct⟩ := h
    obtain ⟨⟨hgroup, hkey⟩, hrest⟩ := List.forall_mem_cons.mp hterms
    obtain ⟨hfresh, hrestDistinct⟩ := List.nodup_cons.mp hdistinct
    by_cases hsame : group.key = t.baseKey
    · have hmerge := hgroup.merge?_eq hw ht (hkey.symm.trans hsame)
      have hadd : Term.addToGroups t.baseKey t (group :: rest) = ⟨group.key,
          { group.term with coefficient := group.term.coefficient + t.coefficient }⟩ :: rest := by
        rw [Term.addToGroups, if_pos (beq_iff_eq.mpr hsame), hmerge]
      have htotal : ({ group.term with
          coefficient := group.term.coefficient + t.coefficient } : Term (Exact rules)).Collected
            (.integers IsIdentifier) :=
        ⟨hgroup.toWithin.merge? ht.toWithin hmerge, hgroup.whole⟩
      rw [hadd]
      refine ⟨⟨List.forall_mem_cons.mpr ⟨⟨htotal, hkey⟩, hrest⟩, hdistinct⟩, fun key h => Or.inr h,
        fun key => ?_⟩
      have hshare : share key { group.term with
          coefficient := group.term.coefficient + t.coefficient } =
            share key group.term + share key t := by
        have hbase : ({ group.term with
            coefficient := group.term.coefficient + t.coefficient } : Term (Exact rules)).baseKey =
              group.term.baseKey := rfl
        rw [share, share, share, hbase, ← hkey, hsame]
        split
        · rfl
        · exact (add_zero 0).symm
      rw [groupTotal, groupTotal, List.map_cons, List.map_cons, total_cons, total_cons, hshare]
      ring
    · obtain ⟨ihgroups, ihkeys, ihtotal⟩ := ih ⟨hrest, hrestDistinct⟩
      have hadd : Term.addToGroups t.baseKey t (group :: rest) =
          group :: Term.addToGroups t.baseKey t rest := by
        rw [Term.addToGroups, if_neg (mt beq_iff_eq.mp hsame)]
      rw [hadd]
      refine ⟨⟨List.forall_mem_cons.mpr ⟨⟨hgroup, hkey⟩, ihgroups.terms⟩,
        List.nodup_cons.mpr ⟨fun hmem => ?_, ihgroups.distinct⟩⟩, fun key hmem => ?_, fun key => ?_⟩
      · exact (ihkeys _ hmem).elim hsame hfresh
      · obtain rfl | hmem := List.mem_cons.mp hmem
        · exact Or.inr List.mem_cons_self
        · exact (ihkeys key hmem).imp_right (List.mem_cons_of_mem _)
      · rw [groupTotal, groupTotal, List.map_cons, List.map_cons, total_cons, total_cons,
          add_assoc]
        exact congrArg _ (ihtotal key)

/-- Terms are added one by one to groups with keys of their own. -/
theorem DistinctGroups.foldl_addToGroups {groups : List (TermGroup (Exact rules))}
    (h : DistinctGroups groups) {terms : List (Term (Exact rules))}
    (ht : ∀ t ∈ terms, t.Collected (.integers IsIdentifier)) :
    DistinctGroups (terms.foldl (fun groups t => Term.addToGroups t.baseKey t groups) groups) ∧
      ∀ key, groupTotal key
          (terms.foldl (fun groups t => Term.addToGroups t.baseKey t groups) groups) =
        groupTotal key groups + total key terms := by
  induction terms generalizing groups with
  | nil => exact ⟨h, fun key => (add_zero _).symm⟩
  | cons t rest ih =>
    obtain ⟨hfirst, hrest⟩ := List.forall_mem_cons.mp ht
    obtain ⟨hnext, -, htotal⟩ := h.addToGroups hw hfirst
    obtain ⟨hgroups, hsum⟩ := ih hnext hrest
    refine ⟨hgroups, fun key => ?_⟩
    rw [List.foldl_cons, hsum key, htotal key, total_cons, add_assoc]

/-- What is collected has one term for each key whose total is not zero. -/
theorem mergeLike_spec {terms : List (Term (Exact rules))}
    (h : ∀ t ∈ terms, t.Collected (.integers IsIdentifier)) :
    (∀ t ∈ mergeLike terms, t.Collected (.integers IsIdentifier) ∧ t.coefficient ≠ 0) ∧
      ((mergeLike terms).map baseKey).Nodup ∧
      ∀ key, total key (mergeLike terms) = total key terms := by
  have hnone : DistinctGroups ([] : List (TermGroup (Exact rules))) :=
    ⟨fun _ hmem => absurd hmem List.not_mem_nil, List.nodup_nil⟩
  obtain ⟨hgroups, htotal⟩ := hnone.foldl_addToGroups hw h
  have hcollected (t : Term (Exact rules)) (ht : t ∈ (groups terms).map TermGroup.term) :
      t.Collected (.integers IsIdentifier) := by
    obtain ⟨group, hgroup, rfl⟩ := List.mem_map.mp ht
    exact (hgroups.terms group hgroup).1
  have hkeys : ((groups terms).map TermGroup.term).map baseKey =
      (groups terms).map TermGroup.key := by
    rw [List.map_map]
    exact List.map_congr_left fun group hgroup => (hgroups.terms group hgroup).2.symm
  have hkept (kept : List (Term (Exact rules)))
      (hkept : ∀ t ∈ kept, t.Collected (.integers IsIdentifier)) (key : String) :
      total key (kept.filter fun t => !t.isZero) = total key kept := by
    induction kept with
    | nil => rfl
    | cons t rest ih =>
      obtain ⟨ht, hrest⟩ := List.forall_mem_cons.mp hkept
      cases hz : t.isZero with
      | true =>
        have hshare : share key t = 0 := by
          rw [share, ht.toWithin.isZero_iff.mp hz, ite_self]
        simp [hz, ih hrest, hshare]
      | false => simp [hz, ih hrest]
  refine ⟨fun t ht => ?_, ?_, fun key => ?_⟩
  · obtain ⟨hmem, hz⟩ := List.mem_filter.mp ht
    refine ⟨hcollected t hmem, fun hcoefficient => ?_⟩
    rw [(hcollected t hmem).toWithin.isZero_iff.mpr hcoefficient] at hz
    cases hz
  · refine List.Nodup.sublist (List.Sublist.map _ List.filter_sublist) ?_
    rw [hkeys]
    exact hgroups.distinct
  · rw [mergeLike, hkept _ hcollected]
    exact (htotal key).trans (zero_add _)

end Collecting

section Ordering

/-- The place of a term in a sum: constants last, higher degrees first, then by key, and by
coefficient among terms of one key. -/
def rank (t : Term (Exact rules)) : Bool ×ₗ (Exact rules)ᵒᵈ ×ₗ String ×ₗ Exact rules :=
  toLex (t.isConstant, toLex (OrderDual.toDual t.totalDegree, toLex (t.baseKey, t.coefficient)))

/-- The degree of a term is a number of its vocabulary. -/
theorem Within.totalDegree_mem {v : Vocabulary rules} {t : Term (Exact rules)} (h : t.Within v) :
    t.totalDegree ∈ v.numbers := by
  have hsum (entries : List (String × Exact rules)) (he : ∀ entry ∈ entries, entry.2 ∈ v.numbers)
      (start : Exact rules) (hstart : start ∈ v.numbers) :
      entries.foldl (fun total entry => total + entry.2) start ∈ v.numbers := by
    induction entries generalizing start with
    | nil => exact hstart
    | cons entry rest ih =>
      obtain ⟨hentry, hrest⟩ := List.forall_mem_cons.mp he
      exact ih hrest _ (v.numbers.add_mem hstart hentry)
  have hzero : (Scalar.zero : Exact rules) ∈ v.numbers := by
    rw [Exact.zero_eq]
    exact v.numbers.zero_mem
  exact hsum _ (fun entry hentry => h.variablePowers.mem_numbers hentry) _ hzero

/-- Terms of a vocabulary are compared by their places. -/
theorem precedes_eq {v : Vocabulary rules} {t other : Term (Exact rules)} (h : t.Within v)
    (ho : other.Within v) : t.precedes other = decide (t.rank < other.rank) := by
  have hlt (a b : Exact rules) : Scalar.lt a b = decide (a < b) := rfl
  have hapart : Scalar.apart t.totalDegree other.totalDegree = true ↔
      t.totalDegree ≠ other.totalDegree := by
    rw [Exact.apart_eq, Bool.not_eq_true', Bool.eq_false_iff, ne_eq,
      v.near_iff h.totalDegree_mem ho.totalDegree_mem]
  simp only [rank, precedes, Prod.Lex.toLex_lt_toLex, OrderDual.toDual_lt_toDual, bne_iff_ne,
    OrderDual.toDual_inj, hapart, hlt, Bool.lt_iff]
  by_cases hconstant : t.isConstant = other.isConstant
  · rw [if_neg (not_not.mpr hconstant)]
    by_cases hdegree : t.totalDegree = other.totalDegree
    · rw [if_neg (not_not.mpr hdegree)]
      by_cases hkey : t.baseKey = other.baseKey
      · simp [hconstant, hdegree, hkey]
      · simp [hconstant, hdegree, hkey]
    · simp [hconstant, hdegree]
  · cases hc : t.isConstant <;> cases hc' : other.isConstant <;> simp_all

/-- Terms of a vocabulary have a strict weak order. -/
theorem weakOrder_precedes (v : Vocabulary rules) :
    StableSort.WeakOrder (precedes : Term (Exact rules) → Term (Exact rules) → Bool)
      (Within v) :=
  StableSort.weakOrder_of_order rank fun _ _ => precedes_eq

/-- Putting the functions in order once is enough. -/
theorem sorted_inOrder (t : Term (Exact rules)) :
    t.inOrder.functionPowers.sorted = t.functionPowers.sorted :=
  FunctionPowers.sorted_of_pairwise t.functionPowers.pairwise_sorted

/-- The order of the functions does not show in the key. -/
theorem baseKey_inOrder (t : Term (Exact rules)) : t.inOrder.baseKey = t.baseKey := by
  have hparts : t.inOrder.baseKeyParts = t.baseKeyParts := by
    rw [baseKeyParts, sorted_inOrder]
    rfl
  rw [baseKey, hparts, ← baseKey]

/-- The order of the functions does not show in the factors. -/
theorem baseFactors_inOrder (t : Term (Exact rules)) : t.inOrder.baseFactors = t.baseFactors := by
  rw [baseFactors, functionFactors, sorted_inOrder]
  rfl

/-- The order of the functions does not show in writing. -/
theorem toExpr_inOrder (t : Term (Exact rules)) : t.inOrder.toExpr = t.toExpr := by
  rw [toExpr, baseFactors_inOrder]
  rfl

/-- The order of the functions does not show in a sum. -/
theorem sumExpr_map_inOrder (terms : List (Term (Exact rules))) :
    sumExpr (terms.map inOrder) = sumExpr terms := by
  rw [sumExpr, sumExpr, List.map_map]
  exact congrArg Expr.sum (List.map_congr_left fun t _ => toExpr_inOrder t)

/-- The order of the functions does not show in the place of a term. -/
theorem rank_inOrder (t : Term (Exact rules)) : t.inOrder.rank = t.rank := by
  have hempty : t.inOrder.isConstant = t.isConstant := by
    have hfunctions : t.inOrder.functionPowers.isEmpty = t.functionPowers.isEmpty := by
      rw [Bool.eq_iff_iff, FunctionPowers.isEmpty, FunctionPowers.isEmpty, List.isEmpty_iff,
        List.isEmpty_iff]
      have hlength := t.functionPowers.sorted_perm.length_eq
      rw [← List.length_eq_zero_iff, ← List.length_eq_zero_iff, ← hlength]
      rfl
    rw [isConstant, hfunctions]
    rfl
  rw [rank, hempty, baseKey_inOrder]
  rfl

variable (hw : rules.WritesIntegers)
include hw

/-- Collected terms with one key and one coefficient are equal once their functions are in order. -/
theorem inOrder_eq {t other : Term (Exact rules)} (h : t.Collected (.integers IsIdentifier))
    (ho : other.Collected (.integers IsIdentifier)) (hkey : t.baseKey = other.baseKey)
    (hcoefficient : t.coefficient = other.coefficient) : t.inOrder = other.inOrder := by
  obtain ⟨hvariables, hfunctions, hnested⟩ := baseKey_inj hw h.joined ho.joined hkey
  rw [inOrder, inOrder, hfunctions]
  cases t
  cases other
  simp_all

/-- Collected terms in one place are equal once their functions are in order. -/
theorem inOrder_eq_of_rank_eq {t other : Term (Exact rules)}
    (h : t.Collected (.integers IsIdentifier)) (ho : other.Collected (.integers IsIdentifier))
    (hrank : t.rank = other.rank) : t.inOrder = other.inOrder := by
  have hpair := congrArg (fun place => (ofLex (ofLex (ofLex place).2).2)) hrank
  obtain ⟨hkey, hcoefficient⟩ := Prod.ext_iff.mp hpair
  exact inOrder_eq hw h ho hkey hcoefficient

/-- Terms with the same totals are collected into the same terms, once functions are in order. -/
theorem map_inOrder_mergeLike_perm {terms terms' : List (Term (Exact rules))}
    (h : ∀ t ∈ terms, t.Collected (.integers IsIdentifier))
    (h' : ∀ t ∈ terms', t.Collected (.integers IsIdentifier))
    (htotal : ∀ key, total key terms = total key terms') :
    ((mergeLike terms).map inOrder).Perm ((mergeLike terms').map inOrder) := by
  have hsubset {terms terms' : List (Term (Exact rules))}
      (h : ∀ t ∈ terms, t.Collected (.integers IsIdentifier))
      (h' : ∀ t ∈ terms', t.Collected (.integers IsIdentifier))
      (htotal : ∀ key, total key terms = total key terms') :
      (mergeLike terms).map inOrder ⊆ (mergeLike terms').map inOrder := by
    obtain ⟨hterms, hdistinct, hsame⟩ := mergeLike_spec hw h
    obtain ⟨hterms', hdistinct', hsame'⟩ := mergeLike_spec hw h'
    intro u hu
    obtain ⟨t, ht, rfl⟩ := List.mem_map.mp hu
    have hcoefficient : total t.baseKey (mergeLike terms') = t.coefficient := by
      rw [hsame', ← htotal, ← hsame, total_of_mem hdistinct ht]
    -- a total that is not zero comes from a term of the key
    obtain ⟨other, hother, hkey⟩ : ∃ other ∈ mergeLike terms', other.baseKey = t.baseKey := by
      by_contra hnone
      push Not at hnone
      rw [total_eq_zero hnone] at hcoefficient
      exact (hterms t ht).2 hcoefficient.symm
    rw [← hkey, total_of_mem hdistinct' hother] at hcoefficient
    have heq := inOrder_eq hw (hterms' other hother).1 (hterms t ht).1 hkey hcoefficient
    exact heq ▸ List.mem_map_of_mem hother
  have hnodup {terms : List (Term (Exact rules))}
      (h : ∀ t ∈ terms, t.Collected (.integers IsIdentifier)) :
      ((mergeLike terms).map inOrder).Nodup := by
    obtain ⟨hterms, hdistinct, -⟩ := mergeLike_spec hw h
    have hkeys : ((mergeLike terms).map inOrder).map baseKey = (mergeLike terms).map baseKey := by
      rw [List.map_map]
      exact List.map_congr_left fun t _ => baseKey_inOrder t
    exact List.Nodup.of_map baseKey (hkeys ▸ hdistinct)
  refine (List.perm_ext_iff_of_nodup (hnodup h) (hnodup h')).mpr fun u => ⟨?_, ?_⟩
  · exact fun hu => hsubset h h' htotal hu
  · exact fun hu => hsubset h' h (fun key => (htotal key).symm) hu

/-- The sum of collected terms depends on the totals of the keys alone. -/
theorem sumExpr_eq_of_total_eq {terms terms' : List (Term (Exact rules))}
    (h : ∀ t ∈ terms, t.Collected (.integers IsIdentifier))
    (h' : ∀ t ∈ terms', t.Collected (.integers IsIdentifier))
    (htotal : ∀ key, total key terms = total key terms') :
    sumExpr (sort (mergeLike terms)) = sumExpr (sort (mergeLike terms')) := by
  have hterms (t : Term (Exact rules)) (ht : t ∈ mergeLike terms) :=
    ((mergeLike_spec hw h).1 t ht).1
  have hterms' (t : Term (Exact rules)) (ht : t ∈ mergeLike terms') :=
    ((mergeLike_spec hw h').1 t ht).1
  have hsorted : (sort (mergeLike terms)).map inOrder = (sort (mergeLike terms')).map inOrder := by
    refine StableSort.map_sort_eq (weakOrder_precedes (.integers IsIdentifier))
      (r := fun t other => t.rank ≤ other.rank) (fun t ht => (hterms t ht).toWithin)
      (fun t ht => (hterms' t ht).toWithin) (fun t other ht hother hto => ?_)
      (fun x y hx hy hxy hyx => ?_) (map_inOrder_mergeLike_perm hw h h' htotal)
    · rw [precedes_eq hother ht, decide_eq_false_iff_not, not_lt] at hto
      rwa [rank_inOrder, rank_inOrder]
    · obtain ⟨t, ht, rfl⟩ := List.mem_map.mp hx
      obtain ⟨other, hother, rfl⟩ := List.mem_map.mp hy
      have hrank := le_antisymm hxy hyx
      rw [rank_inOrder, rank_inOrder] at hrank
      exact inOrder_eq_of_rank_eq hw (hterms t ht) (hterms' other hother) hrank
  rw [← sumExpr_map_inOrder (sort (mergeLike terms)), hsorted, sumExpr_map_inOrder]

end Ordering

end Term

end SymbolicForms
