import SymbolicForms.Proofs.ExpansionMeaning
import SymbolicForms.CanonicalForm

/-!
# Meaning of canonical forms

Two terms of a vocabulary are similar exactly when they have the same variables,
the same functions up to order and the same factors kept whole. Hence collecting
like terms adds coefficients of equal products, and the terms that are dropped
have the value zero. Sorting only permutes the terms. A canonical form therefore
has the value of its expression, under every interpretation that is faithful to
the vocabulary.
-/

namespace SymbolicForms

namespace VariablePowers

variable {rules : Exactness} {v : Vocabulary rules}

/-- The exponents of variables are numbers of the vocabulary. -/
theorem Within.mem_numbers {powers : VariablePowers (Exact rules)} (h : powers.Within v)
    {entry : String × Exact rules} (he : entry ∈ powers.entries) : entry.2 ∈ v.numbers := by
  obtain ⟨-, n, -, hn⟩ := h entry he
  rw [hn]
  exact v.mem_of_natCast n

/-- Over the numbers of a vocabulary, tables that count as the same are equal. -/
theorem Over.same_iff_eq {powers other : VariablePowers (Exact rules)} (h : powers.Over v)
    (ho : other.Over v) : powers.same other = true ↔ powers = other := by
  rw [same_iff_forall₂, forall₂_iff_eq fun first hfirst second hsecond => by
    rw [v.near_iff (h first hfirst).1 (ho second hsecond).1, Prod.ext_iff]]
  exact ⟨eq_of_entries_eq, congrArg entries⟩

end VariablePowers

namespace FunctionPowers

variable {rules : Exactness} {v : Vocabulary rules}

/-- Over the numbers of a vocabulary, tables that count as the same have the same entries up to
order. -/
theorem Over.same_iff_perm {powers other : FunctionPowers (Exact rules)} (h : powers.Over v)
    (ho : other.Over v) : powers.same other = true ↔ powers.entries.Perm other.entries := by
  have hfound : ∀ entry ∈ powers.entries, ∀ exponent,
      other.get? entry.1 = some exponent ↔ (entry.1, exponent) ∈ other.entries :=
    fun entry hentry _ => ho.get?_eq_some_iff (h.entries entry hentry).1
  have hnodup : powers.entries.Nodup := .of_map _ h.distinct
  rw [same, Bool.and_eq_true, beq_iff_eq, List.all_eq_true]
  constructor
  · rintro ⟨hsize, hall⟩
    have hsubset : powers.entries ⊆ other.entries := by
      intro entry hentry
      have hentrySame := hall entry hentry
      split at hentrySame
      · next exponent hget =>
        have hmem := (hfound entry hentry exponent).mp hget
        have hnumber : exponent ∈ v.numbers := (ho.entries _ hmem).2.1
        have hnumber' := (h.entries entry hentry).2.1
        rw [Exact.apart_eq, Bool.not_not, v.near_iff hnumber hnumber'] at hentrySame
        rwa [hentrySame] at hmem
      · cases hentrySame
    exact (hnodup.subperm hsubset).perm_of_length_le hsize.ge
  · intro hperm
    refine ⟨hperm.length_eq, fun entry hentry => ?_⟩
    have hget := (hfound entry hentry entry.2).mpr (hperm.mem_iff.mp hentry)
    rw [hget]
    simp

end FunctionPowers

namespace Term

variable {rules : Exactness} {v : Vocabulary rules}

/-- Within a vocabulary, similar terms have the same factors beside their coefficients. -/
theorem Within.similar_iff {t other : Term (Exact rules)} (h : t.Within v) (ho : other.Within v) :
    t.similar other = true ↔ t.variablePowers = other.variablePowers ∧
      t.functionPowers.entries.Perm other.functionPowers.entries ∧ t.nested = other.nested := by
  have hnested : List.Forall₂ (fun first second => first.same second = true) t.nested
      other.nested ↔ t.nested = other.nested :=
    forall₂_iff_eq fun first hfirst second hsecond =>
      Expr.same_iff_eq (h.nested first hfirst) (ho.nested second hsecond)
  rw [similar_iff_forall₂, hnested, h.variablePowers.over.same_iff_eq ho.variablePowers.over,
    h.functionPowers.over.same_iff_perm ho.functionPowers.over]

/-- The term of a group is one of the terms added to the groups, perhaps with another
coefficient. -/
theorem exists_of_mem_addToGroups {K : Type} [Scalar K] {key : String} {t : Term K}
    {groups : List (TermGroup K)} {group : TermGroup K} (h : group ∈ addToGroups key t groups) :
    ∃ source ∈ t :: groups.map TermGroup.term, ∃ coefficient,
      group.term = { source with coefficient := coefficient } := by
  have itself (source : Term K) (hsource : source ∈ t :: groups.map TermGroup.term) :
      ∃ found ∈ t :: groups.map TermGroup.term, ∃ coefficient,
        source = { found with coefficient := coefficient } :=
    ⟨source, hsource, source.coefficient, rfl⟩
  induction groups with
  | nil =>
    rw [List.mem_singleton.mp h]
    exact itself t List.mem_cons_self
  | cons first rest ih =>
    have hfirst : first.term ∈ t :: (first :: rest).map TermGroup.term :=
      List.mem_cons_of_mem _ List.mem_cons_self
    have hlater (h : group ∈ first :: addToGroups key t rest) :
        ∃ source ∈ t :: (first :: rest).map TermGroup.term, ∃ coefficient,
          group.term = { source with coefficient := coefficient } := by
      obtain rfl | h := List.mem_cons.mp h
      · exact itself _ hfirst
      · obtain ⟨source, hsource, hgroup⟩ := ih h fun source hsource =>
          ⟨source, hsource, source.coefficient, rfl⟩
        refine ⟨source, ?_, hgroup⟩
        rw [List.map_cons, List.mem_cons, List.mem_cons]
        exact (List.mem_cons.mp hsource).imp_right Or.inr
    unfold addToGroups at h
    split at h
    · split at h
      · next total htotal =>
        obtain ⟨-, rfl⟩ := merge?_eq_some_iff.mp htotal
        obtain rfl | h := List.mem_cons.mp h
        · exact ⟨first.term, hfirst, _, rfl⟩
        · exact itself _ (List.mem_cons_of_mem _ (List.mem_cons_of_mem _ (List.mem_map_of_mem h)))
      · exact hlater h
    · exact hlater h

/-- A collected term is one of the terms, perhaps with another coefficient. -/
theorem exists_of_mem_mergeLike {K : Type} [Scalar K] {terms : List (Term K)} {t : Term K}
    (h : t ∈ mergeLike terms) :
    ∃ source ∈ terms, ∃ coefficient, t = { source with coefficient := coefficient } := by
  have grouped (terms : List (Term K)) (groups : List (TermGroup K)) (group : TermGroup K)
      (h : group ∈ terms.foldl (fun groups t => addToGroups t.baseKey t groups) groups) :
      ∃ source ∈ terms ++ groups.map TermGroup.term, ∃ coefficient,
        group.term = { source with coefficient := coefficient } := by
    induction terms generalizing groups with
    | nil => exact ⟨group.term, List.mem_map_of_mem h, group.term.coefficient, rfl⟩
    | cons t rest ih =>
      obtain ⟨source, hsource, coefficient, hgroup⟩ := ih _ h
      obtain hrest | hmem := List.mem_append.mp hsource
      · exact ⟨source, List.mem_append_left _ (List.mem_cons_of_mem _ hrest), coefficient, hgroup⟩
      · obtain ⟨added, hadded, rfl⟩ := List.mem_map.mp hmem
        obtain ⟨origin, horigin, other, heq⟩ := exists_of_mem_addToGroups hadded
        refine ⟨origin, ?_, coefficient, by rw [hgroup, heq]⟩
        obtain rfl | hold := List.mem_cons.mp horigin
        · exact List.mem_append_left _ List.mem_cons_self
        · exact List.mem_append_right _ hold
  obtain ⟨group, hgroup, rfl⟩ := List.mem_map.mp (List.mem_filter.mp h).1
  obtain ⟨source, hsource, hterm⟩ := grouped terms [] group hgroup
  exact ⟨source, by rwa [List.map_nil, List.append_nil] at hsource, hterm⟩

/-- The sum of similar terms is within their vocabulary. -/
theorem Within.merge? {t other total : Term (Exact rules)} (h : t.Within v) (ho : other.Within v)
    (hmerge : t.merge? other = some total) : total.Within v := by
  obtain ⟨-, rfl⟩ := merge?_eq_some_iff.mp hmerge
  exact ⟨v.numbers.add_mem h.coefficient ho.coefficient, h.variablePowers, h.functionPowers,
    h.nested⟩

/-- Every group has a term of the vocabulary. -/
def GroupsWithin (v : Vocabulary rules) (groups : List (TermGroup (Exact rules))) : Prop :=
  ∀ group ∈ groups, group.term.Within v

/-- Adding a term to groups does not lead out of a vocabulary. -/
theorem GroupsWithin.addToGroups {groups : List (TermGroup (Exact rules))}
    (h : GroupsWithin v groups) {t : Term (Exact rules)} (ht : t.Within v) (key : String) :
    GroupsWithin v (addToGroups key t groups) := by
  induction groups with
  | nil => exact List.forall_mem_singleton.mpr ht
  | cons group rest ih =>
    obtain ⟨hgroup, hrest⟩ := List.forall_mem_cons.mp h
    have hbehind : GroupsWithin v (group :: Term.addToGroups key t rest) :=
      List.forall_mem_cons.mpr ⟨hgroup, ih hrest⟩
    unfold Term.addToGroups
    split
    · cases hmerge : group.term.merge? t with
      | none => exact hbehind
      | some total => exact List.forall_mem_cons.mpr ⟨hgroup.merge? ht hmerge, hrest⟩
    · exact hbehind

/-- Terms are added one by one to groups of the vocabulary. -/
theorem GroupsWithin.foldl_addToGroups {groups : List (TermGroup (Exact rules))}
    (h : GroupsWithin v groups) {terms : List (Term (Exact rules))} (ht : ∀ t ∈ terms, t.Within v) :
    GroupsWithin v (terms.foldl (fun groups t => Term.addToGroups t.baseKey t groups) groups) := by
  induction terms generalizing groups with
  | nil => exact h
  | cons t rest ih =>
    obtain ⟨hfirst, hrest⟩ := List.forall_mem_cons.mp ht
    exact ih (h.addToGroups hfirst t.baseKey) hrest

/-- Collected terms are within the vocabulary of the terms. -/
theorem within_mergeLike {terms : List (Term (Exact rules))} (h : ∀ t ∈ terms, t.Within v) :
    ∀ t ∈ mergeLike terms, t.Within v := by
  intro t ht
  obtain ⟨group, hgroup, rfl⟩ := List.mem_map.mp (List.mem_filter.mp ht).1
  have hnone : GroupsWithin v [] := List.forall_mem_nil _
  exact hnone.foldl_addToGroups h group hgroup

/-- A sum of terms is within their vocabulary. -/
theorem within_sumExpr {terms : List (Term (Exact rules))} (h : ∀ t ∈ terms, t.Within v) :
    (sumExpr terms).Within v := by
  refine Expr.within_sum fun e he => ?_
  obtain ⟨t, ht, rfl⟩ := List.mem_map.mp he
  exact within_toExpr (h t ht)

variable {R : Type*} [CommRing R] {I : Interpretation rules R} (hI : I.Faithful v)
include hI

/-- A term without a coefficient has the value zero. -/
theorem value_eq_zero {t : Term (Exact rules)} (h : t.Within v) (hz : t.isZero = true) :
    t.value I = 0 := by
  rw [value, h.isZero_iff.mp hz, hI.number_zero, zero_mul]

/-- The sum of similar terms has the sum of their values. -/
theorem value_merge? {t other total : Term (Exact rules)} (h : t.Within v) (ho : other.Within v)
    (hmerge : t.merge? other = some total) : total.value I = t.value I + other.value I := by
  obtain ⟨hsimilar, rfl⟩ := merge?_eq_some_iff.mp hmerge
  obtain ⟨hvariables, hfunctions, hnested⟩ := (h.similar_iff ho).mp hsimilar
  have hpowers : t.functionPowers.value I = other.functionPowers.value I :=
    (hfunctions.map _).prod_eq
  simp only [value]
  rw [hI.number_add h.coefficient ho.coefficient, add_mul, hvariables, hpowers, hnested]

/-- Adding a term to groups adds its value. -/
theorem sum_value_addToGroups {groups : List (TermGroup (Exact rules))} (h : GroupsWithin v groups)
    {t : Term (Exact rules)} (ht : t.Within v) (key : String) :
    ((addToGroups key t groups).map fun group => group.term.value I).sum =
      (groups.map fun group => group.term.value I).sum + t.value I := by
  induction groups with
  | nil => exact add_comm (t.value I) 0
  | cons group rest ih =>
    obtain ⟨hgroup, hrest⟩ := List.forall_mem_cons.mp h
    have hbehind : ((group :: addToGroups key t rest).map fun group => group.term.value I).sum =
        ((group :: rest).map fun group => group.term.value I).sum + t.value I := by
      rw [List.map_cons, List.sum_cons, ih hrest, List.map_cons, List.sum_cons, add_assoc]
    unfold addToGroups
    split
    · cases hmerge : group.term.merge? t with
      | none => exact hbehind
      | some total =>
        simp only [List.map_cons, List.sum_cons, value_merge? hI hgroup ht hmerge]
        ring
    · exact hbehind

/-- The groups have the sum of the values of the terms added to them. -/
theorem sum_value_foldl_addToGroups {groups : List (TermGroup (Exact rules))}
    (h : GroupsWithin v groups) {terms : List (Term (Exact rules))} (ht : ∀ t ∈ terms, t.Within v) :
    ((terms.foldl (fun groups t => addToGroups t.baseKey t groups) groups).map
      fun group => group.term.value I).sum =
        (groups.map fun group => group.term.value I).sum + (terms.map (value I)).sum := by
  induction terms generalizing groups with
  | nil => exact (add_zero _).symm
  | cons t rest ih =>
    obtain ⟨hfirst, hrest⟩ := List.forall_mem_cons.mp ht
    have hnext := h.addToGroups hfirst t.baseKey
    rw [List.foldl_cons, ih hnext hrest, sum_value_addToGroups hI h hfirst, List.map_cons,
      List.sum_cons, add_assoc]

/-- Collecting like terms keeps the sum of the values. -/
theorem sum_value_mergeLike {terms : List (Term (Exact rules))} (h : ∀ t ∈ terms, t.Within v) :
    ((mergeLike terms).map (value I)).sum = (terms.map (value I)).sum := by
  have hnone : GroupsWithin v [] := List.forall_mem_nil _
  have hgroups := hnone.foldl_addToGroups h
  have hsum := sum_value_foldl_addToGroups hI hnone h
  have hdropped (kept : List (Term (Exact rules))) (hkept : ∀ t ∈ kept, t.Within v) :
      ((kept.filter fun t => !t.isZero).map (value I)).sum = (kept.map (value I)).sum := by
    induction kept with
    | nil => rfl
    | cons t rest ih =>
      obtain ⟨ht, hrest⟩ := List.forall_mem_cons.mp hkept
      cases hz : t.isZero with
      | true => simp [hz, ih hrest, value_eq_zero hI ht hz]
      | false => simp [hz, ih hrest]
  rw [List.map_nil, List.sum_nil, zero_add] at hsum
  rw [mergeLike, groups, hdropped _ (List.forall_mem_map.mpr hgroups), List.map_map]
  exact hsum

/-- A sum of terms has the sum of their values. -/
theorem value_sumExpr {terms : List (Term (Exact rules))} (h : ∀ t ∈ terms, t.Within v) :
    (sumExpr terms).value I = (terms.map (value I)).sum := by
  rw [sumExpr, Expr.value_sum hI, List.map_map]
  exact congrArg List.sum (List.map_congr_left fun t ht => value_toExpr hI (h t ht))

end Term

namespace Expr

variable {rules : Exactness} {v : Vocabulary rules} (hv : ¬v.openPowers)

/-- The addends of an expression are read as terms of its vocabulary. -/
theorem Within.terms {e : Expr (Exact rules)} (h : e.Within v) : ∀ t ∈ e.terms, t.Within v := by
  intro t ht
  obtain ⟨addend, haddend, rfl⟩ := List.mem_map.mp ht
  exact Term.within_ofExpr (h.of_mem_addends haddend)

include hv

/-- A canonical sum is within the vocabulary of its expression. -/
theorem Within.canonicalSum {e : Expr (Exact rules)} (h : e.Within v) :
    e.canonicalSum.Within v := by
  have hmerged := Term.within_mergeLike (h.fullyExpand hv).terms
  refine Term.within_sumExpr fun t ht => hmerged t ?_
  exact (StableSort.sort_perm _ _).mem_iff.mp ht

/-- A canonical form is within the vocabulary of its expression. -/
theorem Within.canonicalForm {e : Expr (Exact rules)} (h : e.Within v) :
    e.canonicalForm.Within v := by
  unfold Expr.canonicalForm
  split
  · exact Within.div (Within.canonicalSum hv h.1) (Within.canonicalSum hv h.2.1)
  · exact Within.canonicalSum hv h

variable {R : Type*} [CommRing R] {I : Interpretation rules R} (hI : I.Faithful v)
include hI

/-- A canonical sum has the value of its expression. -/
theorem value_canonicalSum {e : Expr (Exact rules)} (h : e.Within v) :
    e.canonicalSum.value I = e.value I := by
  have hexpanded := h.fullyExpand hv
  have hmerged := Term.within_mergeLike hexpanded.terms
  have hsorted := StableSort.sort_perm Term.precedes (Term.mergeLike e.fullyExpand.terms)
  have hread : (e.fullyExpand.terms.map (Term.value I)).sum = e.fullyExpand.value I := by
    rw [terms, List.map_map, ← sum_value_addends hI hexpanded]
    exact congrArg List.sum (List.map_congr_left fun addend haddend =>
      Term.value_ofExpr hI (hexpanded.of_mem_addends haddend))
  calc e.canonicalSum.value I
      = ((Term.sort (Term.mergeLike e.fullyExpand.terms)).map (Term.value I)).sum :=
        Term.value_sumExpr hI fun t ht => hmerged t (hsorted.mem_iff.mp ht)
    _ = ((Term.mergeLike e.fullyExpand.terms).map (Term.value I)).sum :=
        (hsorted.map _).sum_eq
    _ = (e.fullyExpand.terms.map (Term.value I)).sum :=
        Term.sum_value_mergeLike hI hexpanded.terms
    _ = e.value I := by rw [hread, value_fullyExpand hI hv h]

/-- A canonical form has the value of its expression. -/
theorem value_canonicalForm {e : Expr (Exact rules)} (h : e.Within v) :
    e.canonicalForm.value I = e.value I := by
  unfold canonicalForm
  split
  · next numerator denominator =>
    have hn := value_canonicalSum hv hI h.1
    have hd := value_canonicalSum hv hI h.2.1
    rw [value_div, value_div, hn, hd]
  · exact value_canonicalSum hv hI h

end Expr

namespace Expr

variable {rules : Exactness}

/-- An expression of integers and natural exponents keeps its value in every commutative ring when
it is expanded and when it is canonicalized, whatever functions and quotients mean. -/
theorem value_expanded_and_canonicalized {R : Type*} [CommRing R] (valuation : String → R)
    (functions : String → R → R) (quotient : R → R → R) {e : Expr (Exact rules)}
    (h : e.Within (.integers fun _ => True)) (threshold : LogLevel) :
    e.fullyExpand.Within (.integers fun _ => True) ∧
      e.fullyExpand.value (.inRing valuation functions quotient) =
        e.value (.inRing valuation functions quotient) ∧
      (e.canonicalize.value threshold).Within (.integers fun _ => True) ∧
      (e.canonicalize.value threshold).value (.inRing valuation functions quotient) =
        e.value (.inRing valuation functions quotient) := by
  have hv : ¬(Vocabulary.integers fun _ => True : Vocabulary rules).openPowers := not_false
  have hI : (Interpretation.inRing valuation functions quotient).Faithful
      (Vocabulary.integers fun _ => True : Vocabulary rules) :=
    Interpretation.faithful_inRing valuation functions quotient fun _ => True
  rw [value_canonicalize]
  exact ⟨h.fullyExpand hv, value_fullyExpand hI hv h, h.canonicalForm hv,
    value_canonicalForm hv hI h⟩

/-- The product `(x - 2) * (x + f(y))^2`. -/
def differenceTimesSquare : Expr (Exact .standard) :=
  .mul (.sub (.var "x") (.int 2)) (.pow (.add (.var "x") (.func "f" (.var "y"))) (.int 2))

theorem value_expanded_and_canonicalized_differenceTimesSquare :
    differenceTimesSquare.Within (.integers fun _ => True) ∧
      differenceTimesSquare.fullyExpand.value (.inRing (fun _ => 3) (fun _ t => -t) (· + ·)) =
        (differenceTimesSquare.value (.inRing (fun _ => 3) (fun _ t => -t) (· + ·)) : ℤ) ∧
      (differenceTimesSquare.canonicalize.value .off).value
          (.inRing (fun _ => 3) (fun _ t => -t) (· + ·)) =
        (differenceTimesSquare.value (.inRing (fun _ => 3) (fun _ t => -t) (· + ·)) : ℤ) := by
  have hdifference : (Expr.sub (.var "x") (.int 2) : Expr (Exact .standard)).Within
      (.integers fun _ => True) := ⟨trivial, within_int 2, trivial⟩
  have hsum : (Expr.add (.var "x") (.func "f" (.var "y")) : Expr (Exact .standard)).Within
      (.integers fun _ => True) := ⟨trivial, ⟨trivial, trivial⟩, trivial⟩
  have hwithin : differenceTimesSquare.Within (.integers fun _ => True) :=
    hdifference.mul (hsum.pow ⟨2, Int.cast_ofNat 2⟩)
  have hvalue := value_expanded_and_canonicalized (fun _ => (3 : ℤ)) (fun _ t => -t) (· + ·)
    hwithin .off
  exact ⟨hwithin, hvalue.2.1, hvalue.2.2.2⟩

end Expr

end SymbolicForms
