import SymbolicForms.CommonFactor
import SymbolicForms.Proofs.ReducedTerms

/-!
# Shared powers

Some terms share a power when all of them have an exponent of it and the least
of these exponents exceeds the tolerance. The entries of a common factor are the
powers that the terms share, with their least exponents. The loop over the terms
stops at the first one without the power, and it finds the least exponent
whatever the order of the terms is. Every term covers the common factor, so that
the check of the exponents never fails.
-/

namespace SymbolicForms

variable {rules : Exactness}

namespace FunctionPowers

/-- A function that is the same as no other one gets the last place. -/
theorem entries_set_of_new {powers : FunctionPowers (Exact rules)}
    {function : FunctionKey (Exact rules)}
    (hnew : ∀ entry ∈ powers.entries, entry.1.same function = false) (exponent : Exact rules) :
    (powers.set function exponent).entries = powers.entries ++
      [(function, exponent)].filter fun entry => !Scalar.vanishes entry.2 := by
  have hkept : (powers.erase function).entries = powers.entries :=
    List.filter_eq_self.mpr fun entry hentry => by rw [hnew entry hentry, Bool.not_false]
  rw [entries_set, hkept]
  cases hv : Scalar.vanishes exponent <;> simp [hv]

/-- Different functions are put one behind the other, without those whose exponents vanish. -/
theorem entries_foldl_set {powers : FunctionPowers (Exact rules)}
    {entries : List (FunctionKey (Exact rules) × Exact rules)}
    (h : (powers.entries ++ entries).Pairwise fun first second => first.1.same second.1 = false) :
    (entries.foldl (fun powers entry => powers.set entry.1 entry.2) powers).entries =
      powers.entries ++ entries.filter fun entry => !Scalar.vanishes entry.2 := by
  induction entries generalizing powers with
  | nil => exact (List.append_nil _).symm
  | cons entry rest ih =>
    have hnew (other : FunctionKey (Exact rules) × Exact rules) (hother : other ∈ powers.entries) :
        other.1.same entry.1 = false :=
      (List.pairwise_append.mp h).2.2 other hother entry List.mem_cons_self
    have hset := entries_set_of_new hnew entry.2
    have hnext : ((powers.set entry.1 entry.2).entries ++ rest).Pairwise
        fun first second => first.1.same second.1 = false := by
      rw [hset, List.append_assoc]
      refine h.sublist (List.Sublist.append_left ?_ _)
      exact List.Sublist.append_right List.filter_sublist rest
    rw [List.foldl_cons, ih hnext, hset, List.append_assoc, ← List.filter_append,
      List.singleton_append]

end FunctionPowers

namespace Term

/-- The least exponent is one of the exponents, all of which are present, and none is below it. -/
theorem leastExponent?_eq_some_iff {first least : Exact rules}
    {others : List (Option (Exact rules))} :
    leastExponent? first others = some least ↔
      (least = first ∨ some least ∈ others) ∧ least ≤ first ∧
        ∀ other ∈ others, ∃ exponent, other = some exponent ∧ least ≤ exponent := by
  induction others generalizing first with
  | nil =>
    rw [leastExponent?, List.foldl_nil, Option.some_inj]
    constructor
    · rintro rfl
      exact ⟨Or.inl rfl, le_rfl, List.forall_mem_nil _⟩
    · rintro ⟨rfl | hnone, -, -⟩
      · rfl
      · exact absurd hnone List.not_mem_nil
  | cons other rest ih =>
    cases other with
    | none =>
      have hnone : leastExponent? first (none :: rest) = none := by
        rw [leastExponent?, List.foldl_cons]
        clear ih
        induction rest with
        | nil => rfl
        | cons next rest ih => exact ih
      rw [hnone]
      refine ⟨fun h => (nomatch h), fun ⟨_, _, hall⟩ => ?_⟩
      obtain ⟨exponent, hexponent, -⟩ := hall none List.mem_cons_self
      cases hexponent
    | some exponent =>
      have hleast : Scalar.least first exponent = min first exponent := by
        rw [Scalar.least]
        split
        · next hlt => exact (min_eq_right ((Exact.lt_iff exponent first).mp hlt).le).symm
        · next hlt =>
          exact (min_eq_left (not_lt.mp (mt (Exact.lt_iff exponent first).mpr hlt))).symm
      have hstep : leastExponent? first (some exponent :: rest) =
          leastExponent? (min first exponent) rest := by
        rw [leastExponent?, List.foldl_cons, ← hleast]
        rfl
      rw [hstep, ih, List.mem_cons, Option.some_inj, le_min_iff, List.forall_mem_cons]
      constructor
      · rintro ⟨hone, ⟨hfirst, hexponent⟩, hall⟩
        refine ⟨?_, hfirst, ⟨exponent, rfl, hexponent⟩, hall⟩
        obtain hone | hone := hone
        · exact (min_choice first exponent).imp hone.trans fun h => Or.inl (hone.trans h)
        · exact Or.inr (Or.inr hone)
      · rintro ⟨hone, hfirst, ⟨found, hfound, hle⟩, hall⟩
        obtain rfl := Option.some.inj hfound
        refine ⟨?_, ⟨hfirst, hle⟩, hall⟩
        obtain rfl | rfl | hone := hone
        · exact Or.inl (min_eq_left hle).symm
        · exact Or.inl (min_eq_right hfirst).symm
        · exact Or.inr hone

/-- All terms have an exponent, and the least of these exceeds the tolerance. -/
structure Shares (terms : List (Term (Exact rules)))
    (found : Term (Exact rules) → Option (Exact rules)) (least : Exact rules) : Prop where
  /-- Some term has the least exponent. -/
  attained : ∃ t ∈ terms, found t = some least
  /-- No term has a smaller exponent, or none. -/
  le : ∀ t ∈ terms, ∃ exponent, found t = some exponent ∧ least ≤ exponent
  /-- The least exponent exceeds the tolerance. -/
  exceeds : Exact.tolerance < least

/-- A shared exponent is positive. -/
theorem Shares.pos {terms : List (Term (Exact rules))}
    {found : Term (Exact rules) → Option (Exact rules)} {least : Exact rules}
    (h : Shares terms found least) : 0 < least := Exact.tolerance_nonneg.trans_lt h.exceeds

/-- The shared exponent of some terms is the one that they share. -/
theorem sharedExponent?_eq_some_iff {first : Term (Exact rules)}
    {others : List (Term (Exact rules))} {found : Term (Exact rules) → Option (Exact rules)}
    {exponent least : Exact rules} (hfirst : found first = some exponent) :
    sharedExponent? exponent (others.map found) = some least ↔
      Shares (first :: others) found least := by
  rw [sharedExponent?, Option.filter_eq_some_iff, leastExponent?_eq_some_iff, Exact.lt_iff,
    Exact.tolerance_eq, List.forall_mem_map]
  constructor
  · rintro ⟨⟨hone, hle, hall⟩, hexceeds⟩
    refine ⟨?_, List.forall_mem_cons.mpr ⟨⟨exponent, hfirst, hle⟩, hall⟩, hexceeds⟩
    obtain rfl | hother := hone
    · exact ⟨first, List.mem_cons_self, hfirst⟩
    · obtain ⟨t, ht, hfound⟩ := List.mem_map.mp hother
      exact ⟨t, List.mem_cons_of_mem _ ht, hfound⟩
  · rintro ⟨⟨t, ht, hfound⟩, hle, hexceeds⟩
    obtain ⟨⟨exponent', hexponent', hfirstLe⟩, hothers⟩ := List.forall_mem_cons.mp hle
    obtain rfl : exponent = exponent' := Option.some.inj (hfirst.symm.trans hexponent')
    refine ⟨⟨?_, hfirstLe, hothers⟩, hexceeds⟩
    obtain rfl | ht := List.mem_cons.mp ht
    · exact Or.inl (Option.some.inj (hfound.symm.trans hfirst))
    · exact Or.inr (hfound ▸ List.mem_map_of_mem ht)

/-- The common variables are those that the terms share. -/
theorem mem_commonVariables {first : Term (Exact rules)} {others : List (Term (Exact rules))}
    {entry : String × Exact rules} : entry ∈ (commonVariables first others).entries ↔
      Shares (first :: others) (fun t => t.variablePowers.get? entry.1) entry.2 := by
  rw [entries_commonVariables, List.mem_filterMap]
  constructor
  · rintro ⟨⟨name, exponent⟩, hmem, hread⟩
    obtain ⟨least, hleast, rfl⟩ := Option.map_eq_some_iff.mp hread
    exact (sharedExponent?_eq_some_iff (VariablePowers.get?_eq_some_iff.mpr hmem)).mp hleast
  · intro hshares
    obtain ⟨exponent, hfirst, -⟩ := hshares.le first List.mem_cons_self
    refine ⟨(entry.1, exponent), VariablePowers.get?_eq_some_iff.mp hfirst, ?_⟩
    exact Option.map_eq_some_iff.mpr
      ⟨entry.2, (sharedExponent?_eq_some_iff hfirst).mpr hshares, rfl⟩

/-- The functions of the first term that the terms share. -/
def sharedFunctions (first : Term (Exact rules)) (others : List (Term (Exact rules))) :
    List (FunctionKey (Exact rules) × Exact rules) :=
  first.functionPowers.entries.filterMap fun entry =>
    (sharedExponent? entry.2 (others.map fun t => t.functionPowers.get? entry.1)).map (entry.1, ·)

/-- No function is shared twice. -/
theorem pairwise_sharedFunctions {first : Term (Exact rules)} (h : first.Reduced)
    (others : List (Term (Exact rules))) : (sharedFunctions first others).Pairwise
      fun before after => before.1.same after.1 = false := by
  refine List.Pairwise.filterMap _ (fun before after hsame before' hbefore after' hafter => ?_)
    h.functionPowers.same_eq_false
  obtain ⟨-, -, rfl⟩ := Option.map_eq_some_iff.mp hbefore
  obtain ⟨-, -, rfl⟩ := Option.map_eq_some_iff.mp hafter
  exact hsame

/-- The common functions are those shared functions whose exponents do not vanish. -/
theorem entries_commonFunctions {first : Term (Exact rules)} (h : first.Reduced)
    (others : List (Term (Exact rules))) : (commonFunctions first others).entries =
      (sharedFunctions first others).filter fun entry => !Scalar.vanishes entry.2 :=
  FunctionPowers.entries_foldl_set (pairwise_sharedFunctions h others)

/-- The common functions are different, and no exponent vanishes. -/
theorem reduced_commonFunctions {first : Term (Exact rules)} (h : first.Reduced)
    (others : List (Term (Exact rules))) : (commonFunctions first others).Reduced := by
  constructor <;> rw [entries_commonFunctions h]
  · intro entry hentry
    simpa using (List.mem_filter.mp hentry).2
  · exact (pairwise_sharedFunctions h others).sublist List.filter_sublist

/-- The common functions are those of the first term that the terms share. -/
theorem mem_commonFunctions {first : Term (Exact rules)} (h : first.Reduced)
    {others : List (Term (Exact rules))} {entry : FunctionKey (Exact rules) × Exact rules} :
    entry ∈ (commonFunctions first others).entries ↔
      Shares (first :: others) (fun t => t.functionPowers.get? entry.1) entry.2 ∧
        entry.1 ∈ first.functionPowers.entries.map Prod.fst ∧
        Scalar.vanishes entry.2 = false := by
  rw [entries_commonFunctions h, List.mem_filter, sharedFunctions, List.mem_filterMap,
    Bool.not_eq_true', ← and_assoc]
  refine and_congr_left fun _ => ⟨?_, ?_⟩
  · rintro ⟨⟨function, exponent⟩, hmem, hread⟩
    obtain ⟨least, hleast, rfl⟩ := Option.map_eq_some_iff.mp hread
    exact ⟨(sharedExponent?_eq_some_iff (h.functionPowers.get?_of_mem hmem)).mp hleast,
      List.mem_map.mpr ⟨_, hmem, rfl⟩⟩
  · rintro ⟨hshares, hmem⟩
    obtain ⟨own, hown, hfunction⟩ := List.mem_map.mp hmem
    have hfirst : first.functionPowers.get? entry.1 = some own.2 :=
      hfunction ▸ h.functionPowers.get?_of_mem hown
    refine ⟨own, hown, Option.map_eq_some_iff.mpr ⟨entry.2, ?_, Prod.ext hfunction rfl⟩⟩
    rw [hfunction]
    exact (sharedExponent?_eq_some_iff hfirst).mpr hshares

/-- The check of the exponents finds every term of a list covered by the common factor. -/
theorem isCovered_commonFactor {terms : List (Term (Exact rules))}
    (h : ∀ t ∈ terms, t.Reduced) : (commonFactor terms).isCovered terms = true := by
  cases terms with
  | nil => rfl
  | cons first others =>
    have hcovers {found : Term (Exact rules) → Option (Exact rules)} {least : Exact rules}
        (hshares : Shares (first :: others) found least) {t : Term (Exact rules)}
        (ht : t ∈ first :: others) :
        (!Scalar.lt ((found t).getD 0) (least - Scalar.tolerance)) = true := by
      obtain ⟨exponent, hfound, hle⟩ := hshares.le t ht
      have hbelow : least - Exact.tolerance ≤ exponent :=
        (sub_le_self least Exact.tolerance_nonneg).trans hle
      rw [hfound, Option.getD_some, Bool.not_eq_true', Bool.eq_false_iff, ne_eq, Exact.lt_iff,
        Exact.tolerance_eq]
      exact hbelow.not_gt
    rw [isCovered, List.all_eq_true]
    intro t ht
    rw [Bool.and_eq_true, List.all_eq_true, List.all_eq_true, Exact.zero_eq]
    exact ⟨fun entry hentry => hcovers (mem_commonVariables.mp hentry) ht, fun entry hentry =>
      hcovers ((mem_commonFunctions (h first List.mem_cons_self)).mp hentry).1 ht⟩

end Term

namespace Expr

/-- The terms of a sum are reduced. -/
theorem reduced_factorTerms (e : Expr (Exact rules)) : ∀ t ∈ e.factorTerms, t.Reduced :=
  List.forall_mem_map.mpr fun addend _ => Term.reduced_ofExpr addend.collectFunctions

/-- The terms of a sum cover their common factor. -/
theorem isCovered_of_commonFactor? {e : Expr (Exact rules)} {factor : Term (Exact rules)}
    (h : e.commonFactor? = some factor) : factor.isCovered e.factorTerms = true := by
  unfold commonFactor? at h
  split at h
  · cases h
  · dsimp only at h
    split at h
    · cases h
    · obtain rfl := Option.some.inj h
      exact Term.isCovered_commonFactor e.reduced_factorTerms

/-- What is taken out of a sum is the common factor, which is never reduced to its coefficient. -/
theorem factorOut?_eq (e : Expr (Exact rules)) :
    e.factorOut? = e.commonFactor?.map (Term.factored e.factorTerms) := by
  cases h : e.commonFactor? with
  | none => rw [factorOut?, h]; rfl
  | some factor => rw [factorOut?, h, Option.map_some, if_pos (isCovered_of_commonFactor? h)]; rfl

/-- Taking out the common factor leaves no message. -/
theorem messages_extractFactor? (e : Expr (Exact rules)) (threshold : LogLevel) :
    e.extractFactor?.messages threshold = [] := by
  unfold extractFactor?
  split
  · rfl
  · next factor h =>
    rw [isCovered_of_commonFactor? h]
    rfl

/-- Extraction takes the common factor out, if there is one, and leaves no message. -/
theorem run_extractFactor (e : Expr (Exact rules)) (threshold : LogLevel) :
    e.extractFactor.run threshold =
      ((e.commonFactor?.map (Term.factored e.factorTerms)).getD e, []) := by
  have hvalue : e.extractFactor.value threshold = e.factorOut?.getD e := by
    rw [extractFactor, Logged.value_bind, value_extractFactor?]
    rfl
  have hmessages : e.extractFactor.messages threshold = [] := by
    rw [extractFactor, Logged.messages_bind, messages_extractFactor?]
    rfl
  exact Prod.ext (hvalue.trans (by rw [factorOut?_eq])) hmessages

end Expr

end SymbolicForms
