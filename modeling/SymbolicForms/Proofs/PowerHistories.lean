import Mathlib.Logic.Function.Basic
import SymbolicForms.Proofs.ReducedTerms

/-!
# Tables of functions as finite maps

A table of functions that starts empty goes through a history of changes: an
exponent is added, an exponent is replaced, or a function is forgotten. Beside it
a map from functions to values goes through the same history, where a value that
is zero or below the margin is removed. Where the arguments of the functions have
no numbers but integers, functions that count as the same are equal, so every
change concerns one place of the table. From what one change does to this place
follow, along the history, that no function is repeated, that looking up finds
the values of the map, and where each function stands. A comparison looks up the
entries of one table in the other one only. It is symmetric all the same: a table
without repetitions whose functions are all in another one of the same size has
all functions of that one.
-/

namespace SymbolicForms

variable {rules : Exactness}

/-- The argument of the function has no numbers but integers. -/
def FunctionKey.IsIntegral (function : FunctionKey (Exact rules)) : Prop :=
  function.argument.Over (Vocabulary.integers fun _ => True)

namespace FunctionPowers

/-- The functions of a table in their order. -/
def keys {K : Type} (powers : FunctionPowers K) : List (FunctionKey K) :=
  powers.entries.map Prod.fst

/-- One change of a table. -/
inductive Change (rules : Exactness) where
  /-- An exponent is added. -/
  | accumulate (function : FunctionKey (Exact rules)) (exponent : Exact rules)
  /-- An exponent is replaced. -/
  | set (function : FunctionKey (Exact rules)) (exponent : Exact rules)
  /-- A function is forgotten. -/
  | erase (function : FunctionKey (Exact rules))

/-- A value that is zero or below the margin is not kept. -/
def kept (value : Exact rules) : Option (Exact rules) :=
  if value = 0 ∨ |value| < Exact.margin then none else some value

namespace Change

/-- The function whose exponent is changed. -/
def function : Change rules → FunctionKey (Exact rules)
  | .accumulate function _ => function
  | .set function _ => function
  | .erase function => function

/-- The changed table. -/
def apply (change : Change rules) (powers : FunctionPowers (Exact rules)) :
    FunctionPowers (Exact rules) :=
  match change with
  | .accumulate function exponent => powers.accumulate function exponent
  | .set function exponent => powers.set function exponent
  | .erase function => powers.erase function

/-- What becomes of the value of the function. -/
def result (change : Change rules) (value : Option (Exact rules)) : Option (Exact rules) :=
  match change with
  | .accumulate _ exponent => kept (value.getD 0 + exponent)
  | .set _ exponent => kept exponent
  | .erase _ => none

/-- The changed map. -/
def update (change : Change rules) (values : FunctionKey (Exact rules) → Option (Exact rules)) :
    FunctionKey (Exact rules) → Option (Exact rules) :=
  Function.update values change.function (change.result (values change.function))

/-- Where the changed entry stands: between those before and behind it, or at the end if its
exponent is replaced. -/
def place {α : Type} (change : Change rules) (before changed behind : List α) : List α :=
  match change with
  | .accumulate _ _ => before ++ changed ++ behind
  | .set _ _ => before ++ behind ++ changed
  | .erase _ => before ++ changed ++ behind

end Change

/-- The table after changes of the empty one. -/
def after (changes : List (Change rules)) : FunctionPowers (Exact rules) :=
  changes.foldl (fun powers change => change.apply powers) empty

/-- The map after changes of the empty one. -/
def valuesAfter (changes : List (Change rules)) :
    FunctionKey (Exact rules) → Option (Exact rules) :=
  changes.foldl (fun values change => change.update values) fun _ => none

/-- What is kept is neither zero nor below the margin. -/
theorem kept_eq_some_iff {value result : Exact rules} :
    kept value = some result ↔ value = result ∧ value ≠ 0 ∧ Exact.margin ≤ |value| := by
  unfold kept
  split
  · next hsmall => simp [← not_lt, ← not_or, hsmall]
  · next hlarge =>
    rw [not_or, not_lt] at hlarge
    simp [hlarge]

/-- What is not kept vanishes. -/
theorem kept_eq (value : Exact rules) :
    kept value = if Scalar.vanishes value then none else some value := by
  have hvanishes : Scalar.vanishes value = true ↔ value = 0 ∨ |value| < Exact.margin := by
    rw [Scalar.vanishes, Exact.near_iff, Exact.zero_eq, sub_zero]
  rw [kept, if_congr hvanishes.symm rfl rfl]

/-- A change leaves no value that is zero or below the margin. -/
theorem Change.large_of_result {change : Change rules} {old : Option (Exact rules)}
    {value : Exact rules} (h : change.result old = some value) :
    value ≠ 0 ∧ Exact.margin ≤ |value| := by
  have large {total : Exact rules} (hkept : FunctionPowers.kept total = some value) :
      value ≠ 0 ∧ Exact.margin ≤ |value| := by
    obtain ⟨rfl, hlarge⟩ := kept_eq_some_iff.mp hkept
    exact hlarge
  cases change with
  | accumulate function exponent => exact large h
  | set function exponent => exact large h
  | erase function => cases h

/-- Up to order, the changed entry stands in between. -/
theorem place_perm {α : Type} (change : Change rules) (before changed behind : List α) :
    (change.place before changed behind).Perm (before ++ changed ++ behind) := by
  cases change with
  | set function exponent =>
    rw [Change.place, List.append_assoc, List.append_assoc]
    exact List.perm_append_comm.append_left before
  | _ => exact .refl _

/-- Places are kept by a map. -/
theorem map_place {α β : Type} (change : Change rules) (f : α → β)
    (before changed behind : List α) :
    (change.place before changed behind).map f =
      change.place (before.map f) (changed.map f) (behind.map f) := by
  cases change <;> simp [Change.place]

/-- Leaving out what is neither before nor behind. -/
theorem erase_append_map {α β : Type} [DecidableEq α] {key : α} {value : Option β}
    {before behind : List α} (hbefore : key ∉ before) (hbehind : key ∉ behind) :
    (before ++ (value.map fun _ => key).toList ++ behind).erase key = before ++ behind := by
  cases value with
  | none =>
    rw [Option.map_none, Option.toList_none, List.append_nil]
    exact List.erase_of_not_mem (List.not_mem_append hbefore hbehind)
  | some exponent =>
    rw [Option.map_some, Option.toList_some, List.append_assoc, List.singleton_append,
      List.erase_append_right _ hbefore, List.erase_cons_head]

variable {v : Vocabulary rules} {powers other : FunctionPowers (Exact rules)}

section Step

variable {change : Change rules}

/-- A change concerns one place of a table. It is the last one if the function is new. -/
theorem Keyed.exists_place (h : powers.Keyed v) (hf : change.function.toExpr.Over v) :
    ∃ before behind,
      powers.entries =
        before ++ ((powers.get? change.function).map (change.function, ·)).toList ++ behind ∧
      (change.apply powers).entries = change.place before
        ((change.result (powers.get? change.function)).map (change.function, ·)).toList behind ∧
      change.function ∉ before.map Prod.fst ∧ change.function ∉ behind.map Prod.fst ∧
      (powers.get? change.function = none → behind = []) := by
  obtain ⟨before, behind, hentries, herase, haccumulate, hbefore, hbehind, hlast⟩ :=
    h.exists_split hf
  refine ⟨before, behind, hentries, ?_, hbefore, hbehind, hlast⟩
  cases change with
  | accumulate function exponent =>
    refine (haccumulate exponent).trans ?_
    rw [Change.place, Change.result, kept_eq, single_eq_toList]
  | set function exponent =>
    refine (entries_set powers function exponent).trans ?_
    rw [Change.place, Change.result, kept_eq, single_eq_toList, ← herase]
    rfl
  | erase function => exact herase.trans (by rw [Change.place, Change.result]; simp)

/-- Up to order, a change puts the new entry in the place of the old one. -/
theorem Keyed.exists_perm (h : powers.Keyed v) (hf : change.function.toExpr.Over v) :
    ∃ before behind,
      powers.entries =
        before ++ ((powers.get? change.function).map (change.function, ·)).toList ++ behind ∧
      (change.apply powers).entries.Perm (before ++
        ((change.result (powers.get? change.function)).map (change.function, ·)).toList ++
          behind) ∧
      change.function ∉ before.map Prod.fst ∧ change.function ∉ behind.map Prod.fst := by
  obtain ⟨before, behind, hentries, hchanged, hbefore, hbehind, -⟩ := h.exists_place hf
  exact ⟨before, behind, hentries, hchanged ▸ place_perm change _ _ _, hbefore, hbehind⟩

/-- A change repeats no function. -/
theorem Keyed.apply (h : powers.Keyed v) (hf : change.function.toExpr.Over v) :
    (change.apply powers).Keyed v := by
  obtain ⟨before, behind, hentries, hperm, hbefore, hbehind⟩ := h.exists_perm hf
  refine ⟨fun entry hentry => ?_, ?_⟩
  · by_cases hne : entry.1 = change.function
    · exact hne ▸ hf
    · refine h.entries entry ?_
      rw [hentries, mem_append_map_iff_of_ne hne, ← mem_append_map_iff_of_ne hne]
      exact hperm.mem_iff.mp hentry
  · have hdistinct := h.distinct
    rw [hentries, nodup_append_map_iff hbefore hbehind] at hdistinct
    exact (hperm.map Prod.fst).nodup_iff.mpr
      ((nodup_append_map_iff hbefore hbehind).mpr hdistinct)

/-- After a change, looking up finds what the changed map would have. -/
theorem Keyed.get?_apply (h : powers.Keyed v) (hf : change.function.toExpr.Over v)
    {function : FunctionKey (Exact rules)} (hfunction : function.toExpr.Over v) :
    (change.apply powers).get? function = change.update powers.get? function := by
  obtain ⟨before, behind, hentries, hperm, hbefore, hbehind⟩ := h.exists_perm hf
  refine Option.ext fun exponent => ?_
  rw [(h.apply hf).get?_eq_some_iff hfunction, hperm.mem_iff, Change.update]
  by_cases hne : function = change.function
  · rw [hne, Function.update_self, eq_some_iff_mem hbefore hbehind]
  · rw [Function.update_of_ne hne, h.get?_eq_some_iff hfunction, hentries,
      mem_append_map_iff_of_ne hne, mem_append_map_iff_of_ne hne]

/-- A change concerns one place among the functions of a table. -/
theorem Keyed.exists_keys (h : powers.Keyed v) (hf : change.function.toExpr.Over v) :
    ∃ before behind,
      powers.keys =
        before ++ ((powers.get? change.function).map fun _ => change.function).toList ++ behind ∧
      (change.apply powers).keys = change.place before
        ((change.result (powers.get? change.function)).map fun _ =>
          change.function).toList behind ∧
      change.function ∉ before ∧ change.function ∉ behind ∧
      (powers.get? change.function = none → behind = []) := by
  obtain ⟨before, behind, hentries, hchanged, hbefore, hbehind, hlast⟩ := h.exists_place hf
  have hkeys (value : Option (Exact rules)) :
      (value.map (change.function, ·)).toList.map Prod.fst =
        (value.map fun _ => change.function).toList := by
    cases value <;> rfl
  refine ⟨before.map Prod.fst, behind.map Prod.fst, ?_, ?_, hbefore, hbehind, fun hnone => ?_⟩
  · rw [keys, hentries, List.map_append, List.map_append, hkeys]
  · rw [keys, hchanged, map_place, hkeys]
  · rw [hlast hnone, List.map_nil]

/-- The other functions keep their order where the changed one is not in the table afterwards. -/
theorem Keyed.keys_apply_of_notMem (h : powers.Keyed v) (hf : change.function.toExpr.Over v)
    (hgone : change.function ∉ (change.apply powers).keys) :
    (change.apply powers).keys = powers.keys.erase change.function := by
  obtain ⟨before, behind, hold, hnew, hbefore, hbehind, -⟩ := h.exists_keys hf
  rw [hold, erase_append_map hbefore hbehind]
  cases hresult : change.result (powers.get? change.function) with
  | none =>
    rw [hnew, hresult]
    cases change <;> simp [Change.place]
  | some exponent =>
    rw [hnew, hresult] at hgone
    exact absurd ((place_perm change before _ behind).mem_iff.mpr (by simp)) hgone

/-- A function that is in the table after its change stands in its one place. -/
theorem Keyed.keys_apply_of_mem (h : powers.Keyed v) (change : Change rules)
    (hf : change.function.toExpr.Over v) (hstays : change.function ∈ (change.apply powers).keys) :
    ∃ before behind,
      powers.keys =
        before ++ ((powers.get? change.function).map fun _ => change.function).toList ++ behind ∧
      (change.apply powers).keys = change.place before [change.function] behind ∧
      change.function ∉ before ∧ change.function ∉ behind ∧
      (powers.get? change.function = none → behind = []) := by
  obtain ⟨before, behind, hold, hnew, hbefore, hbehind, hlast⟩ := h.exists_keys hf
  refine ⟨before, behind, hold, ?_, hbefore, hbehind, hlast⟩
  cases hresult : change.result (powers.get? change.function) with
  | none =>
    rw [hnew, hresult, (place_perm change before _ behind).mem_iff] at hstays
    simp [hbefore, hbehind] at hstays
  | some exponent =>
    rw [hnew, hresult]
    rfl

/-- Where an exponent is added, a function of the table keeps its place and a new one gets the last
place. -/
theorem Keyed.keys_accumulate (h : powers.Keyed v) {function : FunctionKey (Exact rules)}
    (hf : function.toExpr.Over v) {exponent : Exact rules}
    (hstays : function ∈ (powers.accumulate function exponent).keys) :
    (powers.accumulate function exponent).keys =
      if function ∈ powers.keys then powers.keys else powers.keys ++ [function] := by
  obtain ⟨before, behind, hold, hnew, hbefore, hbehind, hlast⟩ :=
    h.keys_apply_of_mem (.accumulate function exponent) hf hstays
  replace hnew : (powers.accumulate function exponent).keys = before ++ [function] ++ behind :=
    hnew
  simp only [Change.function] at hold hbefore hlast
  cases hget : powers.get? function with
  | none =>
    obtain rfl := hlast hget
    rw [hget, Option.map_none, Option.toList_none, List.append_nil, List.append_nil] at hold
    rw [hnew, hold, if_neg hbefore, List.append_nil]
  | some found =>
    rw [hget, Option.map_some, Option.toList_some] at hold
    have hmem : function ∈ powers.keys := by
      rw [hold]
      simp
    rw [hnew, ← hold, if_pos hmem]

/-- Where an exponent is replaced, the function gets the last place. -/
theorem Keyed.keys_set (h : powers.Keyed v) {function : FunctionKey (Exact rules)}
    (hf : function.toExpr.Over v) {exponent : Exact rules}
    (hstays : function ∈ (powers.set function exponent).keys) :
    (powers.set function exponent).keys = powers.keys.erase function ++ [function] := by
  obtain ⟨before, behind, hold, hnew, hbefore, hbehind, -⟩ :=
    h.keys_apply_of_mem (.set function exponent) hf hstays
  have hothers : powers.keys.erase function = before ++ behind := by
    rw [hold]
    exact erase_append_map hbefore hbehind
  rw [hothers]
  exact hnew

end Step

section Run

/-- A table holds the values of a map, and none of these is zero or below the margin. -/
structure Holds (v : Vocabulary rules) (values : FunctionKey (Exact rules) → Option (Exact rules))
    (powers : FunctionPowers (Exact rules)) : Prop extends powers.Keyed v where
  /-- Looking up a function finds its value. -/
  get?_eq : ∀ function, function.toExpr.Over v → powers.get? function = values function
  /-- Only functions over the numbers of the vocabulary have values. -/
  toExpr_over : ∀ function value, values function = some value → function.toExpr.Over v
  /-- No value is zero or below the margin. -/
  large : ∀ function value, values function = some value → value ≠ 0 ∧ Exact.margin ≤ |value|

variable {values values' : FunctionKey (Exact rules) → Option (Exact rules)}

/-- The empty table holds the empty map. -/
theorem holds_empty : Holds v (fun _ => none) empty where
  entries _ hentry := absurd hentry List.not_mem_nil
  distinct := List.nodup_nil
  get?_eq _ _ := rfl
  toExpr_over _ _ hnone := by cases hnone
  large _ _ hnone := by cases hnone

/-- A changed table holds the changed map. -/
theorem Holds.apply (h : Holds v values powers) {change : Change rules}
    (hf : change.function.toExpr.Over v) :
    Holds v (change.update values) (change.apply powers) where
  toKeyed := h.toKeyed.apply hf
  get?_eq function hfunction := by
    rw [h.toKeyed.get?_apply hf hfunction, Change.update, Change.update, h.get?_eq _ hf]
    by_cases hne : function = change.function
    · rw [hne, Function.update_self, Function.update_self]
    · rw [Function.update_of_ne hne, Function.update_of_ne hne, h.get?_eq _ hfunction]
  toExpr_over function value hvalue := by
    by_cases hne : function = change.function
    · exact hne ▸ hf
    · rw [Change.update, Function.update_of_ne hne] at hvalue
      exact h.toExpr_over function value hvalue
  large function value hvalue := by
    by_cases hne : function = change.function
    · rw [Change.update, hne, Function.update_self] at hvalue
      exact Change.large_of_result hvalue
    · rw [Change.update, Function.update_of_ne hne] at hvalue
      exact h.large function value hvalue

/-- Along a history, the table holds the map. -/
theorem Holds.foldl (h : Holds v values powers) {changes : List (Change rules)}
    (hchanges : ∀ change ∈ changes, change.function.toExpr.Over v) :
    Holds v (changes.foldl (fun values change => change.update values) values)
      (changes.foldl (fun powers change => change.apply powers) powers) := by
  induction changes generalizing values powers with
  | nil => exact h
  | cons change rest ih =>
    obtain ⟨hchange, hrest⟩ := List.forall_mem_cons.mp hchanges
    exact ih (h.apply hchange) hrest

/-- After a history, the table holds the map. -/
theorem holds_after {changes : List (Change rules)}
    (h : ∀ change ∈ changes, change.function.toExpr.Over v) :
    Holds v (valuesAfter changes) (after changes) := holds_empty.foldl h

/-- The entries of a table are the values of its map. -/
theorem Holds.mem_entries_iff (h : Holds v values powers) {function : FunctionKey (Exact rules)}
    {exponent : Exact rules} :
    (function, exponent) ∈ powers.entries ↔ values function = some exponent := by
  constructor
  · intro hentry
    have hover := h.entries _ hentry
    rw [← h.get?_eq function hover]
    exact (h.get?_eq_some_iff hover).mpr hentry
  · intro hvalue
    have hover := h.toExpr_over function exponent hvalue
    rw [← h.get?_eq function hover] at hvalue
    exact (h.get?_eq_some_iff hover).mp hvalue

/-- The functions of a table are those with a value. -/
theorem Holds.mem_keys_iff (h : Holds v values powers) {function : FunctionKey (Exact rules)} :
    function ∈ powers.keys ↔ ∃ exponent, values function = some exponent := by
  rw [keys, List.mem_map]
  constructor
  · rintro ⟨entry, hentry, rfl⟩
    exact ⟨entry.2, h.mem_entries_iff.mp hentry⟩
  · rintro ⟨exponent, hvalue⟩
    exact ⟨_, h.mem_entries_iff.mpr hvalue, rfl⟩

end Run

section Comparison

variable {values values' : FunctionKey (Exact rules) → Option (Exact rules)}

/-- Where every function of one table is in another one, the sizes tell whether the other one has
more functions, because no function is repeated. -/
theorem Keyed.size_eq_iff (h : powers.Keyed v) (ho : other.Keyed v)
    (hsubset : powers.keys ⊆ other.keys) :
    powers.size = other.size ↔ other.keys ⊆ powers.keys := by
  have hlength (powers : FunctionPowers (Exact rules)) : powers.keys.length = powers.size :=
    List.length_map _
  have hsubperm := h.distinct.subperm hsubset
  rw [← hlength, ← hlength]
  constructor
  · intro hsize
    exact (hsubperm.perm_of_length_le hsize.ge).symm.subset
  · intro hback
    exact hsubperm.length_le.antisymm (ho.distinct.subperm hback).length_le

/-- The comparison looks up the entries of one table in the other one. -/
theorem Holds.same_iff_found (h : Holds v values powers) (ho : Holds v values' other) :
    powers.same other = true ↔ powers.size = other.size ∧ ∀ function exponent,
      values function = some exponent →
        ∃ exponent', values' function = some exponent' ∧ Scalar.near exponent exponent' = true := by
  rw [same, Bool.and_eq_true, beq_iff_eq, List.all_eq_true]
  refine and_congr_right fun _ =>
    ⟨fun hall function exponent hvalue => ?_, fun hall entry hentry => ?_⟩
  · have hfound := hall _ (h.mem_entries_iff.mpr hvalue)
    rw [ho.get?_eq function (h.toExpr_over function exponent hvalue)] at hfound
    split at hfound
    · next exponent' hget =>
      rw [Exact.apart_eq, Bool.not_not, Exact.near_comm] at hfound
      exact ⟨exponent', hget, hfound⟩
    · cases hfound
  · obtain ⟨exponent', hvalue, hnear⟩ := hall entry.1 entry.2 (h.mem_entries_iff.mp hentry)
    rw [Exact.near_comm] at hnear
    rw [ho.get?_eq entry.1 (h.entries entry hentry), hvalue]
    simp [hnear]

/-- Optional values are related when the first one, if there is one, has a related second one, and
there is no second one without a first one. -/
theorem rel_iff_exists {α : Type} {R : α → α → Prop} {first second : Option α} :
    Option.Rel R first second ↔
      (∀ value, first = some value → ∃ value', second = some value' ∧ R value value') ∧
        ((∃ value', second = some value') → ∃ value, first = some value) := by
  constructor
  · rintro (hR | _)
    · exact ⟨fun value hvalue => ⟨_, rfl, Option.some_inj.mp hvalue ▸ hR⟩, fun _ => ⟨_, rfl⟩⟩
    · exact ⟨fun _ hnone => absurd hnone (by simp), fun ⟨_, hnone⟩ => absurd hnone (by simp)⟩
  · rintro ⟨hfound, hback⟩
    cases first with
    | some value =>
      obtain ⟨value', rfl, hR⟩ := hfound value rfl
      exact .some hR
    | none =>
      cases second with
      | none => exact .none
      | some value' =>
        obtain ⟨value, hnone⟩ := hback ⟨value', rfl⟩
        cases hnone

/-- Tables count as the same when their maps have values for the same functions and these are near
each other. -/
theorem Holds.same_iff (h : Holds v values powers) (ho : Holds v values' other) :
    powers.same other = true ↔ ∀ function,
      Option.Rel (fun first second => Scalar.near first second = true) (values function)
        (values' function) := by
  have hsubset (hfound : ∀ function exponent, values function = some exponent →
      ∃ exponent', values' function = some exponent' ∧ Scalar.near exponent exponent' = true) :
      powers.keys ⊆ other.keys := by
    intro function hfunction
    obtain ⟨exponent, hvalue⟩ := h.mem_keys_iff.mp hfunction
    obtain ⟨exponent', hvalue', -⟩ := hfound function exponent hvalue
    exact ho.mem_keys_iff.mpr ⟨exponent', hvalue'⟩
  rw [h.same_iff_found ho]
  constructor
  · rintro ⟨hsize, hfound⟩ function
    -- only the entries of one table were looked up, and the sizes account for the other one
    have hback := (h.toKeyed.size_eq_iff ho.toKeyed (hsubset hfound)).mp hsize
    refine rel_iff_exists.mpr ⟨hfound function, fun hvalue' => ?_⟩
    exact h.mem_keys_iff.mp (hback (ho.mem_keys_iff.mpr hvalue'))
  · intro hrel
    have hfound function := (rel_iff_exists.mp (hrel function)).1
    refine ⟨(h.toKeyed.size_eq_iff ho.toKeyed (hsubset hfound)).mpr fun function hfunction => ?_,
      hfound⟩
    exact h.mem_keys_iff.mpr ((rel_iff_exists.mp (hrel function)).2 (ho.mem_keys_iff.mp hfunction))

/-- It does not matter on which side a value is near another one. -/
theorem rel_near_comm {first second : Option (Exact rules)} :
    Option.Rel (fun first second => Scalar.near first second = true) first second ↔
      Option.Rel (fun first second => Scalar.near first second = true) second first := by
  have flip {first second : Option (Exact rules)}
      (h : Option.Rel (fun first second => Scalar.near first second = true) first second) :
      Option.Rel (fun first second => Scalar.near first second = true) second first := by
    cases h with
    | some hnear => exact .some ((Exact.near_comm _ _).trans hnear)
    | none => exact .none
  exact ⟨flip, flip⟩

end Comparison

/-- After changes of functions whose arguments have no numbers but integers, a table is the finite
map that the changes give. Its functions are different and no exponent is zero or below the margin.
Looking up finds the values of the map. A function that stays keeps its place where an exponent is
added and gets the last place where one is replaced, and the others keep their order where a
function goes. Two tables count as the same, each compared with the other, exactly when their maps
have values for the same functions, equal or closer than the margin. -/
theorem after_finiteMap {changes others : List (Change rules)}
    (h : ∀ change ∈ changes, change.function.IsIntegral)
    (ho : ∀ change ∈ others, change.function.IsIntegral) :
    ((after changes).entries.Pairwise fun first second => first.1.same second.1 = false) ∧
    (∀ entry ∈ (after changes).entries, entry.2 ≠ 0 ∧ Exact.margin ≤ |entry.2|) ∧
    (∀ function, function.IsIntegral →
      (after changes).contains function = (valuesAfter changes function).isSome ∧
      ∀ fallback,
        (after changes).get function fallback = (valuesAfter changes function).getD fallback) ∧
    (∀ function exponent, function.IsIntegral →
      (function ∈ ((after changes).accumulate function exponent).keys →
        ((after changes).accumulate function exponent).keys =
          if function ∈ (after changes).keys then (after changes).keys
          else (after changes).keys ++ [function]) ∧
      (function ∈ ((after changes).set function exponent).keys →
        ((after changes).set function exponent).keys =
          (after changes).keys.erase function ++ [function])) ∧
    (∀ change : Change rules, change.function.IsIntegral →
      change.function ∉ (change.apply (after changes)).keys →
        (change.apply (after changes)).keys = (after changes).keys.erase change.function) ∧
    ((after changes).same (after others) = true ↔
      ∀ function, Option.Rel
        (fun first second => first = second ∨ |first - second| < Exact.margin)
        (valuesAfter changes function) (valuesAfter others function)) ∧
    ((after others).same (after changes) = true ↔
      ∀ function, Option.Rel
        (fun first second => first = second ∨ |first - second| < Exact.margin)
        (valuesAfter changes function) (valuesAfter others function)) := by
  have hholds := holds_after h
  have hothers := holds_after ho
  simp only [← Exact.near_iff]
  refine ⟨hholds.same_eq_false, fun entry hentry => ?_, fun function hf => ?_,
    fun function exponent hf => ⟨hholds.keys_accumulate hf, hholds.keys_set hf⟩,
    fun change hf => hholds.keys_apply_of_notMem hf, hholds.same_iff hothers, ?_⟩
  · exact hholds.large _ _ (hholds.mem_entries_iff.mp hentry)
  · rw [contains, hholds.get?_eq function hf]
    exact ⟨rfl, fun fallback => by rw [get, hholds.get?_eq function hf]⟩
  · rw [hothers.same_iff hholds]
    exact forall_congr' fun _ => rel_near_comm

/-- The function `sin(x)`. -/
def sine : FunctionKey (Exact .standard) := ⟨"sin", .var "x"⟩

/-- The function `cos(2*x)`. -/
def doubledCosine : FunctionKey (Exact .standard) := ⟨"cos", .mul (.int 2) (.var "x")⟩

/-- A history in which `sin(x)` moves behind `cos(2*x)` and `cos(x)` goes again. -/
def movingSine : List (Change .standard) :=
  [.accumulate sine 1, .set doubledCosine (Scalar.ofInt 2), .accumulate ⟨"cos", .var "x"⟩ 1,
    .accumulate ⟨"cos", .var "x"⟩ (1 / Scalar.ofInt (10 ^ 11) - 1),
    .set sine (1 / Scalar.ofInt 2)]

/-- Another history that ends with exponents near those of the first one. -/
def directSine : List (Change .standard) :=
  [.set sine (1 / Scalar.ofInt 2 + 1 / Scalar.ofInt (10 ^ 11)), .set doubledCosine 1,
    .accumulate doubledCosine 1, .erase ⟨"cos", .var "x"⟩]

theorem after_finiteMap_movingSine :
    ((∀ change ∈ movingSine, change.function.IsIntegral) ∧
      ∀ change ∈ directSine, change.function.IsIntegral) ∧
    (after movingSine).get sine 0 = 1 / 2 ∧
    ((after movingSine).keys = [doubledCosine, sine] ∧
      ((after movingSine).accumulate doubledCosine 1).keys = [doubledCosine, sine] ∧
      ((after movingSine).set doubledCosine 1).keys = [sine, doubledCosine]) ∧
    (after movingSine).same (after directSine) = true ∧
    (after directSine).same (after movingSine) = true := by
  have hsine : sine.IsIntegral := trivial
  have hcosine : doubledCosine.IsIntegral := ⟨⟨2, rfl⟩, trivial⟩
  have hmoving : ∀ change ∈ movingSine, change.function.IsIntegral := by
    simp only [movingSine, List.forall_mem_cons]
    exact ⟨hsine, hcosine, trivial, trivial, hsine, List.forall_mem_nil _⟩
  have hdirect : ∀ change ∈ directSine, change.function.IsIntegral := by
    simp only [directSine, List.forall_mem_cons]
    exact ⟨hsine, hcosine, hcosine, trivial, List.forall_mem_nil _⟩
  obtain ⟨-, -, hget, horder, -, hsame, hback⟩ := after_finiteMap hmoving hdirect
  obtain ⟨haccumulate, hset⟩ := horder doubledCosine 1 hcosine
  have hkeys : (after movingSine).keys = [doubledCosine, sine] := by decide +kernel
  have hequal : (after movingSine).same (after directSine) = true := by decide +kernel
  refine ⟨⟨hmoving, hdirect⟩, ?_, ⟨hkeys, ?_, ?_⟩, hequal, hback.mpr (hsame.mp hequal)⟩
  · exact ((hget sine hsine).2 0).trans (by decide +kernel)
  · exact (haccumulate (by decide +kernel)).trans (by decide +kernel)
  · exact (hset (by decide +kernel)).trans (by decide +kernel)

end FunctionPowers

end SymbolicForms
