import Mathlib.Algebra.Group.Finsupp
import Mathlib.Tactic.Abel
import SymbolicForms.Proofs.ReducedTerms

/-!
# Exponents as functions

A table of exponents is a function from keys to exponents that is zero but for
finitely many keys. Over the numbers of a vocabulary, merging tables adds these
functions and removing subtracts them, whatever order the keys come in and
whichever of them vanish on the way. Tables with the same function have the same
entries, and those of variables are equal.
-/

namespace SymbolicForms

variable {rules : Exactness}

/-- The exponents in a table. -/
noncomputable def exponentSum {β : Type*} (entries : List (β × Exact rules)) : β →₀ Exact rules :=
  (entries.map fun entry => Finsupp.single entry.1 entry.2).sum

/-- A table with an exponent added has the exponent added. -/
theorem AddsTo.exponentSum_eq {β : Type*} {key : β} {found : Option (Exact rules)}
    {exponent : Exact rules} {old new : List (β × Exact rules)}
    (h : AddsTo key found exponent old new)
    (hvanishes : Scalar.vanishes (found.getD 0 + exponent) = true → found.getD 0 + exponent = 0) :
    exponentSum new = exponentSum old + Finsupp.single key exponent := by
  obtain ⟨before, after, rfl, rfl, -, -⟩ := h
  have hfound : ((found.map (key, ·)).toList.map fun entry =>
      Finsupp.single entry.1 entry.2).sum = Finsupp.single key (found.getD 0) := by
    cases found <;> simp
  have htotal : ((if Scalar.vanishes (found.getD 0 + exponent) then []
      else [(key, found.getD 0 + exponent)]).map fun entry =>
        Finsupp.single entry.1 entry.2).sum = Finsupp.single key (found.getD 0 + exponent) := by
    split
    · next hv => simp [hvanishes hv]
    · exact List.sum_singleton
  simp only [exponentSum, List.map_append, List.sum_append, hfound, htotal, Finsupp.single_add]
  abel

/-- The order of a table does not show in its exponents. -/
theorem exponentSum_eq_of_perm {β : Type*} {entries other : List (β × Exact rules)}
    (h : entries.Perm other) : exponentSum entries = exponentSum other :=
  (h.map _).sum_eq

/-- Opposite exponents have the opposite sum. -/
theorem exponentSum_neg {β : Type*} (entries : List (β × Exact rules)) :
    exponentSum (entries.map fun entry => (entry.1, -entry.2)) = -exponentSum entries := by
  rw [exponentSum, exponentSum, List.map_map, List.sum_neg, List.map_map]
  exact congrArg List.sum (List.map_congr_left fun entry _ => Finsupp.single_neg _ _)

/-- A key that a table does not have has no exponent in it. -/
theorem exponentSum_eq_zero {β : Type*} {key : β} {entries : List (β × Exact rules)}
    (h : key ∉ entries.map Prod.fst) : exponentSum entries key = 0 := by
  induction entries with
  | nil => rfl
  | cons first rest ih =>
    rw [List.map_cons, List.mem_cons, not_or] at h
    rw [exponentSum, List.map_cons, List.sum_cons, Finsupp.add_apply, Finsupp.single_eq_of_ne h.1,
      zero_add]
    exact ih h.2

/-- A key that a table has once has the exponent of its entry. -/
theorem exponentSum_of_mem {β : Type*} {entries : List (β × Exact rules)}
    (h : (entries.map Prod.fst).Nodup) {entry : β × Exact rules} (he : entry ∈ entries) :
    exponentSum entries entry.1 = entry.2 := by
  induction entries with
  | nil => cases he
  | cons first rest ih =>
    obtain ⟨hfirst, hrest⟩ := List.nodup_cons.mp h
    rw [exponentSum, List.map_cons, List.sum_cons, Finsupp.add_apply]
    obtain rfl | he := List.mem_cons.mp he
    · have hnone : (rest.map fun entry => Finsupp.single entry.1 entry.2).sum entry.1 = 0 :=
        exponentSum_eq_zero hfirst
      rw [Finsupp.single_eq_same, hnone, add_zero]
    · have hne : entry.1 ≠ first.1 := fun heq => hfirst (heq ▸ List.mem_map_of_mem he)
      rw [Finsupp.single_eq_of_ne hne, zero_add]
      exact ih hrest he

/-- A table has no key twice and no exponent that is zero. -/
structure IsTable {β : Type*} (entries : List (β × Exact rules)) : Prop where
  /-- No key is repeated. -/
  nodup : (entries.map Prod.fst).Nodup
  /-- No exponent is zero. -/
  ne_zero : ∀ entry ∈ entries, entry.2 ≠ 0

/-- The keys of a table are those whose exponent is not zero. -/
theorem IsTable.mem_keys_iff {β : Type*} {entries : List (β × Exact rules)} (h : IsTable entries)
    {key : β} : key ∈ entries.map Prod.fst ↔ exponentSum entries key ≠ 0 := by
  constructor
  · intro hkey
    obtain ⟨entry, hentry, rfl⟩ := List.mem_map.mp hkey
    rw [exponentSum_of_mem h.nodup hentry]
    exact h.ne_zero entry hentry
  · exact fun hne => by_contra fun hkey => hne (exponentSum_eq_zero hkey)

/-- The entries of a table are its exponents that are not zero. -/
theorem IsTable.mem_iff {β : Type*} {entries : List (β × Exact rules)} (h : IsTable entries)
    {entry : β × Exact rules} :
    entry ∈ entries ↔ entry.2 ≠ 0 ∧ exponentSum entries entry.1 = entry.2 := by
  refine ⟨fun hentry => ⟨h.ne_zero entry hentry, exponentSum_of_mem h.nodup hentry⟩, ?_⟩
  rintro ⟨hne, hexponent⟩
  obtain ⟨found, hfound, hsame⟩ := List.mem_map.mp (h.mem_keys_iff.mpr (hexponent ▸ hne))
  have hvalue : found.2 = entry.2 := by
    rw [← exponentSum_of_mem h.nodup hfound, hsame, hexponent]
  rwa [← Prod.ext hsame hvalue]

/-- Tables with the same exponents have the same entries. -/
theorem IsTable.perm_of_exponentSum_eq {β : Type*} {entries other : List (β × Exact rules)}
    (h : IsTable entries) (ho : IsTable other) (heq : exponentSum entries = exponentSum other) :
    entries.Perm other := by
  refine (List.perm_ext_iff_of_nodup (List.Nodup.of_map _ h.nodup)
    (List.Nodup.of_map _ ho.nodup)).mpr fun entry => ?_
  rw [h.mem_iff, ho.mem_iff, heq]

/-- A table is as long as a list with the same exponents exactly where the list is a table too:
repeated keys and exponents that are zero make the list longer. -/
theorem IsTable.length_eq_iff {β : Type*} {table entries : List (β × Exact rules)}
    (h : IsTable table) (hsum : exponentSum table = exponentSum entries) :
    table.length = entries.length ↔ IsTable entries := by
  constructor
  · intro hlength
    have hsubset : table.map Prod.fst ⊆ entries.map Prod.fst := fun key hkey => by
      by_contra hnone
      exact h.mem_keys_iff.mp hkey (hsum ▸ exponentSum_eq_zero hnone)
    have hkeys : (table.map Prod.fst).Perm (entries.map Prod.fst) :=
      (h.nodup.subperm hsubset).perm_of_length_le (by simp [hlength])
    have hnodup := hkeys.nodup_iff.mp h.nodup
    refine ⟨hnodup, fun entry hentry => ?_⟩
    rw [← exponentSum_of_mem hnodup hentry, ← hsum]
    exact h.mem_keys_iff.mp (hkeys.mem_iff.mpr (List.mem_map_of_mem hentry))
  · exact fun he => (h.perm_of_exponentSum_eq he hsum).length_eq

/-- Where each step adds its entry to the exponents of a table, all steps together add the exponents
of their entries. -/
theorem foldl_exponentSum {T β : Type*} {step : T → β × Exact rules → T} (valid : T → Prop)
    {exponents : T → β →₀ Exact rules} (added : β × Exact rules → Prop)
    (hstep : ∀ table entry, valid table → added entry → valid (step table entry) ∧
      exponents (step table entry) = exponents table + Finsupp.single entry.1 entry.2)
    {table : T} (h : valid table) {entries : List (β × Exact rules)}
    (he : ∀ entry ∈ entries, added entry) :
    valid (entries.foldl step table) ∧
      exponents (entries.foldl step table) = exponents table + exponentSum entries := by
  induction entries generalizing table with
  | nil => exact ⟨h, (add_zero _).symm⟩
  | cons entry rest ih =>
    obtain ⟨hentry, hrest⟩ := List.forall_mem_cons.mp he
    obtain ⟨hnext, hexponents⟩ := hstep table entry h hentry
    obtain ⟨hlast, htotal⟩ := ih hnext hrest
    refine ⟨hlast, htotal.trans ?_⟩
    rw [hexponents, add_assoc]
    rfl

namespace VariablePowers

variable {v : Vocabulary rules}

/-- The exponents of the variables. -/
noncomputable def exponentMap (powers : VariablePowers (Exact rules)) : String →₀ Exact rules :=
  exponentSum powers.entries

/-- Accumulating numbers of a vocabulary adds them to the exponents. -/
theorem Over.foldl_accumulate {powers : VariablePowers (Exact rules)} (h : powers.Over v)
    {entries : List (String × Exact rules)} (he : ∀ entry ∈ entries, entry.2 ∈ v.numbers) :
    let total := entries.foldl (fun powers entry => powers.accumulate entry.1 entry.2) powers
    total.Over v ∧ total.exponentMap = powers.exponentMap + exponentSum entries :=
  foldl_exponentSum (Over v) (fun entry => entry.2 ∈ v.numbers) (fun powers entry hpowers hentry =>
    ⟨hpowers.accumulate entry.1 hentry, (powers.addsTo_accumulate entry.1 entry.2).exponentSum_eq
      (v.vanishes_iff (v.numbers.add_mem (hpowers.get_mem entry.1) hentry)).mp⟩) h he

/-- Subtraction accumulates the opposite exponents. -/
theorem remove_eq_foldl (powers other : VariablePowers (Exact rules)) :
    powers.remove other = (other.entries.map fun entry => (entry.1, -entry.2)).foldl
      (fun powers entry => powers.accumulate entry.1 entry.2) powers := by
  rw [List.foldl_map]
  rfl

/-- The opposite exponents are numbers of the vocabulary. -/
theorem Over.neg_mem {powers : VariablePowers (Exact rules)} (h : powers.Over v) :
    ∀ entry ∈ powers.entries.map fun entry => (entry.1, -entry.2), entry.2 ∈ v.numbers :=
  List.forall_mem_map.mpr fun entry hentry => v.numbers.neg_mem (h entry hentry).1

/-- Merging keeps exponents in a vocabulary. -/
theorem Over.merge {powers other : VariablePowers (Exact rules)} (h : powers.Over v)
    (ho : other.Over v) : (powers.merge other).Over v :=
  (h.foldl_accumulate fun entry hentry => (ho entry hentry).1).1

/-- Subtraction keeps exponents in a vocabulary. -/
theorem Over.remove {powers other : VariablePowers (Exact rules)} (h : powers.Over v)
    (ho : other.Over v) : (powers.remove other).Over v := by
  rw [remove_eq_foldl]
  exact (h.foldl_accumulate ho.neg_mem).1

/-- Merging adds the exponents. -/
theorem Over.exponentMap_merge {powers other : VariablePowers (Exact rules)} (h : powers.Over v)
    (ho : other.Over v) :
    (powers.merge other).exponentMap = powers.exponentMap + other.exponentMap :=
  (h.foldl_accumulate fun entry hentry => (ho entry hentry).1).2

/-- Removing subtracts the exponents. -/
theorem Over.exponentMap_remove {powers other : VariablePowers (Exact rules)} (h : powers.Over v)
    (ho : other.Over v) :
    (powers.remove other).exponentMap = powers.exponentMap - other.exponentMap := by
  rw [remove_eq_foldl, (h.foldl_accumulate ho.neg_mem).2, exponentSum_neg, ← sub_eq_add_neg]
  rfl

/-- The variables are no two the same, and no exponent is zero. -/
theorem Over.isTable {powers : VariablePowers (Exact rules)} (h : powers.Over v) :
    IsTable powers.entries :=
  ⟨powers.nodup_names, fun entry hentry => (h entry hentry).2⟩

/-- A table is known by its exponents. -/
theorem Over.eq_of_exponentMap_eq {powers other : VariablePowers (Exact rules)}
    (h : powers.Over v) (ho : other.Over v) (heq : powers.exponentMap = other.exponentMap) :
    powers = other := by
  refine eq_of_entries_eq ((h.isTable.perm_of_exponentSum_eq ho.isTable heq).eq_of_pairwise
    (fun first second _ _ hlt hgt => ?_) powers.ordered other.ordered)
  exact absurd hlt (String.lt_asymm hgt)

end VariablePowers

namespace FunctionPowers

variable {v : Vocabulary rules}

/-- The exponents of the functions. -/
noncomputable def exponentMap (powers : FunctionPowers (Exact rules)) :
    FunctionKey (Exact rules) →₀ Exact rules :=
  exponentSum powers.entries

/-- Accumulating numbers of a vocabulary adds them to the exponents. -/
theorem Over.foldl_accumulate {powers : FunctionPowers (Exact rules)} (h : powers.Over v)
    {entries : List (FunctionKey (Exact rules) × Exact rules)}
    (he : ∀ entry ∈ entries, entry.1.toExpr.Over v ∧ entry.2 ∈ v.numbers) :
    let total := entries.foldl (fun powers entry => powers.accumulate entry.1 entry.2) powers
    total.Over v ∧ total.exponentMap = powers.exponentMap + exponentSum entries :=
  foldl_exponentSum (Over v) (fun entry => entry.1.toExpr.Over v ∧ entry.2 ∈ v.numbers)
    (fun _ entry hpowers hentry =>
      ⟨hpowers.accumulate hentry.1 hentry.2,
        (hpowers.addsTo_accumulate hentry.1 entry.2).exponentSum_eq
          (v.vanishes_iff (v.numbers.add_mem (hpowers.get_mem hentry.1) hentry.2)).mp⟩) h he

/-- Exponents that are accumulated from nothing are a table of their sums. -/
theorem over_foldl_accumulate_empty {entries : List (FunctionKey (Exact rules) × Exact rules)}
    (he : ∀ entry ∈ entries, entry.1.toExpr.Over v ∧ entry.2 ∈ v.numbers) :
    let total := entries.foldl (fun powers entry => powers.accumulate entry.1 entry.2) empty
    total.Over v ∧ total.exponentMap = exponentSum entries := by
  obtain ⟨hover, hsum⟩ := over_empty.foldl_accumulate he
  exact ⟨hover, hsum.trans (zero_add _)⟩

/-- Subtraction accumulates the opposite exponents. -/
theorem remove_eq_foldl (powers other : FunctionPowers (Exact rules)) :
    powers.remove other = (other.entries.map fun entry => (entry.1, -entry.2)).foldl
      (fun powers entry => powers.accumulate entry.1 entry.2) powers := by
  rw [List.foldl_map]
  rfl

/-- The entries are over the numbers of the vocabulary. -/
theorem Over.entries_mem {powers : FunctionPowers (Exact rules)} (h : powers.Over v) :
    ∀ entry ∈ powers.entries, entry.1.toExpr.Over v ∧ entry.2 ∈ v.numbers :=
  fun entry hentry => ⟨(h.entries entry hentry).1, (h.entries entry hentry).2.1⟩

/-- The opposite exponents are numbers of the vocabulary. -/
theorem Over.neg_mem {powers : FunctionPowers (Exact rules)} (h : powers.Over v) :
    ∀ entry ∈ powers.entries.map fun entry => (entry.1, -entry.2),
      entry.1.toExpr.Over v ∧ entry.2 ∈ v.numbers :=
  List.forall_mem_map.mpr fun entry hentry =>
    ⟨(h.entries entry hentry).1, v.numbers.neg_mem (h.entries entry hentry).2.1⟩

/-- Merging keeps functions and exponents in a vocabulary. -/
theorem Over.merge {powers other : FunctionPowers (Exact rules)} (h : powers.Over v)
    (ho : other.Over v) : (powers.merge other).Over v :=
  (h.foldl_accumulate ho.entries_mem).1

/-- Subtraction keeps functions and exponents in a vocabulary. -/
theorem Over.remove {powers other : FunctionPowers (Exact rules)} (h : powers.Over v)
    (ho : other.Over v) : (powers.remove other).Over v := by
  rw [remove_eq_foldl]
  exact (h.foldl_accumulate ho.neg_mem).1

/-- Merging adds the exponents. -/
theorem Over.exponentMap_merge {powers other : FunctionPowers (Exact rules)} (h : powers.Over v)
    (ho : other.Over v) :
    (powers.merge other).exponentMap = powers.exponentMap + other.exponentMap :=
  (h.foldl_accumulate ho.entries_mem).2

/-- Removing subtracts the exponents. -/
theorem Over.exponentMap_remove {powers other : FunctionPowers (Exact rules)} (h : powers.Over v)
    (ho : other.Over v) :
    (powers.remove other).exponentMap = powers.exponentMap - other.exponentMap := by
  rw [remove_eq_foldl, (h.foldl_accumulate ho.neg_mem).2, exponentSum_neg, ← sub_eq_add_neg]
  rfl

/-- The functions are no two the same, and no exponent is zero. -/
theorem Over.isTable {powers : FunctionPowers (Exact rules)} (h : powers.Over v) :
    IsTable powers.entries :=
  ⟨h.distinct, fun entry hentry => (h.entries entry hentry).2.2⟩

/-- Tables with the same exponents have the same entries up to order. -/
theorem Over.perm_of_exponentMap_eq {powers other : FunctionPowers (Exact rules)}
    (h : powers.Over v) (ho : other.Over v) (heq : powers.exponentMap = other.exponentMap) :
    powers.entries.Perm other.entries :=
  h.isTable.perm_of_exponentSum_eq ho.isTable heq

end FunctionPowers

end SymbolicForms
