import SymbolicForms.Proofs.Meaning
import SymbolicForms.Term

/-!
# Tables of exponents

Variables are kept in the order of their names and functions in the order of
insertion. Both tables add to an exponent in the same way: the entry of the key
is replaced by one with the total, or removed when the total vanishes, and all
other entries stay as they are. Hence the product of the powers in a table is
multiplied by the power that is added.
-/

namespace SymbolicForms

section AddsTo

variable {rules : Exactness} {β R : Type*}

/-- The second list is the first one with an exponent added to that of a key, which had the exponent
that was found. -/
def AddsTo (key : β) (found : Option (Exact rules)) (exponent : Exact rules)
    (old new : List (β × Exact rules)) : Prop :=
  ∃ before after, old = before ++ (found.map (key, ·)).toList ++ after ∧
    new = before ++ (if Scalar.vanishes (found.getD 0 + exponent) then []
      else [(key, found.getD 0 + exponent)]) ++ after ∧
    key ∉ before.map Prod.fst ∧ key ∉ after.map Prod.fst

/-- What is found at the only place of a key is its exponent. -/
theorem eq_some_iff_mem {key : β} {found : Option (Exact rules)} {exponent : Exact rules}
    {before after : List (β × Exact rules)} (hbefore : key ∉ before.map Prod.fst)
    (hafter : key ∉ after.map Prod.fst) :
    found = some exponent ↔ (key, exponent) ∈ before ++ (found.map (key, ·)).toList ++ after := by
  constructor
  · intro hfound
    simp [hfound]
  · intro hmem
    simp only [List.mem_append, Option.mem_toList, Option.map_eq_some_iff] at hmem
    obtain (hmem | ⟨value, hvalue, heq⟩) | hmem := hmem
    · exact absurd (List.mem_map_of_mem hmem) hbefore
    · rw [hvalue, (Prod.mk.inj heq).2]
    · exact absurd (List.mem_map_of_mem hmem) hafter

/-- The entries of other keys are those before and after. -/
theorem mem_append_map_iff_of_ne {key : β} {found : Option (Exact rules)}
    {before after : List (β × Exact rules)} {entry : β × Exact rules} (hne : entry.1 ≠ key) :
    entry ∈ before ++ (found.map (key, ·)).toList ++ after ↔ entry ∈ before ++ after := by
  have hother : entry ∉ (found.map (key, ·)).toList := by
    intro hmem
    obtain ⟨exponent, -, rfl⟩ := Option.map_eq_some_iff.mp (Option.mem_toList.mp hmem)
    exact hne rfl
  simp only [List.mem_append, hother, or_false]

/-- A key that is neither before nor after repeats no other one in between. -/
theorem nodup_append_map_iff {key : β} {found : Option (Exact rules)}
    {before after : List (β × Exact rules)} (hbefore : key ∉ before.map Prod.fst)
    (hafter : key ∉ after.map Prod.fst) :
    ((before ++ (found.map (key, ·)).toList ++ after).map Prod.fst).Nodup ↔
      ((before ++ after).map Prod.fst).Nodup := by
  cases found with
  | none => simp
  | some exponent =>
    have hfresh : key ∉ before.map Prod.fst ++ after.map Prod.fst :=
      List.not_mem_append hbefore hafter
    simp only [Option.map_some, Option.toList_some, List.map_append, List.append_assoc,
      List.singleton_append, List.map_cons]
    rw [List.nodup_middle, List.nodup_cons, and_iff_right hfresh]

/-- The entry that is left of a total. -/
theorem single_eq_toList (key : β) (total : Exact rules) :
    (if Scalar.vanishes total then [] else [(key, total)]) =
      ((if Scalar.vanishes total then none else some total).map (key, ·)).toList := by
  split <;> rfl

namespace AddsTo

variable {key : β} {found : Option (Exact rules)} {exponent : Exact rules}
  {old new : List (β × Exact rules)} (h : AddsTo key found exponent old new)
include h

/-- The entries of all other keys stay. -/
theorem mem_iff_of_ne {entry : β × Exact rules} (hne : entry.1 ≠ key) :
    entry ∈ new ↔ entry ∈ old := by
  obtain ⟨before, after, rfl, rfl, -, -⟩ := h
  rw [single_eq_toList, mem_append_map_iff_of_ne hne, mem_append_map_iff_of_ne hne]

/-- An entry of the new list is an old one or the one with the total. -/
theorem mem {entry : β × Exact rules} (he : entry ∈ new) :
    entry ∈ old ∨ Scalar.vanishes (found.getD 0 + exponent) = false ∧
      entry = (key, found.getD 0 + exponent) := by
  obtain ⟨before, after, rfl, rfl, -, -⟩ := h
  simp only [List.mem_append] at he ⊢
  obtain (he | he) | he := he
  · exact Or.inl (Or.inl (Or.inl he))
  · split at he
    · cases he
    · next hv => exact Or.inr ⟨Bool.eq_false_iff.mpr hv, List.mem_singleton.mp he⟩
  · exact Or.inl (Or.inr he)

/-- No key is repeated. -/
theorem nodup (hn : (old.map Prod.fst).Nodup) : (new.map Prod.fst).Nodup := by
  obtain ⟨before, after, rfl, rfl, hbefore, hafter⟩ := h
  rw [nodup_append_map_iff hbefore hafter] at hn
  rw [single_eq_toList]
  exact (nodup_append_map_iff hbefore hafter).mpr hn

/-- Both products have the other powers in common. -/
theorem prod_eq [CommMonoid R] (power : β → Exact rules → R) (hzero : power key 0 = 1)
    (hvanishes : Scalar.vanishes (found.getD 0 + exponent) = true → found.getD 0 + exponent = 0) :
    ∃ rest, (old.map fun entry => power entry.1 entry.2).prod = power key (found.getD 0) * rest ∧
      (new.map fun entry => power entry.1 entry.2).prod =
        power key (found.getD 0 + exponent) * rest := by
  obtain ⟨before, after, rfl, rfl, -, -⟩ := h
  refine ⟨((before ++ after).map fun entry => power entry.1 entry.2).prod, ?_, ?_⟩
  · cases found with
    | none => simp [hzero]
    | some value =>
      simp only [Option.map_some, Option.toList_some, Option.getD_some, List.map_append,
        List.map_cons, List.map_nil, List.prod_append, List.prod_singleton]
      rw [mul_comm _ (power key value), mul_assoc]
  · split
    · next hv => simp [hvanishes hv, hzero]
    · simp only [List.map_append, List.map_cons, List.map_nil, List.prod_append,
        List.prod_singleton]
      rw [mul_comm _ (power key _), mul_assoc]

end AddsTo

end AddsTo

namespace VariablePowers

/-- Looking up, forgetting and giving an exponent concern one place of a table. -/
theorem exists_split {K : Type} (powers : VariablePowers K) (name : String) :
    ∃ before after, powers.entries = before ++ ((powers.get? name).map (name, ·)).toList ++ after ∧
      (powers.erase name).entries = before ++ after ∧
      (∀ exponent, (powers.insert name exponent).entries = before ++ (name, exponent) :: after) ∧
      name ∉ before.map Prod.fst ∧ name ∉ after.map Prod.fst := by
  obtain ⟨entries, ordered⟩ := powers
  simp only [get?, erase, insert]
  induction entries with
  | nil => exact ⟨[], [], rfl, rfl, fun _ => rfl, List.not_mem_nil, List.not_mem_nil⟩
  | cons head tail ih =>
    obtain ⟨hhead, htail⟩ := List.pairwise_cons.mp ordered
    obtain ⟨first, exponent⟩ := head
    have above (h : ¬first < name) : name ∉ tail.map Prod.fst := by
      intro hmem
      obtain ⟨entry, hentry, rfl⟩ := List.mem_map.mp hmem
      exact h (hhead entry hentry)
    have untouched (h : name ∉ tail.map Prod.fst) :
        tail.filter (fun entry => entry.1 != name) = tail :=
      List.filter_eq_self.mpr fun entry hentry =>
        bne_iff_ne.mpr fun heq => h (heq ▸ List.mem_map_of_mem hentry)
    by_cases heq : name = first
    · subst heq
      have hn := above (String.lt_irrefl name)
      refine ⟨[], tail, ?_, ?_, fun value => ?_, List.not_mem_nil, hn⟩
      · simp
      · simp [untouched hn]
      · simp [insertEntry]
    · have hne : first ≠ name := Ne.symm heq
      by_cases hlt : name < first
      · have hn := above (String.lt_asymm hlt)
        have hmem : name ∉ ((first, exponent) :: tail).map Prod.fst := by simp [heq, hn]
        refine ⟨[], (first, exponent) :: tail, ?_, ?_, fun value => ?_, List.not_mem_nil, hmem⟩
        · have hnone : ((first, exponent) :: tail).lookup name = none :=
            List.lookup_eq_none_iff.mpr fun entry hentry => bne_iff_ne.mpr
              fun (h : name = entry.1) => hmem (h ▸ List.mem_map_of_mem hentry)
          simp [hnone]
        · simp [untouched hn, hne]
        · simp [insertEntry, hlt]
      · obtain ⟨before, after, hentries, herase, hinsert, hbefore, hafter⟩ := ih htail
        refine ⟨(first, exponent) :: before, after, ?_, ?_, fun value => ?_, ?_, hafter⟩
        · have hb : (name == first) = false := beq_eq_false_iff_ne.mpr heq
          simp only [List.lookup_cons, hb, List.cons_append]
          rw [← hentries]
        · simp [hne, herase]
        · simp [insertEntry, hlt, heq, hinsert]
        · simp [heq, hbefore]

variable {rules : Exactness}

/-- No name is repeated. -/
theorem nodup_names (powers : VariablePowers (Exact rules)) :
    (powers.entries.map Prod.fst).Nodup := by
  have hordered : (powers.entries.map Prod.fst).Pairwise (· < ·) :=
    List.pairwise_map.mpr powers.ordered
  refine hordered.imp fun {first second} hlt => ?_
  rintro rfl
  exact String.lt_irrefl _ hlt

/-- Looking up a variable finds its entry. -/
theorem get?_eq_some_iff {powers : VariablePowers (Exact rules)} {name : String}
    {exponent : Exact rules} :
    powers.get? name = some exponent ↔ (name, exponent) ∈ powers.entries := by
  obtain ⟨before, after, hentries, -, -, hbefore, hafter⟩ := powers.exists_split name
  rw [hentries]
  exact eq_some_iff_mem hbefore hafter

/-- Accumulation adds to the exponent of a variable. -/
theorem addsTo_accumulate (powers : VariablePowers (Exact rules)) (name : String)
    (exponent : Exact rules) :
    AddsTo name (powers.get? name) exponent powers.entries
      (powers.accumulate name exponent).entries := by
  obtain ⟨before, after, hentries, herase, hinsert, hbefore, hafter⟩ := powers.exists_split name
  refine ⟨before, after, hentries, ?_, hbefore, hafter⟩
  simp only [accumulate, Exact.zero_eq]
  split
  · rw [herase, List.append_nil]
  · rw [hinsert, List.append_assoc, List.singleton_append]

/-- Accumulation leaves the exponents of all other variables. -/
theorem get?_accumulate_of_ne (powers : VariablePowers (Exact rules)) {name other : String}
    (hne : other ≠ name) (exponent : Exact rules) :
    (powers.accumulate name exponent).get? other = powers.get? other := by
  refine Option.ext fun value => ?_
  rw [get?_eq_some_iff, get?_eq_some_iff]
  exact (powers.addsTo_accumulate name exponent).mem_iff_of_ne hne

variable (v : Vocabulary rules)

/-- Variables of a vocabulary with positive natural exponents. -/
def Within (powers : VariablePowers (Exact rules)) : Prop :=
  ∀ entry ∈ powers.entries, v.names entry.1 ∧ ∃ n : ℕ, 0 < n ∧ entry.2 = n

/-- Exponents that are numbers of a vocabulary and not zero. -/
def Over (powers : VariablePowers (Exact rules)) : Prop :=
  ∀ entry ∈ powers.entries, entry.2 ∈ v.numbers ∧ entry.2 ≠ 0

variable {v}

theorem within_empty : (empty : VariablePowers (Exact rules)).Within v :=
  fun _ h => absurd h List.not_mem_nil

/-- A list in the order of its names is a table over the numbers of its exponents. -/
theorem over_ofList {entries : List (String × Exact rules)}
    (h : entries.Pairwise fun first second => first.1 < second.1)
    (he : ∀ entry ∈ entries, entry.2 ∈ v.numbers ∧ entry.2 ≠ 0) : (ofList entries).Over v := by
  rw [Over, entries_ofList h]
  exact he

/-- Positive natural numbers are exponents from every vocabulary. -/
theorem Within.over {powers : VariablePowers (Exact rules)} (h : powers.Within v) :
    powers.Over v := by
  intro entry hentry
  obtain ⟨-, n, hpos, hn⟩ := h entry hentry
  rw [hn]
  exact ⟨v.mem_of_natCast n, Nat.cast_ne_zero.mpr hpos.ne'⟩

/-- The exponent of a variable is a number of the vocabulary. -/
theorem Over.get_mem {powers : VariablePowers (Exact rules)} (h : powers.Over v) (name : String) :
    (powers.get? name).getD 0 ∈ v.numbers := by
  cases hget : powers.get? name with
  | none => exact v.numbers.zero_mem
  | some exponent => exact (h _ (get?_eq_some_iff.mp hget)).1

/-- Accumulating numbers of a vocabulary leads to numbers of it. -/
theorem Over.accumulate {powers : VariablePowers (Exact rules)} (h : powers.Over v)
    (name : String) {exponent : Exact rules} (he : exponent ∈ v.numbers) :
    (powers.accumulate name exponent).Over v := by
  intro entry hentry
  obtain hold | ⟨hv, rfl⟩ := (powers.addsTo_accumulate name exponent).mem hentry
  · exact h entry hold
  · have htotal := v.numbers.add_mem (h.get_mem name) he
    exact ⟨htotal, mt (v.vanishes_iff htotal).mpr (Bool.eq_false_iff.mp hv)⟩

/-- The exponent of a variable is a natural number. -/
theorem Within.exists_get {powers : VariablePowers (Exact rules)} (h : powers.Within v)
    (name : String) : ∃ n : ℕ, (powers.get? name).getD 0 = n := by
  cases hget : powers.get? name with
  | none => exact ⟨0, Nat.cast_zero.symm⟩
  | some exponent =>
    obtain ⟨-, n, -, hn⟩ := h (name, exponent) (get?_eq_some_iff.mp hget)
    exact ⟨n, hn⟩

/-- Natural totals do not lead out of a vocabulary. -/
theorem Within.accumulate {powers : VariablePowers (Exact rules)} (h : powers.Within v)
    {name : String} (hname : v.names name) {exponent : Exact rules} {n : ℕ}
    (ht : (powers.get? name).getD 0 + exponent = n) :
    (powers.accumulate name exponent).Within v := by
  intro entry hentry
  obtain hold | ⟨hv, rfl⟩ := (powers.addsTo_accumulate name exponent).mem hentry
  · exact h entry hold
  · refine ⟨hname, n, Nat.pos_of_ne_zero fun hn => ?_, ht⟩
    rw [ht, hn] at hv
    simp [Scalar.vanishes] at hv

variable {R : Type*} [CommRing R]

/-- The product of the powers of the variables. -/
def value (I : Interpretation rules R) (powers : VariablePowers (Exact rules)) : R :=
  (powers.entries.map fun entry => I.numericPower (I.valuation entry.1) entry.2).prod

variable {I : Interpretation rules R} (hI : I.Faithful v)
include hI

/-- A product of powers is split at a variable, whose exponent can then be changed. -/
theorem value_accumulate_split {powers : VariablePowers (Exact rules)} (name : String)
    {exponent : Exact rules} {m n : ℕ} (hm : (powers.get? name).getD 0 = m)
    (hn : (m : Exact rules) + exponent = n) :
    ∃ rest, powers.value I = I.valuation name ^ m * rest ∧
      (powers.accumulate name exponent).value I = I.valuation name ^ n * rest := by
  have hadds := powers.addsTo_accumulate name exponent
  have hzero : I.numericPower (I.valuation name) 0 = 1 := by
    simpa using hI.numericPower_natCast (I.valuation name) 0
  obtain ⟨rest, hold, hnew⟩ := hadds.prod_eq (fun name => I.numericPower (I.valuation name)) hzero
    fun hv => by
      rw [hm, hn] at hv ⊢
      exact (v.vanishes_iff (v.mem_of_natCast n)).mp hv
  refine ⟨rest, ?_, ?_⟩
  · rw [value, hold, hm, hI.numericPower_natCast]
  · rw [value, hnew, hm, hn, hI.numericPower_natCast]

/-- Accumulating a natural exponent multiplies by that power. -/
theorem value_accumulate {powers : VariablePowers (Exact rules)} (h : powers.Within v)
    (name : String) (n : ℕ) :
    (powers.accumulate name n).value I = powers.value I * I.valuation name ^ n := by
  obtain ⟨m, hm⟩ := h.exists_get name
  obtain ⟨rest, hold, hnew⟩ :=
    value_accumulate_split hI name hm (Nat.cast_add m n).symm
  rw [hold, hnew, pow_add, mul_right_comm]

end VariablePowers

/-- Over the numbers of a vocabulary, functions that count as the same are equal. -/
theorem FunctionKey.same_iff_eq {rules : Exactness} {v : Vocabulary rules}
    {first second : FunctionKey (Exact rules)} (hf : first.toExpr.Over v)
    (hs : second.toExpr.Over v) : first.same second = true ↔ first = second := by
  obtain ⟨name, argument⟩ := first
  obtain ⟨name', argument'⟩ := second
  have harguments : argument.same argument' = true ↔ argument = argument' :=
    Expr.Over.same_iff_eq hf hs
  simp [same, harguments]

namespace FunctionPowers

variable {rules : Exactness} (v : Vocabulary rules)

/-- Different functions over the numbers of a vocabulary, with any exponents. -/
structure Keyed (powers : FunctionPowers (Exact rules)) : Prop where
  /-- Arguments are over the numbers of the vocabulary. -/
  entries : ∀ entry ∈ powers.entries, entry.1.toExpr.Over v
  /-- No function is repeated. -/
  distinct : (powers.entries.map Prod.fst).Nodup

/-- Different functions of a vocabulary, with exponents that are not zero. -/
structure Within (powers : FunctionPowers (Exact rules)) : Prop where
  /-- Functions and exponents are from the vocabulary. -/
  entries : ∀ entry ∈ powers.entries,
    entry.1.toExpr.Within v ∧ v.FunctionExponent entry.1.name entry.2 ∧ entry.2 ≠ 0
  /-- No function is repeated. -/
  distinct : (powers.entries.map Prod.fst).Nodup

/-- Different functions over the numbers of a vocabulary, with exponents that are numbers of it and
not zero. -/
structure Over (powers : FunctionPowers (Exact rules)) : Prop where
  /-- Arguments and exponents are over the numbers of the vocabulary. -/
  entries : ∀ entry ∈ powers.entries,
    entry.1.toExpr.Over v ∧ entry.2 ∈ v.numbers ∧ entry.2 ≠ 0
  /-- No function is repeated. -/
  distinct : (powers.entries.map Prod.fst).Nodup

variable {v}

theorem within_empty : (empty : FunctionPowers (Exact rules)).Within v :=
  ⟨fun _ h => absurd h List.not_mem_nil, List.nodup_nil⟩

theorem over_empty : (empty : FunctionPowers (Exact rules)).Over v :=
  ⟨fun _ h => absurd h List.not_mem_nil, List.nodup_nil⟩

/-- Functions of a vocabulary are over its numbers. -/
theorem Within.over {powers : FunctionPowers (Exact rules)} (h : powers.Within v) :
    powers.Over v where
  entries entry hentry :=
    ⟨(h.entries entry hentry).1.over, (h.entries entry hentry).2.1.mem v,
      (h.entries entry hentry).2.2⟩
  distinct := h.distinct

/-- An exponent that is set is put at the end unless it vanishes. -/
theorem entries_set (powers : FunctionPowers (Exact rules)) (function : FunctionKey (Exact rules))
    (exponent : Exact rules) :
    (powers.set function exponent).entries = (powers.erase function).entries ++
      if Scalar.vanishes exponent then [] else [(function, exponent)] := by
  rw [set, Exact.apart_eq, ← Scalar.vanishes]
  cases Scalar.vanishes exponent <;> simp

/-- Different functions with exponents from a vocabulary are different functions. -/
theorem Over.keyed {powers : FunctionPowers (Exact rules)} (h : powers.Over v) : powers.Keyed v :=
  ⟨fun entry hentry => (h.entries entry hentry).1, h.distinct⟩

/-- Looking up, forgetting and accumulating concern one place of a table. It is the last one if the
function is new. -/
theorem Keyed.exists_split {powers : FunctionPowers (Exact rules)} (h : powers.Keyed v)
    {function : FunctionKey (Exact rules)} (hf : function.toExpr.Over v) :
    ∃ before after,
      powers.entries = before ++ ((powers.get? function).map (function, ·)).toList ++ after ∧
      (powers.erase function).entries = before ++ after ∧
      (∀ exponent, (powers.accumulate function exponent).entries = before ++
        (if Scalar.vanishes ((powers.get? function).getD 0 + exponent) then []
          else [(function, (powers.get? function).getD 0 + exponent)]) ++ after) ∧
      function ∉ before.map Prod.fst ∧ function ∉ after.map Prod.fst ∧
      (powers.get? function = none → after = []) := by
  obtain ⟨entries⟩ := powers
  obtain ⟨hentries, hdistinct⟩ := h
  simp only [get?, erase, accumulate] at hentries hdistinct ⊢
  induction entries with
  | nil =>
    refine ⟨[], [], rfl, rfl, fun exponent => ?_, List.not_mem_nil, List.not_mem_nil, fun _ => rfl⟩
    cases hv : Scalar.near exponent 0 <;> simp [accumulateEntry, Scalar.vanishes, hv]
  | cons head tail ih =>
    obtain ⟨hhead, htail⟩ := List.forall_mem_cons.mp hentries
    obtain ⟨hfresh, htailDistinct⟩ := List.nodup_cons.mp hdistinct
    obtain ⟨key, value⟩ := head
    by_cases heq : key = function
    · subst heq
      have hsame : key.same key = true := (FunctionKey.same_iff_eq hhead hhead).mpr rfl
      have hothers : tail.filter (fun entry => !entry.1.same key) = tail :=
        List.filter_eq_self.mpr fun entry hentry => by
          rw [Bool.not_eq_true', Bool.eq_false_iff, ne_eq,
            FunctionKey.same_iff_eq (htail entry hentry) hhead]
          exact fun h => hfresh (h ▸ List.mem_map_of_mem hentry)
      refine ⟨[], tail, ?_, ?_, fun exponent => ?_, List.not_mem_nil, hfresh, fun hnone => ?_⟩
      · simp [hsame]
      · simp [hsame, hothers]
      · cases hv : Scalar.vanishes (value + exponent) <;> simp [accumulateEntry, hsame, hv]
      · simp [hsame] at hnone
    · have hsame : key.same function = false :=
        Bool.eq_false_iff.mpr (mt (FunctionKey.same_iff_eq hhead hf).mp heq)
      obtain ⟨before, after, hsplit, herase, haccumulate, hbefore, hafter, hlast⟩ :=
        ih htail htailDistinct
      refine ⟨(key, value) :: before, after, ?_, ?_, fun exponent => ?_, ?_, hafter,
        fun hnone => ?_⟩
      · simpa [hsame] using hsplit
      · simp [hsame, herase]
      · simp only [accumulateEntry, hsame, List.find?_cons, Bool.false_eq_true, if_false]
        rw [haccumulate exponent]
        rfl
      · simp [Ne.symm heq, hbefore]
      · exact hlast (by simpa [hsame] using hnone)

/-- Looking up, forgetting and accumulating concern one place of a table with exponents from a
vocabulary. -/
theorem Over.exists_split {powers : FunctionPowers (Exact rules)} (h : powers.Over v)
    {function : FunctionKey (Exact rules)} (hf : function.toExpr.Over v) :
    ∃ before after,
      powers.entries = before ++ ((powers.get? function).map (function, ·)).toList ++ after ∧
      (powers.erase function).entries = before ++ after ∧
      (∀ exponent, (powers.accumulate function exponent).entries = before ++
        (if Scalar.vanishes ((powers.get? function).getD 0 + exponent) then []
          else [(function, (powers.get? function).getD 0 + exponent)]) ++ after) ∧
      function ∉ before.map Prod.fst ∧ function ∉ after.map Prod.fst := by
  obtain ⟨before, after, hentries, herase, haccumulate, hbefore, hafter, -⟩ :=
    h.keyed.exists_split hf
  exact ⟨before, after, hentries, herase, haccumulate, hbefore, hafter⟩

/-- Looking up a function finds its entry. -/
theorem Keyed.get?_eq_some_iff {powers : FunctionPowers (Exact rules)} (h : powers.Keyed v)
    {function : FunctionKey (Exact rules)} (hf : function.toExpr.Over v)
    {exponent : Exact rules} :
    powers.get? function = some exponent ↔ (function, exponent) ∈ powers.entries := by
  obtain ⟨before, after, hentries, -, -, hbefore, hafter, -⟩ := h.exists_split hf
  rw [hentries]
  exact eq_some_iff_mem hbefore hafter

/-- Looking up a function finds its entry in a table with exponents from a vocabulary. -/
theorem Over.get?_eq_some_iff {powers : FunctionPowers (Exact rules)} (h : powers.Over v)
    {function : FunctionKey (Exact rules)} (hf : function.toExpr.Over v)
    {exponent : Exact rules} :
    powers.get? function = some exponent ↔ (function, exponent) ∈ powers.entries :=
  h.keyed.get?_eq_some_iff hf

/-- Accumulation adds to the exponent of a function. -/
theorem Over.addsTo_accumulate {powers : FunctionPowers (Exact rules)} (h : powers.Over v)
    {function : FunctionKey (Exact rules)} (hf : function.toExpr.Over v)
    (exponent : Exact rules) :
    AddsTo function (powers.get? function) exponent powers.entries
      (powers.accumulate function exponent).entries := by
  obtain ⟨before, after, hentries, -, haccumulate, hbefore, hafter⟩ := h.exists_split hf
  exact ⟨before, after, hentries, haccumulate exponent, hbefore, hafter⟩

/-- Looking up a function finds a number of the vocabulary. -/
theorem Over.get_mem {powers : FunctionPowers (Exact rules)} (h : powers.Over v)
    {function : FunctionKey (Exact rules)} (hf : function.toExpr.Over v) :
    (powers.get? function).getD 0 ∈ v.numbers := by
  cases hget : powers.get? function with
  | none => exact v.numbers.zero_mem
  | some exponent => exact (h.entries _ ((h.get?_eq_some_iff hf).mp hget)).2.1

/-- Accumulating numbers of a vocabulary leads to numbers of it. -/
theorem Over.accumulate {powers : FunctionPowers (Exact rules)} (h : powers.Over v)
    {function : FunctionKey (Exact rules)} (hf : function.toExpr.Over v)
    {exponent : Exact rules} (he : exponent ∈ v.numbers) :
    (powers.accumulate function exponent).Over v := by
  have hadds := h.addsTo_accumulate hf exponent
  refine ⟨fun entry hentry => ?_, hadds.nodup h.distinct⟩
  obtain hold | ⟨hv, rfl⟩ := hadds.mem hentry
  · exact h.entries entry hold
  · have htotal := v.numbers.add_mem (h.get_mem hf) he
    exact ⟨hf, htotal, mt (v.vanishes_iff htotal).mpr (Bool.eq_false_iff.mp hv)⟩

/-- Accumulation leaves the exponents of all other functions. -/
theorem Over.get?_accumulate_of_ne {powers : FunctionPowers (Exact rules)} (h : powers.Over v)
    {function other : FunctionKey (Exact rules)} (hf : function.toExpr.Over v)
    (ho : other.toExpr.Over v) (hne : other ≠ function) {exponent : Exact rules}
    (he : exponent ∈ v.numbers) :
    (powers.accumulate function exponent).get? other = powers.get? other := by
  refine Option.ext fun value => ?_
  rw [(h.accumulate hf he).get?_eq_some_iff ho, h.get?_eq_some_iff ho]
  exact (h.addsTo_accumulate hf exponent).mem_iff_of_ne hne

/-- The exponent of a function is one of its exponents. -/
theorem Within.functionExponent_get {powers : FunctionPowers (Exact rules)} (h : powers.Within v)
    {function : FunctionKey (Exact rules)} (hf : function.toExpr.Within v) :
    v.FunctionExponent function.name ((powers.get? function).getD 0) := by
  cases hget : powers.get? function with
  | none => exact ⟨0, Int.cast_zero.symm, Or.inl (le_refl 0)⟩
  | some exponent =>
    exact (h.entries _ ((h.over.get?_eq_some_iff hf.over).mp hget)).2.1

/-- Totals that are exponents of the function do not lead out of a vocabulary. -/
theorem Within.accumulate {powers : FunctionPowers (Exact rules)} (h : powers.Within v)
    {function : FunctionKey (Exact rules)} (hf : function.toExpr.Within v)
    {exponent : Exact rules}
    (ht : v.FunctionExponent function.name ((powers.get? function).getD 0 + exponent)) :
    (powers.accumulate function exponent).Within v := by
  have hadds := h.over.addsTo_accumulate hf.over exponent
  refine ⟨fun entry hentry => ?_, hadds.nodup h.distinct⟩
  obtain hold | ⟨hv, rfl⟩ := hadds.mem hentry
  · exact h.entries entry hold
  · refine ⟨hf, ht, fun (hzero : (powers.get? function).getD 0 + exponent = 0) => ?_⟩
    rw [hzero] at hv
    simp [Scalar.vanishes] at hv

variable {R : Type*} [CommRing R]

/-- The power of a function. -/
def powerValue (I : Interpretation rules R) (function : FunctionKey (Exact rules))
    (exponent : Exact rules) : R :=
  I.numericPower (function.toExpr.value I) exponent

/-- The product of the powers of the functions. -/
def value (I : Interpretation rules R) (powers : FunctionPowers (Exact rules)) : R :=
  (powers.entries.map fun entry => powerValue I entry.1 entry.2).prod

variable {I : Interpretation rules R} (hI : I.Faithful v)
include hI

/-- The power to zero is one. -/
theorem powerValue_zero (function : FunctionKey (Exact rules)) : powerValue I function 0 = 1 := by
  rw [powerValue]
  simpa only [Nat.cast_zero, pow_zero] using hI.numericPower_natCast (function.toExpr.value I) 0

/-- Powers of one function are multiplied by adding their exponents. -/
theorem powerValue_add {function : FunctionKey (Exact rules)} {a b : Exact rules}
    (ha : v.FunctionExponent function.name a) (hb : v.FunctionExponent function.name b) :
    powerValue I function (a + b) = powerValue I function a * powerValue I function b := by
  obtain ⟨m, rfl, hm⟩ := ha
  obtain ⟨n, rfl, hn⟩ := hb
  by_cases hsigned : v.signed function.name
  · rw [← Int.cast_add]
    exact hI.numericPower_add hsigned _ m n
  · lift m to ℕ using hm.resolve_right hsigned
    lift n to ℕ using hn.resolve_right hsigned
    rw [← Int.cast_add, ← Nat.cast_add, Int.cast_natCast, Int.cast_natCast, Int.cast_natCast,
      powerValue, powerValue, powerValue, hI.numericPower_natCast, hI.numericPower_natCast,
      hI.numericPower_natCast, pow_add]

/-- A product of powers is split at a function, whose exponent can then be changed. -/
theorem value_accumulate_split {powers : FunctionPowers (Exact rules)} (h : powers.Within v)
    {function : FunctionKey (Exact rules)} (hf : function.toExpr.Within v)
    {exponent : Exact rules}
    (ht : v.FunctionExponent function.name ((powers.get? function).getD 0 + exponent)) :
    ∃ rest, powers.value I =
        powerValue I function ((powers.get? function).getD 0) * rest ∧
      (powers.accumulate function exponent).value I =
        powerValue I function ((powers.get? function).getD 0 + exponent) * rest := by
  exact (h.over.addsTo_accumulate hf.over exponent).prod_eq (powerValue I) (powerValue_zero hI _)
    (v.vanishes_iff (ht.mem v)).mp

/-- Accumulating an exponent multiplies by that power. -/
theorem value_accumulate {powers : FunctionPowers (Exact rules)} (h : powers.Within v)
    {function : FunctionKey (Exact rules)} (hf : function.toExpr.Within v)
    {exponent : Exact rules} (he : v.FunctionExponent function.name exponent) :
    (powers.accumulate function exponent).value I =
      powers.value I * powerValue I function exponent := by
  have hget := h.functionExponent_get hf
  obtain ⟨rest, hold, hnew⟩ := value_accumulate_split hI h hf (hget.add v he)
  rw [hold, hnew, powerValue_add hI hget he, mul_right_comm]

end FunctionPowers

end SymbolicForms
