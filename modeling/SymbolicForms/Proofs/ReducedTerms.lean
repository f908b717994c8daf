import SymbolicForms.Proofs.Powers

/-!
# Reduced terms

A term stores no exponent that vanishes and no function twice, and what it keeps
whole would be kept whole again. Reading an expression gives such a term, and
products, quotients and sums of such terms are such terms, because both tables
are changed by accumulation only. A term in writing lists its factors, and
reading them puts them back one by one: a variable that is greater than all
earlier ones and a function that is new are put at the end of their tables. What
is read differs from what was written in two ways. Functions come in the order
of their texts, and of a coefficient or an exponent near one nothing is written.
-/

namespace SymbolicForms

variable {rules : Exactness}

/-- Lists of one length are compared place by place. -/
theorem zip_all_iff_forall₂ {α β : Type*} (same : α → β → Bool) {P : α → β → Prop}
    (h : ∀ a b, same a b = true ↔ P a b) {first : List α} {second : List β} :
    (first.length == second.length &&
      (first.zip second).all fun pair => same pair.1 pair.2) = true ↔
      List.Forall₂ P first second := by
  rw [Bool.and_eq_true, beq_iff_eq, List.all_eq_true, List.forall₂_iff_zip]
  exact and_congr_right fun _ =>
    ⟨fun hall a b hab => (h a b).mp (hall _ hab), fun hall _ hpair => (h _ _).mpr (hall hpair)⟩

/-- Lists that agree place by place are equal when agreement is equality. -/
theorem forall₂_iff_eq {α : Type*} {P : α → α → Prop} {first second : List α}
    (h : ∀ a ∈ first, ∀ b ∈ second, P a b ↔ a = b) : List.Forall₂ P first second ↔
      first = second := by
  rw [← List.forall₂_eq_eq_eq, List.forall₂_iff_zip, List.forall₂_iff_zip]
  refine and_congr_right fun _ => ⟨fun hall a b hab => ?_, fun hall a b hab => ?_⟩ <;>
    obtain ⟨ha, hb⟩ := List.of_mem_zip hab
  · exact (h a ha b hb).mp (hall hab)
  · exact (h a ha b hb).mpr (hall hab)

/-- The exponent that is read where an exponent is written: one near one is not written. -/
def writtenExponent (exponent : Exact rules) : Exact rules :=
  if Scalar.isUnit exponent then 1 else exponent

/-- An exponent is read as one near it. -/
theorem near_writtenExponent (exponent : Exact rules) :
    Scalar.near (writtenExponent exponent) exponent = true := by
  unfold writtenExponent
  split
  · next hunit => rwa [Scalar.isUnit, Exact.one_eq, Exact.near_comm] at hunit
  · exact Exact.near_self exponent

/-- An exponent that does not vanish is read as one that does not vanish. -/
theorem vanishes_writtenExponent {exponent : Exact rules}
    (h : Scalar.vanishes exponent = false) :
    Scalar.vanishes (writtenExponent exponent) = false := by
  unfold writtenExponent
  split
  · exact Exact.vanishes_one
  · exact h

/-- A number of a vocabulary is read as it is written. -/
theorem Vocabulary.writtenExponent_eq (v : Vocabulary rules) {exponent : Exact rules}
    (h : exponent ∈ v.numbers) : writtenExponent exponent = exponent := by
  unfold writtenExponent
  split
  · next hunit => exact ((v.isUnit_iff h).mp hunit).symm
  · rfl

namespace VariablePowers

/-- No exponent vanishes. -/
def Reduced (powers : VariablePowers (Exact rules)) : Prop :=
  ∀ entry ∈ powers.entries, Scalar.vanishes entry.2 = false

theorem reduced_empty : (empty : VariablePowers (Exact rules)).Reduced :=
  fun _ h => absurd h List.not_mem_nil

/-- Exponents from a vocabulary that are not zero do not vanish. -/
theorem Over.reduced {v : Vocabulary rules} {powers : VariablePowers (Exact rules)}
    (h : powers.Over v) : powers.Reduced := fun entry hentry =>
  v.vanishes_eq_false (h entry hentry).1 (h entry hentry).2

/-- Accumulation stores no exponent that vanishes. -/
theorem Reduced.accumulate {powers : VariablePowers (Exact rules)} (h : powers.Reduced)
    (name : String) (exponent : Exact rules) : (powers.accumulate name exponent).Reduced := by
  intro entry hentry
  obtain hold | ⟨hv, rfl⟩ := (powers.addsTo_accumulate name exponent).mem hentry
  · exact h entry hold
  · exact hv

/-- Merging stores no exponent that vanishes. -/
theorem Reduced.merge {powers : VariablePowers (Exact rules)} (h : powers.Reduced)
    (other : VariablePowers (Exact rules)) : (powers.merge other).Reduced :=
  List.foldlRecOn other.entries _ h fun _ hpowers entry _ => hpowers.accumulate entry.1 entry.2

/-- Subtraction stores no exponent that vanishes. -/
theorem Reduced.remove {powers : VariablePowers (Exact rules)} (h : powers.Reduced)
    (other : VariablePowers (Exact rules)) : (powers.remove other).Reduced :=
  List.foldlRecOn other.entries _ h fun _ hpowers entry _ => hpowers.accumulate entry.1 (-entry.2)

/-- A variable that is greater than all others is put at the end. -/
theorem entries_accumulate_of_lt {powers : VariablePowers (Exact rules)} {name : String}
    (h : ∀ entry ∈ powers.entries, entry.1 < name) {exponent : Exact rules}
    (he : Scalar.vanishes exponent = false) :
    (powers.accumulate name exponent).entries = powers.entries ++ [(name, exponent)] := by
  have hnone : powers.get? name = none := by
    refine List.lookup_eq_none_iff.mpr fun entry hentry => bne_iff_ne.mpr ?_
    exact (h entry hentry).ne'
  rw [VariablePowers.accumulate, hnone]
  simp only [Option.getD_none, Exact.zero_eq, zero_add, he, Bool.false_eq_true, if_false]
  exact entries_insert_of_lt h exponent

/-- Variables in order are put one behind the other. -/
theorem entries_foldl_accumulate {powers : VariablePowers (Exact rules)}
    {entries : List (String × Exact rules)}
    (h : (powers.entries ++ entries).Pairwise fun first second => first.1 < second.1)
    (he : ∀ entry ∈ entries, Scalar.vanishes entry.2 = false) :
    (entries.foldl (fun powers entry => powers.accumulate entry.1 entry.2) powers).entries =
      powers.entries ++ entries := by
  induction entries generalizing powers with
  | nil => exact (List.append_nil _).symm
  | cons entry rest ih =>
    obtain ⟨hentry, hrest⟩ := List.forall_mem_cons.mp he
    have hbelow (other : String × Exact rules) (hother : other ∈ powers.entries) :
        other.1 < entry.1 :=
      (List.pairwise_append.mp h).2.2 other hother entry List.mem_cons_self
    have hall : powers.entries ++ entry :: rest =
        (powers.accumulate entry.1 entry.2).entries ++ rest := by
      rw [entries_accumulate_of_lt hbelow hentry, List.append_assoc, List.singleton_append]
    rw [List.foldl_cons, ih (hall ▸ h) hrest, hall]

/-- A table merged into the empty one is that table. -/
theorem Reduced.empty_merge {powers : VariablePowers (Exact rules)} (h : powers.Reduced) :
    empty.merge powers = powers :=
  eq_of_entries_eq (entries_foldl_accumulate powers.ordered h)

/-- The table that is read where a table is written. -/
def asWritten (powers : VariablePowers (Exact rules)) : VariablePowers (Exact rules) where
  entries := powers.entries.map fun entry => (entry.1, writtenExponent entry.2)
  ordered := List.pairwise_map.mpr powers.ordered

/-- A reduced table is read as a reduced table. -/
theorem Reduced.asWritten {powers : VariablePowers (Exact rules)} (h : powers.Reduced) :
    powers.asWritten.Reduced :=
  List.forall_mem_map.mpr fun entry hentry => vanishes_writtenExponent (h entry hentry)

/-- Tables count as the same when they agree entry by entry. -/
theorem same_iff_forall₂ {powers other : VariablePowers (Exact rules)} :
    powers.same other = true ↔ List.Forall₂ (fun first second => first.1 = second.1 ∧
      Scalar.near first.2 second.2 = true) powers.entries other.entries :=
  zip_all_iff_forall₂
    (fun first second : String × Exact rules =>
      first.1 == second.1 && !Scalar.apart first.2 second.2)
    fun first second => by rw [Bool.and_eq_true, beq_iff_eq, Exact.apart_eq, Bool.not_not]

/-- A table is read as one that counts as the same. -/
theorem same_asWritten (powers : VariablePowers (Exact rules)) :
    powers.asWritten.same powers = true ∧ powers.same powers.asWritten = true := by
  rw [same_iff_forall₂, same_iff_forall₂, VariablePowers.asWritten, List.forall₂_map_left_iff,
    List.forall₂_map_right_iff, List.forall₂_same, List.forall₂_same]
  have hnear (exponent : Exact rules) := near_writtenExponent exponent
  exact ⟨fun entry _ => ⟨rfl, hnear entry.2⟩,
    fun entry _ => ⟨rfl, (Exact.near_comm _ _).trans (hnear entry.2)⟩⟩

end VariablePowers

/-- Every function is the same as itself. -/
@[simp] theorem FunctionKey.same_self (function : FunctionKey (Exact rules)) :
    function.same function = true := by
  rw [same, Expr.same_self, beq_self_eq_true, Bool.and_true]

/-- Of two functions, each is the same as the other. -/
theorem FunctionKey.same_comm (function other : FunctionKey (Exact rules)) :
    function.same other = other.same function := by
  rw [same, same, Expr.same_comm, Bool.beq_comm]

namespace FunctionPowers

/-- No two functions are the same, and no exponent vanishes. -/
structure Reduced (powers : FunctionPowers (Exact rules)) : Prop where
  /-- No exponent vanishes. -/
  vanishes_eq_false : ∀ entry ∈ powers.entries, Scalar.vanishes entry.2 = false
  /-- No two functions are the same. -/
  same_eq_false : powers.entries.Pairwise fun first second => first.1.same second.1 = false

theorem reduced_empty : (empty : FunctionPowers (Exact rules)).Reduced :=
  ⟨List.forall_mem_nil _, List.Pairwise.nil⟩

/-- Of different functions over the numbers of a vocabulary, no two are the same. -/
theorem Keyed.same_eq_false {v : Vocabulary rules} {powers : FunctionPowers (Exact rules)}
    (h : powers.Keyed v) :
    powers.entries.Pairwise fun first second => first.1.same second.1 = false := by
  refine (List.pairwise_map.mp h.distinct).imp_of_mem fun {first second} hfirst hsecond hne => ?_
  rwa [Bool.eq_false_iff, ne_eq,
    FunctionKey.same_iff_eq (h.entries first hfirst) (h.entries second hsecond)]

/-- Different functions over the numbers of a vocabulary are no two the same, and exponents from it
that are not zero do not vanish. -/
theorem Over.reduced {v : Vocabulary rules} {powers : FunctionPowers (Exact rules)}
    (h : powers.Over v) : powers.Reduced where
  vanishes_eq_false entry hentry :=
    v.vanishes_eq_false (h.entries entry hentry).2.1 (h.entries entry hentry).2.2
  same_eq_false := h.keyed.same_eq_false

/-- No function is repeated. -/
theorem Reduced.distinct {powers : FunctionPowers (Exact rules)} (h : powers.Reduced) :
    (powers.entries.map Prod.fst).Nodup := by
  refine List.pairwise_map.mpr (h.same_eq_false.imp fun {first second} hsame heq => ?_)
  rw [heq, FunctionKey.same_self] at hsame
  cases hsame

/-- Accumulation keeps functions different and stores no exponent that vanishes. -/
theorem Reduced.accumulate {powers : FunctionPowers (Exact rules)} (h : powers.Reduced)
    (function : FunctionKey (Exact rules)) (exponent : Exact rules) :
    (powers.accumulate function exponent).Reduced := by
  refine ⟨?_, pairwise_accumulateEntry function exponent h.same_eq_false⟩
  obtain ⟨entries⟩ := powers
  obtain ⟨hvanishes, -⟩ := h
  simp only [FunctionPowers.accumulate] at hvanishes ⊢
  induction entries with
  | nil =>
    unfold accumulateEntry
    split
    · next hapart =>
      rw [Exact.apart_eq, Bool.not_eq_true'] at hapart
      exact List.forall_mem_singleton.mpr hapart
    · exact List.forall_mem_nil _
  | cons entry rest ih =>
    obtain ⟨hentry, hrest⟩ := List.forall_mem_cons.mp hvanishes
    unfold accumulateEntry
    split
    · dsimp only
      split
      · exact hrest
      · next hv => exact List.forall_mem_cons.mpr ⟨Bool.eq_false_iff.mpr hv, hrest⟩
    · exact List.forall_mem_cons.mpr ⟨hentry, ih hrest⟩

/-- Merging keeps functions different and stores no exponent that vanishes. -/
theorem Reduced.merge {powers : FunctionPowers (Exact rules)} (h : powers.Reduced)
    (other : FunctionPowers (Exact rules)) : (powers.merge other).Reduced :=
  List.foldlRecOn other.entries _ h fun _ hpowers entry _ => hpowers.accumulate entry.1 entry.2

/-- Subtraction keeps functions different and stores no exponent that vanishes. -/
theorem Reduced.remove {powers : FunctionPowers (Exact rules)} (h : powers.Reduced)
    (other : FunctionPowers (Exact rules)) : (powers.remove other).Reduced :=
  List.foldlRecOn other.entries _ h fun _ hpowers entry _ => hpowers.accumulate entry.1 (-entry.2)

/-- Looking up a function of a table finds its own exponent. -/
theorem Reduced.get?_of_mem {powers : FunctionPowers (Exact rules)} (h : powers.Reduced)
    {entry : FunctionKey (Exact rules) × Exact rules} (he : entry ∈ powers.entries) :
    powers.get? entry.1 = some entry.2 := by
  obtain ⟨entries⟩ := powers
  obtain ⟨-, hsame⟩ := h
  simp only [get?] at he hsame ⊢
  induction entries with
  | nil => cases he
  | cons first rest ih =>
    obtain ⟨hfirst, hrest⟩ := List.pairwise_cons.mp hsame
    obtain rfl | hlater := List.mem_cons.mp he
    · rw [List.find?_cons, FunctionKey.same_self]
      rfl
    · rw [List.find?_cons, hfirst entry hlater]
      exact ih hlater hrest

/-- A function that is the same as no other one is put at the end. -/
theorem entries_accumulate_of_new {powers : FunctionPowers (Exact rules)}
    {function : FunctionKey (Exact rules)}
    (hnew : ∀ entry ∈ powers.entries, entry.1.same function = false) {exponent : Exact rules}
    (he : Scalar.vanishes exponent = false) :
    (powers.accumulate function exponent).entries = powers.entries ++ [(function, exponent)] := by
  obtain ⟨entries⟩ := powers
  simp only [FunctionPowers.accumulate] at hnew ⊢
  induction entries with
  | nil =>
    have hapart : Scalar.apart exponent Scalar.zero = true := by
      rw [Exact.apart_eq, ← Scalar.vanishes, he, Bool.not_false]
    rw [accumulateEntry, if_pos hapart, List.nil_append]
  | cons entry rest ih =>
    obtain ⟨hentry, hrest⟩ := List.forall_mem_cons.mp hnew
    rw [accumulateEntry, hentry, List.cons_append, ← ih hrest]
    rfl

/-- One function with an exponent that does not vanish is one entry. -/
theorem single_eq (function : FunctionKey (Exact rules)) {exponent : Exact rules}
    (he : Scalar.vanishes exponent = false) :
    single function exponent = ⟨[(function, exponent)]⟩ :=
  congrArg FunctionPowers.mk (entries_accumulate_of_new (List.forall_mem_nil _) he)

/-- Different functions are put one behind the other. -/
theorem entries_foldl_accumulate {powers : FunctionPowers (Exact rules)}
    {entries : List (FunctionKey (Exact rules) × Exact rules)}
    (h : (⟨powers.entries ++ entries⟩ : FunctionPowers (Exact rules)).Reduced) :
    (entries.foldl (fun powers entry => powers.accumulate entry.1 entry.2) powers).entries =
      powers.entries ++ entries := by
  induction entries generalizing powers with
  | nil => exact (List.append_nil _).symm
  | cons entry rest ih =>
    have hentry := h.vanishes_eq_false entry (List.mem_append_right _ List.mem_cons_self)
    have hnew (other : FunctionKey (Exact rules) × Exact rules) (hother : other ∈ powers.entries) :
        other.1.same entry.1 = false :=
      (List.pairwise_append.mp h.same_eq_false).2.2 other hother entry List.mem_cons_self
    have hall : powers.entries ++ entry :: rest =
        (powers.accumulate entry.1 entry.2).entries ++ rest := by
      rw [entries_accumulate_of_new hnew hentry, List.append_assoc, List.singleton_append]
    rw [List.foldl_cons, ih (hall ▸ h), hall]

/-- Different functions merged into the empty table are that table. -/
theorem Reduced.empty_merge {powers : FunctionPowers (Exact rules)} (h : powers.Reduced) :
    empty.merge powers = powers :=
  congrArg FunctionPowers.mk (entries_foldl_accumulate h)

/-- The table that is read where a table is written. -/
def asWritten (powers : FunctionPowers (Exact rules)) : FunctionPowers (Exact rules) :=
  ⟨powers.sorted.map fun entry => (entry.1, writtenExponent entry.2)⟩

/-- The functions that are read are those that are written. -/
theorem mem_asWritten {powers : FunctionPowers (Exact rules)}
    {entry : FunctionKey (Exact rules) × Exact rules} :
    entry ∈ powers.asWritten.entries ↔
      ∃ written ∈ powers.entries, (written.1, writtenExponent written.2) = entry := by
  simp only [asWritten, List.mem_map, powers.sorted_perm.mem_iff]

/-- A reduced table is read as a reduced table. -/
theorem Reduced.asWritten {powers : FunctionPowers (Exact rules)} (h : powers.Reduced) :
    powers.asWritten.Reduced where
  vanishes_eq_false entry hentry := by
    obtain ⟨written, hwritten, rfl⟩ := mem_asWritten.mp hentry
    exact vanishes_writtenExponent (h.vanishes_eq_false written hwritten)
  same_eq_false := List.pairwise_map.mpr ((powers.sorted_perm.symm.pairwise_iff
    fun {first second} hsame => (FunctionKey.same_comm second.1 first.1).trans hsame).mp
      h.same_eq_false)

/-- A reduced table is read as one that counts as the same. -/
theorem Reduced.same_asWritten {powers : FunctionPowers (Exact rules)} (h : powers.Reduced) :
    powers.asWritten.same powers = true ∧ powers.same powers.asWritten = true := by
  have hsize : powers.asWritten.size = powers.size :=
    (List.length_map _).trans powers.sorted_perm.length_eq
  rw [same, same, hsize, beq_self_eq_true, Bool.true_and, Bool.true_and, List.all_eq_true,
    List.all_eq_true]
  constructor
  · intro entry hentry
    obtain ⟨written, hwritten, rfl⟩ := mem_asWritten.mp hentry
    rw [h.get?_of_mem hwritten]
    simp [Exact.near_comm written.2, near_writtenExponent]
  · intro entry hentry
    rw [h.asWritten.get?_of_mem (mem_asWritten.mpr ⟨entry, hentry, rfl⟩)]
    simp [near_writtenExponent]

end FunctionPowers

namespace Term

/-- No exponent vanishes, and no two functions are the same. -/
structure Reduced (t : Term (Exact rules)) : Prop where
  /-- No exponent of a variable vanishes. -/
  variablePowers : t.variablePowers.Reduced
  /-- No two functions are the same, and no exponent of a function vanishes. -/
  functionPowers : t.functionPowers.Reduced

theorem reduced_constant (value : Exact rules) : (constant value).Reduced :=
  ⟨VariablePowers.reduced_empty, FunctionPowers.reduced_empty⟩

/-- A power of a base is read as a reduced term. -/
theorem reduced_ofPower (base : Expr (Exact rules)) (exponent : Exact rules) :
    (ofPower base exponent).Reduced := by
  unfold ofPower
  split
  · exact ⟨VariablePowers.reduced_empty.accumulate _ _, FunctionPowers.reduced_empty⟩
  · split
    · exact reduced_constant _
    · exact ⟨VariablePowers.reduced_empty, FunctionPowers.reduced_empty⟩
  · exact ⟨VariablePowers.reduced_empty, FunctionPowers.reduced_empty.accumulate _ _⟩
  · exact ⟨VariablePowers.reduced_empty, FunctionPowers.reduced_empty⟩

/-- A factor is read as a reduced term. -/
theorem reduced_ofFactor (e : Expr (Exact rules)) : (ofFactor e).Reduced := by
  unfold ofFactor
  split
  · exact reduced_constant _
  · next name =>
    have hone : Scalar.vanishes (Scalar.one : Exact rules) = false := by
      rw [Exact.one_eq]
      exact Exact.vanishes_one
    exact ⟨List.forall_mem_singleton.mpr hone, FunctionPowers.reduced_empty⟩
  · exact ⟨VariablePowers.reduced_empty, FunctionPowers.reduced_empty.accumulate _ _⟩
  · exact reduced_ofPower _ _
  · exact ⟨VariablePowers.reduced_empty, FunctionPowers.reduced_empty⟩

/-- A product of reduced terms is reduced. -/
theorem Reduced.multiply {t : Term (Exact rules)} (h : t.Reduced) (other : Term (Exact rules)) :
    (t.multiply other).Reduced :=
  ⟨h.variablePowers.merge _, h.functionPowers.merge _⟩

/-- A quotient of reduced terms is reduced. -/
theorem Reduced.divide {t : Term (Exact rules)} (h : t.Reduced) (divisor : Term (Exact rules)) :
    (t.divide divisor).Reduced :=
  ⟨h.variablePowers.remove _, h.functionPowers.remove _⟩

/-- An expression is read as a reduced term. -/
theorem reduced_ofExpr (e : Expr (Exact rules)) : (ofExpr e).Reduced :=
  ofExpr_induction (reduced_constant _) (fun _ other ht _ => ht.multiply other) fun factor _ =>
    reduced_ofFactor factor

/-- Multiplication by one changes nothing. -/
theorem multiply_unit (t : Term (Exact rules)) : t.multiply unit = t := by
  obtain ⟨coefficient, powers, functions, nested⟩ := t
  have hone : coefficient * (Scalar.one : Exact rules) = coefficient := by
    rw [Exact.one_eq, mul_one]
  have hnested : nested ++ [] = nested := List.append_nil nested
  exact congrArg₂ (fun c e => Term.mk c powers functions e) hone hnested

/-- A number multiplied by a term multiplies its coefficient. -/
theorem Reduced.constant_multiply {t : Term (Exact rules)} (h : t.Reduced)
    (factor : Exact rules) :
    (constant factor).multiply t = { t with coefficient := factor * t.coefficient } := by
  obtain ⟨coefficient, powers, functions, nested⟩ := t
  have hvariables : VariablePowers.empty.merge powers = powers := h.variablePowers.empty_merge
  have hfunctions : FunctionPowers.empty.merge functions = functions :=
    h.functionPowers.empty_merge
  rw [Term.multiply]
  simp only [constant, hvariables, hfunctions, List.nil_append]

/-- One multiplied by a term is the term. -/
theorem Reduced.unit_multiply {t : Term (Exact rules)} (h : t.Reduced) : unit.multiply t = t := by
  rw [unit, h.constant_multiply, Exact.one_eq, one_mul]

/-- An expression is read factor by factor. -/
theorem ofExpr_eq_foldl (e : Expr (Exact rules)) :
    ofExpr e = e.factors.foldl (fun t factor => t.multiply (ofFactor factor)) unit := by
  unfold ofExpr
  split
  · rfl
  · next hmul =>
    rw [Expr.factors_eq_singleton hmul]
    exact (reduced_ofFactor e).unit_multiply.symm

/-- An expression that is no product is read as a factor. -/
theorem ofExpr_eq_ofFactor {e : Expr (Exact rules)} (h : ∀ left right, e ≠ .mul left right) :
    ofExpr e = ofFactor e := by
  rw [ofExpr_eq_foldl, Expr.factors_eq_singleton h]
  exact (reduced_ofFactor e).unit_multiply

/-- Every power of a variable is a factor. -/
theorem Reduced.variableFactors_eq {t : Term (Exact rules)} (h : t.Reduced) :
    t.variableFactors =
      t.variablePowers.entries.map fun entry => powerExpr (.var entry.1) entry.2 := by
  rw [variableFactors, List.filter_eq_self.mpr]
  intro entry hentry
  rw [h.variablePowers entry hentry, Bool.not_false]

/-- Every power of a function is a factor. -/
theorem Reduced.functionFactors_eq {t : Term (Exact rules)} (h : t.Reduced) :
    t.functionFactors =
      t.functionPowers.sorted.map fun entry => powerExpr entry.1.toExpr entry.2 := by
  rw [functionFactors, List.filter_eq_self.mpr]
  intro entry hentry
  have hmem := t.functionPowers.sorted_perm.mem_iff.mp hentry
  rw [h.functionPowers.vanishes_eq_false entry hmem, Bool.not_false]

/-- A power of a variable in writing is read as that power. -/
theorem ofFactor_powerExpr_var (name : String) {exponent : Exact rules}
    (h : Scalar.vanishes exponent = false) :
    ofFactor (powerExpr (.var name) exponent) =
      ofVariables ⟨[(name, writtenExponent exponent)], List.pairwise_singleton _ _⟩ := by
  unfold powerExpr writtenExponent
  split
  · exact congrArg ofVariables (VariablePowers.eq_of_entries_eq rfl)
  · have hnone (entry : String × Exact rules)
        (hentry : entry ∈ (VariablePowers.empty : VariablePowers (Exact rules)).entries) :
        entry.1 < name := absurd hentry List.not_mem_nil
    exact congrArg ofVariables (VariablePowers.eq_of_entries_eq
      (VariablePowers.entries_accumulate_of_lt hnone h))

/-- A power of a function in writing is read as that power. -/
theorem ofFactor_powerExpr_func (function : FunctionKey (Exact rules)) {exponent : Exact rules}
    (h : Scalar.vanishes exponent = false) :
    ofFactor (powerExpr function.toExpr exponent) =
      ofFunctions ⟨[(function, writtenExponent exponent)]⟩ := by
  rw [← FunctionPowers.single_eq function (vanishes_writtenExponent h)]
  unfold powerExpr writtenExponent
  split
  · rfl
  · rfl

/-- Multiplication by powers of variables in writing accumulates their exponents. -/
theorem foldl_multiply_variables {entries : List (String × Exact rules)}
    (h : ∀ entry ∈ entries, Scalar.vanishes entry.2 = false) (t : Term (Exact rules)) :
    (entries.map fun entry => powerExpr (.var entry.1) entry.2).foldl
        (fun t factor => t.multiply (ofFactor factor)) t =
      { t with
        variablePowers :=
          (entries.map fun entry => (entry.1, writtenExponent entry.2)).foldl
            (fun powers entry => powers.accumulate entry.1 entry.2) t.variablePowers } := by
  induction entries generalizing t with
  | nil => rfl
  | cons entry rest ih =>
    obtain ⟨hentry, hrest⟩ := List.forall_mem_cons.mp h
    have hstep : t.multiply (ofFactor (powerExpr (.var entry.1) entry.2)) =
        { t with
          variablePowers := t.variablePowers.accumulate entry.1 (writtenExponent entry.2) } := by
      rw [ofFactor_powerExpr_var entry.1 hentry, multiply]
      simp only [ofVariables, Exact.one_eq, mul_one, List.append_nil]
      rfl
    rw [List.map_cons, List.foldl_cons, hstep, ih hrest, List.map_cons, List.foldl_cons]

/-- Multiplication by powers of functions in writing accumulates their exponents. -/
theorem foldl_multiply_functions {entries : List (FunctionKey (Exact rules) × Exact rules)}
    (h : ∀ entry ∈ entries, Scalar.vanishes entry.2 = false) (t : Term (Exact rules)) :
    (entries.map fun entry => powerExpr entry.1.toExpr entry.2).foldl
        (fun t factor => t.multiply (ofFactor factor)) t =
      { t with
        functionPowers :=
          (entries.map fun entry => (entry.1, writtenExponent entry.2)).foldl
            (fun powers entry => powers.accumulate entry.1 entry.2) t.functionPowers } := by
  induction entries generalizing t with
  | nil => rfl
  | cons entry rest ih =>
    obtain ⟨hentry, hrest⟩ := List.forall_mem_cons.mp h
    have hstep : t.multiply (ofFactor (powerExpr entry.1.toExpr entry.2)) =
        { t with
          functionPowers := t.functionPowers.accumulate entry.1 (writtenExponent entry.2) } := by
      rw [ofFactor_powerExpr_func entry.1 hentry, multiply]
      simp only [ofFunctions, Exact.one_eq, mul_one, List.append_nil]
      rfl
    rw [List.map_cons, List.foldl_cons, hstep, ih hrest, List.map_cons, List.foldl_cons]

end Term

/-- An expression that is read as itself, kept whole. -/
def Expr.KeptWhole (e : Expr (Exact rules)) : Prop := Term.ofExpr e = Term.whole e

/-- What is kept whole is no product. -/
theorem Expr.KeptWhole.ne_mul {e : Expr (Exact rules)} (h : e.KeptWhole)
    (left right : Expr (Exact rules)) : e ≠ .mul left right := by
  have hself : e ∈ (Term.ofExpr e).nested := by
    rw [h]
    exact List.mem_singleton_self e
  exact ne_mul_of_mem_factors (Term.nested_ofExpr_subset_factors e hself) left right

/-- What is kept whole has an operator. -/
theorem Expr.KeptWhole.exists_binary {e : Expr (Exact rules)} (h : e.KeptWhole) :
    ∃ op left right, e = .binary op left right := by
  have hnested := congrArg Term.nested h
  cases e with
  | binary op left right => exact ⟨op, left, right, rfl⟩
  | _ => cases hnested

/-- What is kept whole is read as a factor that is kept whole. -/
theorem Expr.KeptWhole.ofFactor_eq {e : Expr (Exact rules)} (h : e.KeptWhole) :
    Term.ofFactor e = Term.whole e :=
  (Term.ofExpr_eq_ofFactor h.ne_mul).symm.trans h

namespace Term

/-- A factor that keeps something whole is read as itself, kept whole. -/
theorem ofFactor_eq_whole {e kept : Expr (Exact rules)} (h : kept ∈ (ofFactor e).nested) :
    ofFactor e = whole e := by
  unfold ofFactor at h ⊢
  split at h
  · exact absurd h List.not_mem_nil
  · exact absurd h List.not_mem_nil
  · exact absurd h List.not_mem_nil
  · unfold ofPower at h ⊢
    split at h
    · exact absurd h List.not_mem_nil
    · split at h
      · exact absurd h List.not_mem_nil
      · next hpower => rw [if_neg hpower]
    · exact absurd h List.not_mem_nil
    · rfl
  · rfl

/-- No exponent vanishes, no two functions are the same, and what is kept whole would be kept whole
again. -/
structure WellFormed (t : Term (Exact rules)) : Prop extends t.Reduced where
  /-- The factors that are kept whole are read as themselves. -/
  nested : ∀ e ∈ t.nested, e.KeptWhole

/-- An expression is read as a well-formed term. -/
theorem wellFormed_ofExpr (e : Expr (Exact rules)) : (ofExpr e).WellFormed := by
  refine ofExpr_induction ⟨reduced_constant _, List.forall_mem_nil _⟩
    (fun t other ht ho => ⟨ht.multiply other, List.forall_mem_append.mpr ⟨ht.nested, ho.nested⟩⟩)
    fun factor hfactor => ⟨reduced_ofFactor factor, fun kept hkept => ?_⟩
  obtain rfl := List.mem_singleton.mp (nested_ofFactor_subset factor hkept)
  exact (ofExpr_eq_ofFactor (Expr.ne_mul_of_mem_factors hfactor)).trans (ofFactor_eq_whole hkept)

/-- A product of well-formed terms is well-formed. -/
theorem WellFormed.multiply {t other : Term (Exact rules)} (h : t.WellFormed)
    (ho : other.WellFormed) : (t.multiply other).WellFormed :=
  ⟨h.toReduced.multiply other, List.forall_mem_append.mpr ⟨h.nested, ho.nested⟩⟩

/-- A quotient of a well-formed term is well-formed. -/
theorem WellFormed.divide {t : Term (Exact rules)} (h : t.WellFormed)
    (divisor : Term (Exact rules)) : (t.divide divisor).WellFormed :=
  ⟨h.toReduced.divide divisor, h.nested⟩

/-- A sum of similar well-formed terms is well-formed. -/
theorem WellFormed.merge? {t other total : Term (Exact rules)} (h : t.WellFormed)
    (hmerge : t.merge? other = some total) : total.WellFormed := by
  obtain ⟨-, rfl⟩ := merge?_eq_some_iff.mp hmerge
  exact ⟨⟨h.variablePowers, h.functionPowers⟩, h.nested⟩

/-- Multiplication by factors that are kept whole puts them at the end. -/
theorem foldl_multiply_whole {factors : List (Expr (Exact rules))}
    (h : ∀ factor ∈ factors, factor.KeptWhole) (t : Term (Exact rules)) :
    factors.foldl (fun t factor => t.multiply (ofFactor factor)) t =
      { t with nested := t.nested ++ factors } := by
  induction factors generalizing t with
  | nil => rw [List.foldl_nil, List.append_nil]
  | cons factor rest ih =>
    obtain ⟨hfactor, hrest⟩ := List.forall_mem_cons.mp h
    have hstep : t.multiply (ofFactor factor) = { t with nested := t.nested ++ [factor] } := by
      rw [hfactor.ofFactor_eq, multiply]
      simp only [Term.whole, Exact.one_eq, mul_one]
      rfl
    rw [List.foldl_cons, hstep, ih hrest]
    simp

/-- The coefficient that is read where a term is written. One near one is not written in front of
other factors, and one near minus one is written as minus one. -/
def writtenCoefficient (t : Term (Exact rules)) : Exact rules :=
  if t.baseFactors.isEmpty then t.coefficient
  else if Scalar.isUnit t.coefficient then 1
  else if Scalar.near t.coefficient (Scalar.ofInt (-1)) then Scalar.ofInt (-1)
  else t.coefficient

/-- A coefficient is read as one near it. -/
theorem near_writtenCoefficient (t : Term (Exact rules)) :
    Scalar.near t.writtenCoefficient t.coefficient = true := by
  unfold writtenCoefficient
  split
  · exact Exact.near_self _
  split
  · next hunit => rwa [Scalar.isUnit, Exact.one_eq, Exact.near_comm] at hunit
  split
  · next hminus => rwa [Exact.near_comm] at hminus
  · exact Exact.near_self _

/-- The term that is read where a term is written. -/
def asWritten (t : Term (Exact rules)) : Term (Exact rules) where
  coefficient := t.writtenCoefficient
  variablePowers := t.variablePowers.asWritten
  functionPowers := t.functionPowers.asWritten
  nested := t.nested

/-- The factors of a term give back the term when they multiply a number. -/
theorem WellFormed.foldl_baseFactors {t : Term (Exact rules)} (h : t.WellFormed)
    (value : Exact rules) :
    t.baseFactors.foldl (fun t factor => t.multiply (ofFactor factor)) (constant value) =
      { t.asWritten with coefficient := value } := by
  have hfunctions (entry : FunctionKey (Exact rules) × Exact rules)
      (hentry : entry ∈ t.functionPowers.sorted) : Scalar.vanishes entry.2 = false :=
    h.functionPowers.vanishes_eq_false entry (t.functionPowers.sorted_perm.mem_iff.mp hentry)
  have hmerged : (t.variablePowers.entries.map fun entry =>
        (entry.1, writtenExponent entry.2)).foldl
      (fun powers entry => powers.accumulate entry.1 entry.2) VariablePowers.empty =
        t.variablePowers.asWritten := h.variablePowers.asWritten.empty_merge
  have hordered : (t.functionPowers.sorted.map fun entry =>
        (entry.1, writtenExponent entry.2)).foldl
      (fun powers entry => powers.accumulate entry.1 entry.2) FunctionPowers.empty =
        t.functionPowers.asWritten := h.functionPowers.asWritten.empty_merge
  rw [baseFactors, h.variableFactors_eq, h.functionFactors_eq, List.foldl_append,
    List.foldl_append, foldl_multiply_variables h.variablePowers,
    foldl_multiply_functions hfunctions, foldl_multiply_whole h.nested]
  simp only [constant, hmerged, hordered, List.nil_append]
  rfl

/-- The factors of a term are not products. -/
theorem WellFormed.factors_of_mem {t : Term (Exact rules)} (h : t.WellFormed)
    {factor : Expr (Exact rules)} (hf : factor ∈ t.baseFactors) : factor.factors = [factor] := by
  have hpower (base : Expr (Exact rules)) (exponent : Exact rules)
      (hbase : base.factors = [base]) :
      (powerExpr base exponent).factors = [powerExpr base exponent] := by
    unfold powerExpr
    split
    · exact hbase
    · rfl
  obtain ⟨entry, -, rfl⟩ | ⟨entry, -, rfl⟩ | hf := cases_of_mem_baseFactors hf
  · exact hpower _ _ rfl
  · exact hpower _ _ rfl
  · exact Expr.factors_eq_singleton (h.nested factor hf).ne_mul

/-- A term that does not vanish is read as it is written. -/
theorem WellFormed.ofExpr_toExpr {t : Term (Exact rules)} (h : t.WellFormed)
    (hne : t.isZero = false) : ofExpr t.toExpr = t.asWritten := by
  have hfactors (hfull : ¬t.baseFactors.isEmpty = true) :
      (Expr.product t.baseFactors).factors = t.baseFactors :=
    Expr.factors_product (mt List.isEmpty_iff.mpr hfull) fun factor hf => h.factors_of_mem hf
  have hscaled (hfull : ¬t.baseFactors.isEmpty = true) (value : Exact rules) :
      ofExpr (.mul (.const value) (.product t.baseFactors)) =
        { t.asWritten with coefficient := value } := by
    rw [ofExpr_eq_foldl, Expr.factors_mul, hfactors hfull, ← h.foldl_baseFactors]
    exact congrArg (List.foldl _ · _) (reduced_constant value).unit_multiply
  have hread : t.asWritten = { t.asWritten with coefficient := t.writtenCoefficient } := rfl
  rw [hread, toExpr, writtenCoefficient, if_neg (Bool.eq_false_iff.mp hne)]
  split
  · next hempty =>
    rw [← h.foldl_baseFactors, List.isEmpty_iff.mp hempty]
    rfl
  · next hfull =>
    split
    · rw [ofExpr_eq_foldl, hfactors hfull, ← h.foldl_baseFactors, unit, Exact.one_eq]
    · split
      · exact hscaled hfull _
      · exact hscaled hfull _

/-- Terms are similar when both tables count as the same and the factors kept whole are the same
place by place. -/
theorem similar_iff_forall₂ {t other : Term (Exact rules)} :
    t.similar other = true ↔ t.variablePowers.same other.variablePowers = true ∧
      t.functionPowers.same other.functionPowers = true ∧
      List.Forall₂ (fun first second => first.same second = true) t.nested other.nested := by
  rw [similar, Bool.and_assoc, Bool.and_eq_true,
    zip_all_iff_forall₂ Expr.same fun _ _ => Iff.rfl, Bool.and_eq_true, and_assoc]

/-- A well-formed term is read as a similar one. -/
theorem WellFormed.similar_asWritten {t : Term (Exact rules)} (h : t.WellFormed) :
    t.asWritten.similar t = true ∧ t.similar t.asWritten = true := by
  have hnested : List.Forall₂ (fun first second => first.same second = true) t.nested t.nested :=
    List.forall₂_same.mpr fun e _ => e.same_self
  obtain ⟨hvariables, hvariables'⟩ := t.variablePowers.same_asWritten
  obtain ⟨hfunctions, hfunctions'⟩ := h.functionPowers.same_asWritten
  exact ⟨similar_iff_forall₂.mpr ⟨hvariables, hfunctions, hnested⟩,
    similar_iff_forall₂.mpr ⟨hvariables', hfunctions', hnested⟩⟩

/-- Reading an expression gives a well-formed term, and products, quotients and sums of well-formed
terms are well-formed. A well-formed term in writing is read as zero where it vanishes, and
otherwise as a similar term with a coefficient near its own and with the same factors kept whole. -/
theorem wellFormed_and_read_back :
    (∀ e : Expr (Exact rules), (ofExpr e).WellFormed) ∧
      (∀ t other : Term (Exact rules), t.WellFormed → other.WellFormed →
        (t.multiply other).WellFormed ∧ (t.divide other).WellFormed ∧
          ∀ total, t.merge? other = some total → total.WellFormed) ∧
      ∀ t : Term (Exact rules), t.WellFormed →
        (t.isZero = true → ofExpr t.toExpr = constant 0) ∧
          (t.isZero = false →
            (ofExpr t.toExpr).similar t = true ∧ t.similar (ofExpr t.toExpr) = true ∧
              Scalar.near (ofExpr t.toExpr).coefficient t.coefficient = true ∧
              (ofExpr t.toExpr).nested = t.nested) := by
  refine ⟨wellFormed_ofExpr, fun t other ht ho => ⟨ht.multiply ho, ht.divide other,
    fun total => ht.merge?⟩, fun t ht => ⟨fun hzero => ?_, fun hne => ?_⟩⟩
  · rw [toExpr, if_pos hzero]
    exact congrArg constant Exact.zero_eq
  · obtain ⟨hsimilar, hsimilar'⟩ := ht.similar_asWritten
    rw [ht.ofExpr_toExpr hne]
    exact ⟨hsimilar, hsimilar', t.near_writtenCoefficient, rfl⟩

/-- The term `(1 + 1/10^11) * x^-2 * y^(1 - 1/10^11) * tan(x)^(1/2) * sin(x)^3 * (x / y)`. -/
def nearlyMonic : Term (Exact .standard) where
  coefficient := 1 + 1 / Scalar.ofInt (10 ^ 11)
  variablePowers := .ofList [("x", Scalar.ofInt (-2)), ("y", 1 - 1 / Scalar.ofInt (10 ^ 11))]
  functionPowers :=
    ⟨[(⟨"tan", .var "x"⟩, 1 / Scalar.ofInt 2), (⟨"sin", .var "x"⟩, Scalar.ofInt 3)]⟩
  nested := [.div (.var "x") (.var "y")]

theorem wellFormed_and_read_back_nearlyMonic :
    nearlyMonic.WellFormed ∧ nearlyMonic.isZero = false ∧
      (ofExpr nearlyMonic.toExpr).similar nearlyMonic = true ∧
      nearlyMonic.similar (ofExpr nearlyMonic.toExpr) = true ∧
      Scalar.near (ofExpr nearlyMonic.toExpr).coefficient nearlyMonic.coefficient = true ∧
      (ofExpr nearlyMonic.toExpr).nested = [.div (.var "x") (.var "y")] := by
  have hvariables : nearlyMonic.variablePowers.Reduced := by
    change ∀ entry ∈ nearlyMonic.variablePowers.entries, _
    decide +kernel
  have hfunctions : nearlyMonic.functionPowers.Reduced :=
    ⟨by decide +kernel, by decide +kernel⟩
  have hwell : nearlyMonic.WellFormed :=
    ⟨⟨hvariables, hfunctions⟩, List.forall_mem_singleton.mpr rfl⟩
  have hne : nearlyMonic.isZero = false := by decide +kernel
  exact ⟨hwell, hne, (wellFormed_and_read_back.2.2 nearlyMonic hwell).2 hne⟩

end Term

end SymbolicForms
