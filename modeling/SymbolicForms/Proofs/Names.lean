import SymbolicForms.Proofs.CanonicalMeaning
import Mathlib.Data.Set.Basic

/-!
# Names that occur in expressions

Rewriting rearranges the names of an expression without inventing variables.
Names are collected in two sets, one for variables and one for functions, and an
expression whose names lie in them is followed through chains, tables of
exponents and terms up to its canonical form. Nothing is assumed of the numbers:
whatever their operations return, they decide only where a name goes.
-/

namespace SymbolicForms

/-- Names of variables and functions. -/
structure Names where
  /-- The names of variables. -/
  variableNames : Set String
  /-- The names of functions. -/
  functionNames : Set String

variable {K : Type} {names : Names}

namespace Expr

/-- The names of the variables of an expression. -/
def variableNames : Expr K → Set String
  | .const _ => ∅
  | .var name => {name}
  | .func _ argument => variableNames argument
  | .binary _ left right => variableNames left ∪ variableNames right

/-- The names of the functions of an expression. -/
def functionNames : Expr K → Set String
  | .const _ => ∅
  | .var _ => ∅
  | .func name argument => insert name (functionNames argument)
  | .binary _ left right => functionNames left ∪ functionNames right

/-- The names of an expression are among given ones. -/
def NamesIn (names : Names) : Expr K → Prop
  | .const _ => True
  | .var name => name ∈ names.variableNames
  | .func name argument => name ∈ names.functionNames ∧ NamesIn names argument
  | .binary _ left right => NamesIn names left ∧ NamesIn names right

/-- The names of an expression are among given ones when its variables and its functions are. -/
theorem namesIn_iff (e : Expr K) : e.NamesIn names ↔
    e.variableNames ⊆ names.variableNames ∧ e.functionNames ⊆ names.functionNames := by
  induction e with
  | const value => simp [NamesIn, variableNames, functionNames]
  | var name => simp [NamesIn, variableNames, functionNames]
  | func name argument ih =>
    simp only [NamesIn, ih, variableNames, functionNames, Set.insert_subset_iff]
    exact and_left_comm
  | binary op left right ihl ihr =>
    simp only [NamesIn, ihl, ihr, variableNames, functionNames, Set.union_subset_iff]
    exact and_and_and_comm

/-- The factors of an expression have no other names. -/
theorem NamesIn.of_mem_factors {e factor : Expr K} (h : e.NamesIn names)
    (hf : factor ∈ e.factors) : factor.NamesIn names :=
  forall_mem_factors (fun _ _ h => h) h factor hf

variable [Scalar K]

/-- A product has the names of its factors. -/
theorem namesIn_product {es : List (Expr K)} (h : ∀ e ∈ es, e.NamesIn names) :
    (product es).NamesIn names := product_induction trivial (fun _ _ hl hr => ⟨hl, hr⟩) h

/-- A sum has the names of its addends. -/
theorem namesIn_sum {es : List (Expr K)} (h : ∀ e ∈ es, e.NamesIn names) :
    (sum es).NamesIn names := sum_induction trivial (fun _ _ hl hr => ⟨hl, hr⟩) h

/-- A negated addend has the names of the addend. -/
theorem NamesIn.negateAddend {e : Expr K} (h : e.NamesIn names) :
    e.negateAddend.NamesIn names :=
  negateAddend_induction (P := Expr.NamesIn names) (fun _ => trivial) (fun _ _ h => h.2)
    (fun _ _ h => ⟨trivial, h⟩) h

/-- The addends of an expression have no other names. -/
theorem NamesIn.of_mem_addends {e addend : Expr K} (h : e.NamesIn names)
    (ha : addend ∈ e.addends) : addend.NamesIn names :=
  forall_mem_addends (P := Expr.NamesIn names) (Q := Expr.NamesIn names) (fun _ _ h => h)
    (fun _ _ h => h) (fun _ _ h => h) (fun _ h => h.negateAddend) h addend ha

end Expr

namespace VariablePowers

/-- The variables of a table are among given ones. -/
def NamesIn (names : Names) (powers : VariablePowers K) : Prop :=
  ∀ entry ∈ powers.entries, entry.1 ∈ names.variableNames

theorem namesIn_empty : (empty : VariablePowers K).NamesIn names := List.forall_mem_nil _

/-- A table with one variable has no other. -/
theorem namesIn_single {name : String} (hn : name ∈ names.variableNames) (exponent : K) :
    (single name exponent).NamesIn names :=
  List.forall_mem_singleton.mpr hn

variable [Scalar K]

/-- Accumulation brings in no variable but its own. -/
theorem NamesIn.accumulate {powers : VariablePowers K} (h : powers.NamesIn names) {name : String}
    (hn : name ∈ names.variableNames) (exponent : K) :
    (powers.accumulate name exponent).NamesIn names := by
  intro entry hentry
  unfold VariablePowers.accumulate at hentry
  dsimp only at hentry
  split at hentry
  · exact h entry (List.mem_filter.mp hentry).1
  · obtain rfl | hmem := mem_insertEntry hentry
    · exact hn
    · exact h entry hmem

/-- Accumulating some exponents for each entry of a list brings in no variable outside the list. -/
theorem NamesIn.foldl_accumulate (exponent : String × K → K) {entries : List (String × K)}
    (he : ∀ entry ∈ entries, entry.1 ∈ names.variableNames) {powers : VariablePowers K}
    (h : powers.NamesIn names) :
    (entries.foldl (fun powers entry => powers.accumulate entry.1 (exponent entry))
      powers).NamesIn names := by
  induction entries generalizing powers with
  | nil => exact h
  | cons entry rest ih =>
    obtain ⟨hentry, hrest⟩ := List.forall_mem_cons.mp he
    exact ih hrest (h.accumulate hentry _)

/-- Merged tables have the variables of both. -/
theorem NamesIn.merge {powers other : VariablePowers K} (h : powers.NamesIn names)
    (ho : other.NamesIn names) : (powers.merge other).NamesIn names :=
  NamesIn.foldl_accumulate Prod.snd ho h

/-- Subtracting exponents brings in no variable outside the two tables. -/
theorem NamesIn.remove {powers other : VariablePowers K} (h : powers.NamesIn names)
    (ho : other.NamesIn names) : (powers.remove other).NamesIn names :=
  NamesIn.foldl_accumulate (fun entry => -entry.2) ho h

end VariablePowers

namespace FunctionPowers

/-- The names of the functions of a table and those in their arguments are among given ones. -/
def NamesIn (names : Names) (powers : FunctionPowers K) : Prop :=
  ∀ entry ∈ powers.entries, entry.1.toExpr.NamesIn names

theorem namesIn_empty : (empty : FunctionPowers K).NamesIn names := List.forall_mem_nil _

variable [Scalar K]

/-- Accumulation brings in no names but those of its function. -/
theorem NamesIn.accumulate {powers : FunctionPowers K} (h : powers.NamesIn names)
    {function : FunctionKey K} (hf : function.toExpr.NamesIn names) (exponent : K) :
    (powers.accumulate function exponent).NamesIn names := by
  intro entry hentry
  obtain heq | hmem := fst_of_mem_accumulateEntry hentry
  · exact heq ▸ hf
  · obtain ⟨old, hold, heq⟩ := List.mem_map.mp hmem
    exact heq ▸ h old hold

/-- Accumulating some exponents for each entry of a list brings in no names outside the list. -/
theorem NamesIn.foldl_accumulate (exponent : FunctionKey K × K → K)
    {entries : List (FunctionKey K × K)} (he : ∀ entry ∈ entries, entry.1.toExpr.NamesIn names)
    {powers : FunctionPowers K} (h : powers.NamesIn names) :
    (entries.foldl (fun powers entry => powers.accumulate entry.1 (exponent entry))
      powers).NamesIn names := by
  intro entry hentry
  obtain hold | hnew := fst_of_mem_foldl_accumulate exponent hentry
  · obtain ⟨old, hmem, heq⟩ := List.mem_map.mp hold
    exact heq ▸ h old hmem
  · obtain ⟨new, hmem, heq⟩ := List.mem_map.mp hnew
    exact heq ▸ he new hmem

/-- Merged tables have the names of both. -/
theorem NamesIn.merge {powers other : FunctionPowers K} (h : powers.NamesIn names)
    (ho : other.NamesIn names) : (powers.merge other).NamesIn names :=
  NamesIn.foldl_accumulate Prod.snd ho h

/-- Subtracting exponents brings in no names outside the two tables. -/
theorem NamesIn.remove {powers other : FunctionPowers K} (h : powers.NamesIn names)
    (ho : other.NamesIn names) : (powers.remove other).NamesIn names :=
  NamesIn.foldl_accumulate (fun entry => -entry.2) ho h

/-- A table with one function has no other names. -/
theorem namesIn_single {function : FunctionKey K} (hf : function.toExpr.NamesIn names)
    (exponent : K) : (single function exponent).NamesIn names :=
  namesIn_empty.accumulate hf exponent

/-- Giving a function an exponent brings in no names but those of the function. -/
theorem NamesIn.set {powers : FunctionPowers K} (h : powers.NamesIn names)
    {function : FunctionKey K} (hf : function.toExpr.NamesIn names) (exponent : K) :
    (powers.set function exponent).NamesIn names := by
  intro entry hentry
  obtain hkept | ⟨rfl, -⟩ := mem_set_iff.mp hentry
  · exact h entry (mem_erase_iff.mp hkept).1
  · exact hf

end FunctionPowers

namespace Term

/-- The names of a term are among given ones. -/
structure NamesIn (names : Names) (t : Term K) : Prop where
  /-- The variables are. -/
  variablePowers : t.variablePowers.NamesIn names
  /-- The functions and the names in their arguments are. -/
  functionPowers : t.functionPowers.NamesIn names
  /-- The names in the factors that are kept whole are. -/
  nested : ∀ e ∈ t.nested, e.NamesIn names

theorem namesIn_constant (value : K) : (constant value).NamesIn names :=
  ⟨VariablePowers.namesIn_empty, FunctionPowers.namesIn_empty, List.forall_mem_nil _⟩

variable [Scalar K]

theorem namesIn_whole {e : Expr K} (h : e.NamesIn names) : (whole e).NamesIn names :=
  ⟨VariablePowers.namesIn_empty, FunctionPowers.namesIn_empty, List.forall_mem_singleton.mpr h⟩

theorem namesIn_ofVariables {powers : VariablePowers K} (h : powers.NamesIn names) :
    (ofVariables powers).NamesIn names :=
  ⟨h, FunctionPowers.namesIn_empty, List.forall_mem_nil _⟩

theorem namesIn_ofFunctions {powers : FunctionPowers K} (h : powers.NamesIn names) :
    (ofFunctions powers).NamesIn names :=
  ⟨VariablePowers.namesIn_empty, h, List.forall_mem_nil _⟩

/-- A product of terms has the names of both. -/
theorem NamesIn.multiply {t other : Term K} (h : t.NamesIn names) (ho : other.NamesIn names) :
    (t.multiply other).NamesIn names where
  variablePowers := h.variablePowers.merge ho.variablePowers
  functionPowers := h.functionPowers.merge ho.functionPowers
  nested := List.forall_mem_append.mpr ⟨h.nested, ho.nested⟩

/-- A quotient of terms has the names of both. -/
theorem NamesIn.divide {t divisor : Term K} (h : t.NamesIn names) (hd : divisor.NamesIn names) :
    (t.divide divisor).NamesIn names where
  variablePowers := h.variablePowers.remove hd.variablePowers
  functionPowers := h.functionPowers.remove hd.functionPowers
  nested := h.nested

/-- A power read as a term has the names of its base. -/
theorem namesIn_ofPower {base : Expr K} (h : base.NamesIn names) (exponent : K) :
    (ofPower base exponent).NamesIn names := by
  have hpower : (Expr.pow base (.const exponent)).NamesIn names := ⟨h, trivial⟩
  cases base with
  | var name => exact namesIn_ofVariables (VariablePowers.namesIn_empty.accumulate h exponent)
  | const value =>
    unfold ofPower
    dsimp only
    split
    · exact namesIn_constant _
    · exact namesIn_whole hpower
  | func name argument => exact namesIn_ofFunctions (FunctionPowers.namesIn_single h exponent)
  | binary op left right => exact namesIn_whole hpower

/-- A factor read as a term has the names of the factor. -/
theorem namesIn_ofFactor {e : Expr K} (h : e.NamesIn names) : (ofFactor e).NamesIn names := by
  unfold ofFactor
  split
  · exact namesIn_constant _
  · exact namesIn_ofVariables (VariablePowers.namesIn_single h _)
  · exact namesIn_ofFunctions (FunctionPowers.namesIn_single h _)
  · exact namesIn_ofPower h.1 _
  · exact namesIn_whole h

/-- An expression read as a term has the names of the expression. -/
theorem namesIn_ofExpr {e : Expr K} (h : e.NamesIn names) : (ofExpr e).NamesIn names :=
  ofExpr_induction (namesIn_constant _) (fun _ _ ht ho => ht.multiply ho) fun _ hf =>
    namesIn_ofFactor (h.of_mem_factors hf)

/-- A power with the exponent one left out has the names of its base. -/
theorem namesIn_powerExpr {base : Expr K} (h : base.NamesIn names) (exponent : K) :
    (powerExpr base exponent).NamesIn names := by
  unfold powerExpr
  split
  · exact h
  · exact ⟨h, trivial⟩

/-- The factors of a term have its names. -/
theorem NamesIn.of_mem_baseFactors {t : Term K} (h : t.NamesIn names) {e : Expr K}
    (he : e ∈ t.baseFactors) : e.NamesIn names := by
  obtain ⟨entry, hentry, rfl⟩ | ⟨entry, hentry, rfl⟩ | hnested := cases_of_mem_baseFactors he
  · have hvar : (Expr.var entry.1 : Expr K).NamesIn names := h.variablePowers entry hentry
    exact namesIn_powerExpr hvar _
  · exact namesIn_powerExpr (h.functionPowers entry hentry) _
  · exact h.nested e hnested

/-- A term as an expression has its names. -/
theorem NamesIn.toExpr {t : Term K} (h : t.NamesIn names) : t.toExpr.NamesIn names := by
  have hproduct : (Expr.product t.baseFactors).NamesIn names :=
    Expr.namesIn_product fun e he => h.of_mem_baseFactors he
  exact toExpr_induction (P := Expr.NamesIn names) (fun _ => trivial)
    (fun _ _ he => ⟨trivial, he⟩) hproduct

/-- Collecting like terms brings in no names. -/
theorem namesIn_mergeLike {terms : List (Term K)} (h : ∀ t ∈ terms, t.NamesIn names) :
    ∀ t ∈ mergeLike terms, t.NamesIn names := by
  intro t ht
  obtain ⟨source, hsource, coefficient, rfl⟩ := exists_of_mem_mergeLike ht
  exact ⟨(h source hsource).variablePowers, (h source hsource).functionPowers,
    (h source hsource).nested⟩

/-- A sum of terms has their names. -/
theorem namesIn_sumExpr {terms : List (Term K)} (h : ∀ t ∈ terms, t.NamesIn names) :
    (sumExpr terms).NamesIn names :=
  Expr.namesIn_sum (List.forall_mem_map.mpr fun t ht => (h t ht).toExpr)

end Term

namespace Expr

variable [Scalar K]

/-- A product of two factors has the names of both. -/
theorem NamesIn.multiplySimple {left right : Expr K} (hl : left.NamesIn names)
    (hr : right.NamesIn names) : (multiplySimple left right).NamesIn names := by
  have hterm := ((Term.namesIn_ofExpr hl).multiply (Term.namesIn_ofExpr hr)).toExpr
  exact multiplySimple_induction (P := Expr.NamesIn names) (fun _ => trivial) hl hr hterm

/-- A product that is multiplied out has the names of both factors. -/
theorem NamesIn.expandProduct {left right : Expr K} (hl : left.NamesIn names)
    (hr : right.NamesIn names) : (expandProduct left right).NamesIn names := by
  refine expandProduct_induction (P := Expr.NamesIn names) trivial
    (fun _ _ hl hr => ⟨hl, hr⟩) fun first hfirst second hsecond => ?_
  exact (hl.of_mem_addends hfirst).multiplySimple (hr.of_mem_addends hsecond)

/-- A base multiplied by itself has the names of the base. -/
theorem NamesIn.repeatedProduct {base : Expr K} (h : base.NamesIn names) (count : ℕ) :
    (repeatedProduct base count).NamesIn names := by
  induction count with
  | zero => exact h
  | succ count ih => exact ih.expandProduct h

/-- A power to a number has the names of its base. -/
theorem NamesIn.expandNumericPower {base : Expr K} (h : base.NamesIn names) (exponent : K) :
    (expandNumericPower base exponent).NamesIn names :=
  expandNumericPower_induction (P := Expr.NamesIn names) (fun _ => trivial) h h.repeatedProduct
    fun _ => ⟨h, trivial⟩

/-- A power has the names of its base and its exponent. -/
theorem NamesIn.expandPower {base exponent : Expr K} (hb : base.NamesIn names)
    (he : exponent.NamesIn names) : (expandPower base exponent).NamesIn names := by
  fun_induction Expr.expandPower base exponent with
  | case1 base inner outer ih => exact ih hb.1 trivial
  | case2 base exponent => exact hb.expandNumericPower _
  | case3 base exponent => exact ⟨hb, he⟩

/-- Multiplying out brings in no names. -/
theorem NamesIn.fullyExpand {e : Expr K} (h : e.NamesIn names) : e.fullyExpand.NamesIn names := by
  induction e with
  | const value => exact trivial
  | var name => exact h
  | func name argument ih => exact ⟨h.1, ih h.2⟩
  | binary op left right ihl ihr =>
    have hl := ihl h.1
    have hr := ihr h.2
    cases op with
    | mul => exact hl.expandProduct hr
    | pow => exact hl.expandPower hr
    | _ => exact ⟨hl, hr⟩

/-- The canonical form as one sum has no other names. -/
theorem NamesIn.canonicalSum {e : Expr K} (h : e.NamesIn names) :
    e.canonicalSum.NamesIn names := by
  have hterms : ∀ t ∈ e.fullyExpand.terms, t.NamesIn names :=
    List.forall_mem_map.mpr fun addend haddend =>
      Term.namesIn_ofExpr (h.fullyExpand.of_mem_addends haddend)
  refine Term.namesIn_sumExpr fun t ht => ?_
  exact Term.namesIn_mergeLike hterms t ((StableSort.sort_perm _ _).mem_iff.mp ht)

/-- The canonical form has no other names. -/
theorem NamesIn.canonicalForm {e : Expr K} (h : e.NamesIn names) :
    e.canonicalForm.NamesIn names := by
  unfold Expr.canonicalForm
  split
  · exact ⟨NamesIn.canonicalSum h.1, NamesIn.canonicalSum h.2⟩
  · exact h.canonicalSum

end Expr

end SymbolicForms
