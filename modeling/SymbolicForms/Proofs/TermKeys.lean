import SymbolicForms.Proofs.KeyReading

/-!
# Keys of terms

The key of a term joins the keys of its powers by multiplication signs. Read
from the left, each power begins with a name or a parenthesis, so the key of a
term gives back the list of its powers, and this list gives back the variables,
the functions in the order of their texts, and the factors kept whole. Sorting
the functions depends on nothing but the functions.
-/

namespace SymbolicForms

/-- A factor that expansion keeps whole: a quotient, or a power of joined operands. -/
def Expr.staysWhole {K : Type} : Expr K → Bool
  | .binary .div _ _ => true
  | .binary .pow (.binary _ _ _) (.const _) => true
  | _ => false

/-- The first character behind a power is a multiplication sign. -/
def Continues (rest : List Char) : Prop := ∀ c ∈ rest.head?, c = '*'

/-- Behind a power, a key may stop. -/
theorem Continues.stops {rest : List Char} (h : Continues rest) : Stops rest := by
  intro c hc
  rw [h c hc]
  exact ⟨rfl, by decide⟩

namespace Term

/-- A term of a vocabulary that keeps whole only what has to be. -/
structure Collected {rules : Exactness} (v : Vocabulary rules) (t : Term (Exact rules)) : Prop
    extends t.Within v where
  /-- Quotients and powers of joined operands are kept whole. -/
  whole : ∀ e ∈ t.nested, e.staysWhole = true

/-- A term of a vocabulary that keeps whole nothing but joined operands. -/
structure Joined {rules : Exactness} (v : Vocabulary rules) (t : Term (Exact rules)) : Prop
    extends t.Within v where
  /-- What is kept whole has an operator. -/
  joined : ∀ e ∈ t.nested, ∃ op left right, e = .binary op left right

/-- A collected term keeps whole nothing but joined operands. -/
theorem Collected.joined {rules : Exactness} {v : Vocabulary rules} {t : Term (Exact rules)}
    (h : t.Collected v) : t.Joined v := by
  refine ⟨h.toWithin, fun e he => ?_⟩
  have hwhole := h.whole e he
  cases e with
  | binary op left right => exact ⟨op, left, right, rfl⟩
  | _ => cases hwhole

/-- An expression of a vocabulary is read as a term that keeps whole nothing but joined operands. -/
theorem joined_ofExpr {rules : Exactness} {v : Vocabulary rules} {e : Expr (Exact rules)}
    (h : e.Within v) : (ofExpr e).Joined v :=
  ⟨within_ofExpr h, fun kept hkept => ((wellFormed_ofExpr e).nested kept hkept).exists_binary⟩

variable {K : Type} [Scalar K]

/-- The powers of a term in the order in which its key shows them. -/
def keyPowers (t : Term K) : List (Expr K × K) :=
  (t.variablePowers.entries.map fun entry => (.var entry.1, entry.2)) ++
    (t.functionPowers.sorted.map fun entry => (entry.1.toExpr, entry.2)) ++
    t.nested.map fun e => (e, Scalar.one)

/-- The characters of powers, with a multiplication sign in front of each. -/
def keyTail (powers : List (Expr K × K)) : List Char :=
  powers.flatMap fun power => '*' :: (powerKey power.1.key power.2).toList

/-- Parts are added to a key with multiplication signs in front. -/
theorem toList_foldl_appendKeyPart {text : String} (h : text ≠ "") (parts : List String) :
    (parts.foldl appendKeyPart text).toList =
      text.toList ++ parts.flatMap fun part => '*' :: part.toList := by
  induction parts generalizing text with
  | nil => exact (List.append_nil _).symm
  | cons part rest ih =>
    have hempty : text.isEmpty = false := Bool.eq_false_iff.mpr (mt String.isEmpty_iff.mp h)
    have hnext : (appendKeyPart text part).toList = text.toList ++ '*' :: part.toList := by
      simp [appendKeyPart, hempty]
    have hnonempty : appendKeyPart text part ≠ "" := by
      rw [← String.toList_eq_nil_iff.ne, hnext]
      simp
    rw [List.foldl_cons, ih hnonempty, hnext, List.flatMap_cons, List.append_assoc]

/-- Powers of a vocabulary whose exponents are integers. -/
def PowersWithin {rules : Exactness}
    (powers : List (Expr (Exact rules) × Exact rules)) : Prop :=
  ∀ power ∈ powers, power.1.Within (.integers IsIdentifier) ∧ ∃ n : ℤ, power.2 = n

section Reading

variable {rules : Exactness} (hw : rules.WritesIntegers)

/-- The parts of a key are those of the powers. -/
theorem baseKeyParts_eq (t : Term (Exact rules)) :
    t.baseKeyParts = t.keyPowers.map fun power => powerKey power.1.key power.2 := by
  have hunit : Scalar.isUnit (1 : Exact rules) = true := by simp [Scalar.isUnit]
  rw [keyPowers, List.map_append, List.map_append, List.map_map, List.map_map, List.map_map]
  refine congrArg₂ (· ++ ·) rfl (List.map_congr_left fun e _ => ?_)
  simp [powerKey, hunit]

/-- The characters of a power are those of its base and, unless it is one, its exponent. -/
theorem toList_powerKey (base : String) (exponent : Exact rules) :
    (powerKey base exponent).toList = base.toList ++
      if Scalar.isUnit exponent then [] else '^' :: (Scalar.text exponent).toList := by
  unfold powerKey
  split <;> simp

include hw

/-- A power is read in one way. -/
theorem powerKey_append_inj {e e' : Expr (Exact rules)} (h : e.Within (.integers IsIdentifier))
    (h' : e'.Within (.integers IsIdentifier)) {m n : ℤ} {rest rest' : List Char}
    (hrest : Continues rest) (hrest' : Continues rest')
    (heq : (powerKey e.key (m : Exact rules)).toList ++ rest =
      (powerKey e'.key (n : Exact rules)).toList ++ rest') :
    e = e' ∧ m = n ∧ rest = rest' := by
  have hunit (k : ℤ) : Scalar.isUnit (k : Exact rules) = true ↔ k = 1 := by
    rw [Scalar.isUnit, Exact.one_eq, ← Int.cast_one, Exact.near_intCast]
  have hbehind {k : ℤ} {rest : List Char} (hrest : Continues rest) : Stops
      ((if Scalar.isUnit (k : Exact rules) then [] else
        '^' :: (Scalar.text (k : Exact rules)).toList) ++ rest) := by
    split
    · exact hrest.stops
    · exact stops_cons (by decide) (by decide) _
  have hnoPower {rest tail : List Char} (hrest : Continues rest) (h : rest = '^' :: tail) :
      False := by
    rw [h] at hrest
    exact absurd (hrest '^' rfl) (by decide)
  rw [toList_powerKey, toList_powerKey, List.append_assoc, List.append_assoc] at heq
  obtain ⟨rfl, hexponents⟩ := Expr.key_append_inj hw h h' (hbehind hrest) (hbehind hrest') heq
  refine ⟨rfl, ?_⟩
  by_cases hm : m = 1 <;> by_cases hn : n = 1
  · subst hm hn
    exact ⟨rfl, by simpa [hunit] using hexponents⟩
  · rw [if_pos ((hunit m).mpr hm), if_neg (mt (hunit n).mp hn)] at hexponents
    exact (hnoPower hrest hexponents).elim
  · rw [if_neg (mt (hunit m).mp hm), if_pos ((hunit n).mpr hn)] at hexponents
    exact (hnoPower hrest' hexponents.symm).elim
  · rw [if_neg (mt (hunit m).mp hm), if_neg (mt (hunit n).mp hn)] at hexponents
    exact text_append_inj hw hrest.stops hrest'.stops (List.cons.inj hexponents).2

/-- A list of powers is read in one way. -/
theorem keyTail_inj {powers powers' : List (Expr (Exact rules) × Exact rules)}
    (h : PowersWithin powers) (h' : PowersWithin powers')
    (heq : keyTail powers = keyTail powers') : powers = powers' := by
  have hcontinues (powers : List (Expr (Exact rules) × Exact rules)) :
      Continues (keyTail powers) := by
    cases powers with
    | nil => simp [keyTail, Continues]
    | cons power rest => exact fun c hc => (Option.some.inj hc).symm
  induction powers generalizing powers' with
  | nil =>
    cases powers' with
    | nil => rfl
    | cons power rest => cases heq
  | cons power rest ih =>
    obtain ⟨base, exponent⟩ := power
    obtain ⟨⟨hbase, m, hm⟩, hrest⟩ := List.forall_mem_cons.mp h
    cases powers' with
    | nil => cases heq
    | cons power' rest' =>
      obtain ⟨base', exponent'⟩ := power'
      obtain ⟨⟨hbase', n, hn⟩, hrest'⟩ := List.forall_mem_cons.mp h'
      dsimp only at hm hn hbase hbase'
      subst hm hn
      rw [keyTail, keyTail, List.flatMap_cons, List.flatMap_cons, List.cons_append,
        List.cons_append] at heq
      obtain ⟨rfl, rfl, htail⟩ := powerKey_append_inj hw hbase hbase' (hcontinues rest)
        (hcontinues rest') (List.cons.inj heq).2
      rw [ih hrest hrest' htail]

end Reading

variable {rules : Exactness}

/-- The powers of a term are from its vocabulary. -/
theorem Within.keyPowers {t : Term (Exact rules)} (h : t.Within (.integers IsIdentifier)) :
    PowersWithin t.keyPowers := by
  intro power hpower
  simp only [Term.keyPowers, List.mem_append, List.mem_map] at hpower
  obtain (⟨entry, hentry, rfl⟩ | ⟨entry, hentry, rfl⟩) | ⟨e, he, rfl⟩ := hpower
  · obtain ⟨hname, n, -, hn⟩ := h.variablePowers entry hentry
    exact ⟨hname, n, hn.trans (Int.cast_natCast n).symm⟩
  · obtain ⟨hfunction, ⟨n, hn, -⟩, -⟩ :=
      h.functionPowers.entries entry (t.functionPowers.sorted_perm.mem_iff.mp hentry)
    exact ⟨hfunction, n, hn⟩
  · exact ⟨h.nested e he, 1, by simp⟩

/-- The powers of a term do not begin like numbers. -/
theorem Joined.opening_ne {t : Term (Exact rules)} {v : Vocabulary rules} (h : t.Joined v)
    {power : Expr (Exact rules) × Exact rules} (hp : power ∈ t.keyPowers) :
    power.1.opening ≠ .number := by
  simp only [Term.keyPowers, List.mem_append, List.mem_map] at hp
  obtain (⟨entry, -, rfl⟩ | ⟨entry, -, rfl⟩) | ⟨e, he, rfl⟩ := hp
  · simp [Expr.opening]
  · simp [Expr.opening, FunctionKey.toExpr]
  · obtain ⟨op, left, right, rfl⟩ := h.joined e he
    simp [Expr.opening]

/-- A power of a variable. -/
def variablePower? : Expr (Exact rules) × Exact rules → Option (String × Exact rules)
  | (.var name, exponent) => some (name, exponent)
  | _ => none

/-- A power of a function. -/
def functionPower? :
    Expr (Exact rules) × Exact rules → Option (FunctionKey (Exact rules) × Exact rules)
  | (.func name argument, exponent) => some (⟨name, argument⟩, exponent)
  | _ => none

/-- Joined operands. -/
def joinedOperands? : Expr (Exact rules) × Exact rules → Option (Expr (Exact rules))
  | (.binary op left right, _) => some (.binary op left right)
  | _ => none

/-- Each kind of powers is found among the powers of a term. -/
theorem Joined.filterMap_keyPowers {t : Term (Exact rules)} {v : Vocabulary rules}
    (h : t.Joined v) :
    t.keyPowers.filterMap variablePower? = t.variablePowers.entries ∧
      t.keyPowers.filterMap functionPower? = t.functionPowers.sorted ∧
      t.keyPowers.filterMap joinedOperands? = t.nested := by
  have hvariable (e : Expr (Exact rules)) (he : e ∈ t.nested) : variablePower? (e, 1) = none := by
    obtain ⟨op, left, right, rfl⟩ := h.joined e he
    rfl
  have hfunction (e : Expr (Exact rules)) (he : e ∈ t.nested) : functionPower? (e, 1) = none := by
    obtain ⟨op, left, right, rfl⟩ := h.joined e he
    rfl
  have hwhole (e : Expr (Exact rules)) (he : e ∈ t.nested) :
      joinedOperands? (e, (1 : Exact rules)) = some e := by
    obtain ⟨op, left, right, rfl⟩ := h.joined e he
    rfl
  have hnested : (t.nested.filterMap fun e => joinedOperands? (e, (1 : Exact rules))) =
      t.nested := by
    rw [List.filterMap_congr hwhole, List.filterMap_some]
  simp only [Term.keyPowers, List.filterMap_append, List.filterMap_map, Function.comp_def,
    Exact.one_eq, List.filterMap_eq_nil_iff.mpr hvariable,
    List.filterMap_eq_nil_iff.mpr hfunction, hnested]
  simp [variablePower?, functionPower?, joinedOperands?, FunctionKey.toExpr]

variable (hw : rules.WritesIntegers)
include hw

/-- The key of a term without powers is the digit one; any other key has a sign in front of each
power but the first. -/
theorem Joined.toList_baseKey {t : Term (Exact rules)}
    (h : t.Joined (.integers IsIdentifier)) :
    (t.keyPowers = [] ∧ t.baseKey = "1") ∨
      (∃ first others, t.baseKey.toList = first :: others ∧ Opening.ofChar first ≠ .number) ∧
        '*' :: t.baseKey.toList = keyTail t.keyPowers := by
  have hparts := baseKeyParts_eq t
  have hpowers := h.toWithin.keyPowers
  have hopening (power : Expr (Exact rules) × Exact rules) (hp : power ∈ t.keyPowers) :
      power.1.opening ≠ .number := h.opening_ne hp
  cases hcases : t.keyPowers with
  | nil =>
    rw [hcases] at hparts
    exact Or.inl ⟨rfl, by simp [baseKey, hparts]⟩
  | cons power rest =>
    rw [hcases] at hparts hpowers hopening
    obtain ⟨first, others, hkey, hfirst⟩ :=
      Expr.exists_key_eq_cons hw (hpowers power List.mem_cons_self).1
    have hpart : (powerKey power.1.key power.2).toList = first :: (others ++
        if Scalar.isUnit power.2 then [] else '^' :: (Scalar.text power.2).toList) := by
      rw [toList_powerKey, hkey, List.cons_append]
    have hnonempty : powerKey power.1.key power.2 ≠ "" := by
      rw [← String.toList_eq_nil_iff.ne, hpart]
      exact List.cons_ne_nil _ _
    have hfold : (t.baseKeyParts.foldl appendKeyPart "").toList =
        (powerKey power.1.key power.2).toList ++ keyTail rest := by
      rw [hparts, List.map_cons, List.foldl_cons]
      change (List.foldl appendKeyPart (powerKey power.1.key power.2) _).toList = _
      rw [toList_foldl_appendKeyPart hnonempty, List.flatMap_map]
      rfl
    have hbase : t.baseKey.toList = (powerKey power.1.key power.2).toList ++ keyTail rest := by
      have hfull : (t.baseKeyParts.foldl appendKeyPart "").isEmpty = false := by
        rw [Bool.eq_false_iff, ne_eq, String.isEmpty_iff, ← String.toList_eq_nil_iff, hfold, hpart]
        exact List.cons_ne_nil _ _
      simp only [baseKey, hfull, Bool.false_eq_true, if_false, hfold]
    refine Or.inr ⟨⟨first, _, by rw [hbase, hpart, List.cons_append], ?_⟩, ?_⟩
    · rw [hfirst]
      exact hopening power List.mem_cons_self
    · rw [hbase, keyTail, keyTail, List.flatMap_cons, List.cons_append]

/-- Terms with one key have the same powers. -/
theorem keyPowers_eq_of_baseKey_eq {t other : Term (Exact rules)}
    (h : t.Joined (.integers IsIdentifier)) (ho : other.Joined (.integers IsIdentifier))
    (heq : t.baseKey = other.baseKey) : t.keyPowers = other.keyPowers := by
  have hnumber : Opening.ofChar '1' = .number := by decide
  have hone : ("1" : String).toList = ['1'] := rfl
  obtain ⟨hnone, hkey⟩ | ⟨⟨first, others, hkey, hfirst⟩, htail⟩ := h.toList_baseKey hw <;>
    obtain ⟨hnone', hkey'⟩ | ⟨⟨first', others', hkey', hfirst'⟩, htail'⟩ := ho.toList_baseKey hw
  · rw [hnone, hnone']
  · rw [← heq, hkey, hone] at hkey'
    obtain ⟨rfl, -⟩ := List.cons.inj hkey'
    exact absurd hnumber hfirst'
  · rw [heq, hkey', hone] at hkey
    obtain ⟨rfl, -⟩ := List.cons.inj hkey
    exact absurd hnumber hfirst
  · refine keyTail_inj hw h.toWithin.keyPowers ho.toWithin.keyPowers ?_
    rw [← htail, ← htail', heq]

/-- The key of a term gives back its variables, its functions in order, and the factors kept
whole. -/
theorem baseKey_inj {t other : Term (Exact rules)} (h : t.Joined (.integers IsIdentifier))
    (ho : other.Joined (.integers IsIdentifier)) (heq : t.baseKey = other.baseKey) :
    t.variablePowers = other.variablePowers ∧
      t.functionPowers.sorted = other.functionPowers.sorted ∧ t.nested = other.nested := by
  have hpowers := keyPowers_eq_of_baseKey_eq hw h ho heq
  obtain ⟨hvariables, hfunctions, hnested⟩ := h.filterMap_keyPowers
  obtain ⟨hvariables', hfunctions', hnested'⟩ := ho.filterMap_keyPowers
  rw [hpowers] at hvariables hfunctions hnested
  exact ⟨VariablePowers.eq_of_entries_eq (hvariables.symm.trans hvariables'),
    hfunctions.symm.trans hfunctions', hnested.symm.trans hnested'⟩

end Term

end SymbolicForms
