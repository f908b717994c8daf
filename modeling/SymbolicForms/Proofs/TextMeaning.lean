import Mathlib.Algebra.Field.ZMod
import SymbolicForms.Proofs.TextGrammar

/-!
# Meaning of texts

The text of an expression is read with the value of the expression, although it
has the fewest parentheses and moves signs about: chains group to the left, so an
operand is written without parentheses only where its own chain may be continued
from the left. Each operator has a level, the loosest phrase that it forms, and
asks for a level at each side. An operand fits a place when its text is a phrase
of the level of its operator, and an atom unless it is joined or begins with a
minus sign; the parentheses are just those that make every operand fit.
-/

namespace SymbolicForms

variable {F : Type*}

/-- The phrases from the tightest to the loosest. -/
def Phrase.level : ℕ → Phrase F
  | 0 => .atom
  | 1 => .power
  | 2 => .unary
  | 3 => .term
  | _ => .expr

namespace Op

/-- The level of the phrase that an operator forms. -/
def level : Op → ℕ
  | .add => 4
  | .sub => 4
  | .mul => 3
  | .div => 3
  | .pow => 1

/-- The level of the phrases that an operator joins: the left operand of a chain may be a chain
itself, and so may the right operand of a sum or a product. -/
def operandLevel (op : Op) (isLeft : Bool) : ℕ :=
  match op, isLeft with
  | .pow, _ => 0
  | .div, false => 2
  | .sub, false => 3
  | op, _ => op.level

/-- An operand that is not grouped forms a phrase tight enough for its place. -/
theorem level_le_operandLevel {outer inner : Op} {isLeft : Bool}
    (h : outer.groups isLeft inner = false) : inner.level ≤ outer.operandLevel isLeft := by
  cases outer <;> cases isLeft <;> cases inner <;> first | decide | exact absurd h (by decide)

end Op

/-- The operator that joins a chain to the right of another operand. -/
def Chain.leading : Chain → Op
  | .product => .mul
  | .sum => .add

/-- The leading operator of a chain is one of its operators. -/
theorem Chain.leading_mem (kind : Chain) : kind.leading ∈ kind.operators := by
  cases kind <;> decide

/-- Joining a chain to an operand may be done operand by operand. -/
theorem Chain.leading_assoc [Field F] (power : F → F → F) {kind : Chain} {op : Op}
    (h : op ∈ kind.operators) (a b c : F) :
    kind.leading.inField power a (op.inField power b c) =
      op.inField power (kind.leading.inField power a b) c := by
  cases kind <;> simp only [operators, List.mem_cons, List.not_mem_nil, or_false] at h <;>
    obtain rfl | rfl := h
  · exact (mul_assoc a b c).symm
  · exact (mul_div_assoc a b c).symm
  · exact (add_assoc a b c).symm
  · exact (add_sub_assoc a b c).symm

namespace Reads

variable [Field F] {meaning : Reading F}

/-- A chain may have one operand only. -/
theorem of_operand (kind : Chain) {text : List Char} {value : F}
    (h : Reads meaning kind.operand text value) : Reads meaning (.chain kind) text value := by
  simpa only [List.append_nil] using h.chain .stop

/-- A phrase of one level is one of the next level. -/
theorem succ_level {n : ℕ} {text : List Char} {value : F}
    (h : Reads meaning (.level n) text value) : Reads meaning (.level (n + 1)) text value := by
  match n with
  | 0 => exact h.base
  | 1 => exact h.plain
  | 2 => exact of_operand .product h
  | 3 => exact of_operand .sum h
  | n + 4 => exact h

/-- A phrase of one level is one of every looser level. -/
theorem mono_level {m n : ℕ} (hmn : m ≤ n) {text : List Char} {value : F}
    (h : Reads meaning (.level m) text value) : Reads meaning (.level n) text value := by
  induction n, hmn using Nat.le_induction with
  | base => exact h
  | succ n hmn ih => exact ih.succ_level

/-- The rest of a chain may be continued. -/
theorem rest_append {kind : Chain} {start middle value : F} {first second : List Char}
    (h : Reads meaning (.rest kind start) first middle)
    (h' : Reads meaning (.rest kind middle) second value) :
    Reads meaning (.rest kind start) (first ++ second) value := by
  generalize hphrase : Phrase.rest kind start = phrase at h
  induction h generalizing start with
  | stop =>
    cases hphrase
    exact h'
  | next hop ho hr iho ihr =>
    cases hphrase
    rw [List.cons_append, List.append_assoc]
    exact .next hop ho (ihr h' rfl)
  | _ => cases hphrase

/-- The rest of a chain may continue from an operand in front of what was read. -/
theorem rest_shift {kind : Chain} {start value : F} {text : List Char} (front : F)
    (h : Reads meaning (.rest kind start) text value) :
    Reads meaning (.rest kind (kind.leading.inField meaning.power front start)) text
      (kind.leading.inField meaning.power front value) := by
  generalize hphrase : Phrase.rest kind start = phrase at h
  induction h generalizing start with
  | stop =>
    cases hphrase
    exact .stop
  | next hop ho hr iho ihr =>
    cases hphrase
    refine .next hop ho ?_
    rw [← kind.leading_assoc meaning.power hop]
    exact ihr rfl
  | _ => cases hphrase

/-- A chain may be continued by one operand. -/
theorem chain_snoc (kind : Chain) {op : Op} (hop : op ∈ kind.operators) {first second : List Char}
    {value value' : F} (h : Reads meaning (.chain kind) first value)
    (ho : Reads meaning kind.operand second value') :
    Reads meaning (.chain kind) (first ++ op.mark :: second)
      (op.inField meaning.power value value') := by
  cases h with
  | chain hf hr =>
    have hlast := hr.rest_append (.next hop ho .stop)
    rw [List.append_nil] at hlast
    rw [List.append_assoc]
    exact .chain hf hlast

/-- A chain may be continued by a chain of the same kind, behind its leading operator. -/
theorem chain_append (kind : Chain) {first second : List Char} {value value' : F}
    (h : Reads meaning (.chain kind) first value) (h' : Reads meaning (.chain kind) second value') :
    Reads meaning (.chain kind) (first ++ kind.leading.mark :: second)
      (kind.leading.inField meaning.power value value') := by
  cases h with
  | chain hf hr =>
    cases h' with
    | chain hf' hr' =>
      have hlast := hr.rest_append (.next kind.leading_mem hf' (hr'.rest_shift _))
      rw [List.append_assoc]
      exact .chain hf hlast

/-- A minus sign in front of a term gives its opposite. -/
theorem neg_term {text : List Char} {value : F} (h : Reads meaning .term text value) :
    Reads meaning .term ('-' :: text) (-value) := by
  cases h with
  | chain hf hr =>
    have hlast := hr.rest_shift (-1)
    rw [Chain.leading, Op.inField, Op.inField, neg_one_mul, neg_one_mul] at hlast
    have hfirst : Reads meaning Chain.product.operand _ _ := hf.neg
    exact .chain hfirst hlast

/-- Phrases of the levels that an operator asks for form one of its own level. -/
theorem join (op : Op) {left right : List Char} {value value' : F}
    (hl : Reads meaning (.level (op.operandLevel true)) left value)
    (hr : Reads meaning (.level (op.operandLevel false)) right value') :
    Reads meaning (.level op.level) (left ++ op.mark :: right)
      (op.inField meaning.power value value') := by
  cases op with
  | add => exact chain_append .sum hl hr
  | sub => exact chain_snoc .sum (by decide) hl hr
  | mul => exact chain_append .product hl hr
  | div => exact chain_snoc .product (by decide) hl hr
  | pow => exact hl.pow hr

end Reads

/-- A text begins with a minus sign exactly when its first character is one. -/
theorem startsNegative_iff (text : String) :
    startsNegative text = true ↔ text.toList.head? = some '-' := by
  rw [startsNegative, String.front?_eq, beq_iff_eq]

namespace Expr

variable [Field F] {K : Type}

/-- The level of the phrase that an expression forms; what is not joined may have a sign. -/
def level (e : Expr K) : ℕ :=
  match e.op? with
  | some op => op.level
  | none => 2

/-- A text may be put for an expression: it is a phrase of the level of the expression, and an atom
if nothing is joined and there is no sign. -/
structure Fits (meaning : Reading F) (e : Expr K) (text : String) (value : F) : Prop where
  /-- The text is a phrase of the level of the expression. -/
  phrase : Reads meaning (.level e.level) text.toList value
  /-- The text is an atom if nothing is joined and there is no sign. -/
  atom : e.op? = none → startsNegative text = false → Reads meaning .atom text.toList value

variable {meaning : Reading F}

/-- A text that fits is read as an expression. -/
theorem Fits.reads_expr {e : Expr K} {text : String} {value : F} (h : Fits meaning e text value) :
    Reads meaning .expr text.toList value := by
  have hloose : e.level ≤ 4 := by
    unfold Expr.level
    split
    · next op _ => cases op <;> decide
    · decide
  exact h.phrase.mono_level hloose

/-- An operand that fits is read at its place. -/
theorem Fits.reads_operandText {operand : Expr K} {text : String} {value : F}
    (h : Fits meaning operand text value) (outer : Op) (isLeft : Bool) :
    Reads meaning (.level (outer.operandLevel isLeft))
      (operandText outer isLeft operand text).toList value := by
  have hgroup : Reads meaning (.level (outer.operandLevel isLeft))
      (parenthesized text).toList value := by
    have hexpr := h.reads_expr
    have htext : (parenthesized text).toList = '(' :: (text.toList ++ [')']) := by
      simp [parenthesized]
    rw [htext]
    exact hexpr.group.mono_level (m := 0) (Nat.zero_le _)
  cases hop : operand.op? with
  | some inner =>
    have hlevel : operand.level = inner.level := by rw [Expr.level, hop]
    simp only [operandText, hop]
    split
    · exact hgroup
    · next hplain =>
      rw [Bool.or_eq_true, not_or, Bool.not_eq_true] at hplain
      exact h.phrase.mono_level (hlevel ▸ Op.level_le_operandLevel hplain.1)
  | none =>
    have hlevel : operand.level = 2 := by rw [Expr.level, hop]
    simp only [operandText, hop, Bool.false_or]
    split
    · exact hgroup
    · next hplain =>
      cases hnegative : startsNegative text with
      | false => exact (h.atom hop hnegative).mono_level (m := 0) (Nat.zero_le _)
      | true =>
        -- Only at the left of a chain is a sign left without parentheses.
        rw [hnegative, Bool.true_and] at hplain
        refine h.phrase.mono_level (hlevel ▸ ?_)
        cases outer <;> cases isLeft <;> first | decide | exact absurd rfl hplain

/-- Two operands that fit, joined by an operator, fit. -/
theorem Fits.infixText (op : Op) {left right : Expr K} {leftText rightText : String}
    {value value' : F} (hl : Fits meaning left leftText value)
    (hr : Fits meaning right rightText value') :
    Fits meaning (.binary op left right) (infixText op left leftText right rightText)
      (op.inField meaning.power value value') where
  phrase := by
    have htext : (Expr.infixText op left leftText right rightText).toList =
        (operandText op true left leftText).toList ++
          op.mark :: (operandText op false right rightText).toList := by
      simp [Expr.infixText, Op.toList_symbol]
    rw [htext]
    exact (hl.reads_operandText op true).join op (hr.reads_operandText op false)
  atom h := nomatch h

/-- A text that fits a difference fits every sum of its value. -/
theorem Fits.add_of_sub {left right other : Expr K} {text : String} {value value' : F}
    (h : Fits meaning (.sub left other) text value) (hvalue : value' = value) :
    Fits meaning (.add left right) text value' :=
  ⟨hvalue ▸ h.phrase, fun hop => nomatch hop⟩

end Expr

namespace Exact

variable {rules : Exactness}

/-- An integer counts as one when it is one. -/
theorem isUnit_intCast (n : ℤ) : Scalar.isUnit (n : Exact rules) = true ↔ n = 1 := by
  rw [Scalar.isUnit, one_eq, ← Int.cast_one, near_intCast]

/-- An integer of moderate size is written in the usual way, whatever other numbers look like. -/
theorem text_of_abs_lt {n : ℤ} (h : |n| < integerTextLimit) :
    Scalar.text (n : Exact rules) = toString n := by
  have hcast : |(n : Exact rules)| < (integerTextLimit : Exact rules) := by exact_mod_cast h
  have hsmall : Scalar.lt (Scalar.abs (n : Exact rules)) (Scalar.ofInt integerTextLimit) = true :=
    (lt_iff _ _).mpr hcast
  unfold Scalar.text
  rw [Exactness.round_intCast, near_self, hsmall, Bool.and_self, if_pos rfl]
  exact congrArg toString (Int.floor_intCast n)

end Exact

/-- Integers in a field, with the meanings of names, functions and powers of a reading. -/
def Interpretation.ofReading [Field F] {rules : Exactness} (meaning : Reading F) :
    Interpretation rules F where
  number value := (⌊value⌋ : F)
  valuation := meaning.valuation
  functions := meaning.functions
  quotient left right := left / right
  numericPower base exponent := meaning.power base (⌊exponent⌋ : F)
  power := meaning.power

namespace Expr

variable [Field F] {meaning : Reading F} {rules : Exactness}

/-- Names are identifiers and numbers are integers of moderate size. -/
def IsPlain : Expr (Exact rules) → Prop
  | .const value => ∃ n : ℤ, value = n ∧ |n| < integerTextLimit
  | .var name => IsIdentifier name
  | .func name argument => IsIdentifier name ∧ IsPlain argument
  | .binary _ left right => IsPlain left ∧ IsPlain right

theorem value_intCast_ofReading (n : ℤ) :
    (Expr.const (n : Exact rules)).value (.ofReading meaning) = n := by
  simp [value, Interpretation.ofReading]

/-- The value of an operator is that of the field, whether or not the exponent is a number. -/
theorem value_binary_ofReading (op : Op) (left right : Expr (Exact rules)) :
    (Expr.binary op left right).value (.ofReading meaning) =
      op.inField meaning.power (left.value (.ofReading meaning))
        (right.value (.ofReading meaning)) := by
  cases op with
  | pow => cases right <;> rfl
  | _ => rfl

/-- The digits of a natural number are read as that number. -/
theorem reads_toDigits (n : ℕ) : Reads meaning .atom (Nat.toDigits 10 n) n := by
  have hread : Reads meaning .atom (Nat.toDigits 10 n) _ :=
    .number Nat.toDigits_ne_nil (Exactness.isDigit_of_mem_toDigits n)
  rwa [Nat.ofDigitChars_ten_toDigits] at hread

/-- An integer of moderate size fits. -/
theorem fits_text {n : ℤ} (h : |n| < integerTextLimit) :
    Fits meaning (.const (n : Exact rules)) (Scalar.text (n : Exact rules)) n := by
  rw [Exact.text_of_abs_lt h]
  obtain m | m := n
  · have hread : Reads meaning .atom (toString (m : ℤ)).toList ((m : ℤ) : F) := by
      rw [Exactness.toList_toString_natCast, Int.cast_natCast]
      exact reads_toDigits m
    exact ⟨hread.mono_level (m := 0) (Nat.zero_le _), fun _ _ => hread⟩
  · have hdigits : Reads meaning .atom _ _ := reads_toDigits (m + 1)
    have hread := hdigits.base.plain.neg
    rw [← Int.cast_negSucc, ← Exactness.toList_toString_negSucc] at hread
    refine ⟨hread, fun _ hsign => ?_⟩
    rw [Bool.eq_false_iff, ne_eq, startsNegative_iff, Exactness.toList_toString_negSucc] at hsign
    exact absurd rfl hsign

/-- A number times an expression fits, whether or not the number is written. -/
theorem Fits.scaledText {n : ℤ} (hn : |n| < integerTextLimit) {e : Expr (Exact rules)}
    {text : String} {value : F} (h : Fits meaning e text value) :
    Fits meaning (.mul (.const (n : Exact rules)) e) (scaledText (n : Exact rules) e text)
      (n * value) where
  phrase := by
    have hoperand : Reads meaning .term (operandText .mul true e text).toList value :=
      h.reads_operandText .mul true
    unfold Expr.scaledText
    split
    · next hminus =>
      obtain rfl : n = -1 := (Exact.near_intCast n (-1)).mp hminus
      have hvalue : ((-1 : ℤ) : F) * value = -value := by simp
      rw [hvalue, String.toList_append]
      exact hoperand.neg_term
    · split
      · next hone =>
        obtain rfl : n = 1 := (Exact.isUnit_intCast n).mp hone
        have hvalue : ((1 : ℤ) : F) * value = value := by simp
        rw [hvalue]
        exact hoperand
      · exact ((fits_text hn).infixText .mul h).phrase
  atom h := nomatch h

/-- The text of an expression is read with the value of the expression. -/
theorem fits_render {e : Expr (Exact rules)} (h : e.IsPlain) :
    Fits meaning e e.render (e.value (.ofReading meaning)) := by
  fun_induction Expr.render e with
  | case1 value =>
    obtain ⟨n, rfl, hn⟩ := h
    rw [value_intCast_ofReading]
    exact fits_text hn
  | case2 name =>
    have hread : Reads meaning .atom name.toList (meaning.valuation name) := .name h
    exact ⟨hread.mono_level (m := 0) (Nat.zero_le _), fun _ _ => hread⟩
  | case3 name argument ih =>
    have hread := Reads.call h.1 (ih h.2).reads_expr
    have htext : (name ++ "(" ++ argument.render ++ ")").toList =
        name.toList ++ '(' :: (argument.render.toList ++ [')']) := by simp
    rw [← htext] at hread
    exact ⟨hread.mono_level (m := 0) (Nat.zero_le _), fun _ _ => hread⟩
  | case4 left value hneg ih =>
    -- A negative number is subtracted without its sign.
    obtain ⟨hleft, n, rfl, hn⟩ := h
    have hnumber : |-n| < integerTextLimit := (abs_neg n).symm ▸ hn
    have hopposite : Fits meaning (.const ((-n : ℤ) : Exact rules)) _ _ := fits_text hnumber
    have hfits := (ih hleft).infixText .sub hopposite
    rw [Int.cast_neg n (R := Exact rules)] at hfits
    refine hfits.add_of_sub ?_
    rw [value_binary_ofReading, value_intCast_ofReading]
    simp [Op.inField]
  | case5 left value hneg ih =>
    obtain ⟨hleft, n, rfl, hn⟩ := h
    rw [value_binary_ofReading, value_intCast_ofReading]
    exact (ih hleft).infixText .add (fits_text hn)
  | case6 left factor right hneg hone ihl ihr =>
    obtain ⟨hleft, ⟨n, rfl, hn⟩, hright⟩ := h
    rw [← Int.cast_neg, Exact.isUnit_intCast] at hone
    obtain rfl : n = -1 := by omega
    refine ((ihl hleft).infixText .sub (ihr hright)).add_of_sub ?_
    rw [value_binary_ofReading, value_mul, value_intCast_ofReading]
    simp [Op.inField, sub_eq_add_neg]
  | case7 left factor right hneg hone ihl ihr =>
    obtain ⟨hleft, ⟨n, rfl, hn⟩, hright⟩ := h
    have hnumber : |-n| < integerTextLimit := (abs_neg n).symm ▸ hn
    have hfits := (ihl hleft).infixText .sub ((ihr hright).scaledText hnumber)
    rw [Int.cast_neg n (R := Exact rules)] at hfits
    refine hfits.add_of_sub ?_
    rw [value_binary_ofReading, value_mul, value_intCast_ofReading]
    simp [Op.inField]
  | case8 left factor right hneg ihl ihr =>
    obtain ⟨hleft, ⟨n, rfl, hn⟩, hright⟩ := h
    rw [value_binary_ofReading, value_mul, value_intCast_ofReading]
    exact (ihl hleft).infixText .add ((ihr hright).scaledText hn)
  | case9 factor right ih =>
    obtain ⟨⟨n, rfl, hn⟩, hright⟩ := h
    rw [value_mul, value_intCast_ofReading]
    exact (ih hright).scaledText hn
  | case10 op left right _ _ _ ihl ihr =>
    rw [value_binary_ofReading]
    exact (ihl h.1).infixText op (ihr h.2)

/-- The text of an expression with identifiers and integers of moderate size is a sentence of the
grammar, in every field and for every meaning of names, functions and powers, and its value is that
of the expression and no other. -/
theorem reads_render_iff (meaning : Reading F) {e : Expr (Exact rules)} (h : e.IsPlain)
    (value : F) : Reads meaning .expr e.render.toList value ↔
      value = e.value (.ofReading meaning) := by
  have hread : Reads meaning .expr e.render.toList (e.value (.ofReading meaning)) :=
    (fits_render h).reads_expr
  constructor
  · intro hvalue
    exact hvalue.value_unique hread
  · rintro rfl
    exact hread

/-- The sum `x + (-2) * (-3)^f(y - (x + (-1)))`. -/
def signedFactors : Expr (Exact .standard) :=
  .add (.var "x") (.mul (.int (-2))
    (.pow (.int (-3)) (.func "f" (.sub (.var "y") (.add (.var "x") (.int (-1)))))))

example : signedFactors.render = "x-2*(-3)^f(y-(x-1))" := by decide +kernel

theorem reads_render_signedFactors : signedFactors.IsPlain ∧ ∀ value : ZMod 3,
    Reads ⟨fun _ => 2, fun _ t => t + 1, fun base exponent => base * exponent⟩ .expr
      signedFactors.render.toList value ↔
    value = signedFactors.value
      (.ofReading ⟨fun _ => 2, fun _ t => t + 1, fun base exponent => base * exponent⟩) := by
  have hx : IsIdentifier "x" := isIdentifier_of_letter 'x' rfl (by decide) (by decide)
  have hy : IsIdentifier "y" := isIdentifier_of_letter 'y' rfl (by decide) (by decide)
  have hf : IsIdentifier "f" := isIdentifier_of_letter 'f' rfl (by decide) (by decide)
  have hint (n : ℤ) (hn : |n| < integerTextLimit) : (Expr.int n : Expr (Exact .standard)).IsPlain :=
    ⟨n, rfl, hn⟩
  have hplain : signedFactors.IsPlain :=
    ⟨hx, hint (-2) (by decide), hint (-3) (by decide), hf, hy, hx, hint (-1) (by decide)⟩
  exact ⟨hplain, reads_render_iff _ hplain⟩

end Expr

end SymbolicForms
