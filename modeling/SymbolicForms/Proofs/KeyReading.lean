import SymbolicForms.Proofs.CanonicalMeaning

/-!
# Reading keys

A key is read in one way. Numbers begin with a digit or a minus sign, names with
neither, and joined operands with a parenthesis; a number ends where the digits
end, a name where a mark stands, and joined operands at their closing
parenthesis. Hence different expressions have different keys, and the key of a
term determines the term but for its coefficient and the order in which its
functions were inserted.
-/

namespace SymbolicForms

/-- The character is an operator or a parenthesis. -/
def isMark (c : Char) : Bool := ['+', '-', '*', '/', '^', '(', ')'].contains c

/-- A name has no marks and does not begin with a digit. -/
def IsIdentifier (name : String) : Prop :=
  ∃ first rest, name.toList = first :: rest ∧ first.isDigit = false ∧
    ∀ c ∈ first :: rest, isMark c = false

/-- A letter is an identifier. -/
theorem isIdentifier_of_letter {name : String} (letter : Char) (hname : name.toList = [letter])
    (hdigit : letter.isDigit = false) (hmark : isMark letter = false) : IsIdentifier name :=
  ⟨letter, [], hname, hdigit, List.forall_mem_singleton.mpr hmark⟩

/-- Integers are written with digits and perhaps a minus sign, and no two in the same way. -/
structure Exactness.WritesIntegers (rules : Exactness) : Prop where
  /-- Different integers have different texts. -/
  injective : ∀ m n : ℤ, Scalar.text (m : Exact rules) = Scalar.text (n : Exact rules) → m = n
  /-- A text has at least one digit, and nothing else but a minus sign in front. -/
  digits : ∀ n : ℤ, ∃ sign digits, (Scalar.text (n : Exact rules)).toList = sign ++ digits ∧
    (sign = [] ∨ sign = ['-']) ∧ digits ≠ [] ∧ ∀ c ∈ digits, c.isDigit = true

namespace Exactness

/-- Rounding keeps an integer. -/
theorem round_intCast {rules : Exactness} (n : ℤ) :
    (Scalar.round (n : Exact rules) : Exact rules) = n := by
  have hfloor : ⌊(n : Exact rules) + 1 / 2⌋ = n := by
    rw [Int.floor_eq_iff]
    constructor <;> linarith
  have hceil : ⌈(n : Exact rules) - 1 / 2⌉ = n := by
    rw [Int.ceil_eq_iff]
    constructor <;> linarith
  change Exact.truncate (if 0 ≤ (n : Exact rules) then n + 1 / 2 else n - 1 / 2) = n
  unfold Exact.truncate
  by_cases h : 0 ≤ (n : Exact rules)
  · have hpos : 0 ≤ (n : Exact rules) + 1 / 2 := by linarith
    rw [if_pos h, if_pos hpos, hfloor]
  · have hneg : ¬0 ≤ (n : Exact rules) - 1 / 2 := by linarith
    rw [if_neg h, if_neg hneg, hceil]

/-- Where fractions are written with a bar, an integer is written in the usual way. -/
theorem text_intCast (margin : ℚ) (nonneg : 0 ≤ margin) (small : margin < 1) (n : ℤ) :
    Scalar.text (n : Exact (.fractions margin nonneg small)) = toString n := by
  unfold Scalar.text
  rw [round_intCast]
  split
  · exact congrArg toString (Int.floor_intCast n)
  · change toString (n : ℚ) = toString n
    simp [toString]

/-- A natural number is written with its digits. -/
theorem toList_toString_natCast (n : ℕ) : (toString (n : ℤ)).toList = Nat.toDigits 10 n :=
  Nat.toList_repr

/-- A negative number is written with a minus sign in front of digits. -/
theorem toList_toString_negSucc (n : ℕ) :
    (toString (Int.negSucc n)).toList = '-' :: Nat.toDigits 10 (n + 1) := by
  have htext : toString (Int.negSucc n) = "-" ++ (n + 1).repr := rfl
  rw [htext, String.toList_append, Nat.toList_repr]
  rfl

/-- The digits of a natural number are digits. -/
theorem isDigit_of_mem_toDigits (n : ℕ) : ∀ c ∈ Nat.toDigits 10 n, c.isDigit = true :=
  fun _ hc => Nat.isDigit_of_mem_toDigits (by decide) (by decide) hc

/-- Where fractions are written with a bar, integers are written with digits. -/
theorem writesIntegers_fractions (margin : ℚ) (nonneg : 0 ≤ margin) (small : margin < 1) :
    (Exactness.fractions margin nonneg small).WritesIntegers := by
  have hminus (n k : ℕ) (h : Nat.toDigits 10 n = '-' :: Nat.toDigits 10 k) : False := by
    have hdigit := isDigit_of_mem_toDigits n '-' (h ▸ List.mem_cons_self)
    exact absurd hdigit (by decide)
  have hvalue {m n : ℕ} (h : Nat.toDigits 10 m = Nat.toDigits 10 n) : m = n := by
    rw [← Nat.ofDigitChars_ten_toDigits (n := m), h, Nat.ofDigitChars_ten_toDigits]
  constructor
  · intro m n h
    rw [text_intCast, text_intCast, ← String.toList_inj] at h
    obtain m | m := m <;> obtain n | n := n
    · rw [Int.ofNat_eq_natCast, Int.ofNat_eq_natCast, toList_toString_natCast,
        toList_toString_natCast] at h
      rw [hvalue h]
    · rw [Int.ofNat_eq_natCast, toList_toString_natCast, toList_toString_negSucc] at h
      exact (hminus _ _ h).elim
    · rw [Int.ofNat_eq_natCast, toList_toString_natCast, toList_toString_negSucc] at h
      exact (hminus _ _ h.symm).elim
    · rw [toList_toString_negSucc, toList_toString_negSucc] at h
      rw [Nat.succ.inj (hvalue (List.cons.inj h).2)]
  · intro n
    rw [text_intCast]
    obtain n | n := n
    · exact ⟨[], _, toList_toString_natCast n, Or.inl rfl, Nat.toDigits_ne_nil,
        isDigit_of_mem_toDigits n⟩
    · exact ⟨['-'], _, toList_toString_negSucc n, Or.inr rfl, Nat.toDigits_ne_nil,
        isDigit_of_mem_toDigits (n + 1)⟩

theorem writesIntegers_standard : Exactness.standard.WritesIntegers :=
  writesIntegers_fractions _ _ _

end Exactness

/-- What is written behind a key begins with a mark that does not open a parenthesis. -/
def Stops (rest : List Char) : Prop := ∀ c ∈ rest.head?, isMark c = true ∧ c ≠ '('

/-- Nothing may stand behind a key. -/
theorem stops_nil : Stops [] := by simp [Stops]

/-- A mark that does not open a parenthesis may stand behind a key. -/
theorem stops_cons {c : Char} (hmark : isMark c = true) (hopen : c ≠ '(') (rest : List Char) :
    Stops (c :: rest) := by
  intro d hd
  obtain rfl : c = d := Option.some.inj hd
  exact ⟨hmark, hopen⟩

/-- A digit is no mark. -/
theorem isMark_of_isDigit {c : Char} (h : c.isDigit = true) : isMark c = false := by
  rw [isMark, Bool.eq_false_iff, ne_eq, List.contains_iff_mem]
  intro hmem
  simp only [List.mem_cons, List.not_mem_nil, or_false] at hmem
  obtain rfl | rfl | rfl | rfl | rfl | rfl | rfl := hmem <;> exact absurd h (by decide)

/-- A prefix whose characters are of a kind is known when other characters follow it. -/
theorem append_inj_of_kind (kind : Char → Bool) {first second rest rest' : List Char}
    (hfirst : ∀ c ∈ first, kind c = true) (hsecond : ∀ c ∈ second, kind c = true)
    (hrest : ∀ c ∈ rest.head?, kind c = false) (hrest' : ∀ c ∈ rest'.head?, kind c = false)
    (h : first ++ rest = second ++ rest') : first = second ∧ rest = rest' := by
  induction first generalizing second with
  | nil =>
    cases second with
    | nil => exact ⟨rfl, h⟩
    | cons c second =>
      have hkind := hrest c (by rw [← List.nil_append rest, h]; rfl)
      rw [hsecond c List.mem_cons_self] at hkind
      cases hkind
  | cons c first ih =>
    obtain ⟨hc, hfirst⟩ := List.forall_mem_cons.mp hfirst
    cases second with
    | nil =>
      have hkind := hrest' c (by rw [← List.nil_append rest', ← h]; rfl)
      rw [hc] at hkind
      cases hkind
    | cons d second =>
      have htail := (List.forall_mem_cons.mp hsecond).2
      rw [List.cons_append, List.cons_append] at h
      obtain ⟨hhead, hothers⟩ := List.cons.inj h
      obtain ⟨hfront, hends⟩ := ih hfirst htail hothers
      exact ⟨by rw [hhead, hfront], hends⟩

/-- A name ends where a mark stands. -/
theorem name_append_inj {name name' : String} (h : IsIdentifier name) (h' : IsIdentifier name')
    {rest rest' : List Char} (hrest : ∀ c ∈ rest.head?, isMark c = true)
    (hrest' : ∀ c ∈ rest'.head?, isMark c = true)
    (heq : name.toList ++ rest = name'.toList ++ rest') : name = name' ∧ rest = rest' := by
  obtain ⟨first, others, hname, -, hmarks⟩ := h
  obtain ⟨first', others', hname', -, hmarks'⟩ := h'
  rw [← hname] at hmarks
  rw [← hname'] at hmarks'
  obtain ⟨hnames, hends⟩ := append_inj_of_kind (fun c => !isMark c)
    (fun c hc => by rw [hmarks c hc, Bool.not_false])
    (fun c hc => by rw [hmarks' c hc, Bool.not_false])
    (fun c hc => by rw [hrest c hc, Bool.not_true])
    (fun c hc => by rw [hrest' c hc, Bool.not_true]) heq
  exact ⟨String.toList_inj.mp hnames, hends⟩

/-- A number ends where the digits end. -/
theorem text_append_inj {rules : Exactness} (hw : rules.WritesIntegers) {m n : ℤ}
    {rest rest' : List Char} (hrest : Stops rest) (hrest' : Stops rest')
    (heq : (Scalar.text (m : Exact rules)).toList ++ rest =
      (Scalar.text (n : Exact rules)).toList ++ rest') : m = n ∧ rest = rest' := by
  obtain ⟨sign, digits, htext, hsign, hnonempty, hdigits⟩ := hw.digits m
  obtain ⟨sign', digits', htext', hsign', hnonempty', hdigits'⟩ := hw.digits n
  have hnoDigit {rest : List Char} (hrest : Stops rest) : ∀ c ∈ rest.head?, c.isDigit = false := by
    intro c hc
    by_contra hdigit
    have hmark := isMark_of_isDigit (Bool.not_eq_false _ ▸ hdigit)
    rw [(hrest c hc).1] at hmark
    cases hmark
  have hnoMinus {digits tail : List Char} (hnonempty : digits ≠ [])
      (hdigits : ∀ c ∈ digits, c.isDigit = true) {behind : List Char}
      (h : digits ++ behind = '-' :: tail) : False := by
    obtain ⟨d, ds, rfl⟩ := List.exists_cons_of_ne_nil hnonempty
    obtain ⟨rfl, -⟩ := List.cons.inj h
    exact absurd (hdigits '-' List.mem_cons_self) (by decide)
  have hsame : digits ++ rest = digits' ++ rest' ∧ sign = sign' := by
    rw [htext, htext', List.append_assoc, List.append_assoc] at heq
    obtain rfl | rfl := hsign <;> obtain rfl | rfl := hsign'
    · exact ⟨heq, rfl⟩
    · exact (hnoMinus hnonempty hdigits heq).elim
    · exact (hnoMinus hnonempty' hdigits' heq.symm).elim
    · exact ⟨List.cons.inj heq |>.2, rfl⟩
  obtain ⟨hdigitsEq, hends⟩ := append_inj_of_kind Char.isDigit hdigits hdigits' (hnoDigit hrest)
    (hnoDigit hrest') hsame.1
  refine ⟨hw.injective m n (String.toList_inj.mp ?_), hends⟩
  rw [htext, htext', hsame.2, hdigitsEq]

/-- What a key begins with. -/
inductive Opening where
  /-- A digit or a minus sign. -/
  | number
  /-- The first character of a name. -/
  | name
  /-- An opening parenthesis. -/
  | parenthesis
  deriving DecidableEq

/-- What a character opens. -/
def Opening.ofChar (c : Char) : Opening :=
  if c = '(' then .parenthesis else if isMark c || c.isDigit then .number else .name

/-- The character of an operator. -/
def Op.mark : Op → Char
  | .add => '+'
  | .sub => '-'
  | .mul => '*'
  | .div => '/'
  | .pow => '^'

/-- The sign of an operator is its character. -/
theorem Op.toList_symbol (op : Op) : op.symbol.toList = [op.mark] := by
  cases op <;> rfl

/-- Operators are told apart by their characters. -/
theorem Op.mark_inj {op op' : Op} (h : op.mark = op'.mark) : op = op' := by
  cases op <;> cases op' <;> first | rfl | exact absurd h (by decide)

/-- The character of an operator may stand behind a key. -/
theorem Op.stops_mark (op : Op) (rest : List Char) : Stops (op.mark :: rest) := by
  cases op <;> exact stops_cons (by decide) (by decide) rest

namespace Expr

/-- What the key of an expression begins with. -/
def opening {K : Type} : Expr K → Opening
  | .const _ => .number
  | .var _ => .name
  | .func _ _ => .name
  | .binary _ _ _ => .parenthesis

variable {rules : Exactness}

/-- The key of a function is its name with the key of its argument in parentheses. -/
theorem toList_key_func (name : String) (argument : Expr (Exact rules)) (rest : List Char) :
    (key (.func name argument)).toList ++ rest =
      name.toList ++ '(' :: (argument.key.toList ++ ')' :: rest) := by
  simp [key]

/-- The key of two operands has their keys and the operator in parentheses. -/
theorem toList_key_binary (op : Op) (left right : Expr (Exact rules)) (rest : List Char) :
    (key (.binary op left right)).toList ++ rest =
      '(' :: (left.key.toList ++ op.mark :: (right.key.toList ++ ')' :: rest)) := by
  simp [key, Op.toList_symbol]

variable (hw : rules.WritesIntegers)
include hw

/-- The key of an expression begins with its opening. -/
theorem exists_key_eq_cons {e : Expr (Exact rules)} (h : e.Within (.integers IsIdentifier)) :
    ∃ first others, e.key.toList = first :: others ∧ Opening.ofChar first = e.opening := by
  have hname {name : String} (h : IsIdentifier name) :
      ∃ first rest, name.toList = first :: rest ∧ Opening.ofChar first = .name := by
    obtain ⟨first, rest, htext, hdigit, hmarks⟩ := h
    have hmark := hmarks first List.mem_cons_self
    have hopen : first ≠ '(' := by
      rintro rfl
      exact absurd hmark (by decide)
    exact ⟨first, rest, htext, by simp [Opening.ofChar, hopen, hmark, hdigit]⟩
  cases e with
  | const value =>
    obtain ⟨n, rfl⟩ := h
    obtain ⟨sign, digits, htext, hsign, hnonempty, hdigits⟩ := hw.digits n
    obtain rfl | rfl := hsign
    · obtain ⟨d, ds, rfl⟩ := List.exists_cons_of_ne_nil hnonempty
      have hdigit := hdigits d List.mem_cons_self
      have hopen : d ≠ '(' := by
        rintro rfl
        exact absurd hdigit (by decide)
      exact ⟨d, ds, htext, by simp [Opening.ofChar, hopen, hdigit, opening]⟩
    · have hminus : Opening.ofChar '-' = .number := by decide
      exact ⟨'-', digits, htext, hminus⟩
  | var name => exact hname h
  | func name argument =>
    obtain ⟨first, rest, htext, hopening⟩ := hname h.1
    refine ⟨first, rest ++ '(' :: (argument.key.toList ++ [')']), ?_, hopening⟩
    rw [← List.append_nil (key _).toList, toList_key_func, htext, List.cons_append]
  | binary op left right =>
    have hparenthesis : Opening.ofChar '(' = .parenthesis := by decide
    refine ⟨'(', left.key.toList ++ op.mark :: (right.key.toList ++ [')']), ?_, hparenthesis⟩
    rw [← List.append_nil (key _).toList, toList_key_binary]

/-- Keys that begin in the same way are keys of expressions of the same kind. -/
theorem opening_eq {e e' : Expr (Exact rules)} (h : e.Within (.integers IsIdentifier))
    (h' : e'.Within (.integers IsIdentifier)) {rest rest' : List Char}
    (heq : e.key.toList ++ rest = e'.key.toList ++ rest') : e.opening = e'.opening := by
  obtain ⟨first, others, hkey, hopening⟩ := exists_key_eq_cons hw h
  obtain ⟨first', others', hkey', hopening'⟩ := exists_key_eq_cons hw h'
  rw [hkey, hkey'] at heq
  rw [← hopening, ← hopening', (List.cons.inj heq).1]

/-- A key is read in one way. -/
theorem key_append_inj {e e' : Expr (Exact rules)} (h : e.Within (.integers IsIdentifier))
    (h' : e'.Within (.integers IsIdentifier)) {rest rest' : List Char} (hrest : Stops rest)
    (hrest' : Stops rest') (heq : e.key.toList ++ rest = e'.key.toList ++ rest') :
    e = e' ∧ rest = rest' := by
  have hmarks {rest : List Char} (hrest : Stops rest) : ∀ c ∈ rest.head?, isMark c = true :=
    fun c hc => (hrest c hc).1
  have hopen (tail : List Char) : ∀ c ∈ ('(' :: tail).head?, isMark c = true := by
    intro c hc
    obtain rfl : '(' = c := Option.some.inj hc
    rfl
  have hnoCall {rest tail : List Char} (hrest : Stops rest) (h : rest = '(' :: tail) : False := by
    rw [h] at hrest
    exact (hrest '(' rfl).2 rfl
  have hclose (rest : List Char) : Stops (')' :: rest) := stops_cons (by decide) (by decide) rest
  have hkinds := opening_eq hw h h' heq
  induction e generalizing e' rest rest' with
  | const value =>
    cases e' with
    | const value' =>
      obtain ⟨m, rfl⟩ := h
      obtain ⟨n, rfl⟩ := h'
      obtain ⟨rfl, hends⟩ := text_append_inj hw hrest hrest' heq
      exact ⟨rfl, hends⟩
    | _ => cases hkinds
  | var name =>
    cases e' with
    | var name' =>
      obtain ⟨rfl, hends⟩ := name_append_inj h h' (hmarks hrest) (hmarks hrest') heq
      exact ⟨rfl, hends⟩
    | func name' argument' =>
      rw [toList_key_func] at heq
      obtain ⟨-, hends⟩ := name_append_inj h h'.1 (hmarks hrest) (hopen _) heq
      exact (hnoCall hrest hends).elim
    | _ => cases hkinds
  | func name argument ih =>
    cases e' with
    | func name' argument' =>
      rw [toList_key_func, toList_key_func] at heq
      obtain ⟨rfl, hcall⟩ := name_append_inj h.1 h'.1 (hopen _) (hopen _) heq
      have hinner := (List.cons.inj hcall).2
      obtain ⟨rfl, hbehind⟩ := ih h.2 h'.2 (hclose _) (hclose _) hinner
        (opening_eq hw h.2 h'.2 hinner)
      exact ⟨rfl, (List.cons.inj hbehind).2⟩
    | var name' =>
      rw [toList_key_func] at heq
      obtain ⟨-, hends⟩ := name_append_inj h.1 h' (hopen _) (hmarks hrest') heq
      exact (hnoCall hrest' hends.symm).elim
    | _ => cases hkinds
  | binary op left right ihl ihr =>
    cases e' with
    | binary op' left' right' =>
      rw [toList_key_binary, toList_key_binary] at heq
      have hleft := (List.cons.inj heq).2
      obtain ⟨rfl, hmark⟩ := ihl h.1 h'.1 (op.stops_mark _) (op'.stops_mark _) hleft
        (opening_eq hw h.1 h'.1 hleft)
      obtain ⟨hop, hright⟩ := List.cons.inj hmark
      obtain rfl := Op.mark_inj hop
      obtain ⟨rfl, hbehind⟩ := ihr h.2.1 h'.2.1 (hclose _) (hclose _) hright
        (opening_eq hw h.2.1 h'.2.1 hright)
      exact ⟨rfl, (List.cons.inj hbehind).2⟩
    | _ => cases hkinds

/-- Different expressions have different keys. -/
theorem key_inj {e e' : Expr (Exact rules)} (h : e.Within (.integers IsIdentifier))
    (h' : e'.Within (.integers IsIdentifier)) (heq : e.key = e'.key) : e = e' := by
  have hchars : e.key.toList ++ [] = e'.key.toList ++ [] := by rw [heq]
  exact (key_append_inj hw h h' stops_nil stops_nil hchars).1

end Expr

end SymbolicForms
