import SymbolicForms.Proofs.FieldMeaning
import SymbolicForms.Proofs.KeyReading

/-!
# A grammar of arithmetic texts

Texts are read by the usual grammar: a sum of terms, a term of factors with
signs, a factor of an atom with at most one power, and an atom that is a number,
a name, a call or a text in parentheses. Sums and products group to the left. A
text is read together with its value in a field, in which names, functions and
powers may mean anything. Every text is read in at most one way: where a phrase
ends is seen from the next character.
-/

namespace SymbolicForms

/-- The meanings of names, functions and powers in a field. -/
structure Reading (F : Type*) where
  /-- The values of names. -/
  valuation : String → F
  /-- The meanings of functions. -/
  functions : String → F → F
  /-- The meaning of powers. -/
  power : F → F → F

/-- The two kinds of chains that group to the left. -/
inductive Chain where
  /-- Products and quotients of factors. -/
  | product
  /-- Sums and differences of terms. -/
  | sum

/-- The operators of a chain. -/
def Chain.operators : Chain → List Op
  | .product => [.mul, .div]
  | .sum => [.add, .sub]

/-- The phrases of the grammar. -/
inductive Phrase (F : Type*) where
  /-- A number, a name, a call, or a text in parentheses. -/
  | atom
  /-- An atom, or an atom to the power of another. -/
  | power
  /-- A power behind any number of minus signs. -/
  | unary
  /-- A chain. -/
  | chain (kind : Chain)
  /-- What stands behind the first operand of a chain, continuing from the value of what was
  read. -/
  | rest (kind : Chain) (start : F)

/-- A term is a chain of products. -/
abbrev Phrase.term {F : Type*} : Phrase F := .chain .product

/-- An expression is a chain of sums. -/
abbrev Phrase.expr {F : Type*} : Phrase F := .chain .sum

/-- The operands of a chain: factors with signs in products, and products in sums. -/
def Chain.operand {F : Type*} : Chain → Phrase F
  | .product => .unary
  | .sum => .term

/-- The characters that may stand behind a chain. -/
def Chain.followers : Chain → List Char
  | .product => ['+', '-', ')']
  | .sum => [')']

/-- Operators of a chain do not stand behind it. -/
theorem Chain.mark_not_mem_followers {kind : Chain} {op : Op} (h : op ∈ kind.operators) :
    op.mark ∉ kind.followers := by
  cases kind <;> cases op <;> revert h <;> decide

variable {F : Type*}

/-- The characters that may stand behind a phrase. -/
def Phrase.followers : Phrase F → List Char
  | .atom => ['+', '-', '*', '/', '^', ')']
  | .power => ['+', '-', '*', '/', ')']
  | .unary => ['+', '-', '*', '/', ')']
  | .chain kind => kind.followers
  | .rest kind _ => kind.followers

/-- What stands behind a chain may stand behind its operands. -/
theorem Chain.followers_subset (kind : Chain) :
    kind.followers ⊆ (kind.operand : Phrase F).followers := by
  cases kind <;> simp [followers, operand, Phrase.followers]

/-- The operators of a chain stand behind its operands. -/
theorem Chain.mark_mem_followers {kind : Chain} {op : Op} (h : op ∈ kind.operators) :
    op.mark ∈ (kind.operand : Phrase F).followers := by
  cases kind <;> simp only [operators, List.mem_cons, List.not_mem_nil, or_false] at h <;>
    obtain rfl | rfl := h <;> simp [operand, followers, Phrase.followers, Op.mark]

/-- What stands behind a phrase begins with one of its followers, if there is anything. -/
def Phrase.Ends (phrase : Phrase F) (rest : List Char) : Prop :=
  ∀ c ∈ rest.head?, c ∈ phrase.followers

/-- Nothing may stand behind every phrase. -/
theorem Phrase.ends_nil (phrase : Phrase F) : phrase.Ends [] := by simp [Ends]

/-- A follower may stand behind a phrase. -/
theorem Phrase.ends_cons {phrase : Phrase F} {c : Char} (h : c ∈ phrase.followers)
    (rest : List Char) : phrase.Ends (c :: rest) := by
  intro d hd
  exact Option.some.inj hd ▸ h

/-- What may stand behind a phrase may stand behind another one with at least its followers. -/
theorem Phrase.Ends.mono {phrase other : Phrase F} {rest : List Char} (h : phrase.Ends rest)
    (hf : phrase.followers ⊆ other.followers) : other.Ends rest :=
  fun c hc => hf (h c hc)

/-- A text that begins with a character that is no follower does not stand behind a phrase. -/
theorem Phrase.Ends.not_cons {phrase : Phrase F} {c : Char} {rest : List Char}
    (h : phrase.Ends (c :: rest)) (hc : c ∉ phrase.followers) : False :=
  hc (h c rfl)

/-- What may stand behind an atom begins with a mark, but not with an opening parenthesis. -/
theorem Phrase.stops_of_ends {rest : List Char} (h : (Phrase.atom : Phrase F).Ends rest) :
    Stops rest := by
  intro c hc
  have hmem := h c hc
  simp only [Phrase.followers, List.mem_cons, List.not_mem_nil, or_false] at hmem
  obtain rfl | rfl | rfl | rfl | rfl | rfl := hmem <;> exact ⟨by decide, by decide⟩

/-- A name behind which an atom may end is not followed by a call. -/
theorem Phrase.name_ne_call {name name' : String} {rest rest' : List Char} (h : IsIdentifier name)
    (h' : IsIdentifier name') (hrest : (Phrase.atom : Phrase F).Ends rest)
    (heq : name.toList ++ rest = name'.toList ++ '(' :: rest') : False := by
  have hopen : ∀ c ∈ ('(' :: rest').head?, isMark c = true := by
    intro c hc
    obtain rfl : '(' = c := Option.some.inj hc
    rfl
  obtain ⟨-, rfl⟩ :=
    name_append_inj h h' (fun c hc => (Phrase.stops_of_ends hrest c hc).1) hopen heq
  exact hrest.not_cons (by simp [Phrase.followers])

/-- Behind a base, the sign of a power may stand. -/
theorem Phrase.ends_atom_pow (rest : List Char) : (Phrase.atom : Phrase F).Ends ('^' :: rest) :=
  Phrase.ends_cons (by simp [Phrase.followers]) rest

/-- Behind an atom without a power, no power follows. -/
theorem Phrase.ends_atom_of_power {rest : List Char} (h : (Phrase.power : Phrase F).Ends rest) :
    (Phrase.atom : Phrase F).Ends rest :=
  h.mono (by simp [Phrase.followers])

variable [Field F]

/-- A text is read as a phrase with a value. -/
inductive Reads (meaning : Reading F) : Phrase F → List Char → F → Prop
  /-- Digits are a number. -/
  | number {digits : List Char} (hne : digits ≠ []) (hdigits : ∀ c ∈ digits, c.isDigit = true) :
    Reads meaning .atom digits (Nat.ofDigitChars 10 digits 0 : ℕ)
  /-- A name has its value. -/
  | name {name : String} (h : IsIdentifier name) :
    Reads meaning .atom name.toList (meaning.valuation name)
  /-- A name before a text in parentheses is a function of its value. -/
  | call {name : String} {text : List Char} {value : F} (h : IsIdentifier name)
    (ht : Reads meaning .expr text value) :
    Reads meaning .atom (name.toList ++ '(' :: (text ++ [')'])) (meaning.functions name value)
  /-- A text in parentheses has its value. -/
  | group {text : List Char} {value : F} (ht : Reads meaning .expr text value) :
    Reads meaning .atom ('(' :: (text ++ [')'])) value
  /-- An atom without a power. -/
  | base {text : List Char} {value : F} (h : Reads meaning .atom text value) :
    Reads meaning .power text value
  /-- An atom to the power of another. -/
  | pow {base exponent : List Char} {value value' : F} (hb : Reads meaning .atom base value)
    (he : Reads meaning .atom exponent value') :
    Reads meaning .power (base ++ '^' :: exponent) (meaning.power value value')
  /-- A power without a sign. -/
  | plain {text : List Char} {value : F} (h : Reads meaning .power text value) :
    Reads meaning .unary text value
  /-- A minus sign gives the opposite value. -/
  | neg {text : List Char} {value : F} (h : Reads meaning .unary text value) :
    Reads meaning .unary ('-' :: text) (-value)
  /-- The first operand of a chain and its rest. -/
  | chain {kind : Chain} {first behind : List Char} {start value : F}
    (hf : Reads meaning kind.operand first start)
    (hr : Reads meaning (.rest kind start) behind value) :
    Reads meaning (.chain kind) (first ++ behind) value
  /-- A chain ends. -/
  | stop {kind : Chain} {start : F} : Reads meaning (.rest kind start) [] start
  /-- What was read is joined with the next operand. -/
  | next {kind : Chain} {op : Op} {operand behind : List Char} {start value value' : F}
    (hop : op ∈ kind.operators) (ho : Reads meaning kind.operand operand value)
    (hr : Reads meaning (.rest kind (op.inField meaning.power start value)) behind value') :
    Reads meaning (.rest kind start) (op.mark :: (operand ++ behind)) value'

namespace Reads

variable {meaning : Reading F}

/-- Digits and a name do not begin in the same way. -/
theorem digits_ne_name {digits rest rest' : List Char} {name : String} (hne : digits ≠ [])
    (hdigits : ∀ c ∈ digits, c.isDigit = true) (h : IsIdentifier name)
    (heq : digits ++ rest = name.toList ++ rest') : False := by
  obtain ⟨d, ds, rfl⟩ := List.exists_cons_of_ne_nil hne
  obtain ⟨first, others, hname, hdigit, -⟩ := h
  rw [hname] at heq
  obtain ⟨rfl, -⟩ := List.cons.inj heq
  rw [hdigits d List.mem_cons_self] at hdigit
  cases hdigit

/-- Digits and a text in parentheses do not begin in the same way. -/
theorem digits_ne_group {digits rest rest' : List Char} (hne : digits ≠ [])
    (hdigits : ∀ c ∈ digits, c.isDigit = true) (heq : digits ++ rest = '(' :: rest') : False := by
  obtain ⟨d, ds, rfl⟩ := List.exists_cons_of_ne_nil hne
  obtain ⟨rfl, -⟩ := List.cons.inj heq
  exact absurd (hdigits '(' List.mem_cons_self) (by decide)

/-- A name and a text in parentheses do not begin in the same way. -/
theorem name_ne_group {name : String} {rest rest' : List Char} (h : IsIdentifier name)
    (heq : name.toList ++ rest = '(' :: rest') : False := by
  obtain ⟨first, others, hname, -, hmarks⟩ := h
  rw [hname] at heq
  obtain ⟨rfl, -⟩ := List.cons.inj heq
  exact absurd (hmarks '(' List.mem_cons_self) (by decide)

/-- An atom does not begin with a minus sign. -/
theorem atom_ne_neg {text rest rest' : List Char} {value : F}
    (h : Reads meaning .atom text value) (heq : text ++ rest = '-' :: rest') : False := by
  have hname {name : String} {rest : List Char} (h : IsIdentifier name)
      (heq : name.toList ++ rest = '-' :: rest') : False := by
    obtain ⟨first, others, hname, -, hmarks⟩ := h
    rw [hname] at heq
    obtain ⟨rfl, -⟩ := List.cons.inj heq
    exact absurd (hmarks '-' List.mem_cons_self) (by decide)
  cases h with
  | @number digits hne hdigits =>
    obtain ⟨d, ds, rfl⟩ := List.exists_cons_of_ne_nil hne
    obtain ⟨rfl, -⟩ := List.cons.inj heq
    exact absurd (hdigits '-' List.mem_cons_self) (by decide)
  | name h => exact hname h heq
  | call h ht =>
    rw [List.append_assoc] at heq
    exact hname h heq
  | group ht => exact absurd (List.cons.inj heq).1 (by decide)

/-- A power does not begin with a minus sign. -/
theorem power_ne_neg {text rest rest' : List Char} {value : F}
    (h : Reads meaning .power text value) (heq : text ++ rest = '-' :: rest') : False := by
  cases h with
  | base h => exact h.atom_ne_neg heq
  | pow hb he =>
    rw [List.append_assoc] at heq
    exact hb.atom_ne_neg heq

/-- The rest of a chain may stand behind its operands. -/
theorem ends_rest {kind : Chain} {start value : F} {text behind : List Char}
    (h : Reads meaning (.rest kind start) text value)
    (hbehind : (Phrase.rest kind start).Ends behind) :
    (kind.operand : Phrase F).Ends (text ++ behind) := by
  cases h with
  | stop => exact hbehind.mono kind.followers_subset
  | next hop ho hr => exact Phrase.ends_cons (Chain.mark_mem_followers hop) _

/-- A phrase at the beginning of a text is known with its value, if it may end where it does. -/
def Unambiguous (meaning : Reading F) (phrase : Phrase F) (text : List Char) (value : F) : Prop :=
  ∀ ⦃text' value' rest rest'⦄, Reads meaning phrase text' value' → phrase.Ends rest →
    phrase.Ends rest' → text ++ rest = text' ++ rest' → text = text' ∧ value = value' ∧ rest = rest'

theorem unambiguous_number {digits : List Char} (hne : digits ≠ [])
    (hdigits : ∀ c ∈ digits, c.isDigit = true) :
    Unambiguous meaning .atom digits (Nat.ofDigitChars 10 digits 0 : ℕ) := by
  have hnoDigit {rest : List Char} (h : (Phrase.atom : Phrase F).Ends rest) :
      ∀ c ∈ rest.head?, c.isDigit = false := by
    intro c hc
    by_contra hdigit
    have hmark := isMark_of_isDigit (Bool.not_eq_false _ ▸ hdigit)
    rw [(Phrase.stops_of_ends h c hc).1] at hmark
    cases hmark
  intro text' value' rest rest' h' hrest hrest' heq
  cases h' with
  | number hne' hdigits' =>
    obtain ⟨rfl, rfl⟩ := append_inj_of_kind Char.isDigit hdigits hdigits' (hnoDigit hrest)
      (hnoDigit hrest') heq
    exact ⟨rfl, rfl, rfl⟩
  | name h => exact (digits_ne_name hne hdigits h heq).elim
  | call h ht =>
    rw [List.append_assoc] at heq
    exact (digits_ne_name hne hdigits h heq).elim
  | group ht => exact (digits_ne_group hne hdigits heq).elim

theorem unambiguous_name {name : String} (h : IsIdentifier name) :
    Unambiguous meaning .atom name.toList (meaning.valuation name) := by
  intro text' value' rest rest' h' hrest hrest' heq
  cases h' with
  | number hne hdigits => exact (digits_ne_name hne hdigits h heq.symm).elim
  | name hname =>
    obtain ⟨rfl, rfl⟩ := name_append_inj h hname
      (fun c hc => (Phrase.stops_of_ends hrest c hc).1)
      (fun c hc => (Phrase.stops_of_ends hrest' c hc).1) heq
    exact ⟨rfl, rfl, rfl⟩
  | call hname ht =>
    rw [List.append_assoc] at heq
    exact (Phrase.name_ne_call h hname hrest heq).elim
  | group ht => exact (name_ne_group h heq).elim

/-- A text in parentheses is known with its value if the text between them is. -/
theorem Unambiguous.between {text text' : List Char} {value value' : F}
    (h : Unambiguous meaning .expr text value) (ht : Reads meaning .expr text' value')
    {rest rest' : List Char} (heq : text ++ ')' :: rest = text' ++ ')' :: rest') :
    text = text' ∧ value = value' ∧ rest = rest' := by
  have hclose (rest : List Char) : (Phrase.expr : Phrase F).Ends (')' :: rest) :=
    Phrase.ends_cons (by simp [Phrase.followers, Chain.followers]) rest
  obtain ⟨htext, hvalue, hrest⟩ := h ht (hclose rest) (hclose rest') heq
  exact ⟨htext, hvalue, (List.cons.inj hrest).2⟩

theorem Unambiguous.call {name : String} (h : IsIdentifier name) {text : List Char} {value : F}
    (ht : Unambiguous meaning .expr text value) :
    Unambiguous meaning .atom (name.toList ++ '(' :: (text ++ [')']))
      (meaning.functions name value) := by
  have hopen (rest : List Char) : ∀ c ∈ ('(' :: rest).head?, isMark c = true := by
    intro c hc
    obtain rfl : '(' = c := Option.some.inj hc
    rfl
  intro text' value' rest rest' h' hrest hrest' heq
  rw [List.append_assoc] at heq
  cases h' with
  | number hne hdigits => exact (digits_ne_name hne hdigits h heq.symm).elim
  | name hname => exact (Phrase.name_ne_call hname h hrest' heq.symm).elim
  | @call name' argument' _ hname ht' =>
    rw [List.append_assoc] at heq
    obtain ⟨rfl, harguments⟩ := name_append_inj h hname (hopen _) (hopen _) heq
    obtain ⟨rfl, rfl, rfl⟩ := ht.between ht' (by simpa using harguments)
    exact ⟨rfl, rfl, rfl⟩
  | group ht' => exact (name_ne_group h heq).elim

theorem Unambiguous.group {text : List Char} {value : F}
    (ht : Unambiguous meaning .expr text value) :
    Unambiguous meaning .atom ('(' :: (text ++ [')'])) value := by
  intro text' value' rest rest' h' hrest hrest' heq
  cases h' with
  | number hne hdigits => exact (digits_ne_group hne hdigits heq.symm).elim
  | name hname => exact (name_ne_group hname heq.symm).elim
  | call hname ht' =>
    rw [List.append_assoc] at heq
    exact (name_ne_group hname heq.symm).elim
  | group ht' =>
    obtain ⟨rfl, rfl, rfl⟩ := ht.between ht' (by simpa using heq)
    exact ⟨rfl, rfl, rfl⟩

theorem Unambiguous.base {text : List Char} {value : F}
    (h : Unambiguous meaning .atom text value) : Unambiguous meaning .power text value := by
  intro text' value' rest rest' h' hrest hrest' heq
  have hatom := Phrase.ends_atom_of_power hrest
  cases h' with
  | base hb => exact h hb hatom (Phrase.ends_atom_of_power hrest') heq
  | pow hb he =>
    rw [List.append_assoc] at heq
    obtain ⟨-, -, rfl⟩ := h hb hatom (Phrase.ends_atom_pow _) heq
    exact (hrest.not_cons (by simp [Phrase.followers])).elim

theorem Unambiguous.pow {base exponent : List Char} {value value' : F}
    (hb : Unambiguous meaning .atom base value)
    (he : Unambiguous meaning .atom exponent value') :
    Unambiguous meaning .power (base ++ '^' :: exponent) (meaning.power value value') := by
  intro text' value' rest rest' h' hrest hrest' heq
  rw [List.append_assoc] at heq
  cases h' with
  | base hb' =>
    obtain ⟨-, -, rfl⟩ := hb hb' (Phrase.ends_atom_pow _) (Phrase.ends_atom_of_power hrest') heq
    exact (hrest'.not_cons (by simp [Phrase.followers])).elim
  | pow hb' he' =>
    rw [List.append_assoc] at heq
    obtain ⟨rfl, rfl, htail⟩ := hb hb' (Phrase.ends_atom_pow _) (Phrase.ends_atom_pow _) heq
    obtain ⟨rfl, rfl, rfl⟩ := he he' (Phrase.ends_atom_of_power hrest)
      (Phrase.ends_atom_of_power hrest') (List.cons.inj htail).2
    exact ⟨rfl, rfl, rfl⟩

theorem Unambiguous.plain {text : List Char} {value : F} (hp : Reads meaning .power text value)
    (h : Unambiguous meaning .power text value) : Unambiguous meaning .unary text value := by
  intro text' value' rest rest' h' hrest hrest' heq
  cases h' with
  | plain hp' => exact h hp' hrest hrest' heq
  | neg hu => exact (hp.power_ne_neg heq).elim

theorem Unambiguous.neg {text : List Char} {value : F}
    (h : Unambiguous meaning .unary text value) :
    Unambiguous meaning .unary ('-' :: text) (-value) := by
  intro text' value' rest rest' h' hrest hrest' heq
  cases h' with
  | plain hp => exact (hp.power_ne_neg heq.symm).elim
  | neg hu =>
    obtain ⟨rfl, rfl, rfl⟩ := h hu hrest hrest' (List.cons.inj heq).2
    exact ⟨rfl, rfl, rfl⟩

theorem Unambiguous.chain {kind : Chain} {first behind : List Char} {start value : F}
    (hf : Unambiguous meaning kind.operand first start)
    (hr : Reads meaning (.rest kind start) behind value)
    (h : Unambiguous meaning (.rest kind start) behind value) :
    Unambiguous meaning (.chain kind) (first ++ behind) value := by
  intro text' value' rest rest' h' hrest hrest' heq
  cases h' with
  | chain hf' hr' =>
    rw [List.append_assoc, List.append_assoc] at heq
    obtain ⟨rfl, rfl, htail⟩ := hf hf' (hr.ends_rest hrest) (hr'.ends_rest hrest') heq
    obtain ⟨rfl, rfl, rfl⟩ := h hr' hrest hrest' htail
    exact ⟨rfl, rfl, rfl⟩

theorem unambiguous_stop (kind : Chain) (start : F) :
    Unambiguous meaning (.rest kind start) [] start := by
  intro text' value' rest rest' h' hrest hrest' heq
  rw [List.nil_append] at heq
  cases h' with
  | stop => exact ⟨rfl, rfl, heq⟩
  | next hop ho hr =>
    rw [heq] at hrest
    exact (hrest.not_cons (Chain.mark_not_mem_followers hop)).elim

theorem Unambiguous.next {kind : Chain} {op : Op} {operand behind : List Char}
    {start value value' : F} (hop : op ∈ kind.operators)
    (ho : Unambiguous meaning kind.operand operand value)
    (hr : Reads meaning (.rest kind (op.inField meaning.power start value)) behind value')
    (h : Unambiguous meaning (.rest kind (op.inField meaning.power start value)) behind value') :
    Unambiguous meaning (.rest kind start) (op.mark :: (operand ++ behind)) value' := by
  intro text' result rest rest' h' hrest hrest' heq
  cases h' with
  | stop =>
    rw [List.nil_append] at heq
    rw [← heq] at hrest'
    exact (hrest'.not_cons (Chain.mark_not_mem_followers hop)).elim
  | next hop' ho' hr' =>
    rw [List.cons_append, List.cons_append, List.append_assoc, List.append_assoc] at heq
    obtain ⟨hmark, htail⟩ := List.cons.inj heq
    obtain rfl := Op.mark_inj hmark
    obtain ⟨rfl, rfl, hbehind⟩ := ho ho' (hr.ends_rest hrest) (hr'.ends_rest hrest') htail
    obtain ⟨rfl, rfl, rfl⟩ := h hr' hrest hrest' hbehind
    exact ⟨rfl, rfl, rfl⟩

/-- Every text is read in at most one way: a phrase at its beginning is known with its value. -/
theorem unambiguous {phrase : Phrase F} {text : List Char} {value : F}
    (h : Reads meaning phrase text value) : Unambiguous meaning phrase text value := by
  induction h with
  | number hne hdigits => exact unambiguous_number hne hdigits
  | name h => exact unambiguous_name h
  | call h ht ih => exact ih.call h
  | group ht ih => exact ih.group
  | base h ih => exact ih.base
  | pow hb he ihb ihe => exact ihb.pow ihe
  | plain h ih => exact ih.plain h
  | neg h ih => exact ih.neg
  | chain hf hr ihf ihr => exact ihf.chain hr ihr
  | stop => exact unambiguous_stop _ _
  | next hop ho hr iho ihr => exact iho.next hop hr ihr

/-- A text has at most one value. -/
theorem value_unique {phrase : Phrase F} {text : List Char} {value value' : F}
    (h : Reads meaning phrase text value) (h' : Reads meaning phrase text value') :
    value = value' :=
  (h.unambiguous h' phrase.ends_nil phrase.ends_nil rfl).2.1

end Reads

end SymbolicForms
