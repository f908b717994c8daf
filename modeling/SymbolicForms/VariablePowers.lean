import SymbolicForms.Scalar

/-!
# Powers of variables

A finite map from variable names to exponents, kept as a list in the order of
the names. Accumulating an exponent forgets a name whose total vanishes.
-/

namespace SymbolicForms

/-- Exponents of variables, in strictly increasing order of the names. -/
structure VariablePowers (K : Type) where
  /-- Names with their exponents. -/
  entries : List (String × K)
  /-- Every name stands before the greater ones and occurs once. -/
  ordered : entries.Pairwise fun first second => first.1 < second.1
  deriving DecidableEq

namespace VariablePowers

variable {K : Type}

/-- Put an entry at its place in an ordered list, replacing one of the same name. -/
def insertEntry (name : String) (exponent : K) : List (String × K) → List (String × K)
  | [] => [(name, exponent)]
  | entry :: rest =>
    if name < entry.1 then (name, exponent) :: entry :: rest
    else if name = entry.1 then (name, exponent) :: rest
    else entry :: insertEntry name exponent rest

/-- The names after an insertion are the new one and old ones. -/
theorem mem_insertEntry {name : String} {exponent : K} {entry : String × K}
    {entries : List (String × K)} (h : entry ∈ insertEntry name exponent entries) :
    entry = (name, exponent) ∨ entry ∈ entries := by
  induction entries with
  | nil => exact Or.inl (List.mem_singleton.mp h)
  | cons head tail ih =>
    unfold insertEntry at h
    split at h
    · exact List.mem_cons.mp h
    · split at h
      · rcases List.mem_cons.mp h with h | h
        · exact Or.inl h
        · exact Or.inr (List.mem_cons_of_mem _ h)
      · rcases List.mem_cons.mp h with h | h
        · exact Or.inr (h ▸ List.mem_cons_self)
        · exact (ih h).imp id (List.mem_cons_of_mem _)

/-- Insertion keeps the order of the names. -/
theorem ordered_insertEntry (name : String) (exponent : K) {entries : List (String × K)}
    (h : entries.Pairwise fun first second => first.1 < second.1) :
    (insertEntry name exponent entries).Pairwise fun first second => first.1 < second.1 := by
  induction entries with
  | nil => exact List.pairwise_singleton _ _
  | cons head tail ih =>
    obtain ⟨hhead, htail⟩ := List.pairwise_cons.mp h
    unfold insertEntry
    split
    · next hlt =>
      refine List.pairwise_cons.mpr ⟨fun entry hentry => ?_, h⟩
      rcases List.mem_cons.mp hentry with rfl | hentry
      · exact hlt
      · exact String.lt_trans hlt (hhead entry hentry)
    · next hlt =>
      split
      · next heq =>
        exact List.pairwise_cons.mpr ⟨fun entry hentry => heq ▸ hhead entry hentry, htail⟩
      · next hne =>
        refine List.pairwise_cons.mpr ⟨fun entry hentry => ?_, ih htail⟩
        rcases mem_insertEntry hentry with rfl | hentry
        · exact Decidable.byContradiction fun hle =>
            hne (String.le_antisymm (String.not_lt.mp hle) (String.not_lt.mp hlt))
        · exact hhead entry hentry

/-- A table of powers is known by its entries. -/
theorem eq_of_entries_eq {powers other : VariablePowers K}
    (h : powers.entries = other.entries) : powers = other := by
  cases powers
  cases other
  cases h
  rfl

/-- No variables. -/
def empty : VariablePowers K := ⟨[], List.Pairwise.nil⟩

/-- No variable has an exponent. -/
def isEmpty (powers : VariablePowers K) : Bool := powers.entries.isEmpty

/-- The number of variables. -/
def size (powers : VariablePowers K) : Nat := powers.entries.length

/-- The exponent of a variable. -/
def get? (powers : VariablePowers K) (name : String) : Option K := powers.entries.lookup name

/-- Give a variable an exponent. -/
def insert (powers : VariablePowers K) (name : String) (exponent : K) : VariablePowers K :=
  ⟨insertEntry name exponent powers.entries, ordered_insertEntry name exponent powers.ordered⟩

/-- Forget a variable. -/
def erase (powers : VariablePowers K) (name : String) : VariablePowers K :=
  ⟨powers.entries.filter fun entry => entry.1 != name, powers.ordered.filter _⟩

/-- The map of a list; of two exponents for one name the later one holds. -/
def ofList (entries : List (String × K)) : VariablePowers K :=
  entries.foldl (fun powers entry => powers.insert entry.1 entry.2) empty

/-- A name that is greater than all others is put at the end. -/
theorem entries_insert_of_lt {powers : VariablePowers K} {name : String}
    (h : ∀ entry ∈ powers.entries, entry.1 < name) (exponent : K) :
    (powers.insert name exponent).entries = powers.entries ++ [(name, exponent)] := by
  obtain ⟨entries, ordered⟩ := powers
  simp only [insert] at h ⊢
  clear ordered
  induction entries with
  | nil => rfl
  | cons entry rest ih =>
    have hentry : entry.1 < name := h entry List.mem_cons_self
    have hne : name ≠ entry.1 := fun heq => String.lt_irrefl name (heq ▸ hentry)
    rw [insertEntry, if_neg (String.lt_asymm hentry), if_neg hne,
      ih fun other hother => h other (List.mem_cons_of_mem _ hother), List.cons_append]

/-- Names in order are put one behind the other. -/
theorem entries_foldl_insert {powers : VariablePowers K} {entries : List (String × K)}
    (h : (powers.entries ++ entries).Pairwise fun first second => first.1 < second.1) :
    (entries.foldl (fun powers entry => powers.insert entry.1 entry.2) powers).entries =
      powers.entries ++ entries := by
  induction entries generalizing powers with
  | nil => exact (List.append_nil _).symm
  | cons entry rest ih =>
    have hbelow (other : String × K) (hother : other ∈ powers.entries) : other.1 < entry.1 :=
      (List.pairwise_append.mp h).2.2 other hother entry List.mem_cons_self
    have hall : powers.entries ++ entry :: rest =
        (powers.insert entry.1 entry.2).entries ++ rest := by
      rw [entries_insert_of_lt hbelow, List.append_assoc, List.singleton_append]
    rw [List.foldl_cons, ih (hall ▸ h), hall]

/-- The map of a list in the order of the names has the entries of the list. -/
theorem entries_ofList {entries : List (String × K)}
    (h : entries.Pairwise fun first second => first.1 < second.1) :
    (ofList entries).entries = entries := entries_foldl_insert h

variable [Scalar K]

/-- One variable with an exponent. -/
def single (name : String) (exponent : K) : VariablePowers K := empty.insert name exponent

/-- Add to the exponent of a variable, and forget the variable if the total vanishes. -/
def accumulate (powers : VariablePowers K) (name : String) (exponent : K) : VariablePowers K :=
  let total := (powers.get? name).getD Scalar.zero + exponent
  if Scalar.vanishes total then powers.erase name else powers.insert name total

/-- Add the exponents of another map. -/
def merge (powers other : VariablePowers K) : VariablePowers K :=
  other.entries.foldl (fun powers entry => powers.accumulate entry.1 entry.2) powers

/-- Subtract the exponents of another map. -/
def remove (powers other : VariablePowers K) : VariablePowers K :=
  other.entries.foldl (fun powers entry => powers.accumulate entry.1 (-entry.2)) powers

/-- The sum of all exponents. -/
def degree (powers : VariablePowers K) : K :=
  powers.entries.foldl (fun total entry => total + entry.2) Scalar.zero

/-- The same names, with no two exponents apart. -/
def same (powers other : VariablePowers K) : Bool :=
  powers.size == other.size &&
    (powers.entries.zip other.entries).all fun pair =>
      pair.1.1 == pair.2.1 && !Scalar.apart pair.1.2 pair.2.2

end VariablePowers

end SymbolicForms
