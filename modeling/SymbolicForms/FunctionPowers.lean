import SymbolicForms.StableSort
import SymbolicForms.Text

/-!
# Powers of functions

A finite map from functions to exponents in the order of insertion. A function
is known by its name and argument, and arguments are compared as expressions,
so that equal functions are found although their numbers may differ slightly.
Exponents that vanish are never stored.
-/

namespace SymbolicForms

/-- A function together with its argument. -/
structure FunctionKey (K : Type) where
  /-- The name of the function. -/
  name : String
  /-- The argument. -/
  argument : Expr K
  deriving DecidableEq

namespace FunctionKey

variable {K : Type}

/-- The function as an expression. -/
def toExpr (function : FunctionKey K) : Expr K := .func function.name function.argument

variable [Scalar K]

/-- The text by which functions are ordered. -/
def text (function : FunctionKey K) : String := function.name ++ "(" ++ function.argument.key ++ ")"

/-- The same name with the same argument. -/
def same (function other : FunctionKey K) : Bool :=
  function.name == other.name && function.argument.same other.argument

end FunctionKey

/-- Exponents of functions, in the order of insertion. -/
structure FunctionPowers (K : Type) where
  /-- Functions with their exponents. -/
  entries : List (FunctionKey K × K)
  deriving DecidableEq

namespace FunctionPowers

variable {K : Type}

/-- No functions. -/
def empty : FunctionPowers K := ⟨[]⟩

/-- No function has an exponent. -/
def isEmpty (powers : FunctionPowers K) : Bool := powers.entries.isEmpty

/-- The number of functions. -/
def size (powers : FunctionPowers K) : Nat := powers.entries.length

variable [Scalar K]

/-- The exponent of the first entry for a function. -/
def get? (powers : FunctionPowers K) (function : FunctionKey K) : Option K :=
  (powers.entries.find? fun entry => entry.1.same function).map Prod.snd

/-- The function has an exponent. -/
def contains (powers : FunctionPowers K) (function : FunctionKey K) : Bool :=
  (powers.get? function).isSome

/-- The exponent of a function, or a fallback. -/
def get (powers : FunctionPowers K) (function : FunctionKey K) (fallback : K) : K :=
  (powers.get? function).getD fallback

/-- Entries with an exponent added to that of a function. A total that vanishes removes the entry;
a new function is put at the end. -/
def accumulateEntry (function : FunctionKey K) (exponent : K) :
    List (FunctionKey K × K) → List (FunctionKey K × K)
  | [] => if Scalar.apart exponent Scalar.zero then [(function, exponent)] else []
  | entry :: rest =>
    if entry.1.same function then
      let total := entry.2 + exponent
      if Scalar.vanishes total then rest else (entry.1, total) :: rest
    else entry :: accumulateEntry function exponent rest

/-- Add to the exponent of a function, and forget the function if the total vanishes. -/
def accumulate (powers : FunctionPowers K) (function : FunctionKey K) (exponent : K) :
    FunctionPowers K :=
  ⟨accumulateEntry function exponent powers.entries⟩

/-- The functions of accumulated entries are the given one and those of the entries. -/
theorem fst_of_mem_accumulateEntry {function : FunctionKey K} {exponent : K}
    {entries : List (FunctionKey K × K)} {entry : FunctionKey K × K}
    (h : entry ∈ accumulateEntry function exponent entries) :
    entry.1 = function ∨ entry.1 ∈ entries.map Prod.fst := by
  induction entries with
  | nil =>
    unfold accumulateEntry at h
    split at h
    · exact Or.inl (congrArg Prod.fst (List.mem_singleton.mp h))
    · exact absurd h List.not_mem_nil
  | cons head rest ih =>
    have tail (hmem : entry ∈ rest) : entry.1 ∈ (head :: rest).map Prod.fst :=
      List.mem_map_of_mem (List.mem_cons_of_mem _ hmem)
    unfold accumulateEntry at h
    split at h
    · dsimp only at h
      split at h
      · exact Or.inr (tail h)
      · obtain rfl | hmem := List.mem_cons.mp h
        · exact Or.inr List.mem_cons_self
        · exact Or.inr (tail hmem)
    · obtain rfl | hmem := List.mem_cons.mp h
      · exact Or.inr List.mem_cons_self
      · exact (ih hmem).imp_right (List.mem_cons_of_mem _)

/-- Accumulation keeps functions different. -/
theorem pairwise_accumulateEntry (function : FunctionKey K) (exponent : K)
    {entries : List (FunctionKey K × K)}
    (h : entries.Pairwise fun first second => first.1.same second.1 = false) :
    (accumulateEntry function exponent entries).Pairwise fun first second =>
      first.1.same second.1 = false := by
  induction entries with
  | nil =>
    unfold accumulateEntry
    split
    · exact List.pairwise_singleton _ _
    · exact List.Pairwise.nil
  | cons entry rest ih =>
    obtain ⟨hdiffers, hdistinct⟩ := List.pairwise_cons.mp h
    unfold accumulateEntry
    split
    · dsimp only
      split
      · exact hdistinct
      · exact List.pairwise_cons.mpr ⟨hdiffers, hdistinct⟩
    · next hother =>
      refine List.pairwise_cons.mpr ⟨fun later hlater => ?_, ih hdistinct⟩
      obtain heq | hmem := fst_of_mem_accumulateEntry hlater
      · exact heq ▸ Bool.eq_false_iff.mpr hother
      · obtain ⟨old, hold, heq⟩ := List.mem_map.mp hmem
        exact heq ▸ hdiffers old hold

/-- The functions of a table after accumulating some exponents for each entry of a list are those of
the table and of the list. -/
theorem fst_of_mem_foldl_accumulate (exponent : FunctionKey K × K → K)
    {entries : List (FunctionKey K × K)} {powers : FunctionPowers K} {entry : FunctionKey K × K}
    (h : entry ∈ (entries.foldl (fun powers entry =>
      powers.accumulate entry.1 (exponent entry)) powers).entries) :
    entry.1 ∈ powers.entries.map Prod.fst ∨ entry.1 ∈ entries.map Prod.fst := by
  induction entries generalizing powers with
  | nil => exact Or.inl (List.mem_map_of_mem h)
  | cons new rest ih =>
    obtain hold | hrest := ih h
    · obtain ⟨old, hmem, heq⟩ := List.mem_map.mp hold
      obtain hnew | hfound := fst_of_mem_accumulateEntry hmem
      · exact Or.inr (heq ▸ hnew ▸ List.mem_cons_self)
      · exact Or.inl (heq ▸ hfound)
    · exact Or.inr (List.mem_cons_of_mem _ hrest)

/-- Forget a function. -/
def erase (powers : FunctionPowers K) (function : FunctionKey K) : FunctionPowers K :=
  ⟨powers.entries.filter fun entry => !entry.1.same function⟩

/-- Give a function an exponent and the last place; an exponent that vanishes only forgets it. -/
def set (powers : FunctionPowers K) (function : FunctionKey K) (exponent : K) : FunctionPowers K :=
  let kept := (powers.erase function).entries
  if Scalar.apart exponent Scalar.zero then ⟨kept ++ [(function, exponent)]⟩ else ⟨kept⟩

/-- Forgetting a function keeps the entries for other functions. -/
theorem mem_erase_iff {powers : FunctionPowers K} {function : FunctionKey K}
    {entry : FunctionKey K × K} :
    entry ∈ (powers.erase function).entries ↔
      entry ∈ powers.entries ∧ entry.1.same function = false := by
  rw [erase, List.mem_filter, Bool.not_eq_true']

/-- After a function is given an exponent, an entry is the one that was given or it is for another
function. -/
theorem mem_set_iff {powers : FunctionPowers K} {function : FunctionKey K} {exponent : K}
    {entry : FunctionKey K × K} :
    entry ∈ (powers.set function exponent).entries ↔
      entry ∈ (powers.erase function).entries ∨
        entry = (function, exponent) ∧ Scalar.apart exponent Scalar.zero = true := by
  unfold set
  dsimp only
  split
  · next hapart => rw [List.mem_append, List.mem_singleton, and_iff_left hapart]
  · next hnear => rw [or_iff_left fun hnew => hnear hnew.2]

/-- Forgetting a function repeats no other one. -/
theorem distinct_erase {powers : FunctionPowers K} (h : (powers.entries.map Prod.fst).Nodup)
    (function : FunctionKey K) : ((powers.erase function).entries.map Prod.fst).Nodup :=
  h.sublist (List.filter_sublist.map _)

/-- Giving an exponent to a function that is the same as itself repeats no function. -/
theorem distinct_set {powers : FunctionPowers K} (h : (powers.entries.map Prod.fst).Nodup)
    {function : FunctionKey K} (hself : function.same function = true) (exponent : K) :
    ((powers.set function exponent).entries.map Prod.fst).Nodup := by
  have hkept := distinct_erase h function
  unfold set
  dsimp only
  split
  · rw [List.map_append, List.map_singleton, List.nodup_append]
    refine ⟨hkept, List.pairwise_singleton _ _, ?_⟩
    rintro first hfirst second hsecond rfl
    obtain ⟨entry, hentry, heq⟩ := List.mem_map.mp hfirst
    have hother := (mem_erase_iff.mp hentry).2
    rw [heq, List.mem_singleton.mp hsecond, hself] at hother
    cases hother
  · exact hkept

/-- One function with an exponent. -/
def single (function : FunctionKey K) (exponent : K) : FunctionPowers K :=
  empty.accumulate function exponent

/-- Add the exponents of another map. -/
def merge (powers other : FunctionPowers K) : FunctionPowers K :=
  other.entries.foldl (fun powers entry => powers.accumulate entry.1 entry.2) powers

/-- Subtract the exponents of another map. -/
def remove (powers other : FunctionPowers K) : FunctionPowers K :=
  other.entries.foldl (fun powers entry => powers.accumulate entry.1 (-entry.2)) powers

/-- The entries in the order of their texts; entries of one text keep their order. -/
def sorted (powers : FunctionPowers K) : List (FunctionKey K × K) :=
  (StableSort.sort (fun first second => decide (first.1 < second.1))
    (powers.entries.map fun entry => (entry.1.text, entry))).map Prod.snd

/-- The functions in the order of their texts are those of the table. -/
theorem sorted_perm (powers : FunctionPowers K) :
    powers.sorted.Perm powers.entries := by
  have h := (StableSort.sort_perm (fun first second => decide (first.1 < second.1))
    (powers.entries.map fun entry => (entry.1.text, entry))).map Prod.snd
  rw [List.map_map] at h
  exact h.trans (.of_eq (List.map_id _))

/-- There are no functions to put in order where there are none. -/
theorem sorted_empty : (empty : FunctionPowers K).sorted = [] := (sorted_perm empty).eq_nil

/-- As many functions, and each of them with no exponent apart from the one in the other map. -/
def same (powers other : FunctionPowers K) : Bool :=
  powers.size == other.size &&
    powers.entries.all fun entry =>
      match other.get? entry.1 with
      | some exponent => !Scalar.apart exponent entry.2
      | none => false

end FunctionPowers

end SymbolicForms
