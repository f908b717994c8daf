import SymbolicForms.CommonFactor

/-!
# Exponentials in a quotient

Powers of one exponential on both sides of a quotient are replaced by the power
of their difference, on the side that had more of it.
-/

namespace SymbolicForms

/-- The number of times that cancellation is repeated at most. -/
def cancellationLimit : Nat := 5

/-- Powers of exponentials on the two sides of a quotient. -/
structure ExponentialSides (K : Type) where
  /-- Powers in the numerator. -/
  top : FunctionPowers K
  /-- Powers in the denominator. -/
  bottom : FunctionPowers K

namespace ExponentialSides

variable {K : Type} [Scalar K]

/-- The exponentials that both sides have. -/
def common (sides : ExponentialSides K) : List (FunctionKey K) :=
  (sides.top.entries.map Prod.fst).filter sides.bottom.contains

/-- Cancel one exponential: what one side has more of it stays on that side. -/
def cancel (sides : ExponentialSides K) (function : FunctionKey K) : ExponentialSides K :=
  let surplus := sides.top.get function Scalar.zero - sides.bottom.get function Scalar.zero
  let top := sides.top.erase function
  let bottom := sides.bottom.erase function
  if Scalar.lt Scalar.tolerance surplus then ⟨top.set function surplus, bottom⟩
  else if Scalar.lt surplus (-Scalar.tolerance) then ⟨top, bottom.set function (-surplus)⟩
  else ⟨top, bottom⟩

/-- A common exponential is forgotten on both sides, and at most one side gets an exponent of it. -/
theorem cancel_cases (sides : ExponentialSides K) (function : FunctionKey K) :
    (∃ surplus, sides.cancel function =
      ⟨(sides.top.erase function).set function surplus, sides.bottom.erase function⟩) ∨
    (∃ surplus, sides.cancel function =
      ⟨sides.top.erase function, (sides.bottom.erase function).set function surplus⟩) ∨
    sides.cancel function = ⟨sides.top.erase function, sides.bottom.erase function⟩ := by
  unfold cancel
  dsimp only
  split
  · exact Or.inl ⟨_, rfl⟩
  split
  · exact Or.inr (Or.inl ⟨_, rfl⟩)
  · exact Or.inr (Or.inr rfl)

section Forall

variable {P : FunctionKey K → Prop} {sides : ExponentialSides K}
  (ht : ∀ entry ∈ sides.top.entries, P entry.1) (hb : ∀ entry ∈ sides.bottom.entries, P entry.1)

include ht in
/-- The common exponentials are among those of the numerator. -/
theorem forall_mem_common : ∀ function ∈ sides.common, P function := by
  intro function hfunction
  obtain ⟨entry, hentry, rfl⟩ := List.mem_map.mp (List.mem_filter.mp hfunction).1
  exact ht entry hentry

include ht hb

/-- What holds of the functions of both sides and of the cancelled one holds of the functions that
are left. -/
theorem forall_mem_cancel {function : FunctionKey K} (hf : P function) :
    (∀ entry ∈ (sides.cancel function).top.entries, P entry.1) ∧
      ∀ entry ∈ (sides.cancel function).bottom.entries, P entry.1 := by
  have kept {powers : FunctionPowers K} (h : ∀ entry ∈ powers.entries, P entry.1)
      (entry : FunctionKey K × K) (hentry : entry ∈ (powers.erase function).entries) :
      P entry.1 := h entry (FunctionPowers.mem_erase_iff.mp hentry).1
  have afterSet {powers : FunctionPowers K} (h : ∀ entry ∈ powers.entries, P entry.1) (surplus : K)
      (entry : FunctionKey K × K)
      (hentry : entry ∈ ((powers.erase function).set function surplus).entries) : P entry.1 := by
    obtain hold | ⟨rfl, -⟩ := FunctionPowers.mem_set_iff.mp hentry
    · exact kept h entry (FunctionPowers.mem_erase_iff.mp hold).1
    · exact hf
  obtain ⟨surplus, heq⟩ | ⟨surplus, heq⟩ | heq := sides.cancel_cases function <;> rw [heq]
  · exact ⟨afterSet ht surplus, kept hb⟩
  · exact ⟨kept ht, afterSet hb surplus⟩
  · exact ⟨kept ht, kept hb⟩

/-- Cancelling all common exponentials leaves no functions but those of the two sides. -/
theorem forall_mem_cancelCommon :
    (∀ entry ∈ (sides.common.foldl cancel sides).top.entries, P entry.1) ∧
      ∀ entry ∈ (sides.common.foldl cancel sides).bottom.entries, P entry.1 :=
  List.foldlRecOn (motive := fun sides : ExponentialSides K =>
      (∀ entry ∈ sides.top.entries, P entry.1) ∧ ∀ entry ∈ sides.bottom.entries, P entry.1)
    _ _ ⟨ht, hb⟩ fun _ hsides function hfunction =>
      forall_mem_cancel hsides.1 hsides.2 (forall_mem_common ht function hfunction)

end Forall

end ExponentialSides

namespace Expr

variable {K : Type} [Scalar K]

/-- The function whose powers cancel. -/
def exponentialName : String := "exp"

/-- An exponential or a power of one, with its exponent. -/
def exponentialPower? (e : Expr K) : Option (FunctionKey K × K) :=
  (PowerSplit.functionPower? e).filter fun power => power.1.name == exponentialName

/-- The factors of one side of a quotient, with the powers of exponentials collected. -/
def splitExponentials (e : Expr K) : PowerSplit K :=
  .ofFactors (· == exponentialName) e.factors

/-- A power of an exponential is read with its function. -/
theorem name_of_mem_exponentialPower? {e : Expr K} {power : FunctionKey K × K}
    (h : power ∈ e.exponentialPower?) : power.1.name = exponentialName :=
  beq_iff_eq.mp (Option.filter_eq_some_iff.mp h).2

/-- The collected functions are those of the powers of exponentials among the factors. -/
theorem mem_exponentials_of_mem_split {e : Expr K} {entry : FunctionKey K × K}
    (h : entry ∈ e.splitExponentials.powers.entries) :
    entry.1 ∈ (e.factors.filterMap exponentialPower?).map Prod.fst :=
  (FunctionPowers.fst_of_mem_foldl_accumulate Prod.snd h).resolve_left List.not_mem_nil

/-- The collected functions are exponentials. -/
theorem name_of_mem_split {e : Expr K} {entry : FunctionKey K × K}
    (h : entry ∈ e.splitExponentials.powers.entries) : entry.1.name = exponentialName := by
  obtain ⟨power, hpower, heq⟩ := List.mem_map.mp (mem_exponentials_of_mem_split h)
  obtain ⟨factor, -, hread⟩ := List.mem_filterMap.mp hpower
  exact heq ▸ name_of_mem_exponentialPower? hread

/-- A quotient with its common exponentials cancelled, or nothing if there are none. -/
def cancelExponentialsOnce? : Expr K → Option (Expr K)
  | .binary .div numerator denominator =>
    let top := numerator.splitExponentials
    let bottom := denominator.splitExponentials
    let sides : ExponentialSides K := ⟨top.powers, bottom.powers⟩
    if sides.common.isEmpty then none
    else
      let reduced := sides.common.foldl ExponentialSides.cancel sides
      some (.div (product (PowerSplit.mk reduced.top top.others).factors)
        (product (PowerSplit.mk reduced.bottom bottom.others).factors))
  | _ => none

/-- Repeat the cancellation while it changes the quotient; nothing if it never does. -/
def cancelRounds? : Nat → Expr K → Option (Expr K)
  | 0, _ => none
  | limit + 1, e =>
    match e.cancelExponentialsOnce? with
    | none => none
    | some next => if next.same e then none else some ((cancelRounds? limit next).getD next)

/-- A quotient with its common exponentials cancelled as often as possible, or nothing if there are
none. -/
def cancelExponentials? (e : Expr K) : Option (Expr K) := cancelRounds? cancellationLimit e

/-- One cancellation, or the expression as it is. -/
def cancelExponentialsOnce (e : Expr K) : Expr K := e.cancelExponentialsOnce?.getD e

/-- All cancellations, or the expression as it is. -/
def cancelExponentials (e : Expr K) : Expr K := e.cancelExponentials?.getD e

end Expr

end SymbolicForms
