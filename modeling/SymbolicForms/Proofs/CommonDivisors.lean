import Mathlib.Data.Nat.Fib.Basic
import Mathlib.Tactic.NormNum.NatFib
import SymbolicForms.CommonFactor
import SymbolicForms.Proofs.ExactNumbers

/-!
# Common divisors of coefficients

Repeated division of integers with remainder ends with their greatest common
divisor, or with one when it is cut short. Every two divisions take the second
number below a Fibonacci number two places earlier, so that the limit of the
steps is never reached where the second number is below the sixty-fifth
Fibonacci number, which exceeds ten to the power of thirteen. Neither is it where
the first number is of this size, because the first division leaves at most that
number, and one step less still goes as far as the sixty-fourth. The common
coefficient of terms with such coefficients is divided by every number that
divides all of them.
-/

namespace SymbolicForms

variable {rules : Exactness}

namespace Exact

/-- The remainder of natural numbers is theirs. -/
theorem remainder_natCast (m n : ℕ) :
    Scalar.remainder (m : Exact rules) (n : Exact rules) = ((m % n : ℕ) : Exact rules) := by
  have hfloor : ⌊(m : Exact rules) / (n : Exact rules)⌋ = ((m / n : ℕ) : ℤ) :=
    Rat.floor_natCast_div_natCast m n
  have hnonneg : 0 ≤ (m : Exact rules) / (n : Exact rules) :=
    div_nonneg (Nat.cast_nonneg m) (Nat.cast_nonneg n)
  have hsplit : ((m % n : ℕ) : Exact rules) + (n : Exact rules) * ((m / n : ℕ) : Exact rules) =
      (m : Exact rules) := by
    exact_mod_cast Nat.mod_add_div m n
  change (m : Exact rules) -
    (n : Exact rules) * truncate ((m : Exact rules) / (n : Exact rules)) = _
  rw [truncate, if_pos hnonneg, hfloor, Int.cast_natCast, sub_eq_iff_eq_add]
  exact hsplit.symm

/-- One more step of repeated division: the second number is kept, and the remainder is next. -/
theorem divisorSteps_succ (limit m n : ℕ) :
    Scalar.divisorSteps (limit + 1) (m : Exact rules) (n : Exact rules) =
      if n = 0 then (m : Exact rules)
      else Scalar.divisorSteps limit (n : Exact rules) ((m % n : ℕ) : Exact rules) := by
  rw [Scalar.divisorSteps, remainder_natCast]
  exact if_congr (vanishes_natCast n) rfl rfl

/-- A step of repeated division keeps the greatest common divisor. -/
theorem gcd_mod (m n : ℕ) : n.gcd (m % n) = m.gcd n := by
  rw [Nat.gcd_comm, ← Nat.gcd_rec, Nat.gcd_comm]

/-- Repeated division of natural numbers ends with their greatest common divisor, or with one when
it is cut short. -/
theorem divisorSteps_natCast (limit m n : ℕ) :
    Scalar.divisorSteps limit (m : Exact rules) (n : Exact rules) = (m.gcd n : ℕ) ∨
      Scalar.divisorSteps limit (m : Exact rules) (n : Exact rules) = 1 := by
  induction limit generalizing m n with
  | zero => exact Or.inr Exact.one_eq
  | succ limit ih =>
    rw [divisorSteps_succ]
    split
    · next hn =>
      rw [hn, Nat.gcd_zero_right]
      exact Or.inl rfl
    · rw [← gcd_mod m n]
      exact ih n (m % n)

/-- Repeated division is not cut short where the second number is below a Fibonacci number. -/
theorem divisorSteps_eq_gcd {limit m n : ℕ} (h : n < Nat.fib (limit + 2)) :
    Scalar.divisorSteps (limit + 1) (m : Exact rules) (n : Exact rules) = (m.gcd n : ℕ) := by
  induction limit using Nat.twoStepInduction generalizing m n with
  | zero =>
    obtain rfl : n = 0 := Nat.lt_one_iff.mp h
    rw [divisorSteps_succ, if_pos rfl, Nat.gcd_zero_right]
  | one =>
    rw [divisorSteps_succ]
    split
    · next hn => rw [hn, Nat.gcd_zero_right]
    · next hn =>
      have hlt : n < 2 := h
      obtain rfl : n = 1 := by omega
      rw [divisorSteps_succ, Nat.mod_one, if_pos rfl, Nat.gcd_one_right]
  | more limit ih ih' =>
    rw [divisorSteps_succ]
    split
    · next hn => rw [hn, Nat.gcd_zero_right]
    · next hn =>
      rw [← gcd_mod m n]
      by_cases hremainder : m % n < Nat.fib (limit + 3)
      · exact ih' hremainder
      · -- a remainder that is large leaves little for the step after it
        have hlt : m % n < n := Nat.mod_lt m (Nat.pos_of_ne_zero hn)
        have hpos : 0 < Nat.fib (limit + 3) := Nat.fib_pos.mpr (Nat.succ_pos _)
        have hsum : Nat.fib (limit + 4) = Nat.fib (limit + 2) + Nat.fib (limit + 3) :=
          Nat.fib_add_two
        have hnext : n % (m % n) < Nat.fib (limit + 2) := by
          rw [Nat.mod_eq_sub_mod hlt.le]
          refine (Nat.mod_le _ _).trans_lt ?_
          have hbound : n < Nat.fib (limit + 4) := h
          omega
        rw [divisorSteps_succ, if_neg (by omega), ← gcd_mod n (m % n)]
        exact ih hnext

/-- The magnitude of an integer. -/
theorem abs_intCast (n : ℤ) : Scalar.abs (n : Exact rules) = (n.natAbs : Exact rules) := by
  rw [Nat.cast_natAbs, Int.cast_abs]
  rfl

/-- The common divisor of integers is their greatest common divisor, or one. -/
theorem commonDivisor_intCast (m n : ℤ) :
    Scalar.commonDivisor (m : Exact rules) (n : Exact rules) = (m.gcd n : ℕ) ∨
      Scalar.commonDivisor (m : Exact rules) (n : Exact rules) = 1 := by
  rw [Scalar.commonDivisor, abs_intCast, abs_intCast]
  exact divisorSteps_natCast _ m.natAbs n.natAbs

/-- The common divisor of integers is their greatest common divisor where the second one is of
moderate size. -/
theorem commonDivisor_eq_gcd (m : ℤ) {n : ℤ} (h : |n| ≤ 10 ^ 13) :
    Scalar.commonDivisor (m : Exact rules) (n : Exact rules) = (m.gcd n : ℕ) := by
  have hfib : 10 ^ 13 < Nat.fib 65 := by norm_num
  have hsmall : n.natAbs ≤ 10 ^ 13 := by
    rw [← Int.natCast_natAbs] at h
    exact_mod_cast h
  rw [Scalar.commonDivisor, abs_intCast, abs_intCast]
  exact divisorSteps_eq_gcd (hsmall.trans_lt hfib)

/-- The common divisor of integers is their greatest common divisor where the first one is of
moderate size: the first division leaves a remainder that is not greater. -/
theorem commonDivisor_eq_gcd_of_left {m : ℤ} (h : |m| ≤ 10 ^ 13) (n : ℤ) :
    Scalar.commonDivisor (m : Exact rules) (n : Exact rules) = (m.gcd n : ℕ) := by
  have hfib : 10 ^ 13 < Nat.fib 64 := by norm_num
  have hsmall : m.natAbs ≤ 10 ^ 13 := by
    rw [← Int.natCast_natAbs] at h
    exact_mod_cast h
  have hremainder : m.natAbs % n.natAbs < Nat.fib 64 :=
    ((Nat.mod_le _ _).trans hsmall).trans_lt hfib
  rw [Scalar.commonDivisor, abs_intCast, abs_intCast, divisionStepLimit, divisorSteps_succ, Int.gcd]
  split
  · next hn => rw [hn, Nat.gcd_zero_right]
  · rw [divisorSteps_eq_gcd hremainder, gcd_mod]

/-- The common divisor of integers divides both of them. It is zero only for zeros, it is the
greatest common divisor or one, and it is the greatest one where the limit of the steps cannot be
met: when at least one of the integers is of moderate size. -/
theorem commonDivisor_divides (m n : ℤ) : ∃ d : ℕ,
    Scalar.commonDivisor (m : Exact rules) (n : Exact rules) = d ∧
      (d = 0 ↔ m = 0 ∧ n = 0) ∧ ((d : ℤ) ∣ m ∧ (d : ℤ) ∣ n) ∧ (d = m.gcd n ∨ d = 1) ∧
      (|m| ≤ 10 ^ 13 ∨ |n| ≤ 10 ^ 13 → d = m.gcd n) := by
  have hmoderate (h : |m| ≤ 10 ^ 13 ∨ |n| ≤ 10 ^ 13) :
      Scalar.commonDivisor (m : Exact rules) (n : Exact rules) = (m.gcd n : ℕ) :=
    h.elim (fun hm => commonDivisor_eq_gcd_of_left hm n) (commonDivisor_eq_gcd m)
  obtain hgreatest | hone := @commonDivisor_intCast rules m n
  · exact ⟨m.gcd n, hgreatest, Int.gcd_eq_zero_iff, ⟨Int.gcd_dvd_left m n, Int.gcd_dvd_right m n⟩,
      Or.inl rfl, fun _ => rfl⟩
  · refine ⟨1, hone.trans Nat.cast_one.symm, ⟨fun h => absurd h one_ne_zero, ?_⟩,
      ⟨one_dvd m, one_dvd n⟩, Or.inr rfl, fun h => ?_⟩
    · -- zeros are of moderate size, so their common divisor would be zero
      rintro ⟨rfl, rfl⟩
      have hzero := hmoderate (Or.inl (by norm_num))
      rw [hone, Int.gcd_zero_left] at hzero
      exact absurd hzero (by norm_num)
    · have hsame : (1 : Exact rules) = (m.gcd n : ℕ) := hone.symm.trans (hmoderate h)
      exact_mod_cast hsame

/-- Twice two neighbouring Fibonacci numbers, which take the most steps for their size. -/
theorem commonDivisor_divides_fibonacci :
    |(-5009461563922 : ℤ)| ≤ 10 ^ 13 ∧ |(8105479075762 : ℤ)| ≤ 10 ^ 13 ∧
      Scalar.commonDivisor ((-5009461563922 : ℤ) : Exact .standard) (8105479075762 : ℤ) =
        (2 : ℕ) := by
  have hsmall : |(-5009461563922 : ℤ)| ≤ 10 ^ 13 := by norm_num
  obtain ⟨d, hd, -, -, -, hgreatest⟩ :=
    @commonDivisor_divides .standard (-5009461563922) 8105479075762
  have htwo : d = 2 := (hgreatest (Or.inl hsmall)).trans (by decide +kernel)
  exact ⟨hsmall, by norm_num, hd.trans (congrArg Nat.cast htwo)⟩

/-- Where both integers are greater, the limit of the steps may be met before the greatest common
divisor, here two, is found. -/
example : Scalar.commonDivisor (Scalar.ofInt (2 * Nat.fib 66) : Exact .standard)
    (Scalar.ofInt (2 * Nat.fib 65)) = 1 := by
  decide +kernel

/-- A natural number divides an integer when the integer is a multiple of it. -/
theorem natCast_dvd_iff (k : ℕ) (n : ℤ) :
    (k : ℤ) ∣ n ↔ ∃ q : ℤ, (n : Exact rules) = (k : Exact rules) * (q : Exact rules) := by
  refine exists_congr fun q => ⟨fun h => ?_, fun h => ?_⟩
  · rw [h, Int.cast_mul, Int.cast_natCast]
  · exact_mod_cast h

end Exact

namespace Term

/-- The greatest common divisor of a number and of some coefficients is divided by what divides all
of them. -/
theorem foldl_commonDivisor (start : ℕ) {terms : List (Term (Exact rules))}
    (h : ∀ t ∈ terms, ∃ n : ℤ, t.coefficient = n ∧ |n| ≤ 10 ^ 13) : ∃ d : ℕ,
    terms.foldl (fun divisor t => Scalar.commonDivisor divisor t.coefficient)
        (start : Exact rules) = d ∧
      ∀ k : ℕ, k ∣ d ↔ k ∣ start ∧ ∀ t ∈ terms, ∃ n : ℤ, t.coefficient = k * n := by
  induction terms generalizing start with
  | nil => exact ⟨start, rfl, fun k => ⟨fun hk => ⟨hk, List.forall_mem_nil _⟩, And.left⟩⟩
  | cons t rest ih =>
    obtain ⟨⟨n, hn, hsmall⟩, hrest⟩ := List.forall_mem_cons.mp h
    obtain ⟨d, hd, hdivides⟩ := ih (Int.gcd start n) hrest
    have hstep : Scalar.commonDivisor (start : Exact rules) t.coefficient =
        (Int.gcd start n : Exact rules) := by
      rw [hn, ← Int.cast_natCast start]
      exact Exact.commonDivisor_eq_gcd start hsmall
    refine ⟨d, by rw [List.foldl_cons, hstep, hd], fun k => ?_⟩
    rw [hdivides, List.forall_mem_cons, hn, ← Exact.natCast_dvd_iff, Int.dvd_gcd_iff, and_assoc,
      Int.natCast_dvd_natCast]

/-- The common coefficient of integers of moderate size is their greatest common divisor, or one
when all of them are zero. -/
theorem commonCoefficient_spec {first : Term (Exact rules)} {others : List (Term (Exact rules))}
    (h : ∀ t ∈ first :: others, ∃ n : ℤ, t.coefficient = n ∧ |n| ≤ 10 ^ 13) : ∃ d : ℕ,
    0 < d ∧ commonCoefficient first others = d ∧
      (∀ t ∈ first :: others, ∃ n : ℤ, t.coefficient = d * n) ∧
      ((∀ t ∈ first :: others, t.coefficient = 0) ∧ d = 1 ∨
        ∀ k : ℕ, (∀ t ∈ first :: others, ∃ n : ℤ, t.coefficient = k * n) → k ∣ d) := by
  obtain ⟨⟨m, hm, -⟩, hothers⟩ := List.forall_mem_cons.mp h
  obtain ⟨d, hd, hdivides⟩ := foldl_commonDivisor m.natAbs hothers
  have hmultiple (k : ℕ) : k ∣ m.natAbs ↔ ∃ q : ℤ, first.coefficient = k * q := by
    rw [← Int.natCast_dvd, Exact.natCast_dvd_iff, hm]
  have hall (k : ℕ) : k ∣ d ↔ ∀ t ∈ first :: others, ∃ n : ℤ, t.coefficient = k * n := by
    rw [hdivides, hmultiple, List.forall_mem_cons]
  have hcommon : commonCoefficient first others =
      if Scalar.vanishes (d : Exact rules) then Scalar.one else (d : Exact rules) := by
    rw [commonCoefficient, hm, Exact.abs_intCast, hd]
  by_cases hzero : d = 0
  · have hnone : ∀ t ∈ first :: others, t.coefficient = 0 := by
      intro t ht
      obtain ⟨n, hn⟩ := (hall 0).mp (hzero ▸ dvd_rfl) t ht
      rw [hn, Nat.cast_zero, zero_mul]
    refine ⟨1, Nat.one_pos, ?_, fun t ht => ⟨0, ?_⟩, Or.inl ⟨hnone, rfl⟩⟩
    · rw [hcommon, if_pos ((Exact.vanishes_natCast d).mpr hzero), Exact.one_eq, Nat.cast_one]
    · rw [hnone t ht, Int.cast_zero, mul_zero]
  · refine ⟨d, Nat.pos_of_ne_zero hzero, ?_, (hall d).mp dvd_rfl, Or.inr fun k => (hall k).mpr⟩
    rw [hcommon, if_neg (mt (Exact.vanishes_natCast d).mp hzero)]

end Term

end SymbolicForms
