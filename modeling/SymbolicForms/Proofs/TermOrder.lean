import Mathlib.Tactic.NormNum
import SymbolicForms.CanonicalForm
import SymbolicForms.Proofs.ExactNumbers
import SymbolicForms.Proofs.SortedOrder

/-!
# Order of terms

Terms are compared by their degrees, constants last, and where the degrees are
near each other by key and coefficient. Two terms never precede each other. Among
terms with degrees of some kind the comparison is a strict weak order exactly
where nearness is transitive on these degrees, and exactly then sorting gives the
same keys and coefficients however a list of them was shuffled. Degrees that form
a chain, each near the next but the ends apart, make three terms precede each
other in a circle.
-/

namespace SymbolicForms

open StableSort

namespace Exact

variable {rules : Exactness}

/-- Among numbers of a kind, those near one number are near each other. -/
def NearTransitive (D : Exact rules → Prop) : Prop :=
  ∀ ⦃x y z⦄, D x → D y → D z →
    Scalar.near x y = true → Scalar.near y z = true → Scalar.near x z = true

/-- Nearness is transitive on numbers that are near each other only when they are equal. -/
theorem nearTransitive_of_eq {D : Exact rules → Prop}
    (h : ∀ ⦃x y⦄, D x → D y → Scalar.near x y = true → x = y) : NearTransitive D :=
  fun _ _ _ hx hy _ hxy hyz => h hx hy hxy ▸ hyz

/-- The half of an integer. -/
def half (n : ℤ) : Exact rules := n / (2 : ℤ)

/-- The multiples of one half. -/
def IsHalf (x : Exact rules) : Prop := ∃ n : ℤ, x = half n

/-- Different halves are not near each other under a tolerance of a ten-billionth. -/
theorem nearTransitive_isHalf : NearTransitive (IsHalf : Exact .standard → Prop) := by
  refine nearTransitive_of_eq ?_
  rintro x y ⟨m, rfl⟩ ⟨n, rfl⟩ hnear
  have hmargin : (margin : Exact .standard) < half 1 := by decide +kernel
  obtain heq | hlt := (near_iff _ _).mp hnear
  · exact heq
  · have hclose := hlt.trans hmargin
    have htwo : (0 : Exact .standard) < (2 : ℤ) := Int.cast_pos.mpr two_pos
    rw [half, half, half, ← sub_div, abs_div, abs_of_pos htwo, div_lt_div_iff_of_pos_right htwo,
      ← Int.cast_sub, ← Int.cast_abs, Int.cast_lt, Int.abs_lt_one_iff] at hclose
    rw [sub_eq_zero.mp hclose]

/-- A number is greater than another one and not near it. -/
def exceeds (x y : Exact rules) : Bool := Scalar.apart x y && Scalar.lt y x

theorem exceeds_eq_false_iff {x y : Exact rules} :
    exceeds x y = false ↔ x ≤ y ∨ Scalar.near x y = true := by
  rw [exceeds, Bool.and_eq_false_iff, apart_eq, Bool.not_eq_false', ← Bool.not_eq_true, lt_iff,
    not_lt, or_comm]

/-- Neither of two numbers exceeds the other exactly where they are near each other. -/
theorem level_exceeds_iff {x y : Exact rules} :
    Level exceeds x y ↔ Scalar.near x y = true := by
  rw [Level, exceeds_eq_false_iff, exceeds_eq_false_iff, near_comm y x]
  constructor
  · rintro ⟨hxy | hnear, hyx | hnear'⟩
    · exact le_antisymm hxy hyx ▸ near_self x
    all_goals assumption
  · exact fun hnear => ⟨Or.inr hnear, Or.inr hnear⟩

/-- What lies between two numbers near each other is near both. -/
theorem near_of_between {x y z : Exact rules} (hxz : Scalar.near x z = true) (hxy : x ≤ y)
    (hyz : y ≤ z) : Scalar.near x y = true ∧ Scalar.near y z = true := by
  rw [near_iff] at hxz
  rw [near_iff, near_iff]
  obtain rfl | hxz := hxz
  · obtain rfl := le_antisymm hxy hyz
    exact ⟨Or.inl rfl, Or.inl rfl⟩
  · rw [abs_sub_comm, abs_of_nonneg (sub_nonneg.mpr (hxy.trans hyz))] at hxz
    rw [abs_sub_comm x, abs_of_nonneg (sub_nonneg.mpr hxy), abs_sub_comm y,
      abs_of_nonneg (sub_nonneg.mpr hyz)]
    exact ⟨Or.inr ((sub_le_sub_right hyz x).trans_lt hxz),
      Or.inr ((sub_le_sub_left hxy z).trans_lt hxz)⟩

/-- To exceed is a strict weak order exactly where nearness is transitive. -/
theorem weakOrder_exceeds_iff {D : Exact rules → Prop} :
    WeakOrder exceeds D ↔ NearTransitive D := by
  constructor
  · intro hw x y z hx hy hz hxy hyz
    exact level_exceeds_iff.mp
      (hw.level_trans hx hy hz (level_exceeds_iff.mpr hxy) (level_exceeds_iff.mpr hyz))
  · intro hnear
    refine ⟨fun x y _ _ hxy => ?_, fun x y z hx hy hz hyx hzy => ?_⟩
    · rw [exceeds, Bool.and_eq_true, lt_iff] at hxy
      exact exceeds_eq_false_iff.mpr (Or.inl hxy.2.le)
    · rw [exceeds_eq_false_iff] at hyx hzy ⊢
      obtain hzx | hxz := le_or_gt z x
      · exact Or.inl hzx
      refine Or.inr ?_
      obtain hyx | hyx := hyx <;> obtain hzy | hzy := hzy
      · exact absurd (hzy.trans hyx) hxz.not_ge
      · rw [near_comm] at hzy ⊢
        exact (near_of_between hzy hyx hxz.le).2
      · rw [near_comm] at hyx ⊢
        exact (near_of_between hyx hxz.le hzy).1
      · exact hnear hz hy hx hzy hyx

end Exact

namespace Term

variable {rules : Exactness}

/-- The comparison by degree alone, constants last. -/
def precedesByDegree (t other : Term (Exact rules)) : Bool :=
  if t.isConstant != other.isConstant then other.isConstant
  else Exact.exceeds t.totalDegree other.totalDegree

/-- The comparison by key and coefficient. -/
def precedesByKey (t other : Term (Exact rules)) : Bool :=
  if t.baseKey != other.baseKey then decide (t.baseKey < other.baseKey)
  else Scalar.lt t.coefficient other.coefficient

/-- Of terms that both are constant or both are not, the one of the higher degree goes first. -/
theorem precedesByDegree_of_eq {t other : Term (Exact rules)}
    (h : t.isConstant = other.isConstant) :
    precedesByDegree t other = Exact.exceeds t.totalDegree other.totalDegree := by
  rw [precedesByDegree, h, bne_self_eq_false, if_neg Bool.false_ne_true]

/-- A constant goes behind a term that is not constant. -/
theorem precedesByDegree_of_ne {t other : Term (Exact rules)}
    (h : t.isConstant ≠ other.isConstant) :
    precedesByDegree t other = other.isConstant := by
  rw [precedesByDegree, if_pos (bne_iff_ne.mpr h)]

/-- Terms are compared by degree first, and where that does not decide by key and coefficient. -/
theorem precedes_eq_thenBy :
    (precedes : Term (Exact rules) → Term (Exact rules) → Bool) =
      thenBy precedesByDegree precedesByKey := by
  funext t other
  by_cases hconstant : t.isConstant = other.isConstant
  · rw [thenBy, precedesByDegree_of_eq hconstant, precedesByDegree_of_eq hconstant.symm, precedes,
      hconstant, bne_self_eq_false, if_neg Bool.false_ne_true]
    cases hapart : Scalar.apart t.totalDegree other.totalDegree with
    | true =>
      have hne : t.totalDegree ≠ other.totalDegree := by
        rintro heq
        rw [heq, Exact.apart_eq, Exact.near_self] at hapart
        cases hapart
      have hapart' : Scalar.apart other.totalDegree t.totalDegree = true := by
        rw [Exact.apart_eq, Exact.near_comm, ← Exact.apart_eq, hapart]
      rw [if_pos rfl, Exact.exceeds, Exact.exceeds, hapart, hapart', Bool.true_and, Bool.true_and]
      obtain hlt | hgt := lt_or_gt_of_ne hne
      · rw [(Exact.lt_iff _ _).mpr hlt, Bool.eq_false_iff.mpr (mt (Exact.lt_iff _ _).mp hlt.asymm)]
        rfl
      · rw [(Exact.lt_iff _ _).mpr hgt]
        rfl
    | false =>
      have hapart' : Scalar.apart other.totalDegree t.totalDegree = false := by
        rw [Exact.apart_eq, Exact.near_comm, ← Exact.apart_eq, hapart]
      rw [if_neg Bool.false_ne_true, Exact.exceeds, Exact.exceeds, hapart, hapart']
      rfl
  · rw [thenBy, precedesByDegree_of_ne hconstant, precedesByDegree_of_ne (Ne.symm hconstant),
      precedes, if_pos (bne_iff_ne.mpr hconstant)]
    cases ht : t.isConstant <;> cases ho : other.isConstant <;> simp_all

/-- A constant has the degree zero. -/
theorem totalDegree_of_isConstant {t : Term (Exact rules)} (h : t.isConstant = true) :
    t.totalDegree = 0 := by
  rw [isConstant, Bool.and_eq_true, Bool.and_eq_true] at h
  rw [totalDegree, VariablePowers.degree, List.isEmpty_iff.mp h.1.1, List.foldl_nil, Exact.zero_eq]

/-- Two terms do not precede each other by degree. -/
theorem precedesByDegree_asymm {t other : Term (Exact rules)}
    (h : precedesByDegree t other = true) : precedesByDegree other t = false := by
  by_cases hconstant : t.isConstant = other.isConstant
  · rw [precedesByDegree_of_eq hconstant, Exact.exceeds, Bool.and_eq_true, Exact.lt_iff] at h
    rw [precedesByDegree_of_eq hconstant.symm, Exact.exceeds_eq_false_iff]
    exact Or.inl h.2.le
  · rw [precedesByDegree_of_ne hconstant] at h
    rw [precedesByDegree_of_ne (Ne.symm hconstant), Bool.eq_false_iff]
    exact fun ht => hconstant (ht.trans h.symm)

/-- The degree is of a kind, for terms that are not constant. -/
def DegreeIn (D : Exact rules → Prop) (t : Term (Exact rules)) : Prop :=
  t.isConstant = false → D t.totalDegree

/-- The comparison by degree is a strict weak order where nearness of degrees is transitive. -/
theorem weakOrder_precedesByDegree {D : Exact rules → Prop} (hD : Exact.NearTransitive D) :
    WeakOrder precedesByDegree (DegreeIn D) := by
  refine ⟨fun t other _ _ => precedesByDegree_asymm, fun a b c ha hb hc hba hcb => ?_⟩
  by_cases hac : c.isConstant = a.isConstant
  · rw [precedesByDegree_of_eq hac]
    cases hconstant : a.isConstant with
    | true =>
      rw [hconstant] at hac
      rw [totalDegree_of_isConstant hconstant, totalDegree_of_isConstant hac,
        Exact.exceeds_eq_false_iff]
      exact Or.inl le_rfl
    | false =>
      have hb' : b.isConstant = a.isConstant := by
        by_contra hne
        rw [precedesByDegree_of_ne (fun heq => hne (heq.symm.trans hac))] at hcb
        exact hne (hcb.trans hconstant.symm)
      rw [precedesByDegree_of_eq hb'] at hba
      rw [precedesByDegree_of_eq (hac.trans hb'.symm)] at hcb
      exact (Exact.weakOrder_exceeds_iff.mpr hD).trans (ha hconstant) (hb (hb'.trans hconstant))
        (hc (hac.trans hconstant)) hba hcb
  · rw [precedesByDegree_of_ne hac]
    by_contra hconstant
    have hconstant := Bool.of_not_eq_false hconstant
    -- `b` does not precede the constant `a`, so it is a constant before `c`, which is none.
    have hb' : b.isConstant = true := by
      by_contra hne
      rw [precedesByDegree_of_ne fun heq => hne (heq.trans hconstant)] at hba
      exact absurd hconstant (Bool.eq_false_iff.mp hba)
    rw [precedesByDegree_of_ne fun heq => hac (heq.trans (hb'.trans hconstant.symm))] at hcb
    exact absurd hb' (Bool.eq_false_iff.mp hcb)

/-- The comparison by key and coefficient is that of the pairs of both. -/
theorem precedesByKey_eq (t other : Term (Exact rules)) :
    precedesByKey t other =
      decide (toLex (t.baseKey, t.coefficient) < toLex (other.baseKey, other.coefficient)) := by
  have hlt (x y : Exact rules) : Scalar.lt x y = decide (x < y) := rfl
  by_cases hkey : t.baseKey = other.baseKey
  · simp [precedesByKey, Prod.Lex.toLex_lt_toLex, hkey, hlt]
  · simp [precedesByKey, Prod.Lex.toLex_lt_toLex, hkey]

/-- The comparison by key and coefficient is a strict weak order. -/
theorem weakOrder_precedesByKey (P : Term (Exact rules) → Prop) : WeakOrder precedesByKey P :=
  weakOrder_of_order (fun t => toLex (t.baseKey, t.coefficient)) fun t other _ _ =>
    precedesByKey_eq t other

/-- Terms are level by key and coefficient where both are equal. -/
theorem eq_of_level_precedesByKey {t other : Term (Exact rules)}
    (h : Level precedesByKey t other) :
    (t.baseKey, t.coefficient) = (other.baseKey, other.coefficient) := by
  rw [Level, precedesByKey_eq, precedesByKey_eq, decide_eq_false_iff_not, decide_eq_false_iff_not,
    not_lt, not_lt] at h
  exact toLex_inj.mp (le_antisymm h.2 h.1)

/-- Terms are in a strict weak order where nearness of degrees is transitive. -/
theorem weakOrder_precedes_of_nearTransitive {D : Exact rules → Prop}
    (hD : Exact.NearTransitive D) :
    WeakOrder (precedes : Term (Exact rules) → Term (Exact rules) → Bool) (DegreeIn D) := by
  rw [precedes_eq_thenBy]
  exact (weakOrder_precedesByDegree hD).thenBy (weakOrder_precedesByKey _)

/-- Two terms never precede each other. -/
theorem precedes_asymm {t other : Term (Exact rules)} (h : t.precedes other = true) :
    other.precedes t = false := by
  rw [precedes_eq_thenBy] at h ⊢
  exact thenBy_asymm precedesByDegree_asymm
    ((weakOrder_precedesByKey fun _ => True).asymm trivial trivial) h

/-- A power of a variable with a one-letter name as a term. -/
def letterPower (letter : Char) (exponent : Exact rules) : Term (Exact rules) :=
  ofVariables (.single (.singleton letter) exponent)

theorem totalDegree_letterPower (letter : Char) (exponent : Exact rules) :
    (letterPower letter exponent).totalDegree = exponent :=
  (congrArg (· + exponent) Exact.zero_eq).trans (zero_add exponent)

/-- The key of a power of a variable begins with its letter. -/
theorem exists_baseKey_letterPower (letter : Char) (exponent : Exact rules) :
    ∃ rest, (letterPower letter exponent).baseKey = .singleton letter ++ rest := by
  obtain ⟨rest, hrest⟩ : ∃ rest, powerKey (.singleton letter) exponent =
      String.singleton letter ++ rest := by
    unfold powerKey
    split
    · exact ⟨"", String.append_empty.symm⟩
    · exact ⟨"^" ++ Scalar.text exponent, String.append_assoc⟩
  have hparts : (letterPower letter exponent).baseKeyParts =
      [powerKey (.singleton letter) exponent] := by
    rw [letterPower, ofVariables, baseKeyParts, FunctionPowers.sorted_empty]
    rfl
  refine ⟨rest, ?_⟩
  simp [baseKey, hparts, appendKeyPart, hrest]

/-- The keys of powers of variables are in the order of the letters. -/
theorem baseKey_letterPower_lt {first second : Char} (hlt : first < second)
    (x y : Exact rules) : (letterPower first x).baseKey < (letterPower second y).baseKey := by
  obtain ⟨rest, hkey⟩ := exists_baseKey_letterPower first x
  obtain ⟨rest', hkey'⟩ := exists_baseKey_letterPower second y
  rw [hkey, hkey', String.lt_iff_toList_lt]
  simp [String.toList_append, List.cons_lt_cons_iff, hlt]

/-- A power of a variable precedes one of a near degree with a greater letter. -/
theorem precedes_letterPower_of_near {first second : Char} (hlt : first < second)
    {x y : Exact rules} (hnear : Scalar.near x y = true) :
    (letterPower first x).precedes (letterPower second y) = true := by
  have hkeys := baseKey_letterPower_lt hlt x y
  have hapart : Scalar.apart x y = false := by rw [Exact.apart_eq, hnear, Bool.not_true]
  have hconstant : (letterPower first x).isConstant =
      (letterPower second y).isConstant := rfl
  rw [precedes, hconstant, bne_self_eq_false, if_neg Bool.false_ne_true,
    totalDegree_letterPower, totalDegree_letterPower, hapart, if_neg Bool.false_ne_true,
    if_pos (bne_iff_ne.mpr hkeys.ne), decide_eq_true_iff]
  exact hkeys

/-- A power of a variable precedes one of a degree that it exceeds. -/
theorem precedes_letterPower_of_exceeds {first second : Char} {x y : Exact rules}
    (h : Exact.exceeds x y = true) :
    (letterPower first x).precedes (letterPower second y) = true := by
  have hconstant : (letterPower first x).isConstant = (letterPower second y).isConstant := rfl
  rw [Exact.exceeds, Bool.and_eq_true] at h
  rw [precedes, hconstant, bne_self_eq_false, if_neg Bool.false_ne_true,
    totalDegree_letterPower, totalDegree_letterPower, if_pos h.1]
  exact h.2

/-- Degrees that form a chain whose ends are apart make three terms precede each other in a
circle. -/
theorem circle_of_chain {x y z : Exact rules} (hxy : Scalar.near x y = true)
    (hyz : Scalar.near y z = true) (hzx : Exact.exceeds z x = true) :
    (letterPower 'a' x).precedes (letterPower 'b' y) = true ∧
      (letterPower 'b' y).precedes (letterPower 'c' z) = true ∧
      (letterPower 'c' z).precedes (letterPower 'a' x) = true :=
  ⟨precedes_letterPower_of_near (by decide) hxy,
    precedes_letterPower_of_near (by decide) hyz, precedes_letterPower_of_exceeds hzx⟩

/-- Terms in a circle are not always sorted in the same way. -/
theorem sort_of_precedes_circle {a b c : Term (Exact rules)} (hab : a.precedes b = true)
    (hbc : b.precedes c = true) (hca : c.precedes a = true) :
    sort [a, b, c] = [a, b, c] ∧ sort [c, b, a] = [b, c, a] :=
  sort_of_circle hbc (precedes_asymm hab) (precedes_asymm hbc) (precedes_asymm hca)

/-- A chain of near degrees whose ends are apart gives terms of these degrees that precede each other
in a circle. -/
theorem exists_circle {D : Exact rules → Prop} (h : ¬ Exact.NearTransitive D) :
    ∃ a b c : Term (Exact rules), a.DegreeIn D ∧ b.DegreeIn D ∧ c.DegreeIn D ∧
      a.baseKey ≠ b.baseKey ∧
      a.precedes b = true ∧ b.precedes c = true ∧ c.precedes a = true := by
  simp only [Exact.NearTransitive, not_forall] at h
  obtain ⟨x, y, z, hx, hy, hz, hxy, hyz, hxz⟩ := h
  have degreeIn {letter : Char} {d : Exact rules} (hd : D d) : (letterPower letter d).DegreeIn D :=
    fun _ => (totalDegree_letterPower letter d).symm ▸ hd
  have hends : Exact.exceeds z x = true ∨ Exact.exceeds x z = true := by
    by_contra hnone
    rw [not_or, Bool.not_eq_true, Bool.not_eq_true] at hnone
    exact hxz (Exact.level_exceeds_iff.mp hnone.symm)
  obtain hzx | hxz := hends
  · exact ⟨_, _, _, degreeIn hx, degreeIn hy, degreeIn hz, (baseKey_letterPower_lt (by decide) _ _).ne,
      circle_of_chain hxy hyz hzx⟩
  · rw [Exact.near_comm] at hxy hyz
    exact ⟨_, _, _, degreeIn hz, degreeIn hy, degreeIn hx, (baseKey_letterPower_lt (by decide) _ _).ne,
      circle_of_chain hyz hxy hxz⟩

/-- No term precedes itself and no two terms precede each other. On the terms with degrees of a kind
the comparison is a strict weak order exactly where nearness is transitive on these degrees, and
exactly then lists of these terms that are shuffles of each other are sorted to the same keys and
coefficients. -/
theorem strictWeakOrder_precedes_iff (D : Exact rules → Prop) :
    (∀ t : Term (Exact rules), t.precedes t = false) ∧
    (∀ t other : Term (Exact rules), t.precedes other = true → other.precedes t = false) ∧
    (StrictWeakOrder precedes (DegreeIn D) ↔ Exact.NearTransitive D) ∧
    ((∀ terms shuffled : List (Term (Exact rules)), (∀ t ∈ terms, t.DegreeIn D) →
      terms.Perm shuffled →
        (sort terms).map (fun t => (t.baseKey, t.coefficient)) =
          (sort shuffled).map fun t => (t.baseKey, t.coefficient)) ↔
      Exact.NearTransitive D) := by
  refine ⟨fun t => ?_, fun _ _ => precedes_asymm, ⟨fun horder => ?_, fun hD => ?_⟩,
    fun hsort => ?_, fun hD terms shuffled hterms hperm => ?_⟩
  · by_contra htt
    exact htt (precedes_asymm (Bool.of_not_eq_false htt))
  · by_contra hD
    obtain ⟨a, b, c, ha, hb, hc, -, hab, hbc, hca⟩ := exists_circle hD
    have hac := horder.trans ha hb hc hab hbc
    exact absurd hac (Bool.eq_false_iff.mp (precedes_asymm hca))
  · exact strictWeakOrder_iff.mpr (weakOrder_precedes_of_nearTransitive hD)
  · by_contra hD
    obtain ⟨a, b, c, ha, hb, hc, hkey, hab, hbc, hca⟩ := exists_circle hD
    obtain ⟨hforward, hbackward⟩ := sort_of_precedes_circle hab hbc hca
    have hdegrees : ∀ t ∈ [a, b, c], t.DegreeIn D := by simp [ha, hb, hc]
    have heq := hsort [a, b, c] [c, b, a] hdegrees (List.reverse_perm [c, b, a])
    rw [hforward, hbackward] at heq
    exact hkey (congrArg Prod.fst (List.cons.inj heq).1)
  · refine map_sort_eq_of_perm (weakOrder_precedes_of_nearTransitive hD) hterms
      (fun t other _ _ hlevel => ?_) hperm
    rw [precedes_eq_thenBy, level_thenBy_iff] at hlevel
    exact eq_of_level_precedesByKey hlevel.2

/-- The terms `3`, `x^(1/2)`, `-x^(1/2)` and `y^(3/2)`. -/
def halfPowers : List (Term (Exact .standard)) :=
  [constant 3, letterPower 'x' (.half 1), { letterPower 'x' (.half 1) with coefficient := -1 },
    letterPower 'y' (.half 3)]

theorem strictWeakOrder_precedes_halfPowers :
    Exact.NearTransitive (Exact.IsHalf : Exact .standard → Prop) ∧
    StrictWeakOrder precedes (DegreeIn (Exact.IsHalf : Exact .standard → Prop)) ∧
    (∀ t ∈ halfPowers, t.DegreeIn Exact.IsHalf) ∧ halfPowers.Perm halfPowers.reverse ∧
    (sort halfPowers).map (fun t => (t.baseKey, t.coefficient)) =
      (sort halfPowers.reverse).map (fun t => (t.baseKey, t.coefficient)) ∧
    (letterPower 'y' (.half 3) : Term (Exact .standard)).precedes (letterPower 'x' (.half 1)) =
      true ∧
    (letterPower 'x' (.half 1) : Term (Exact .standard)).precedes (letterPower 'y' (.half 3)) =
      false := by
  obtain ⟨-, hasymm, horder, hsort⟩ :=
    strictWeakOrder_precedes_iff (Exact.IsHalf : Exact .standard → Prop)
  have hdegrees : ∀ t ∈ halfPowers, t.DegreeIn Exact.IsHalf := by
    simp only [halfPowers, List.forall_mem_cons]
    refine ⟨fun hconstant => absurd hconstant (by decide), fun _ => ?_, fun _ => ?_, fun _ => ?_,
      List.forall_mem_nil _⟩
    · exact ⟨1, totalDegree_letterPower _ _⟩
    · exact ⟨1, totalDegree_letterPower _ _⟩
    · exact ⟨3, totalDegree_letterPower _ _⟩
  have hperm : halfPowers.Perm halfPowers.reverse := (List.reverse_perm _).symm
  have hprecedes : (letterPower 'y' (.half 3) : Term (Exact .standard)).precedes
      (letterPower 'x' (.half 1)) = true := precedes_letterPower_of_exceeds (by decide +kernel)
  exact ⟨Exact.nearTransitive_isHalf, horder.mpr Exact.nearTransitive_isHalf, hdegrees, hperm,
    hsort.mpr Exact.nearTransitive_isHalf _ _ hdegrees hperm, hprecedes, hasymm _ _ hprecedes⟩

/-- The terms `a`, `b^1.00000000006` and `c^1.00000000012`, whose degrees are a chain. -/
def closeDegrees : List (Term (Exact .standard)) :=
  [letterPower 'a' 1, letterPower 'b' (1 + 6 / 10 ^ 11), letterPower 'c' (1 + 12 / 10 ^ 11)]

/-- The comparison of all terms is no strict weak order, and the order in which terms come shows in
the sorted list. -/
theorem not_strictWeakOrder_closeDegrees :
    ¬ StrictWeakOrder precedes (fun _ : Term (Exact .standard) => True) ∧
    closeDegrees.Perm closeDegrees.reverse ∧
    (sort closeDegrees).map (fun t => (t.baseKey, t.coefficient)) ≠
      (sort closeDegrees.reverse).map fun t => (t.baseKey, t.coefficient) := by
  obtain ⟨hab, hbc, hca⟩ := circle_of_chain (x := (1 : Exact .standard)) (y := 1 + 6 / 10 ^ 11)
    (z := 1 + 12 / 10 ^ 11) (by decide +kernel) (by decide +kernel) (by decide +kernel)
  refine ⟨fun horder => ?_, (List.reverse_perm _).symm, fun heq => ?_⟩
  · have hac := horder.trans trivial trivial trivial hab hbc
    exact absurd hac (Bool.eq_false_iff.mp (precedes_asymm hca))
  · obtain ⟨hforward, hbackward⟩ := sort_of_precedes_circle hab hbc hca
    have hkeys := baseKey_letterPower_lt (show 'a' < 'b' by decide) (1 : Exact .standard)
      (1 + 6 / 10 ^ 11)
    simp only [closeDegrees, List.reverse_cons, List.reverse_nil, List.nil_append,
      List.cons_append, hforward, hbackward] at heq
    exact hkeys.ne (congrArg Prod.fst (List.cons.inj heq).1)

end Term

end SymbolicForms
