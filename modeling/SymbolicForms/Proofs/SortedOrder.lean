import Mathlib.Data.List.Sort
import SymbolicForms.StableSort

/-!
# Sorted lists

A comparison that is a strict weak order on some elements sorts their lists: no
element of the result precedes an earlier one. Insertion puts an element behind
those it does not precede, merging keeps both lists sorted as long as the
element that is taken belongs in front of the other, and as many rounds of
merging as there are runs leave one run. A list that is sorted already stays as
it is. Strict weak orders are combined, one deciding where the other does not,
and under one of them a list is sorted in the same way however it was shuffled,
up to elements that do not precede each other.
-/

namespace SymbolicForms.StableSort

variable {α : Type} {precedes : α → α → Bool} {P : α → Prop}

/-- A comparison is a strict weak order on the elements of a kind. -/
structure WeakOrder (precedes : α → α → Bool) (P : α → Prop) : Prop where
  /-- Two elements do not precede each other. -/
  asymm : ∀ ⦃a b⦄, P a → P b → precedes a b = true → precedes b a = false
  /-- Not to be preceded is transitive. -/
  trans : ∀ ⦃a b c⦄, P a → P b → P c →
    precedes b a = false → precedes c b = false → precedes c a = false

/-- Comparing by a linear order is a strict weak order. -/
theorem weakOrder_of_order {β : Type*} [LinearOrder β] (order : α → β)
    (h : ∀ a b, P a → P b → precedes a b = decide (order a < order b)) :
    WeakOrder precedes P where
  asymm a b ha hb hab := by
    rw [h a b ha hb, decide_eq_true_iff] at hab
    rw [h b a hb ha, decide_eq_false_iff_not]
    exact hab.asymm
  trans a b c ha hb hc hba hcb := by
    rw [h b a hb ha, decide_eq_false_iff_not, not_lt] at hba
    rw [h c b hc hb, decide_eq_false_iff_not, not_lt] at hcb
    rw [h c a hc ha, decide_eq_false_iff_not, not_lt]
    exact hba.trans hcb

/-- Neither of two elements precedes the other. -/
def Level (precedes : α → α → Bool) (a b : α) : Prop :=
  precedes a b = false ∧ precedes b a = false

/-- What sorting asks of a comparison of the elements of a kind: no element precedes itself, and to
precede and to be level are transitive. -/
structure StrictWeakOrder (precedes : α → α → Bool) (P : α → Prop) : Prop where
  /-- No element precedes itself. -/
  irrefl : ∀ ⦃a⦄, P a → precedes a a = false
  /-- What precedes an element precedes those behind it. -/
  trans : ∀ ⦃a b c⦄, P a → P b → P c →
    precedes a b = true → precedes b c = true → precedes a c = true
  /-- Elements level with one element are level with each other. -/
  level_trans : ∀ ⦃a b c⦄, P a → P b → P c →
    Level precedes a b → Level precedes b c → Level precedes a c

/-- Being level is transitive under a strict weak order. -/
theorem WeakOrder.level_trans (hw : WeakOrder precedes P) {a b c : α} (ha : P a) (hb : P b)
    (hc : P c) (hab : Level precedes a b) (hbc : Level precedes b c) : Level precedes a c :=
  ⟨hw.trans hc hb ha hbc.1 hab.1, hw.trans ha hb hc hab.2 hbc.2⟩

/-- The two ways to say what a strict weak order is agree. -/
theorem strictWeakOrder_iff : StrictWeakOrder precedes P ↔ WeakOrder precedes P := by
  constructor
  · intro h
    have asymm ⦃a b : α⦄ (ha : P a) (hb : P b) (hab : precedes a b = true) :
        precedes b a = false := by
      by_contra hba
      have hself := h.trans ha hb ha hab (Bool.of_not_eq_false hba)
      exact absurd hself (Bool.eq_false_iff.mp (h.irrefl ha))
    refine ⟨asymm, fun a b c ha hb hc hba hcb => ?_⟩
    by_contra hca
    have hca := Bool.of_not_eq_false hca
    -- Nothing stands strictly between `a` and `b`, or between `b` and `c`: all three are level.
    have hab : precedes a b = false := by
      by_contra hab
      exact absurd (h.trans hc ha hb hca (Bool.of_not_eq_false hab)) (Bool.eq_false_iff.mp hcb)
    have hbc : precedes b c = false := by
      by_contra hbc
      exact absurd (h.trans hb hc ha (Bool.of_not_eq_false hbc) hca) (Bool.eq_false_iff.mp hba)
    exact absurd hca (Bool.eq_false_iff.mp (h.level_trans ha hb hc ⟨hab, hba⟩ ⟨hbc, hcb⟩).2)
  · intro hw
    refine ⟨fun a ha => ?_, fun a b c ha hb hc hab hbc => ?_,
      fun a b c ha hb hc => hw.level_trans ha hb hc⟩
    · by_contra haa
      exact haa (hw.asymm ha ha (Bool.of_not_eq_false haa))
    · by_contra hac
      have hba := hw.trans hb hc ha (hw.asymm hb hc hbc) (Bool.eq_false_iff.mpr hac)
      exact absurd hab (Bool.eq_false_iff.mp hba)

/-- Compare first by one comparison, and then by another what is level there. -/
def thenBy (first second : α → α → Bool) (a b : α) : Bool :=
  first a b || (!first b a && second a b)

theorem thenBy_eq_false_iff {first second : α → α → Bool} {a b : α} :
    thenBy first second a b = false ↔
      first a b = false ∧ (first b a = true ∨ second a b = false) := by
  rw [thenBy, Bool.or_eq_false_iff, Bool.and_eq_false_iff, Bool.not_eq_false']

/-- Elements are level when they are level in both comparisons. -/
theorem level_thenBy_iff {first second : α → α → Bool} {a b : α} :
    Level (thenBy first second) a b ↔ Level first a b ∧ Level second a b := by
  simp only [Level, thenBy_eq_false_iff]
  constructor
  · rintro ⟨⟨hab, hab'⟩, hba, hba'⟩
    exact ⟨⟨hab, hba⟩, hab'.resolve_left (Bool.eq_false_iff.mp hba),
      hba'.resolve_left (Bool.eq_false_iff.mp hab)⟩
  · rintro ⟨⟨hab, hba⟩, hab', hba'⟩
    exact ⟨⟨hab, Or.inr hab'⟩, hba, Or.inr hba'⟩

/-- If neither of two comparisons goes both ways, then their combination does not. -/
theorem thenBy_asymm {first second : α → α → Bool} {a b : α}
    (hfirst : first a b = true → first b a = false)
    (hsecond : second a b = true → second b a = false) (h : thenBy first second a b = true) :
    thenBy first second b a = false := by
  rw [thenBy, Bool.or_eq_true, Bool.and_eq_true, Bool.not_eq_true'] at h
  rw [thenBy_eq_false_iff]
  obtain hab | ⟨hba, hab⟩ := h
  · exact ⟨hfirst hab, Or.inl hab⟩
  · exact ⟨hba, Or.inr (hsecond hab)⟩

/-- Two strict weak orders, one after the other, are one. -/
theorem WeakOrder.thenBy {first second : α → α → Bool} (hfirst : WeakOrder first P)
    (hsecond : WeakOrder second P) : WeakOrder (thenBy first second) P where
  asymm _ _ ha hb := thenBy_asymm (hfirst.asymm ha hb) (hsecond.asymm ha hb)
  trans a b c ha hb hc hba hcb := by
    rw [thenBy_eq_false_iff] at hba hcb ⊢
    obtain ⟨hba, hab⟩ := hba
    obtain ⟨hcb, hbc⟩ := hcb
    refine ⟨hfirst.trans ha hb hc hba hcb, ?_⟩
    -- If `a` is level with `c` in the first comparison, then so is `b` with both.
    by_cases hac : first a c = true
    · exact Or.inl hac
    · have hac := Bool.eq_false_iff.mpr hac
      have hab' := hfirst.trans hb hc ha hcb hac
      have hbc' := hfirst.trans hc ha hb hac hba
      exact Or.inr (hsecond.trans ha hb hc (hab.resolve_left (Bool.eq_false_iff.mp hab'))
        (hbc.resolve_left (Bool.eq_false_iff.mp hbc')))

/-- No element precedes an earlier one. -/
def Sorted (precedes : α → α → Bool) (items : List α) : Prop :=
  items.Pairwise fun first second => precedes second first = false

/-- A list that is held last element first is sorted. -/
def SortedBackward (precedes : α → α → Bool) (items : List α) : Prop :=
  items.Pairwise fun second first => precedes second first = false

theorem sorted_reverse {items : List α} :
    Sorted precedes items.reverse ↔ SortedBackward precedes items := List.pairwise_reverse

theorem sortedBackward_reverse {items : List α} :
    SortedBackward precedes items.reverse ↔ Sorted precedes items := List.pairwise_reverse

section Runs

variable (hw : WeakOrder precedes P)
include hw

/-- Insertion behind other elements keeps a run sorted. -/
theorem sortedBackward_insertLast {element : α} (he : P element) {run : List α}
    (hP : ∀ a ∈ run, P a) (h : SortedBackward precedes run) :
    SortedBackward precedes (insertLast precedes element run) := by
  induction run with
  | nil => exact List.pairwise_singleton _ _
  | cons last rest ih =>
    obtain ⟨hlast, hrest⟩ := List.pairwise_cons.mp h
    obtain ⟨hPlast, hPrest⟩ := List.forall_mem_cons.mp hP
    unfold insertLast
    split
    · next hbefore =>
      refine List.pairwise_cons.mpr ⟨fun a ha => ?_, ih hPrest hrest⟩
      obtain rfl | ha := List.mem_cons.mp ((insertLast_perm precedes element rest).mem_iff.mp ha)
      · exact hw.asymm he hPlast hbefore
      · exact hlast a ha
    · next hbehind =>
      have hbehind := Bool.eq_false_iff.mpr hbehind
      refine List.pairwise_cons.mpr ⟨fun a ha => ?_, h⟩
      obtain rfl | ha := List.mem_cons.mp ha
      · exact hbehind
      · exact hw.trans (hPrest a ha) hPlast he (hlast a ha) hbehind

/-- Insertion keeps a run sorted. -/
theorem sortedBackward_insertRun {element : α} (he : P element) {run : List α}
    (hP : ∀ a ∈ run, P a) (h : SortedBackward precedes run) :
    SortedBackward precedes (insertRun precedes run element) := by
  unfold insertRun
  split
  · exact List.pairwise_singleton _ _
  · next first hfirst =>
    split
    · next hbefore =>
      obtain ⟨front, rfl⟩ := List.getLast?_eq_some_iff.mp hfirst
      have hPfirst : P first := hP first (by simp)
      refine List.pairwise_append.mpr ⟨h, List.pairwise_singleton _ _, fun a ha b hb => ?_⟩
      obtain rfl := List.mem_singleton.mp hb
      have hbelow := hw.asymm he hPfirst hbefore
      obtain ha | ha := List.mem_append.mp ha
      · have hafter := (List.pairwise_append.mp h).2.2 a ha first List.mem_cons_self
        exact hw.trans he hPfirst (hP a (List.mem_append_left _ ha)) hbelow hafter
      · exact List.mem_singleton.mp ha ▸ hbelow
    · exact sortedBackward_insertLast hw he hP h

/-- A run is sorted by insertion. -/
theorem sorted_sortRun {items : List α} (hP : ∀ a ∈ items, P a) :
    Sorted precedes (sortRun precedes items) := by
  have inserted (run : List α) (hrun : ∀ a ∈ run, P a) (h : SortedBackward precedes run) :
      SortedBackward precedes (items.foldl (insertRun precedes) run) := by
    induction items generalizing run with
    | nil => exact h
    | cons item rest ih =>
      obtain ⟨hitem, hrest⟩ := List.forall_mem_cons.mp hP
      refine ih hrest _ (fun a ha => ?_) (sortedBackward_insertRun hw hitem hrun h)
      obtain rfl | ha := List.mem_cons.mp ((insertRun_perm precedes run item).mem_iff.mp ha)
      · exact hitem
      · exact hrun a ha
  exact sorted_reverse.mpr (inserted [] (List.forall_mem_nil _) List.Pairwise.nil)

/-- A list is cut into sorted runs. -/
theorem sorted_of_mem_cut {count : ℕ} {items : List α} (hP : ∀ a ∈ items, P a) :
    ∀ run ∈ cut precedes count items, Sorted precedes run := by
  induction count generalizing items with
  | zero => exact List.forall_mem_nil _
  | succ count ih =>
    unfold cut
    split
    · exact List.forall_mem_nil _
    · exact List.forall_mem_cons.mpr
        ⟨sorted_sortRun hw fun a ha => hP a (List.mem_of_mem_take ha),
          ih fun a ha => hP a (List.mem_of_mem_drop ha)⟩

end Runs

/-- Merging keeps a transitive order, when the element that is taken belongs in front. -/
theorem pairwise_merge {r : α → α → Prop} {goesFirst : α → α → Bool}
    (htrans : ∀ ⦃a b c⦄, P a → P b → P c → r a b → r b c → r a c)
    (hgoes : ∀ ⦃x y⦄, P x → P y → if goesFirst y x then r y x else r x y)
    {first second : List α} (hf : ∀ a ∈ first, P a) (hs : ∀ a ∈ second, P a)
    (hfirst : first.Pairwise r) (hsecond : second.Pairwise r) :
    (merge goesFirst first second).Pairwise r := by
  induction first generalizing second with
  | nil => exact hsecond
  | cons x first ih =>
    obtain ⟨hPx, hf'⟩ := List.forall_mem_cons.mp hf
    obtain ⟨hx, hfirst'⟩ := List.pairwise_cons.mp hfirst
    unfold merge
    induction second with
    | nil =>
      refine List.pairwise_cons.mpr ⟨fun a ha => ?_, ih hf' hs hfirst' hsecond⟩
      have hmem := (merge_perm goesFirst first []).mem_iff.mp ha
      exact hx a (by simpa using hmem)
    | cons y second ihy =>
      obtain ⟨hPy, hs'⟩ := List.forall_mem_cons.mp hs
      obtain ⟨hy, hsecond'⟩ := List.pairwise_cons.mp hsecond
      have hgo := hgoes hPx hPy
      unfold mergeOnto
      split
      · next hyx =>
        rw [if_pos hyx] at hgo
        refine List.pairwise_cons.mpr ⟨fun a ha => ?_, ihy hs' hsecond'⟩
        have hmem := (merge_perm goesFirst (x :: first) second).mem_iff.mp ha
        obtain hmem | hmem := List.mem_append.mp hmem
        · obtain rfl | hmem := List.mem_cons.mp hmem
          · exact hgo
          · exact htrans hPy hPx (hf' a hmem) hgo (hx a hmem)
        · exact hy a hmem
      · next hxy =>
        rw [if_neg hxy] at hgo
        refine List.pairwise_cons.mpr ⟨fun a ha => ?_, ih hf' hs hfirst' hsecond⟩
        have hmem := (merge_perm goesFirst first (y :: second)).mem_iff.mp ha
        obtain hmem | hmem := List.mem_append.mp hmem
        · exact hx a hmem
        · obtain rfl | hmem := List.mem_cons.mp hmem
          · exact hgo
          · exact htrans hPx hPy (hs' a hmem) hgo (hy a hmem)

/-- Merging in pairs leaves half of the lists. -/
theorem length_mergePairs_le (lists : List (List α)) :
    (mergePairs precedes lists).length ≤ (lists.length + 1) / 2 := by
  induction lists using mergePairs.induct with
  | case1 first second rest ih =>
    rw [mergePairs, List.length_cons, List.length_cons, List.length_cons]
    omega
  | case2 rest hshort =>
    rcases rest with _ | ⟨first, _ | ⟨second, rest⟩⟩
    · exact Nat.zero_le _
    · simp [mergePairs]
    · exact absurd rfl (hshort first second rest)

section Merging

variable (hw : WeakOrder precedes P)
include hw

/-- Merging from the front keeps the lists sorted. -/
theorem sorted_mergeForward {first second : List α} (hf : ∀ a ∈ first, P a)
    (hs : ∀ a ∈ second, P a) (hfirst : Sorted precedes first) (hsecond : Sorted precedes second) :
    Sorted precedes (mergeForward precedes first second) := by
  refine pairwise_merge (r := fun first second => precedes second first = false) hw.trans
    (fun x y hx hy => ?_) hf hs hfirst hsecond
  split
  · next hyx => exact hw.asymm hy hx hyx
  · next hyx => exact Bool.eq_false_iff.mpr hyx

/-- Merging from the back keeps the lists sorted. -/
theorem sorted_mergeBackward {first second : List α} (hf : ∀ a ∈ first, P a)
    (hs : ∀ a ∈ second, P a) (hfirst : Sorted precedes first) (hsecond : Sorted precedes second) :
    Sorted precedes (mergeBackward precedes first second) := by
  have hf' (a : α) (ha : a ∈ first.reverse) : P a := hf a (List.mem_reverse.mp ha)
  have hs' (a : α) (ha : a ∈ second.reverse) : P a := hs a (List.mem_reverse.mp ha)
  refine sorted_reverse.mpr (pairwise_merge (r := fun second first => precedes second first = false)
    (fun a b c ha hb hc hab hbc => hw.trans hc hb ha hbc hab) (fun x y hx hy => ?_) hf' hs'
    (sortedBackward_reverse.mpr hfirst) (sortedBackward_reverse.mpr hsecond))
  cases hyx : precedes y x with
  | false => simp
  | true => simpa using hw.asymm hy hx hyx

/-- Merging in pairs keeps all lists sorted. -/
theorem sorted_of_mem_mergePairs {lists : List (List α)}
    (hP : ∀ items ∈ lists, ∀ a ∈ items, P a) (h : ∀ items ∈ lists, Sorted precedes items) :
    ∀ items ∈ mergePairs precedes lists, Sorted precedes items := by
  induction lists using mergePairs.induct with
  | case1 first second rest ih =>
    simp only [List.forall_mem_cons] at hP h
    obtain ⟨hPfirst, hPsecond, hPrest⟩ := hP
    obtain ⟨hfirst, hsecond, hrest⟩ := h
    rw [mergePairs]
    exact List.forall_mem_cons.mpr
      ⟨sorted_mergeForward hw hPfirst hPsecond hfirst hsecond, ih hPrest hrest⟩
  | case2 rest hshort =>
    rw [mergePairs]
    · exact h
    · exact hshort

/-- Enough rounds of merging leave one sorted list. -/
theorem sorted_flatten_mergeRounds {rounds : ℕ} {lists : List (List α)}
    (hP : ∀ items ∈ lists, ∀ a ∈ items, P a) (h : ∀ items ∈ lists, Sorted precedes items)
    (hrounds : lists.length ≤ rounds + 1) :
    Sorted precedes (mergeRounds precedes rounds lists).flatten := by
  induction rounds generalizing lists with
  | zero =>
    match lists, hrounds with
    | [], _ => exact List.Pairwise.nil
    | [items], _ => simpa [mergeRounds] using h
  | succ rounds ih =>
    have hmerged (items : List α) (hitems : items ∈ mergePairs precedes lists) (a : α)
        (ha : a ∈ items) : P a := by
      have hflat := (flatten_mergePairs_perm precedes lists).mem_iff.mp
        (List.mem_flatten.mpr ⟨items, hitems, ha⟩)
      obtain ⟨source, hsource, hmem⟩ := List.mem_flatten.mp hflat
      exact hP source hsource a hmem
    refine ih hmerged (sorted_of_mem_mergePairs hw hP h) ?_
    have hhalf : (mergePairs precedes lists).length ≤ (lists.length + 1) / 2 :=
      length_mergePairs_le lists
    omega

/-- A sorted half is sorted. -/
theorem sorted_sortHalf {items : List α} (hP : ∀ a ∈ items, P a) :
    Sorted precedes (sortHalf precedes items) := by
  refine sorted_flatten_mergeRounds hw (fun run hrun a ha => ?_) (sorted_of_mem_cut hw hP)
    (Nat.le_succ _)
  have hflat := (flatten_runs_perm precedes items).mem_iff.mp
    (List.mem_flatten.mpr ⟨run, hrun, ha⟩)
  exact hP a hflat

/-- A sorted list is sorted. -/
theorem sorted_sort {items : List α} (hP : ∀ a ∈ items, P a) :
    Sorted precedes (sort precedes items) := by
  have hfirst (a : α) (ha : a ∈ items.take ((items.length + 1) / 2)) : P a :=
    hP a (List.mem_of_mem_take ha)
  have hsecond (a : α) (ha : a ∈ items.drop ((items.length + 1) / 2)) : P a :=
    hP a (List.mem_of_mem_drop ha)
  have hfirst' (a : α) (ha : a ∈ sortHalf precedes (items.take ((items.length + 1) / 2))) : P a :=
    hfirst a ((sortHalf_perm precedes _).mem_iff.mp ha)
  have hsecond' (a : α) (ha : a ∈ sortHalf precedes (items.drop ((items.length + 1) / 2))) :
      P a := hsecond a ((sortHalf_perm precedes _).mem_iff.mp ha)
  unfold sort
  dsimp only
  split
  · exact sorted_mergeForward hw hfirst' hsecond' (sorted_sortHalf hw hfirst)
      (sorted_sortHalf hw hsecond)
  · exact sorted_mergeBackward hw hfirst' hsecond' (sorted_sortHalf hw hfirst)
      (sorted_sortHalf hw hsecond)

/-- Where only equal images are level with each other, the order in which elements came does not
show in the images of the sorted list. -/
theorem map_sort_eq {β : Type*} {r : β → β → Prop} {f : α → β} {items other : List α}
    (hP : ∀ a ∈ items, P a) (hP' : ∀ a ∈ other, P a)
    (hr : ∀ a b, P a → P b → precedes b a = false → r (f a) (f b))
    (hantisymm : ∀ x y, x ∈ items.map f → y ∈ other.map f → r x y → r y x → x = y)
    (hperm : (items.map f).Perm (other.map f)) :
    (sort precedes items).map f = (sort precedes other).map f := by
  have images {items : List α} (hP : ∀ a ∈ items, P a) :
      ((sort precedes items).map f).Pairwise r := by
    have hmem (a : α) (ha : a ∈ sort precedes items) : P a :=
      hP a ((sort_perm precedes items).mem_iff.mp ha)
    refine List.pairwise_map.mpr ((sorted_sort hw hP).imp_of_mem fun {a b} ha hb hab => ?_)
    exact hr a b (hmem a ha) (hmem b hb) hab
  have hitems := (sort_perm precedes items).map f
  have hother := (sort_perm precedes other).map f
  refine List.Perm.eq_of_pairwise (fun x y hx hy => ?_) (images hP) (images hP')
    (hitems.trans (hperm.trans hother.symm))
  exact hantisymm x y (hitems.mem_iff.mp hx) (hother.mem_iff.mp hy)

/-- Where elements that are level have the same image, the order in which elements came does not
show in the images of the sorted list. -/
theorem map_sort_eq_of_perm {β : Type*} {g : α → β} {items other : List α}
    (hP : ∀ a ∈ items, P a) (hg : ∀ a b, P a → P b → Level precedes a b → g a = g b)
    (hperm : items.Perm other) :
    (sort precedes items).map g = (sort precedes other).map g := by
  have hP' (a : α) (ha : a ∈ other) : P a := hP a (hperm.mem_iff.mpr ha)
  -- Beside its image, an element is seen through those that precede it.
  let view (a : α) : (α → Prop) × β := (fun x => P x ∧ precedes x a = true, g a)
  have hirrefl {a : α} (ha : P a) : precedes a a = false :=
    (strictWeakOrder_iff.mpr hw).irrefl ha
  have hview : (sort precedes items).map view = (sort precedes other).map view := by
    refine map_sort_eq hw (r := fun first second => ∀ x, first.1 x → second.1 x) hP hP' ?_ ?_
      (hperm.map view)
    · rintro a b ha hb hba x ⟨hx, hxa⟩
      refine ⟨hx, ?_⟩
      by_contra hxb
      have hle := hw.trans ha hb hx hba (Bool.eq_false_iff.mpr hxb)
      exact absurd hxa (Bool.eq_false_iff.mp hle)
    · intro first second hfirst hsecond hle hge
      obtain ⟨a, ha, rfl⟩ := List.mem_map.mp hfirst
      obtain ⟨b, hb, rfl⟩ := List.mem_map.mp hsecond
      have hlevel : Level precedes a b := by
        constructor
        · by_contra hab
          have hself := (hge a ⟨hP a ha, Bool.of_not_eq_false hab⟩).2
          exact absurd hself (Bool.eq_false_iff.mp (hirrefl (hP a ha)))
        · by_contra hba
          have hself := (hle b ⟨hP' b hb, Bool.of_not_eq_false hba⟩).2
          exact absurd hself (Bool.eq_false_iff.mp (hirrefl (hP' b hb)))
      exact Prod.ext (funext fun x => propext ⟨hle x, hge x⟩)
        (hg a b (hP a ha) (hP' b hb) hlevel)
  have himages := congrArg (List.map Prod.snd) hview
  rwa [List.map_map, List.map_map] at himages

end Merging

/-- Three elements of which each precedes the next one, in a circle, stay in that order, and are put
in another one when they come the other way round. -/
theorem sort_of_circle {a b c : α} (hbc : precedes b c = true) (hba : precedes b a = false)
    (hcb : precedes c b = false) (hac : precedes a c = false) :
    sort precedes [a, b, c] = [a, b, c] ∧ sort precedes [c, b, a] = [b, c, a] := by
  constructor <;>
    simp [sort, sortHalf, mergeAll, mergeRounds, mergePairs, runs, cut, runLength, sortRun,
      insertRun, insertLast, mergeBackward, merge, mergeOnto, hbc, hba, hcb, hac]

section Stability

/-- An element that precedes nothing in a run is put behind it. -/
theorem insertRun_of_sorted {run : List α} {element : α}
    (h : ∀ a ∈ run, precedes element a = false) :
    insertRun precedes run element = element :: run := by
  cases run with
  | nil => rfl
  | cons last rest =>
    obtain ⟨hlast, -⟩ := List.forall_mem_cons.mp h
    have hinsert : insertLast precedes element (last :: rest) = element :: last :: rest := by
      rw [insertLast, hlast]
      rfl
    unfold insertRun
    split
    · next hnone => exact absurd (List.getLast?_eq_none_iff.mp hnone) (List.cons_ne_nil _ _)
    · next first hfirst =>
      rw [h first (List.mem_of_getLast? hfirst)]
      exact hinsert

/-- A sorted run stays as it is. -/
theorem sortRun_of_sorted {items : List α} (h : Sorted precedes items) :
    sortRun precedes items = items := by
  have inserted (run items : List α) (h : Sorted precedes (run.reverse ++ items)) :
      items.foldl (insertRun precedes) run = items.reverse ++ run := by
    induction items generalizing run with
    | nil => rfl
    | cons item rest ih =>
      have hbefore (a : α) (ha : a ∈ run) : precedes item a = false :=
        (List.pairwise_append.mp h).2.2 a (List.mem_reverse.mpr ha) item List.mem_cons_self
      have hnext : Sorted precedes ((item :: run).reverse ++ rest) := by
        rwa [List.reverse_cons, List.append_assoc, List.singleton_append]
      rw [List.foldl_cons, insertRun_of_sorted hbefore, ih _ hnext, List.reverse_cons,
        List.append_assoc, List.singleton_append]
  rw [sortRun, inserted [] items h, List.append_nil, List.reverse_reverse]

/-- The runs of a sorted list are its parts. -/
theorem flatten_cut_of_sorted {count : ℕ} {items : List α} (hcount : items.length ≤ count)
    (h : Sorted precedes items) : (cut precedes count items).flatten = items := by
  induction count generalizing items with
  | zero => exact (List.eq_nil_of_length_eq_zero (Nat.le_zero.mp hcount)).symm
  | succ count ih =>
    have hshorter : (items.drop runLength).length ≤ count := by
      rw [List.length_drop, runLength]
      omega
    unfold cut
    split
    · next hempty => exact (List.isEmpty_iff.mp hempty).symm
    · rw [List.flatten_cons, sortRun_of_sorted (h.sublist (List.take_sublist _ _)),
        ih hshorter (h.sublist (List.drop_sublist _ _)), List.take_append_drop]

/-- Of two lists the first one is taken whole when nothing of the second goes first. -/
theorem merge_eq_append {goesFirst : α → α → Bool} {first second : List α}
    (h : ∀ x ∈ first, ∀ y ∈ second, goesFirst y x = false) :
    merge goesFirst first second = first ++ second := by
  induction first with
  | nil => rfl
  | cons x first ih =>
    obtain ⟨hx, hfirst⟩ := List.forall_mem_cons.mp h
    unfold merge mergeOnto
    split
    · rw [ih hfirst]
      rfl
    · next y rest =>
      rw [hx y List.mem_cons_self, ih hfirst]
      rfl

/-- Of two lists the second one is taken whole when all of it goes first. -/
theorem merge_eq_append_swap {goesFirst : α → α → Bool} {first second : List α}
    (h : ∀ x ∈ first, ∀ y ∈ second, goesFirst y x = true) :
    merge goesFirst first second = second ++ first := by
  cases first with
  | nil => exact (List.append_nil second).symm
  | cons x first =>
    obtain ⟨hx, -⟩ := List.forall_mem_cons.mp h
    have hrest : merge goesFirst first [] = first := by
      rw [merge_eq_append fun _ _ _ hy => absurd hy List.not_mem_nil, List.append_nil]
    unfold merge
    clear h
    induction second with
    | nil => rw [mergeOnto, hrest, List.nil_append]
    | cons y second ih =>
      obtain ⟨hy, hsecond⟩ := List.forall_mem_cons.mp hx
      rw [mergeOnto, hy, if_pos rfl, ih hsecond, List.cons_append]

/-- Lists that follow each other in order are put one behind the other, from the front. -/
theorem mergeForward_of_sorted {first second : List α} (h : Sorted precedes (first ++ second)) :
    mergeForward precedes first second = first ++ second :=
  merge_eq_append (List.pairwise_append.mp h).2.2

/-- Lists that follow each other in order are put one behind the other, from the back. -/
theorem mergeBackward_of_sorted {first second : List α} (h : Sorted precedes (first ++ second)) :
    mergeBackward precedes first second = first ++ second := by
  have hgoes (x : α) (hx : x ∈ first.reverse) (y : α) (hy : y ∈ second.reverse) :
      (!precedes y x) = true := by
    rw [(List.pairwise_append.mp h).2.2 x (List.mem_reverse.mp hx) y (List.mem_reverse.mp hy)]
    rfl
  rw [mergeBackward, merge_eq_append_swap hgoes, List.reverse_append, List.reverse_reverse,
    List.reverse_reverse]

/-- Lists that follow each other in order are merged in pairs without a change. -/
theorem flatten_mergePairs_of_sorted {lists : List (List α)} (h : Sorted precedes lists.flatten) :
    (mergePairs precedes lists).flatten = lists.flatten := by
  induction lists using mergePairs.induct with
  | case1 first second rest ih =>
    rw [List.flatten_cons, List.flatten_cons, ← List.append_assoc] at h ⊢
    obtain ⟨hpair, hrest, -⟩ := List.pairwise_append.mp h
    rw [mergePairs, List.flatten_cons, mergeForward_of_sorted hpair, ih hrest]
  | case2 rest hshort =>
    rw [mergePairs]
    exact hshort

/-- Rounds of merging do not change lists that follow each other in order. -/
theorem flatten_mergeRounds_of_sorted {rounds : ℕ} {lists : List (List α)}
    (h : Sorted precedes lists.flatten) :
    (mergeRounds precedes rounds lists).flatten = lists.flatten := by
  induction rounds generalizing lists with
  | zero => rfl
  | succ rounds ih =>
    have hpairs := flatten_mergePairs_of_sorted h
    rw [mergeRounds, ih (hpairs ▸ h), hpairs]

/-- A sorted list stays as it is, whatever the comparison. -/
theorem sort_of_sorted {items : List α} (h : Sorted precedes items) :
    sort precedes items = items := by
  have half {items : List α} (h : Sorted precedes items) : sortHalf precedes items = items := by
    have hruns : (runs precedes items).flatten = items := flatten_cut_of_sorted (Nat.le_refl _) h
    rw [sortHalf, mergeAll, flatten_mergeRounds_of_sorted (hruns.symm ▸ h), hruns]
  have hwhole := List.take_append_drop ((items.length + 1) / 2) items
  have hsorted := hwhole.symm ▸ h
  unfold sort
  dsimp only
  rw [half (h.sublist (List.take_sublist _ _)), half (h.sublist (List.drop_sublist _ _))]
  split
  · rw [mergeForward_of_sorted hsorted, hwhole]
  · rw [mergeBackward_of_sorted hsorted, hwhole]

end Stability

end SymbolicForms.StableSort
