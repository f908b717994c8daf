/-!
# Stable sorting by runs

A stable sort that is defined for every comparison, whether or not it is an
order: each half of the list is cut into short runs, the runs are sorted by
insertion and merged in pairs, and the two halves are merged at the end. For a
strict weak order this is the stable sort of the list. For other comparisons
the result depends on which elements are compared, and the steps below fix it.
-/

namespace SymbolicForms.StableSort

variable {α : Type} (precedes : α → α → Bool)

/-- The length of the runs that are sorted by insertion. -/
def runLength : Nat := 7

/-- Put an element into a run that is held last element first, behind the elements it does not
precede. -/
def insertLast (element : α) : List α → List α
  | [] => [element]
  | last :: rest =>
    if precedes element last then last :: insertLast element rest else element :: last :: rest

/-- Put an element into a run that is held last element first. An element that precedes the first
one of the run goes to the front without further comparisons. -/
def insertRun (run : List α) (element : α) : List α :=
  match run.getLast? with
  | none => [element]
  | some first =>
    if precedes element first then run ++ [element] else insertLast precedes element run

/-- Insertion behind other elements adds the element to the run. -/
theorem insertLast_perm (element : α) (run : List α) :
    (insertLast precedes element run).Perm (element :: run) := by
  induction run with
  | nil => exact .refl _
  | cons last rest ih =>
    unfold insertLast
    split
    · exact (ih.cons last).trans (.swap element last rest)
    · exact .refl _

/-- Insertion adds the element to the run. -/
theorem insertRun_perm (run : List α) (element : α) :
    (insertRun precedes run element).Perm (element :: run) := by
  unfold insertRun
  split
  · next h => rw [List.getLast?_eq_none_iff.mp h]
  · split
    · exact List.perm_append_singleton element run
    · exact insertLast_perm precedes element run

/-- Sort a short run by insertion. -/
def sortRun (items : List α) : List α := (items.foldl (insertRun precedes) []).reverse

/-- A sorted run has the elements of the run. -/
theorem sortRun_perm (items : List α) : (sortRun precedes items).Perm items := by
  have inserted (run : List α) :
      (items.foldl (insertRun precedes) run).Perm (items ++ run) := by
    induction items generalizing run with
    | nil => exact .refl _
    | cons item rest ih =>
      exact (ih _).trans (((insertRun_perm precedes run item).append_left rest).trans
        List.perm_middle)
  simpa [sortRun] using (List.reverse_perm _).trans (inserted [])

/-- Cut a list into sorted runs, at most as many as the first argument says. -/
def cut : Nat → List α → List (List α)
  | 0, _ => []
  | count + 1, items =>
    if items.isEmpty then []
    else sortRun precedes (items.take runLength) :: cut count (items.drop runLength)

/-- Cut a list into sorted runs. -/
def runs (items : List α) : List (List α) := cut precedes items.length items

/-- Enough runs together have the elements of the list. -/
theorem flatten_cut_perm (count : Nat) (items : List α) (h : items.length ≤ count) :
    (cut precedes count items).flatten.Perm items := by
  induction count generalizing items with
  | zero => rw [List.eq_nil_of_length_eq_zero (Nat.le_zero.mp h)]; exact .refl _
  | succ count ih =>
    unfold cut
    split
    · next empty => rw [List.isEmpty_iff.mp empty]; exact .refl _
    · next full =>
      have positive : 0 < items.length :=
        List.length_pos_iff.mpr fun none => full (none ▸ rfl)
      have shorter : (items.drop runLength).length ≤ count := by
        rw [List.length_drop, runLength]
        omega
      rw [List.flatten_cons]
      exact ((sortRun_perm precedes _).append (ih _ shorter)).trans
        (.of_eq (List.take_append_drop _ _))

/-- The runs together have the elements of the list. -/
theorem flatten_runs_perm (items : List α) : (runs precedes items).flatten.Perm items :=
  flatten_cut_perm precedes items.length items (Nat.le_refl _)

/-- Put the elements of a list that go in front of `x` there, then `x`, then what the rest makes of
the remaining elements. -/
def mergeOnto (goesFirst : α → α → Bool) (x : α) (rest : List α → List α) : List α → List α
  | [] => x :: rest []
  | y :: second =>
    if goesFirst y x then y :: mergeOnto goesFirst x rest second else x :: rest (y :: second)

/-- Merge two lists. Of the two elements in front, the one of the second list is taken if it goes
first, else the one of the first list. -/
def merge (goesFirst : α → α → Bool) : List α → List α → List α
  | [], second => second
  | x :: first, second => mergeOnto goesFirst x (merge goesFirst first) second

/-- Merging keeps all elements. -/
theorem merge_perm (goesFirst : α → α → Bool) (first second : List α) :
    (merge goesFirst first second).Perm (first ++ second) := by
  induction first generalizing second with
  | nil => exact .refl _
  | cons x first ih =>
    unfold merge
    induction second with
    | nil => exact (ih []).cons x
    | cons y second ihy =>
      unfold mergeOnto
      split
      · exact (ihy.cons y).trans (@List.perm_middle _ y (x :: first) second).symm
      · exact (ih (y :: second)).cons x

/-- Merge two sorted lists from the front; the first list wins unless the second precedes it. -/
def mergeForward (first second : List α) : List α := merge precedes first second

/-- Merge two sorted lists from the back; the second list wins unless it precedes the first. -/
def mergeBackward (first second : List α) : List α :=
  (merge (fun y x => !precedes y x) first.reverse second.reverse).reverse

/-- Merging from the front keeps all elements. -/
theorem mergeForward_perm (first second : List α) :
    (mergeForward precedes first second).Perm (first ++ second) := merge_perm _ _ _

/-- Merging from the back keeps all elements. -/
theorem mergeBackward_perm (first second : List α) :
    (mergeBackward precedes first second).Perm (first ++ second) :=
  (List.reverse_perm _).trans
    ((merge_perm _ _ _).trans ((List.reverse_perm _).append (List.reverse_perm _)))

/-- Merge neighbouring lists in pairs. -/
def mergePairs : List (List α) → List (List α)
  | first :: second :: rest => mergeForward precedes first second :: mergePairs rest
  | rest => rest

/-- Merging in pairs keeps all elements. -/
theorem flatten_mergePairs_perm :
    ∀ lists : List (List α), (mergePairs precedes lists).flatten.Perm lists.flatten
  | [] => .refl _
  | [_] => .refl _
  | first :: second :: rest => by
    simp only [mergePairs, List.flatten_cons, ← List.append_assoc]
    exact (mergeForward_perm precedes first second).append (flatten_mergePairs_perm rest)

/-- Merge lists in rounds of pairs. -/
def mergeRounds : Nat → List (List α) → List (List α)
  | 0, lists => lists
  | rounds + 1, lists => mergeRounds rounds (mergePairs precedes lists)

/-- Rounds of merging keep all elements. -/
theorem flatten_mergeRounds_perm (rounds : Nat) (lists : List (List α)) :
    (mergeRounds precedes rounds lists).flatten.Perm lists.flatten := by
  induction rounds generalizing lists with
  | zero => exact .refl _
  | succ rounds ih => exact (ih _).trans (flatten_mergePairs_perm precedes lists)

/-- Merge sorted lists in rounds of pairs until one is left. As many rounds as there are lists are
enough. -/
def mergeAll (lists : List (List α)) : List α := (mergeRounds precedes lists.length lists).flatten

/-- Merging all lists keeps all elements. -/
theorem mergeAll_perm (lists : List (List α)) : (mergeAll precedes lists).Perm lists.flatten :=
  flatten_mergeRounds_perm precedes lists.length lists

/-- Sort one half of a list. -/
def sortHalf (items : List α) : List α := mergeAll precedes (runs precedes items)

/-- A sorted half has the elements of the half. -/
theorem sortHalf_perm (items : List α) : (sortHalf precedes items).Perm items :=
  (mergeAll_perm precedes _).trans (flatten_runs_perm precedes items)

/-- Sort a list. The two sorted halves are merged from the front, or from the back when the second
half is the shorter one. -/
def sort (items : List α) : List α :=
  let middle := (items.length + 1) / 2
  let first := sortHalf precedes (items.take middle)
  let second := sortHalf precedes (items.drop middle)
  if first.length ≤ second.length then mergeForward precedes first second
  else mergeBackward precedes first second

/-- Sorting keeps all elements, whatever the comparison. -/
theorem sort_perm (items : List α) : (sort precedes items).Perm items := by
  have halves : (sortHalf precedes (items.take ((items.length + 1) / 2)) ++
      sortHalf precedes (items.drop ((items.length + 1) / 2))).Perm items :=
    ((sortHalf_perm precedes _).append (sortHalf_perm precedes _)).trans
      (.of_eq (List.take_append_drop _ _))
  unfold sort
  dsimp only
  split
  · exact (mergeForward_perm precedes _ _).trans halves
  · exact (mergeBackward_perm precedes _ _).trans halves

end SymbolicForms.StableSort
