import Mathlib

/-!
# The best sum of a few values

A selection of values from a list is a strictly increasing list of positions. Among the
selections of at most `j` positions from position `i` on, one has the largest sum; that sum
satisfies the knapsack recurrence: at position `i`, either take the value there and at most
`j` more from `i + 1` on, or skip it and take at most `j + 1` from `i + 1` on.
-/

namespace MobileCoin.BestSelection

variable (values : List Nat)

/-- The positions `selection` are strictly increasing, lie from `i` on in `values`, and are at
most `j`. -/
def Selection (i j : Nat) (selection : List Nat) : Prop :=
  selection.Pairwise (· < ·) ∧ (∀ t ∈ selection, i ≤ t ∧ t < values.length) ∧ selection.length ≤ j

/-- The sum of the values at the positions. -/
def selectedSum (selection : List Nat) : Nat := (selection.map (values.getD · 0)).sum

/-- `best` is the largest sum of a selection of at most `j` positions from `i` on. -/
def IsBest (i j best : Nat) : Prop :=
  (∃ selection, Selection values i j selection ∧ selectedSum values selection = best) ∧
    ∀ selection, Selection values i j selection → selectedSum values selection ≤ best

variable {values}

@[simp] theorem selectedSum_nil : selectedSum values [] = 0 := rfl

theorem selectedSum_cons (t : Nat) (selection : List Nat) :
    selectedSum values (t :: selection) = values.getD t 0 + selectedSum values selection := by
  rw [selectedSum, List.map_cons, List.sum_cons, ← selectedSum]

theorem selectedSum_append (first second : List Nat) :
    selectedSum values (first ++ second) = selectedSum values first + selectedSum values second := by
  rw [selectedSum, List.map_append, List.sum_append, ← selectedSum, ← selectedSum]

theorem selection_nil (i j : Nat) : Selection values i j [] :=
  ⟨List.Pairwise.nil, nofun, Nat.zero_le j⟩

theorem Selection.mono {i i' j j' : Nat} {selection : List Nat} (earlier : i' ≤ i) (more : j ≤ j')
    (selected : Selection values i j selection) : Selection values i' j' selection :=
  ⟨selected.1, fun t member => ⟨earlier.trans (selected.2.1 t member).1, (selected.2.1 t member).2⟩,
    selected.2.2.trans more⟩

theorem selection_cons_iff {i j t : Nat} {selection : List Nat} :
    Selection values i (j + 1) (t :: selection) ↔
      i ≤ t ∧ t < values.length ∧ (∀ s ∈ selection, t < s) ∧ Selection values (t + 1) j selection := by
  constructor
  · rintro ⟨increasing, inside, short⟩
    rw [List.pairwise_cons] at increasing
    refine ⟨(inside t List.mem_cons_self).1, (inside t List.mem_cons_self).2, increasing.1,
      increasing.2, fun s member => ⟨increasing.1 s member, ?_⟩, by simpa using short⟩
    exact (inside s (List.mem_cons_of_mem t member)).2
  · rintro ⟨low, high, above, increasing, inside, short⟩
    refine ⟨List.pairwise_cons.mpr ⟨above, increasing⟩, fun s member => ?_, by simpa using short⟩
    rcases List.mem_cons.mp member with rfl | later
    · exact ⟨low, high⟩
    · exact ⟨low.trans (Nat.le_of_lt (above s later)), (inside s later).2⟩

theorem selection_end {i j : Nat} {selection : List Nat} (past : values.length ≤ i)
    (selected : Selection values i j selection) : selection = [] := by
  cases selection with
  | nil => rfl
  | cons t rest =>
    have := selected.2.1 t List.mem_cons_self
    omega

theorem selection_zero {i : Nat} {selection : List Nat} (selected : Selection values i 0 selection) :
    selection = [] :=
  List.eq_nil_of_length_eq_zero (Nat.le_zero.mp selected.2.2)

theorem isBest_zero (i : Nat) : IsBest values i 0 0 :=
  ⟨⟨[], selection_nil i 0, rfl⟩, fun selection selected => by
    rw [selection_zero selected]
    exact Nat.le_refl 0⟩

theorem isBest_end {i : Nat} (past : values.length ≤ i) (j : Nat) : IsBest values i j 0 :=
  ⟨⟨[], selection_nil i j, rfl⟩, fun selection selected => by
    rw [selection_end past selected]
    exact Nat.le_refl 0⟩

theorem IsBest.unique {i j best best' : Nat} (isBest : IsBest values i j best)
    (isBest' : IsBest values i j best') : best = best' := by
  obtain ⟨⟨selection, selected, rfl⟩, most⟩ := isBest
  obtain ⟨⟨selection', selected', rfl⟩, most'⟩ := isBest'
  exact Nat.le_antisymm (most' selection selected) (most selection' selected')

/-- The knapsack recurrence. -/
theorem isBest_succ {i j skipped taken : Nat} (inside : i < values.length)
    (isTaken : IsBest values (i + 1) j taken) (isSkipped : IsBest values (i + 1) (j + 1) skipped) :
    IsBest values i (j + 1) (max (values.getD i 0 + taken) skipped) := by
  obtain ⟨⟨takenSelection, takenSelected, takenSum⟩, takenMost⟩ := isTaken
  obtain ⟨⟨skippedSelection, skippedSelected, skippedSum⟩, skippedMost⟩ := isSkipped
  refine ⟨?_, fun selection selected => ?_⟩
  · -- the larger of the two candidates is attained
    rcases le_total skipped (values.getD i 0 + taken) with smaller | larger
    · refine ⟨i :: takenSelection, ?_, ?_⟩
      · exact selection_cons_iff.mpr ⟨Nat.le_refl i, inside,
          fun s member => (takenSelected.2.1 s member).1, takenSelected⟩
      · rw [selectedSum_cons, takenSum, max_eq_left smaller]
    · exact ⟨skippedSelection, skippedSelected.mono (Nat.le_succ i) (Nat.le_refl _), by
        rw [skippedSum, max_eq_right larger]⟩
  · -- a selection takes position `i` or starts after it
    cases selection with
    | nil => exact Nat.zero_le _
    | cons t rest =>
      obtain ⟨low, high, above, restSelected⟩ := selection_cons_iff.mp selected
      rcases Nat.eq_or_lt_of_le low with rfl | later
      · rw [selectedSum_cons]
        exact le_max_of_le_left (Nat.add_le_add_left (takenMost rest restSelected) _)
      · refine le_max_of_le_right (skippedMost _ ?_)
        exact selection_cons_iff.mpr ⟨later, high, above, restSelected⟩

theorem selectedSum_le_sum_drop {i j : Nat} {selection : List Nat}
    (selected : Selection values i j selection) : selectedSum values selection ≤ (values.drop i).sum := by
  induction selection generalizing i j with
  | nil => exact Nat.zero_le _
  | cons t rest ih =>
    cases j with
    | zero => exact absurd selected.2.2 (by simp)
    | succ j =>
      obtain ⟨low, high, -, restSelected⟩ := selection_cons_iff.mp selected
      calc selectedSum values (t :: rest)
          = values.getD t 0 + selectedSum values rest := selectedSum_cons t rest
        _ ≤ values.getD t 0 + (values.drop (t + 1)).sum := Nat.add_le_add_left (ih restSelected) _
        _ = (values.drop t).sum := by
          rw [List.drop_eq_getElem_cons high, List.sum_cons, List.getD_eq_getElem _ _ high]
        _ ≤ (values.drop i).sum :=
          (List.drop_sublist_drop_left values low).sum_le_sum fun _ _ => Nat.zero_le _

theorem IsBest.le_sum_drop {i j best : Nat} (isBest : IsBest values i j best) :
    best ≤ (values.drop i).sum := by
  obtain ⟨⟨selection, selected, rfl⟩, -⟩ := isBest
  exact selectedSum_le_sum_drop selected

/-! ### The first selection that reaches a target

A greedy walk that takes each position as long as the target stays reachable finds the
selection that comes first in lexicographic order. The three moves of such a walk (stop, take
the position, skip it) each keep that property, given what the walk knows at the move. -/

section Covering

variable (values) (target : Nat)

/-- `selection` is `taken` followed by positions from `i` on, at most `j` in all, and its sum
reaches `target`. -/
def CoveringExtension (i j : Nat) (taken selection : List Nat) : Prop :=
  ∃ rest, selection = taken ++ rest ∧ Selection values i (j - taken.length) rest ∧
    target ≤ selectedSum values selection

/-- `first` is a covering extension of `taken`, and none comes before it. -/
def FirstCovering (i j : Nat) (taken first : List Nat) : Prop :=
  CoveringExtension values target i j taken first ∧
    ∀ selection, CoveringExtension values target i j taken selection → ¬ selection < first

variable {values target}

theorem coveringExtension_nil_iff {j : Nat} {selection : List Nat} :
    CoveringExtension values target 0 j [] selection ↔
      Selection values 0 j selection ∧ target ≤ selectedSum values selection := by
  constructor
  · rintro ⟨rest, rfl, selected, reached⟩
    exact ⟨by simpa using selected, by simpa using reached⟩
  · rintro ⟨selected, reached⟩
    exact ⟨selection, rfl, by simpa using selected, reached⟩

theorem firstCovering_nil_iff {j : Nat} {first : List Nat} :
    FirstCovering values target 0 j [] first ↔
      Selection values 0 j first ∧ target ≤ selectedSum values first ∧
        ∀ selection, Selection values 0 j selection → target ≤ selectedSum values selection →
          ¬ selection < first := by
  simp only [FirstCovering, coveringExtension_nil_iff, and_imp, and_assoc]

theorem CoveringExtension.reached {i j : Nat} {taken selection : List Nat}
    (covering : CoveringExtension values target i j taken selection) :
    target ≤ selectedSum values selection := by
  obtain ⟨-, -, -, reached⟩ := covering
  exact reached

theorem FirstCovering.unique {i j : Nat} {taken first first' : List Nat}
    (isFirst : FirstCovering values target i j taken first)
    (isFirst' : FirstCovering values target i j taken first') : first = first' :=
  @List.le_antisymm Nat _ _ first first' (isFirst.2 first' isFirst'.1) (isFirst'.2 first isFirst.1)

theorem CoveringExtension.eq_of_stuck {i j : Nat} {taken selection : List Nat}
    (stuck : j ≤ taken.length ∨ values.length ≤ i)
    (covering : CoveringExtension values target i j taken selection) :
    selection = taken ∧ target ≤ selectedSum values taken := by
  obtain ⟨rest, rfl, selected, reached⟩ := covering
  have empty : rest = [] := by
    rcases stuck with full | past
    · exact selection_zero (selected.mono (Nat.le_refl i) (by omega))
    · exact selection_end past selected
  subst empty
  exact ⟨List.append_nil taken, by simpa using reached⟩

theorem firstCovering_self {i j : Nat} {taken : List Nat} (reached : target ≤ selectedSum values taken) :
    FirstCovering values target i j taken taken :=
  ⟨⟨[], (List.append_nil taken).symm, selection_nil i _, reached⟩,
    fun _ ⟨rest, extended, _, _⟩ => extended ▸ @List.le_append_left Nat _ _ taken rest⟩

/-- What a covering extension from `i` does at position `i`: it stops, takes `i`, or starts
after `i`. -/
theorem CoveringExtension.cases {i j : Nat} {taken selection : List Nat}
    (covering : CoveringExtension values target i j taken selection) :
    selection = taken ∨ CoveringExtension values target (i + 1) j (taken ++ [i]) selection ∨
      ∃ t rest, i < t ∧ selection = taken ++ t :: rest ∧
        CoveringExtension values target (i + 1) j taken selection := by
  obtain ⟨rest, rfl, selected, reached⟩ := covering
  cases rest with
  | nil => exact .inl (List.append_nil taken)
  | cons t rest =>
    have room : j - taken.length = (j - (taken.length + 1)) + 1 := by
      have := selected.2.2
      simp only [List.length_cons] at this
      omega
    rw [room] at selected
    obtain ⟨low, high, above, restSelected⟩ := selection_cons_iff.mp selected
    rcases Nat.eq_or_lt_of_le low with rfl | later
    · refine .inr (.inl ⟨rest, by simp, ?_, reached⟩)
      simpa using restSelected
    · refine .inr (.inr ⟨t, rest, later, rfl, t :: rest, rfl, ?_, reached⟩)
      rw [room]
      exact selection_cons_iff.mpr ⟨later, high, above, restSelected⟩

/-- Take: when position `i` can still be taken, the first extension taking it is the first
of all, since anything starting after `i` comes later and stopping falls short. -/
theorem FirstCovering.of_take {i j : Nat} {taken first : List Nat} (inside : i < values.length)
    (room : taken.length < j) (short : selectedSum values taken < target)
    (isFirst : FirstCovering values target (i + 1) j (taken ++ [i]) first) :
    FirstCovering values target i j taken first := by
  obtain ⟨⟨firstRest, rfl, firstSelected, firstReached⟩, earliest⟩ := isFirst
  have shape : j - taken.length = (j - (taken ++ [i]).length) + 1 := by
    simp only [List.length_append, List.length_singleton]
    omega
  refine ⟨⟨i :: firstRest, by simp, ?_, firstReached⟩, fun selection covering => ?_⟩
  · rw [shape]
    exact selection_cons_iff.mpr ⟨Nat.le_refl i, inside,
      fun s member => (firstSelected.2.1 s member).1, firstSelected⟩
  · rcases covering.cases with rfl | takes | ⟨t, rest, later, rfl, -⟩
    · exact absurd covering.reached (Nat.not_le.mpr short)
    · exact earliest selection takes
    · -- the first extension has `i` where this one has the later `t`
      have before : taken ++ i :: firstRest < taken ++ t :: rest :=
        List.append_left_lt (List.cons_lt_cons_iff.mpr (.inl later))
      rw [List.append_assoc, List.singleton_append]
      exact List.lt_asymm before

/-- Skip: when no extension takes position `i`, the covering extensions from `i` are those
from `i + 1`. -/
theorem CoveringExtension.of_skip {i j : Nat} {taken selection : List Nat}
    (short : selectedSum values taken < target)
    (noTake : ∀ selection, ¬ CoveringExtension values target (i + 1) j (taken ++ [i]) selection)
    (covering : CoveringExtension values target i j taken selection) :
    CoveringExtension values target (i + 1) j taken selection := by
  rcases covering.cases with rfl | takes | ⟨-, -, -, -, skips⟩
  · exact absurd covering.reached (Nat.not_le.mpr short)
  · exact absurd takes (noTake selection)
  · exact skips

theorem FirstCovering.of_skip {i j : Nat} {taken first : List Nat}
    (short : selectedSum values taken < target)
    (noTake : ∀ selection, ¬ CoveringExtension values target (i + 1) j (taken ++ [i]) selection)
    (isFirst : FirstCovering values target (i + 1) j taken first) :
    FirstCovering values target i j taken first := by
  obtain ⟨⟨firstRest, extended, firstSelected, firstReached⟩, earliest⟩ := isFirst
  refine ⟨⟨firstRest, extended, firstSelected.mono (Nat.le_succ i) (Nat.le_refl _), firstReached⟩,
    fun selection covering => earliest selection (covering.of_skip short noTake)⟩

theorem exists_coveringExtension_iff {i j best : Nat} {taken : List Nat}
    (isBest : IsBest values i (j - taken.length) best) :
    (∃ selection, CoveringExtension values target i j taken selection) ↔
      target ≤ selectedSum values taken + best := by
  constructor
  · rintro ⟨-, rest, rfl, selected, reached⟩
    rw [selectedSum_append] at reached
    exact reached.trans (Nat.add_le_add_left (isBest.2 rest selected) _)
  · intro reached
    obtain ⟨⟨rest, selected, rfl⟩, -⟩ := isBest
    exact ⟨taken ++ rest, rest, rfl, selected, by rwa [selectedSum_append]⟩

end Covering

end MobileCoin.BestSelection
