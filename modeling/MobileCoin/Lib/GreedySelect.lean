import Mathlib

/-!
# Greedy conflict-free selection with a cap

A walk over candidates in order that takes each admissible candidate conflicting with none
taken before it, until `cap` are taken. What it takes extends what it had, in the order of the
candidates; no later pick conflicts with an earlier one; and a candidate it passes over before
the cap was reached is not admissible or conflicts with one taken before it.
-/

namespace MobileCoin.GreedySelect

variable {α : Type*} (cap : Nat) (admissible : α → Bool) (conflict : α → α → Bool)

/-- Walk `candidates` from `taken`. -/
def select : List α → List α → List α
  | [], taken => taken
  | candidate :: candidates, taken =>
    if cap ≤ taken.length then taken
    else if admissible candidate && !taken.any (conflict · candidate) then
      select candidates (taken ++ [candidate])
    else select candidates taken

/-- The walk takes `candidate` after `taken`. -/
def Takes (taken : List α) (candidate : α) : Prop :=
  taken.length < cap ∧ admissible candidate = true ∧ ∀ t ∈ taken, conflict t candidate = false

variable {cap admissible conflict}

@[simp] theorem select_nil (taken : List α) : select cap admissible conflict [] taken = taken := by
  rw [select]

theorem select_of_full (candidates : List α) {taken : List α} (full : cap ≤ taken.length) :
    select cap admissible conflict candidates taken = taken := by
  cases candidates with
  | nil => exact select_nil taken
  | cons candidate candidates => rw [select, if_pos full]

theorem select_cons_of_takes {candidate : α} {candidates taken : List α}
    (takes : Takes cap admissible conflict taken candidate) :
    select cap admissible conflict (candidate :: candidates) taken =
      select cap admissible conflict candidates (taken ++ [candidate]) := by
  obtain ⟨room, allowed, free⟩ := takes
  have fresh : taken.any (conflict · candidate) = false :=
    List.any_eq_false.mpr fun t member => by simp [free t member]
  rw [select, if_neg (Nat.not_le.mpr room), if_pos (by simp [allowed, fresh])]

theorem select_cons_of_not_takes {candidate : α} {candidates taken : List α}
    (passes : ¬ Takes cap admissible conflict taken candidate) :
    select cap admissible conflict (candidate :: candidates) taken =
      select cap admissible conflict candidates taken := by
  rw [select]
  split_ifs with full takes
  · exact (select_of_full candidates full).symm
  · -- the test passed, so the walk would take it
    refine absurd ⟨Nat.not_le.mp full, ?_, fun t member => ?_⟩ passes
    · simpa using (Bool.and_eq_true _ _).mp takes |>.1
    · have none := (Bool.and_eq_true _ _).mp takes |>.2
      simp only [Bool.not_eq_true', List.any_eq_false] at none
      simpa using none t member
  · rfl

theorem select_append (candidates rest taken : List α) :
    select cap admissible conflict (candidates ++ rest) taken =
      select cap admissible conflict rest (select cap admissible conflict candidates taken) := by
  induction candidates generalizing taken with
  | nil => rfl
  | cons candidate candidates ih =>
    by_cases takes : Takes cap admissible conflict taken candidate
    · rw [List.cons_append, select_cons_of_takes takes, select_cons_of_takes takes, ih]
    · rw [List.cons_append, select_cons_of_not_takes takes, select_cons_of_not_takes takes, ih]

theorem select_eq_append (candidates taken : List α) :
    ∃ added, select cap admissible conflict candidates taken = taken ++ added ∧
      added.Sublist candidates := by
  induction candidates generalizing taken with
  | nil => exact ⟨[], by simp, List.Sublist.slnil⟩
  | cons candidate candidates ih =>
    by_cases takes : Takes cap admissible conflict taken candidate
    · obtain ⟨added, walked, sub⟩ := ih (taken ++ [candidate])
      refine ⟨candidate :: added, ?_, sub.cons_cons candidate⟩
      rw [select_cons_of_takes takes, walked, List.append_assoc, List.singleton_append]
    · obtain ⟨added, walked, sub⟩ := ih taken
      exact ⟨added, by rw [select_cons_of_not_takes takes, walked], sub.cons candidate⟩

theorem mem_select_of_mem {candidates taken : List α} {t : α} (member : t ∈ taken) :
    t ∈ select cap admissible conflict candidates taken := by
  obtain ⟨added, walked, -⟩ := @select_eq_append _ cap admissible conflict candidates taken
  rw [walked]
  exact List.mem_append_left added member

theorem length_select_le (candidates : List α) {taken : List α} (room : taken.length ≤ cap) :
    (select cap admissible conflict candidates taken).length ≤ cap := by
  induction candidates generalizing taken with
  | nil => simpa using room
  | cons candidate candidates ih =>
    by_cases takes : Takes cap admissible conflict taken candidate
    · rw [select_cons_of_takes takes]
      exact ih (by simpa using takes.1)
    · rw [select_cons_of_not_takes takes]
      exact ih room

theorem select_pairwise (candidates : List α) {taken : List α}
    (free : taken.Pairwise fun a b => conflict a b = false) :
    (select cap admissible conflict candidates taken).Pairwise fun a b => conflict a b = false := by
  induction candidates generalizing taken with
  | nil => simpa using free
  | cons candidate candidates ih =>
    by_cases takes : Takes cap admissible conflict taken candidate
    · rw [select_cons_of_takes takes]
      refine ih (List.pairwise_append.mpr ⟨free, List.pairwise_singleton _ _, ?_⟩)
      intro t member c picked
      rw [List.mem_singleton.mp picked]
      exact takes.2.2 t member
    · rw [select_cons_of_not_takes takes]
      exact ih free

theorem admissible_of_mem_select {candidates taken : List α} {t : α}
    (picked : t ∈ select cap admissible conflict candidates taken) (fresh : t ∉ taken) :
    admissible t = true := by
  induction candidates generalizing taken with
  | nil => exact absurd picked fresh
  | cons candidate candidates ih =>
    by_cases takes : Takes cap admissible conflict taken candidate
    · rw [select_cons_of_takes takes] at picked
      by_cases same : t = candidate
      · exact same ▸ takes.2.1
      · exact ih picked (by simp [fresh, same])
    · rw [select_cons_of_not_takes takes] at picked
      exact ih picked fresh

/-- A candidate the walk passes over, at its place in the candidates, was refused with the
cap not reached: it is not admissible, or it conflicts with one taken before it. -/
theorem passed_over {before after taken : List α} {candidate : α}
    (passed : candidate ∉ select cap admissible conflict (before ++ candidate :: after) taken) :
    cap ≤ (select cap admissible conflict before taken).length ∨ admissible candidate = false ∨
      ∃ t ∈ select cap admissible conflict before taken, conflict t candidate = true := by
  rw [select_append] at passed
  by_cases takes : Takes cap admissible conflict (select cap admissible conflict before taken) candidate
  · rw [select_cons_of_takes takes] at passed
    exact absurd (mem_select_of_mem (List.mem_append_right _ (List.mem_singleton_self _))) passed
  · simp only [Takes, not_and_or, Nat.not_lt, Bool.not_eq_true, not_forall, exists_prop,
      Bool.not_eq_false] at takes
    exact takes

/-- Over candidates sorted by `r`, a candidate the walk passes over is not admissible, or
conflicts with one taken strictly before it, or comes after `cap` taken strictly before it. -/
theorem passed_over_sorted {r : α → α → Prop} [DecidableRel r] [DecidableEq α]
    {candidates : List α} {candidate : α} (sorted : candidates.Pairwise r)
    (member : candidate ∈ candidates)
    (passed : candidate ∉ select cap admissible conflict candidates []) :
    cap ≤ (select cap admissible conflict candidates []).countP
        (fun t => decide (r t candidate ∧ t ≠ candidate)) ∨
      admissible candidate = false ∨
      ∃ t ∈ select cap admissible conflict candidates [], r t candidate ∧ t ≠ candidate ∧
        conflict t candidate = true := by
  obtain ⟨before, after, rfl⟩ := List.append_of_mem member
  -- the walk over `before` leaves a prefix of the selection, all strictly before `candidate`
  obtain ⟨rest, extends_, -⟩ := @select_eq_append _ cap admissible conflict (candidate :: after)
    (select cap admissible conflict before [])
  rw [← select_append] at extends_
  have earlier : ∀ t ∈ select cap admissible conflict before [], r t candidate ∧ t ≠ candidate := by
    intro t picked
    obtain ⟨added, walked, sub⟩ := @select_eq_append _ cap admissible conflict before []
    rw [walked, List.nil_append] at picked
    refine ⟨(List.pairwise_append.mp sorted).2.2 t (sub.subset picked) candidate List.mem_cons_self,
      fun same => passed ?_⟩
    rw [extends_, ← same, walked, List.nil_append]
    exact List.mem_append_left rest picked
  rcases passed_over passed with full | inadmissible | ⟨t, picked, conflicting⟩
  · -- the cap was reached before `candidate`
    left
    have allEarlier : (select cap admissible conflict before []).countP
        (fun t => decide (r t candidate ∧ t ≠ candidate)) =
        (select cap admissible conflict before []).length :=
      List.countP_eq_length.mpr fun t picked => decide_eq_true (earlier t picked)
    rw [extends_, List.countP_append, allEarlier]
    omega
  · exact .inr (.inl inadmissible)
  · refine .inr (.inr ⟨t, ?_, (earlier t picked).1, (earlier t picked).2, conflicting⟩)
    rw [extends_]
    exact List.mem_append_left rest picked

/-- The set a walk keeps of what it has taken: when `seen` holds the keys of `taken`, inserting the
key of the candidate taken next gives the keys of `taken ++ [candidate]`. -/
theorem mem_insert_iff_keyed {β : Type*} [BEq β] [LawfulBEq β] {keyed : α → β → Prop} {seen : List β}
    {taken : List α} {candidate : α} {key : β} (holds : ∀ b, b ∈ seen ↔ ∃ t ∈ taken, keyed t b)
    (keyOf : keyed candidate key) (unique : ∀ b, keyed candidate b → b = key) (b : β) :
    b ∈ seen.insert key ↔ ∃ t ∈ taken ++ [candidate], keyed t b := by
  rw [List.mem_insert_iff, holds]
  simp only [List.mem_append, List.mem_singleton]
  constructor
  · rintro (rfl | ⟨t, member, same⟩)
    · exact ⟨candidate, .inr rfl, keyOf⟩
    · exact ⟨t, .inl member, same⟩
  · rintro ⟨t, member | rfl, same⟩
    · exact .inr ⟨t, member, same⟩
    · exact .inl (unique b same)

end MobileCoin.GreedySelect
