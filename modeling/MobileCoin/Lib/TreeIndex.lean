import Mathlib

/-!
# Indices of a complete binary tree

The nodes of a complete binary tree numbered from the root `1`, the children of `n` being
`2 * n` and `2 * n + 1`. `parents n` is the path from `n` up to the root: the nodes a tree-based
ORAM reads and writes together. The `k`-th node of the path is `n / 2 ^ k`, each node of the path
is the parent of the one before, and the path from any of its nodes is a suffix of it.
-/

namespace MobileCoin.TreeIndex

/-- `n` and its ancestors, from `n` up to the root `1`. -/
def parents (n : Nat) : List Nat :=
  if n = 0 then [] else n :: parents (n / 2)
termination_by n
decreasing_by omega

@[simp] theorem parents_zero : parents 0 = [] := by
  rw [parents, if_pos rfl]

theorem parents_of_pos {n : Nat} (pos : 0 < n) : parents n = n :: parents (n / 2) := by
  rw [parents, if_neg (Nat.pos_iff_ne_zero.mp pos)]

theorem drop_parents (n k : Nat) : (parents n).drop k = parents (n / 2 ^ k) := by
  induction k generalizing n with
  | zero => simp
  | succ k ih =>
    rcases Nat.eq_zero_or_pos n with rfl | pos
    · simp
    · rw [parents_of_pos pos, List.drop_succ_cons, ih, Nat.div_div_eq_div_mul, ← Nat.pow_succ']

theorem lt_length_parents_iff {n k : Nat} : k < (parents n).length ↔ 0 < n / 2 ^ k := by
  have suffix := congrArg List.length (drop_parents n k)
  rw [List.length_drop] at suffix
  constructor
  · intro inside
    have : (parents (n / 2 ^ k)).length ≠ 0 := by omega
    by_contra zero
    simp [Nat.eq_zero_of_not_pos zero] at this
  · intro pos
    rw [parents_of_pos pos, List.length_cons] at suffix
    omega

theorem getElem_parents {n k : Nat} (inside : k < (parents n).length) :
    (parents n)[k] = n / 2 ^ k := by
  have pos := lt_length_parents_iff.mp inside
  have head := congrArg List.head? (drop_parents n k)
  rw [List.head?_drop, parents_of_pos pos, List.head?_cons, List.getElem?_eq_getElem inside] at head
  exact Option.some.inj head

theorem getElem_succ_parents {n k : Nat} (inside : k + 1 < (parents n).length) :
    (parents n)[k + 1] = (parents n)[k] / 2 := by
  rw [getElem_parents, getElem_parents, Nat.div_div_eq_div_mul, ← Nat.pow_succ]

theorem isChain_parents (n : Nat) : (parents n).IsChain (fun child parent => parent = child / 2) :=
  List.isChain_iff_getElem.mpr fun _ inside => getElem_succ_parents inside

theorem parents_getElem {n k : Nat} (inside : k < (parents n).length) :
    parents (parents n)[k] = (parents n).drop k := by
  rw [getElem_parents, drop_parents]

theorem getElem_parents_le {n j k : Nat} (le : j ≤ k) (inside : k < (parents n).length) :
    (parents n)[k] ≤ (parents n)[j] := by
  rw [getElem_parents, getElem_parents]
  exact Nat.div_le_div_left (Nat.pow_le_pow_right (by decide) le) (Nat.two_pow_pos j)

theorem pos_of_mem_parents {n x : Nat} (member : x ∈ parents n) : 0 < x := by
  obtain ⟨k, inside, rfl⟩ := List.getElem_of_mem member
  rw [getElem_parents]
  exact lt_length_parents_iff.mp inside

theorem mem_parents {n x : Nat} : x ∈ parents n ↔ 0 < x ∧ ∃ k, n / 2 ^ k = x := by
  constructor
  · intro member
    refine ⟨pos_of_mem_parents member, ?_⟩
    obtain ⟨k, inside, rfl⟩ := List.getElem_of_mem member
    exact ⟨k, (getElem_parents inside).symm⟩
  · rintro ⟨pos, k, rfl⟩
    have inside := lt_length_parents_iff.mpr pos
    rw [← getElem_parents inside]
    exact List.getElem_mem inside

theorem parents_pairwise (n : Nat) : (parents n).Pairwise (fun a b => b < a) := by
  rw [List.pairwise_iff_getElem]
  intro j k inside inside' earlier
  rw [getElem_parents, getElem_parents]
  have pos := lt_length_parents_iff.mp inside'
  calc n / 2 ^ k ≤ n / 2 ^ (j + 1) :=
        Nat.div_le_div_left (Nat.pow_le_pow_right (by decide) earlier) (Nat.two_pow_pos _)
    _ = n / 2 ^ j / 2 := by rw [Nat.div_div_eq_div_mul, ← Nat.pow_succ]
    _ < n / 2 ^ j := Nat.div_lt_self (Nat.lt_of_lt_of_le pos
        (Nat.div_le_div_left (Nat.pow_le_pow_right (by decide) earlier.le) (Nat.two_pow_pos _)))
        (by decide)

theorem nodup_parents (n : Nat) : (parents n).Nodup :=
  (parents_pairwise n).imp fun earlier => (Nat.ne_of_lt earlier).symm

theorem one_mem_parents {n : Nat} (pos : 0 < n) : 1 ∈ parents n := by
  induction n using Nat.strong_induction_on with
  | _ n ih =>
    rw [parents_of_pos pos]
    by_cases root : n = 1
    · rw [root]
      exact List.mem_cons_self
    · exact List.mem_cons_of_mem _ (ih (n / 2) (by omega) (by omega))

example : parents 13 = [13, 6, 3, 1] := by
  simp [parents]

end MobileCoin.TreeIndex
