import Mathlib

/-!
# Sorting by a comparison

Two facts about three-way comparisons `α → α → Ordering`, for derived orders of nested types
whose laws are proved one constructor at a time: the lexicographic step `Ordering.then` keeps
`lt` transitive, and a merge sort by a total order (the core classes `Std.TransCmp` and
`Std.LawfulEqCmp`) returns one list for all permutations of its input, so it is a canonical
form.
-/

namespace MobileCoin.Compare

variable {α β : Type*}

/-- The lexicographic step keeps `lt` transitive, when the first comparison is `eq` only on
equal values and the later comparisons `r₁`, `r₂`, `r₃` chain. -/
theorem then_lt_trans_of {cmpA : α → α → Ordering} {a b c : α} {r₁ r₂ r₃ : Ordering}
    (eqA : ∀ x y, cmpA x y = .eq → x = y) (reflA : ∀ x, cmpA x x = .eq)
    (transA : cmpA a b = .lt → cmpA b c = .lt → cmpA a c = .lt)
    (transB : r₁ = .lt → r₂ = .lt → r₃ = .lt)
    (first : (cmpA a b).then r₁ = .lt) (second : (cmpA b c).then r₂ = .lt) :
    (cmpA a c).then r₃ = .lt := by
  rw [Ordering.then_eq_lt] at first second ⊢
  rcases first with ab | ⟨ab, ab'⟩ <;> rcases second with bc | ⟨bc, bc'⟩
  · exact .inl (transA ab bc)
  · cases eqA b c bc
    exact .inl ab
  · cases eqA a b ab
    exact .inl bc
  · cases eqA a b ab
    cases eqA a c bc
    exact .inr ⟨reflA a, transB ab' bc'⟩

/-- The lexicographic step keeps `lt` transitive at given values, when the first comparison
is `eq` only on equal values. -/
theorem then_lt_trans {cmpA : α → α → Ordering} {cmpB : β → β → Ordering} {a b c : α}
    {a' b' c' : β} (eqA : ∀ x y, cmpA x y = .eq → x = y) (reflA : ∀ x, cmpA x x = .eq)
    (transA : cmpA a b = .lt → cmpA b c = .lt → cmpA a c = .lt)
    (transB : cmpB a' b' = .lt → cmpB b' c' = .lt → cmpB a' c' = .lt)
    (first : (cmpA a b).then (cmpB a' b') = .lt) (second : (cmpA b c).then (cmpB b' c') = .lt) :
    (cmpA a c).then (cmpB a' c') = .lt :=
  then_lt_trans_of eqA reflA transA transB first second

theorem isLE_trans_of_lt_trans {cmp : α → α → Ordering} (eq : ∀ x y, cmp x y = .eq → x = y)
    (trans : ∀ x y z, cmp x y = .lt → cmp y z = .lt → cmp x z = .lt) {a b c : α}
    (ab : (cmp a b).isLE = true) (bc : (cmp b c).isLE = true) : (cmp a c).isLE = true := by
  rw [Ordering.isLE_iff_eq_lt_or_eq_eq] at ab bc
  rcases ab with ab | ab
  · rcases bc with bc | bc
    · rw [trans a b c ab bc]
      rfl
    · rw [← eq b c bc, ab]
      rfl
  · rw [eq a b ab]
    exact Ordering.isLE_iff_eq_lt_or_eq_eq.mpr bc

section MergeSort

variable (cmp : α → α → Ordering)

/-- The `≤` of a comparison, by which a merge sort orders. -/
def leOf (a b : α) : Bool := (cmp a b).isLE

variable {cmp}

theorem leOf_total [Std.OrientedCmp cmp] (a b : α) : (leOf cmp a b || leOf cmp b a) = true := by
  unfold leOf
  cases ab : cmp a b
  · rfl
  · rfl
  · rw [Std.OrientedCmp.gt_iff_lt.mp ab]
    rfl

theorem leOf_antisymm [Std.OrientedCmp cmp] [Std.LawfulEqCmp cmp] {a b : α}
    (ab : leOf cmp a b = true) (ba : leOf cmp b a = true) : a = b := by
  unfold leOf at ab ba
  rw [show cmp b a = (cmp a b).swap from Std.OrientedCmp.eq_swap, Ordering.isLE_swap] at ba
  rw [Ordering.isLE_iff_eq_lt_or_eq_eq] at ab
  rcases ab with lt | eq
  · rw [lt] at ba
    cases ba
  · exact Std.LawfulEqCmp.eq_of_compare eq

theorem pairwise_mergeSort [Std.TransCmp cmp] (l : List α) :
    (l.mergeSort (leOf cmp)).Pairwise fun a b => leOf cmp a b = true :=
  List.pairwise_mergeSort (fun _ _ _ => Std.TransCmp.isLE_trans) leOf_total l

theorem mergeSort_eq_of_perm [Std.TransCmp cmp] [Std.LawfulEqCmp cmp] {l l' : List α}
    (p : l.Perm l') : l.mergeSort (leOf cmp) = l'.mergeSort (leOf cmp) :=
  ((List.mergeSort_perm l _).trans (p.trans (List.mergeSort_perm l' _).symm)).eq_of_pairwise
    (fun _ _ _ _ => leOf_antisymm) (pairwise_mergeSort l) (pairwise_mergeSort l')

theorem leOf_and_ne_iff [Std.LawfulEqCmp cmp] {a b : α} :
    leOf cmp a b = true ∧ a ≠ b ↔ cmp a b = .lt := by
  unfold leOf
  constructor
  · rintro ⟨le, differ⟩
    rcases Ordering.isLE_iff_eq_lt_or_eq_eq.mp le with lt | eq
    · exact lt
    · exact absurd (Std.LawfulEqCmp.eq_of_compare eq) differ
  · intro lt
    refine ⟨by rw [lt]; rfl, fun same => ?_⟩
    rw [same, @Std.ReflCmp.compare_self _ cmp _ b] at lt
    cases lt

theorem mergeSort_mergeSort [Std.TransCmp cmp] (l : List α) :
    (l.mergeSort (leOf cmp)).mergeSort (leOf cmp) = l.mergeSort (leOf cmp) :=
  List.mergeSort_of_pairwise (pairwise_mergeSort l)

end MergeSort

section SortDedup

theorem mem_destutter'_ne [DecidableEq α] {a b : α} :
    ∀ {l : List α}, a ∈ l.destutter' (· ≠ ·) b ↔ a ∈ b :: l
  | [] => by rw [List.destutter'_nil]
  | c :: l => by
    by_cases same : b = c
    · rw [List.destutter'_cons_neg _ (not_not.mpr same), mem_destutter'_ne, same]
      simp
    · rw [List.destutter'_cons_pos _ same, List.mem_cons, mem_destutter'_ne, List.mem_cons,
        List.mem_cons, List.mem_cons]

theorem mem_destutter_ne [DecidableEq α] {a : α} : ∀ {l : List α}, a ∈ l.destutter (· ≠ ·) ↔ a ∈ l
  | [] => by rw [List.destutter_nil]
  | b :: l => by rw [List.destutter_cons', mem_destutter'_ne]

variable (cmp : α → α → Ordering) [DecidableEq α]

/-- Rust's `Vec::sort` by a comparison, then `Vec::dedup`. -/
def sortDedup (l : List α) : List α := (l.mergeSort (leOf cmp)).destutter (· ≠ ·)

variable {cmp}

@[simp] theorem mem_sortDedup {a : α} {l : List α} : a ∈ sortDedup cmp l ↔ a ∈ l := by
  rw [sortDedup, mem_destutter_ne, List.mem_mergeSort]

variable [Std.TransCmp cmp] [Std.LawfulEqCmp cmp]

theorem sortDedup_eq_dedup (l : List α) : sortDedup cmp l = (l.mergeSort (leOf cmp)).dedup := by
  have : Std.Antisymm fun a b => leOf cmp a b = true := ⟨fun _ _ => leOf_antisymm⟩
  exact (pairwise_mergeSort l).destutter_eq_dedup

theorem nodup_sortDedup (l : List α) : (sortDedup cmp l).Nodup := by
  rw [sortDedup_eq_dedup]
  exact List.nodup_dedup _

theorem sortDedup_perm_dedup (l : List α) : (sortDedup cmp l).Perm l.dedup := by
  rw [sortDedup_eq_dedup]
  exact (List.mergeSort_perm l _).dedup

omit [Std.LawfulEqCmp cmp] in
theorem pairwise_leOf_sortDedup (l : List α) :
    (sortDedup cmp l).Pairwise fun a b => leOf cmp a b = true :=
  (pairwise_mergeSort l).sublist (List.destutter_sublist _ _)

theorem pairwise_sortDedup (l : List α) : (sortDedup cmp l).Pairwise fun a b => cmp a b = .lt :=
  ((pairwise_leOf_sortDedup l).and (nodup_sortDedup l)).imp fun ordered =>
    leOf_and_ne_iff.mp ordered

theorem sortDedup_eq_of_mem_iff {l l' : List α} (same : ∀ a, a ∈ l ↔ a ∈ l') :
    sortDedup cmp l = sortDedup cmp l' := by
  have perm : (sortDedup cmp l).Perm (sortDedup cmp l') :=
    (List.perm_ext_iff_of_nodup (nodup_sortDedup l) (nodup_sortDedup l')).mpr fun a => by
      rw [mem_sortDedup, mem_sortDedup, same]
  exact perm.eq_of_pairwise (fun _ _ _ _ => leOf_antisymm) (pairwise_leOf_sortDedup l)
    (pairwise_leOf_sortDedup l')

end SortDedup

theorem mergeSort_le_eq_of_perm [LinearOrder α] {l l' : List α} (p : l.Perm l') :
    l.mergeSort (fun a b => decide (a ≤ b)) = l'.mergeSort (fun a b => decide (a ≤ b)) :=
  List.Perm.eq_of_sortedLE List.sortedLE_mergeSort List.sortedLE_mergeSort
    ((List.mergeSort_perm l _).trans (p.trans (List.mergeSort_perm l' _).symm))

end MobileCoin.Compare
