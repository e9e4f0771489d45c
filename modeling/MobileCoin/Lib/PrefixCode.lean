import Mathlib

/-!
# Prefix-unique codes

An encoding `enc : α → List β` is prefix-unique at `x` when `enc x ++ r = enc y ++ s` forces
`x = y` and `r = s`: a reader of the symbol stream can find where the code of `x` ends. This
file shows how the property composes over lists of codes, either when the number of codes is
known or when the list is closed by a symbol that no code starts with.
-/

namespace MobileCoin.PrefixCode

variable {α β : Type*}

/-- `enc` is prefix-unique at `x` against every `y` satisfying `P`. -/
def UniqueAt (P : α → Prop) (enc : α → List β) (x : α) : Prop :=
  ∀ y, P y → ∀ r s, enc x ++ r = enc y ++ s → x = y ∧ r = s

variable {P : α → Prop} {enc : α → List β}

theorem UniqueAt.not_proper_prefix {x y : α} {r : List β} (unique : UniqueAt P enc x) (hy : P y)
    (h : enc x ++ r = enc y) : r = [] := by
  have split := unique y hy r [] (by rw [h, List.append_nil])
  exact split.2

theorem UniqueAt.eq_of_enc_eq {x y : α} (unique : UniqueAt P enc x) (hy : P y)
    (h : enc x = enc y) : x = y :=
  (unique y hy [] [] (by rw [h])).1

theorem flatMap_unique_of_length {xs ys : List α} {r s : List β}
    (hx : ∀ x ∈ xs, UniqueAt P enc x) (hy : ∀ y ∈ ys, P y) (length : xs.length = ys.length)
    (h : xs.flatMap enc ++ r = ys.flatMap enc ++ s) : xs = ys ∧ r = s := by
  induction xs generalizing ys with
  | nil =>
    cases ys with
    | nil => simpa using h
    | cons y ys => simp at length
  | cons x xs ih =>
    cases ys with
    | nil => simp at length
    | cons y ys =>
      simp only [List.flatMap_cons, List.append_assoc] at h
      obtain ⟨rfl, rest⟩ := hx x List.mem_cons_self y (hy y List.mem_cons_self) _ _ h
      obtain ⟨rfl, rfl⟩ := ih (fun x' hx' => hx x' (List.mem_cons_of_mem _ hx'))
        (fun y' hy' => hy y' (List.mem_cons_of_mem _ hy')) (by simpa using length) rest
      exact ⟨rfl, rfl⟩

/-- Codes of two lists, each closed by the symbol `t` that no code starts with, split at
the same places: the terminator is where the list ends. -/
theorem flatMap_terminated_unique {xs ys : List α} {t : β} {r s : List β}
    (hx : ∀ x ∈ xs, UniqueAt P enc x) (hy : ∀ y ∈ ys, P y)
    (start : ∀ z, ∃ b bs, enc z = b :: bs ∧ b ≠ t)
    (h : xs.flatMap enc ++ t :: r = ys.flatMap enc ++ t :: s) : xs = ys ∧ r = s := by
  induction xs generalizing ys with
  | nil =>
    cases ys with
    | nil => simpa using h
    | cons y ys =>
      obtain ⟨b, bs, code, differs⟩ := start y
      simp only [List.flatMap_nil, List.nil_append, List.flatMap_cons, code, List.cons_append,
        List.cons.injEq] at h
      exact absurd h.1.symm differs
  | cons x xs ih =>
    cases ys with
    | nil =>
      obtain ⟨b, bs, code, differs⟩ := start x
      simp only [List.flatMap_cons, code, List.cons_append, List.flatMap_nil, List.nil_append,
        List.cons.injEq] at h
      exact absurd h.1 differs
    | cons y ys =>
      simp only [List.flatMap_cons, List.append_assoc] at h
      obtain ⟨rfl, rest⟩ := hx x List.mem_cons_self y (hy y List.mem_cons_self) _ _ h
      obtain ⟨rfl, rfl⟩ := ih (fun x' hx' => hx x' (List.mem_cons_of_mem _ hx'))
        (fun y' hy' => hy y' (List.mem_cons_of_mem _ hy')) rest
      exact ⟨rfl, rfl⟩

end MobileCoin.PrefixCode
