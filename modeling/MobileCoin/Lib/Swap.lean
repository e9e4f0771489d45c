import Mathlib

/-!
# Swapping two entries of a list

A swap written as two `set`s permutes the list and leaves every other position as it was.
-/

namespace MobileCoin

variable {α : Type*}

theorem perm_set_set [DecidableEq α] {l : List α} {i j : Nat} {a b : α} (distinct : i ≠ j)
    (atI : l[i]? = some a) (atJ : l[j]? = some b) : ((l.set i b).set j a).Perm l := by
  have inI : i < l.length := (List.getElem?_eq_some_iff.mp atI).1
  have inJ : j < l.length := (List.getElem?_eq_some_iff.mp atJ).1
  have valueI : l[i] = a := (List.getElem?_eq_some_iff.mp atI).2
  have valueJ : l[j] = b := (List.getElem?_eq_some_iff.mp atJ).2
  have inJ' : j < (l.set i b).length := by simpa using inJ
  have atJ' : (l.set i b)[j] = b := by rw [List.getElem_set_ne distinct, valueJ]
  rw [List.perm_iff_count]
  intro x
  have countA : (if a == x then 1 else 0) ≤ l.count x := by
    rw [← valueI]; exact List.boole_getElem_le_count inI
  rw [List.count_set inJ', List.count_set inI, atJ', valueI]
  split_ifs at countA ⊢ <;> omega

theorem getElem?_set_set_of_ne {l : List α} {i j k : Nat} {a b : α} (notI : k ≠ i) (notJ : k ≠ j) :
    ((l.set i b).set j a)[k]? = l[k]? := by
  rw [List.getElem?_set_ne (Ne.symm notJ), List.getElem?_set_ne (Ne.symm notI)]

end MobileCoin
