import Mathlib

/-!
# Hash trees and authentication paths

A binary hash tree with data leaves and empty (`nil`) leaves, hashed with three functions.
A verifier recomputes a root by climbing from a leaf hash, combining the running hash with
one sibling hash per level, on the left or on the right. When the three hash functions are
injective with pairwise disjoint images, a climb that reproduces the root of a tree starts
at the hash of one of the tree's data leaves, whatever siblings and sides were used.

`ofList` lays a list out as the leaves of a complete tree, node `(d, q)` spanning positions
`q * 2 ^ d` to `(q + 1) * 2 ^ d - 1`; a subtree that starts past the end of the list is one
`nil` leaf, not a tree of them.
-/

namespace MobileCoin

inductive HashTree (α : Type*) where
  | leaf (a : α)
  | nil
  | node (left right : HashTree α)
  deriving DecidableEq, Repr

namespace HashTree

variable {α H : Type*}

def hash (leafHash : α → H) (nilHash : H) (nodeHash : H → H → H) : HashTree α → H
  | leaf a => leafHash a
  | nil => nilHash
  | node left right => nodeHash (hash leafHash nilHash nodeHash left)
      (hash leafHash nilHash nodeHash right)

def leaves : HashTree α → List α
  | leaf a => [a]
  | nil => []
  | node left right => left.leaves ++ right.leaves

def ofList (items : List α) : Nat → Nat → HashTree α
  | 0, q =>
    match items[q]? with
    | some a => leaf a
    | none => nil
  | d + 1, q =>
    if items.length ≤ q * 2 ^ (d + 1) then nil
    else node (ofList items d (2 * q)) (ofList items d (2 * q + 1))

section OfList

variable {items : List α}

theorem ofList_of_length_le {d q : Nat} (past : items.length ≤ q * 2 ^ d) :
    ofList items d q = nil := by
  cases d with
  | zero =>
    have absent : items[q]? = none := List.getElem?_eq_none (by simpa using past)
    simp [ofList, absent]
  | succ d => simp [ofList, past]

theorem ofList_append_of_le (more : List α) {d q : Nat} (inside : (q + 1) * 2 ^ d ≤ items.length) :
    ofList (items ++ more) d q = ofList items d q := by
  induction d generalizing q with
  | zero =>
    have present : q < items.length := by simp at inside; omega
    simp [ofList, List.getElem?_append_left present]
  | succ d ih =>
    have double : (q + 1) * 2 ^ (d + 1) = (2 * q + 1 + 1) * 2 ^ d := by
      rw [Nat.pow_succ]; ring
    have pos : 0 < 2 ^ d := Nat.two_pow_pos d
    have left := ih (q := 2 * q) (by rw [double] at inside; nlinarith)
    have right := ih (q := 2 * q + 1) (by rwa [double] at inside)
    have before : ¬ items.length ≤ q * 2 ^ (d + 1) := by
      rw [Nat.pow_succ] at inside ⊢; nlinarith
    have before' : ¬ (items ++ more).length ≤ q * 2 ^ (d + 1) := by
      rw [List.length_append]; omega
    simp only [ofList, before, before', if_false, left, right]

theorem mem_of_mem_leaves_ofList {a : α} {d q : Nat} (mem : a ∈ (ofList items d q).leaves) :
    a ∈ items := by
  induction d generalizing q with
  | zero =>
    unfold ofList at mem
    split at mem
    · rename_i found
      simp only [leaves, List.mem_singleton] at mem
      subst mem
      exact List.mem_of_getElem? found
    · simp [leaves] at mem
  | succ d ih =>
    unfold ofList at mem
    split at mem
    · simp [leaves] at mem
    · rcases List.mem_append.mp mem with inLeft | inRight
      · exact ih inLeft
      · exact ih inRight

end OfList

/-- Fold a path bottom-up: each step combines the running hash with a sibling, the running hash
going on the left when the flag is set. -/
def climb (nodeHash : H → H → H) (start : H) (steps : List (Bool × H)) : H :=
  steps.foldl (fun acc step => if step.1 then nodeHash acc step.2 else nodeHash step.2 acc) start

theorem climb_append_step (nodeHash : H → H → H) (start : H) (steps : List (Bool × H))
    (step : Bool × H) :
    climb nodeHash start (steps ++ [step]) =
      if step.1 then nodeHash (climb nodeHash start steps) step.2
      else nodeHash step.2 (climb nodeHash start steps) := by
  simp [climb, List.foldl_append]

/-- Domain-separated hashing: every function is injective and no two have a common value. -/
structure Separated (leafHash : α → H) (nilHash : H) (nodeHash : H → H → H) : Prop where
  leaf_injective : Function.Injective leafHash
  node_injective : ∀ {a b c d}, nodeHash a b = nodeHash c d → a = c ∧ b = d
  leaf_ne_nil : ∀ a, leafHash a ≠ nilHash
  leaf_ne_node : ∀ a l r, leafHash a ≠ nodeHash l r
  nil_ne_node : ∀ l r, nilHash ≠ nodeHash l r

variable {leafHash : α → H} {nilHash : H} {nodeHash : H → H → H}

/-- A climb from the hash of `a` that reproduces the root of `t` starts at a leaf of `t`.
The induction peels the last step: its node hash can only match an internal node, whose
child on the climbing side is matched by the shorter climb. -/
theorem mem_leaves_of_climb (separated : Separated leafHash nilHash nodeHash) (a : α)
    (steps : List (Bool × H)) :
    ∀ t : HashTree α, climb nodeHash (leafHash a) steps = t.hash leafHash nilHash nodeHash →
      a ∈ t.leaves := by
  induction steps using List.reverseRecOn with
  | nil =>
    intro t h
    cases t with
    | leaf b =>
      have same := separated.leaf_injective h
      simp [leaves, same]
    | nil => exact absurd h (separated.leaf_ne_nil a)
    | node left right => exact absurd h (separated.leaf_ne_node a _ _)
  | append_singleton steps step ih =>
    intro t h
    rw [climb_append_step] at h
    cases t with
    | leaf b =>
      split at h
      · exact absurd h.symm (separated.leaf_ne_node b _ _)
      · exact absurd h.symm (separated.leaf_ne_node b _ _)
    | nil =>
      split at h
      · exact absurd h.symm (separated.nil_ne_node _ _)
      · exact absurd h.symm (separated.nil_ne_node _ _)
    | node left right =>
      simp only [hash] at h
      split at h
      · exact List.mem_append_left _ (ih left (separated.node_injective h).1)
      · exact List.mem_append_right _ (ih right (separated.node_injective h).2)

end HashTree

end MobileCoin
