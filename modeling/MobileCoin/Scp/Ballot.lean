import Mathlib

/-!
# Ballots

`mc_consensus_scp::ballot::Ballot`: a counter and the values to agree on. Ballots are totally
ordered, the counter more significant than the values, which compare lexicographically.
-/

namespace MobileCoin.Scp

structure Ballot (V : Type) where
  N : UInt32
  X : List V
  deriving DecidableEq, Repr

namespace Ballot

variable {V : Type}

def new (counter : UInt32) (values : List V) : Ballot V := ⟨counter, values⟩

@[simp] theorem new_N (counter : UInt32) (values : List V) : (new counter values).N = counter := rfl

@[simp] theorem new_X (counter : UInt32) (values : List V) : (new counter values).X = values := rfl

def isZero (b : Ballot V) : Bool := b.N == 0 && b.X.isEmpty

variable [LinearOrder V]

def cmp (a b : Ballot V) : Ordering :=
  if a.N ≠ b.N then compare a.N b.N else compare a.X b.X

instance : Ord (Ballot V) := ⟨cmp⟩

instance : LT (Ballot V) := ltOfOrd

instance : LE (Ballot V) := leOfOrd

instance (a b : Ballot V) : Decidable (a < b) := inferInstanceAs (Decidable (compare a b = .lt))

instance (a b : Ballot V) : Decidable (a ≤ b) := inferInstanceAs (Decidable (compare a b).isLE)

instance : Max (Ballot V) := maxOfLe

instance : Min (Ballot V) := minOfLe

example : (⟨3, [1, 2]⟩ : Ballot Nat) < ⟨3, [1, 3]⟩ ∧ (⟨3, [5]⟩ : Ballot Nat) < ⟨4, []⟩ := by decide

end Ballot

end MobileCoin.Scp
