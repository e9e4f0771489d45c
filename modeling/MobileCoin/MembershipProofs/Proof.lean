import MobileCoin.Lib.U64

/-!
# Merkle proofs of membership

`mc_transaction_core::membership_proofs`: the ranges naming tree nodes, the proof elements,
the composition of two adjacent elements into their parent, the verifier's fold
`compute_implied_merkle_root`, the check `is_membership_proof_valid`, and the roll-back
`derive_proof_at_index`. Hashes are abstract: `hash_leaf`, `hash_nodes` and `hash_nil` are
Blake2b under three domain tags, taken here as the fields of a `MerkleHasher`.
-/

namespace MobileCoin.MembershipProofs

open U64

/-- `Range`: the leaf indices `[from, to]` below a tree node (`u64` endpoints). -/
structure Range where
  «from» : Nat
  «to» : Nat
  deriving DecidableEq, Repr

def Range.new (lo hi : Nat) : Except Unit Range :=
  if lo ≤ hi then .ok ⟨lo, hi⟩ else .error ()

def Range.len (r : Range) : Nat :=
  if r.from ≤ r.to then r.to - r.from + 1 else r.from - r.to + 1

def Range.cmp (a b : Range) : Ordering :=
  if a.len ≠ b.len then compare a.len b.len
  else (compare a.from b.from).then (compare a.to b.to)

/-- The three hash functions of the tree. -/
structure MerkleHasher (α H : Type*) where
  hashLeaf : α → H
  hashNodes : H → H → H
  hashNil : H

structure TxOutMembershipElement (H : Type*) where
  range : Range
  hash : H

/-- `TxOutMembershipProof`: the leaf index, the highest index of the ledger the proof was made
for, and the elements, leaf first and then one sibling per level. -/
structure TxOutMembershipProof (H : Type*) where
  index : Nat
  highestIndex : Nat
  elements : List (TxOutMembershipElement H)

inductive Error where
  | incorrectLeafHash (index : Nat)
  | missingLeafHash (index : Nat)
  | rangeError
  | unexpectedMembershipElement (idx : Nat)
  | highestIndexMismatch
  | rootNotCoveringZero
  | numericLimitsExceeded
  deriving DecidableEq, Repr

variable {α H : Type*}

/-- `compose_adjacent_membership_elements`: `a` is the left sibling when `a.to + 1 = b.from`,
the right one when `b.to + 1 = a.from` (with `wrapping_add`); exactly one must hold. -/
def composeAdjacentMembershipElements (h : MerkleHasher α H) (a b : TxOutMembershipElement H) :
    Except Unit (TxOutMembershipElement H) :=
  let aIsLeft := (a.range.to + 1) % 2 ^ 64 == b.range.from
  let bIsLeft := (b.range.to + 1) % 2 ^ 64 == a.range.from
  if !(aIsLeft ^^ bIsLeft) then .error ()
  else
    let left := if bIsLeft then b.hash else a.hash
    let right := if bIsLeft then a.hash else b.hash
    .ok { range := { «from» := if bIsLeft then b.range.from else a.range.from,
                     «to» := if bIsLeft then a.range.to else b.range.to },
          hash := h.hashNodes left right }

def composeElements (h : MerkleHasher α H) :
    TxOutMembershipElement H → Nat → List (TxOutMembershipElement H) →
      Except Error (TxOutMembershipElement H)
  | prev, _, [] => .ok prev
  | prev, idx, next :: rest =>
    match composeAdjacentMembershipElements h prev next with
    | .ok parent => composeElements h parent (idx + 1) rest
    | .error _ => .error (.unexpectedMembershipElement (idx + 1))

/-- `compute_implied_merkle_root`: check every range and the leaf element, then compose the
elements bottom-up. -/
def computeImpliedMerkleRoot (h : MerkleHasher α H) (proof : TxOutMembershipProof H) :
    Except Error (TxOutMembershipElement H) :=
  if proof.elements.any (fun e => decide (e.range.to < e.range.from)) then .error .rangeError
  else
    match proof.elements with
    | [] => .error (.missingLeafHash proof.index)
    | first :: rest =>
      if first.range.from ≠ proof.index ∨ first.range.to ≠ proof.index then
        .error (.missingLeafHash proof.index)
      else composeElements h first 0 rest

def isMembershipProofValid [DecidableEq H] (h : MerkleHasher α H) (txOut : α)
    (proof : TxOutMembershipProof H) (knownRootHash : H) : Except Error Bool :=
  if proof.highestIndex < proof.index then .error .highestIndexMismatch
  else
    match proof.elements with
    | [] => .error (.missingLeafHash proof.index)
    | first :: _ =>
      if first.range.from ≠ proof.index ∨ first.range.to ≠ proof.index then
        .error (.missingLeafHash proof.index)
      else if first.hash ≠ h.hashLeaf txOut then .error (.incorrectLeafHash first.range.from)
      else
        match computeImpliedMerkleRoot h proof with
        | .error e => .error e
        | .ok impliedRoot =>
          if 0 ≠ impliedRoot.range.from then .error .rootNotCoveringZero
          else if impliedRoot.range.to < proof.highestIndex then .error .highestIndexMismatch
          else .ok (decide (impliedRoot.hash = knownRootHash))

/-- The loop of `derive_proof_at_index`: elements above the derived root are dropped, ranges
past `index` become nil, leaves and ranges ending at or before `index` keep their hash, and a
range straddling `index` is an error. -/
def deriveElements (h : MerkleHasher α H) (index : Nat) (derivedRootRange : Range) :
    Nat → List (TxOutMembershipElement H) → Except Error (List (TxOutMembershipElement H))
  | _, [] => .ok []
  | elementIdx, element :: rest =>
    if element.range.cmp derivedRootRange = .gt then
      deriveElements h index derivedRootRange (elementIdx + 1) rest
    else
      let hash? : Option H :=
        if index < element.range.from then some h.hashNil
        else if element.range.from = element.range.to then some element.hash
        else if element.range.to ≤ index then some element.hash
        else none
      match hash? with
      | none => .error (.unexpectedMembershipElement elementIdx)
      | some hash =>
        match deriveElements h index derivedRootRange (elementIdx + 1) rest with
        | .ok derived => .ok (⟨element.range, hash⟩ :: derived)
        | .error e => .error e

def deriveProofAtIndex (h : MerkleHasher α H) (initialProof : TxOutMembershipProof H) :
    Except Error (TxOutMembershipProof H) :=
  let index := initialProof.index
  match checkedNextPowerOfTwo ((index + 1) % 2 ^ 64) with
  | none => .error .numericLimitsExceeded
  | some numLeavesFullTree =>
    match Range.new 0 (numLeavesFullTree - 1) with
    | .error _ => .error .rangeError
    | .ok derivedRootRange =>
      match deriveElements h index derivedRootRange 0 initialProof.elements with
      | .error e => .error e
      | .ok derivedElements => .ok ⟨index, index, derivedElements⟩

end MobileCoin.MembershipProofs
