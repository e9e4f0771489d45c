import MobileCoin.Lib.Except
import MobileCoin.Lib.Table
import MobileCoin.LedgerDb.Error
import MobileCoin.MembershipProofs.Proof

/-!
# The TxOut store

`mc_ledger_db::tx_out_store`: the TxOuts of the ledger in append order, their indices by hash
and by public key, and the hashes of the Merkle tree nodes keyed by range. A store is the
contents of its five LMDB databases as seen inside one write transaction; the `u64` keys
`u64_to_key_bytes(index)` and `range_to_key_bytes(range)` are injective, so the model keys by
the numbers themselves. A TxOut is opaque: only its hash, its public key and its leaf hash are
read.
-/

namespace MobileCoin.LedgerDb

open MembershipProofs U64 Table

structure TxOutStore (α K P H : Type) where
  numTxOuts : Nat
  txOutIndexByHash : K → Option Nat
  txOutIndexByPublicKey : P → Option Nat
  txOutByIndex : Nat → Option α
  merkleHashes : Nat × Nat → Option H

namespace TxOutStore

variable {α K P H : Type}

/-- `TxOutStore::create`: empty databases and a count of zero. -/
def create : TxOutStore α K P H :=
  ⟨0, fun _ => none, fun _ => none, fun _ => none, fun _ => none⟩

def rangeNew (low high : Nat) : Except Error Range :=
  (Range.new low high).mapError fun _ => .range

def getTxOutIndexByHash (s : TxOutStore α K P H) (txOutHash : K) : Except Error Nat :=
  match s.txOutIndexByHash txOutHash with
  | some index => .ok index
  | none => .error .notFound

def getTxOutIndexByPublicKey (s : TxOutStore α K P H) (publicKey : P) : Except Error Nat :=
  match s.txOutIndexByPublicKey publicKey with
  | some index => .ok index
  | none => .error .notFound

def getTxOutByIndex (s : TxOutStore α K P H) (index : Nat) : Except Error α :=
  match s.txOutByIndex index with
  | some txOut => .ok txOut
  | none => .error .notFound

def getMerkleHash (s : TxOutStore α K P H) (range : Range) : Except Error H :=
  match s.merkleHashes (range.from, range.to) with
  | some hash => .ok hash
  | none => .error .notFound

def writeMerkleHash (s : TxOutStore α K P H) (range : Range) (hash : H) : TxOutStore α K P H :=
  { s with merkleHashes := put s.merkleHashes (range.from, range.to) hash }

theorem rangeNew_of_le {low high : Nat} (le : low ≤ high) : rangeNew low high = .ok ⟨low, high⟩ := by
  simp [rangeNew, Range.new, le]

theorem getTxOutByIndex_of_eq {s : TxOutStore α K P H} {index : Nat} {txOut : α}
    (found : s.txOutByIndex index = some txOut) : s.getTxOutByIndex index = .ok txOut := by
  simp [getTxOutByIndex, found]

theorem getMerkleHash_of_eq {s : TxOutStore α K P H} {low high : Nat} {hash : H}
    (found : s.merkleHashes (low, high) = some hash) : s.getMerkleHash ⟨low, high⟩ = .ok hash := by
  simp [getMerkleHash, found]

/-! ### Ranges of the tree -/

/-- `containing_range`: the leaves of the subtree of height `depth` above `index`. -/
def containingRange (index depth : Nat) : Nat × Nat :=
  let mask := 2 ^ depth - 1
  (index &&& complement mask, index ||| mask)

/-- `containing_ranges`: the ranges above `index`, from the leaf up to the root of the full
tree over `numLeaves` leaves. -/
def containingRanges (index numLeaves : Nat) : Except Error (List (Nat × Nat)) :=
  if numLeaves ≤ index then .error (.txOutIndexOutOfBounds index)
  else
    match checkedNextPowerOfTwo numLeaves with
    | some numLeavesFullTree =>
      let depth := 64 - leadingZeros numLeavesFullTree - 1
      .ok ((List.range (depth + 1)).map (containingRange index))
    | none => .error .capacityExceeded

/-! ### Writing the tree -/

section Write

variable [DecidableEq K] [DecidableEq P]

/-- One iteration of the loop of `update_merkle_hashes`: a leaf hashes the new TxOut; an inner
node hashes its left child and either its right child or, when the right half holds no TxOut,
the nil hash. -/
def updateRange (h : MerkleHasher α H) (index numTxOuts : Nat) (s : TxOutStore α K P H) :
    Nat × Nat → Except Error (TxOutStore α K P H)
  | (low, high) =>
    if low = high then do
      let txOut ← s.getTxOutByIndex index
      let range ← rangeNew low low
      pure (s.writeMerkleHash range (h.hashLeaf txOut))
    else do
      let mid := (low + high) / 2
      let leftChildHash ← s.getMerkleHash (← rangeNew low mid)
      let rightChildHash ←
        if numTxOuts ≤ mid + 1 then pure h.hashNil
        else s.getMerkleHash (← rangeNew (mid + 1) high)
      let range ← rangeNew low high
      pure (s.writeMerkleHash range (h.hashNodes leftChildHash rightChildHash))

def updateMerkleHashes (h : MerkleHasher α H) (s : TxOutStore α K P H) (index : Nat) :
    Except Error (TxOutStore α K P H) :=
  let numTxOuts := s.numTxOuts
  if numTxOuts ≤ index then .error (.txOutIndexOutOfBounds index)
  else do
    let ranges ← containingRanges index numTxOuts
    ranges.foldlM (updateRange h index numTxOuts) s

/-- `TxOutStore::push`: bump the count, index the TxOut by hash and by public key, store it,
and rehash the nodes above it. Returns the new store and the TxOut's index. -/
def push (txOutHash : α → K) (publicKey : α → P) (h : MerkleHasher α H) (s : TxOutStore α K P H)
    (txOut : α) : Except Error (TxOutStore α K P H × Nat) := do
  let numTxOuts := s.numTxOuts
  let index := numTxOuts
  let s := { s with numTxOuts := (numTxOuts + 1) % 2 ^ 64 }
  let txOutIndexByHash ← putNew s.txOutIndexByHash (txOutHash txOut) index
  let s := { s with txOutIndexByHash }
  let txOutIndexByPublicKey ← putNew s.txOutIndexByPublicKey (publicKey txOut) index
  let s := { s with txOutIndexByPublicKey }
  let txOutByIndex ← putNew s.txOutByIndex index txOut
  let s := { s with txOutByIndex }
  let s ← updateMerkleHashes h s index
  pure (s, index)

/-- The TxOuts of a block pushed in order, as the loop of `LedgerDB::write_tx_outs` does. -/
def pushAll (txOutHash : α → K) (publicKey : α → P) (h : MerkleHasher α H)
    (s : TxOutStore α K P H) (txOuts : List α) : Except Error (TxOutStore α K P H) :=
  txOuts.foldlM (fun s txOut => do
    let (s, _) ← push txOutHash publicKey h s txOut
    pure s) s

end Write

/-! ### Reading the tree -/

def getRootMerkleHash (h : MerkleHasher α H) (s : TxOutStore α K P H) : Except Error H :=
  let numTxOuts := s.numTxOuts
  if numTxOuts = 0 then .ok h.hashNil
  else
    match checkedNextPowerOfTwo numTxOuts with
    | some numLeavesFullTree => do
      let range ← rangeNew 0 (numLeavesFullTree - 1)
      s.getMerkleHash range
    | none => .error .capacityExceeded

/-- The half of a containing range that does not hold `index`: the "other" child of the first
loop of `get_merkle_proof_of_membership`. -/
def otherHalf (index : Nat) : Nat × Nat → Nat × Nat
  | (low, high) =>
    let mid := (low + high) / 2
    if index ≤ mid then (mid + 1, high) else (low, mid)

/-- The ranges of a proof for `index`: the leaf, then at each level above it the half of the
containing range that does not hold `index`. -/
def rangesForProof (index : Nat) (ranges : List (Nat × Nat)) : List (Nat × Nat) :=
  (index, index) :: (ranges.drop 1).map (otherHalf index)

/-- One iteration of the second loop of `get_merkle_proof_of_membership`. -/
def proofElement (s : TxOutStore α K P H) (h : MerkleHasher α H) (numTxOuts : Nat) :
    Nat × Nat → Except Error (TxOutMembershipElement H)
  | (low, high) => do
    let range ← rangeNew low high
    let hash ← if numTxOuts ≤ low then pure h.hashNil else s.getMerkleHash range
    pure { range, hash }

def getMerkleProofOfMembership (h : MerkleHasher α H) (s : TxOutStore α K P H) (index : Nat) :
    Except Error (TxOutMembershipProof H) :=
  let numTxOuts := s.numTxOuts
  if numTxOuts ≤ index then .error (.txOutIndexOutOfBounds index)
  else do
    let ranges ← containingRanges index numTxOuts
    let elements ← (rangesForProof index ranges).mapM (proofElement s h numTxOuts)
    pure ⟨index, numTxOuts - 1, elements⟩

end TxOutStore

end MobileCoin.LedgerDb
