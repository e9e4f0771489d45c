import Mathlib
import MobileCoin.Lib.Except
import MobileCoin.Transaction.BlockVersion

/-!
# Verifying a RingCT signature

`SignatureRctBulletproofs::verify` of `mc_transaction_core::ring_ct`. After the shape checks it
range-checks every pseudo-output and output commitment, under the generator of the fee token
in one proof before mixed transactions and under the generator of each token, one proof per
token in sorted token order, from v3; it then checks that the outputs and the fee commit to
what the pseudo-outputs commit to, and that each ring signature signs its pseudo-output.

The group of points `P`, its scalars, and the primitives on them are parameters: the
generators of each token (`GeneratorCache::get`), the decoding and the check of Bulletproofs
range proofs, the digest the ring signatures sign (`compute_mlsag_signing_digest`) and
`RingMLSAG::verify`. Commitments are points; their compressed encoding is not modelled.
-/

namespace MobileCoin.RingCt

/-- The errors `verify` returns; the primitives return theirs as `rangeProof` and
`ringSignature`. -/
inductive Error (T : Type) where
  | lengthMismatch (found expected : Nat)
  | duplicateKeyImage
  | valueNotConserved
  | rangeProof (message : String)
  | rangeProofDeserialization
  | tokenIdNotAllowed
  | missingPseudoOutputTokenIds
  | missingOutputTokenIds
  | pseudoOutputTokenIdsNotAllowed
  | outputTokenIdsNotAllowed
  | tooManyRangeProofs
  | unexpectedRangeProof
  | missingRangeProofs (expected found : Nat)
  | noCommitmentsForTokenId (tokenId : T)
  | allRingsPresigned
  | zipExact
  | ringSignature (message : String)
  deriving DecidableEq, Repr

structure Amount (T : Type) where
  value : UInt64
  tokenId : T
  deriving DecidableEq, Repr

/-- `PedersenGens`: the value generator `B` and the blinding generator. -/
structure PedersenGens (P : Type) where
  B : P
  bBlinding : P

def PedersenGens.commit {Sc P : Type} [Semiring Sc] [AddCommMonoid P] [Module Sc P]
    (gens : PedersenGens P) (value blinding : Sc) : P :=
  value • gens.B + blinding • gens.bBlinding

/-- `ReducedTxOut`: a ring member, its keys and its amount commitment. -/
structure ReducedTxOut (K P : Type) where
  publicKey : K
  targetKey : K
  commitment : P

structure SignedInputRing (K P Dg : Type) where
  members : List (ReducedTxOut K P)
  signedDigest : Option Dg

structure RingMLSAG (KI Z : Type) where
  cZero : Z
  responses : List Z
  keyImage : KI

structure SignatureRctBulletproofs (T P KI Z : Type) where
  ringSignatures : List (RingMLSAG KI Z)
  pseudoOutputCommitments : List P
  rangeProofBytes : List UInt8
  rangeProofs : List (List UInt8)
  pseudoOutputTokenIds : List T
  outputTokenIds : List T

/-- The primitives `verify` calls. -/
structure Crypto (T P RP KI Z K Dg X : Type) where
  generator : T → PedersenGens P
  rangeProofFromBytes : List UInt8 → Option RP
  checkRangeProofs : RP → List P → PedersenGens P → Except (Error T) Unit
  mlsagSigningDigest : BlockVersion → X → List P → List UInt8 → List (List UInt8) →
    Except (Error T) Dg
  verifyRing : RingMLSAG KI Z → Dg → List (ReducedTxOut K P) → P → Except (Error T) Unit

/-- `zip_exact`: the pairs of two lists of one length. -/
def zipExact {T α β : Type} (l : List α) (l' : List β) : Except (Error T) (List (α × β)) :=
  if l.length = l'.length then .ok (l.zip l') else .error .zipExact

variable {T P RP KI Z K Dg X : Type}

def SignatureRctBulletproofs.keyImages (sig : SignatureRctBulletproofs T P KI Z) : List KI :=
  sig.ringSignatures.map (·.keyImage)

/-- The token ids a transaction uses, in the order the `BTreeSet` `verify` collects them in
iterates them: each once, ascending. -/
def tokenIds [LinearOrder T] (fee : Amount T) (sig : SignatureRctBulletproofs T P KI Z) :
    List T :=
  ((fee.tokenId :: sig.outputTokenIds ++ sig.pseudoOutputTokenIds).dedup).insertionSort (· ≤ ·)

/-- One iteration of the range checks from v3: the commitments that declare `tokenId` are
checked with its range proof under its generator. -/
def checkTokenRangeProof [DecidableEq T] (c : Crypto T P RP KI Z K Dg X)
    (sig : SignatureRctBulletproofs T P KI Z) (outputCommitments : List P)
    (tokenIdAndProof : T × List UInt8) : Except (Error T) Unit := do
  let (tokenId, rangeProof) := tokenIdAndProof
  let generator := c.generator tokenId
  let pseudoOutputs ← zipExact sig.pseudoOutputCommitments sig.pseudoOutputTokenIds
  let outputs ← zipExact outputCommitments sig.outputTokenIds
  let commitments := (pseudoOutputs ++ outputs).filterMap fun (commitment, thisTokenId) =>
    if tokenId = thisTokenId then some commitment else none
  if commitments.isEmpty then throw (.noCommitmentsForTokenId tokenId)
  let rangeProof ← okOr (c.rangeProofFromBytes rangeProof) .rangeProofDeserialization
  c.checkRangeProofs rangeProof commitments generator

/-- The range checks of `verify`: one proof under the fee token's generator before mixed
transactions, one per token in sorted order from v3. -/
def checkRangeProofsOf [LinearOrder T] (c : Crypto T P RP KI Z K Dg X)
    (sig : SignatureRctBulletproofs T P KI Z) (blockVersion : BlockVersion)
    (outputCommitments : List P) (fee : Amount T) : Except (Error T) Unit := do
  let tokenIds := tokenIds fee sig
  if !blockVersion.mixedTransactionsAreSupported then
    if !sig.rangeProofs.isEmpty then throw .tooManyRangeProofs
    let generator := c.generator fee.tokenId
    let commitments := sig.pseudoOutputCommitments ++ outputCommitments
    let rangeProof ← okOr (c.rangeProofFromBytes sig.rangeProofBytes) .rangeProofDeserialization
    c.checkRangeProofs rangeProof commitments generator
  else
    if !sig.rangeProofBytes.isEmpty then throw .unexpectedRangeProof
    if tokenIds.length ≠ sig.rangeProofs.length then
      throw (.missingRangeProofs tokenIds.length sig.rangeProofs.length)
    let tokenIdsAndProofs ← zipExact tokenIds sig.rangeProofs
    tokenIdsAndProofs.forM (checkTokenRangeProof c sig outputCommitments)

def feeBlinding {Sc : Type} [Zero Sc] : Sc := 0

/-- The shape checks at the start of `verify`. -/
def checkShape [Zero T] [DecidableEq T] [DecidableEq KI]
    (sig : SignatureRctBulletproofs T P KI Z) (blockVersion : BlockVersion)
    (rings : List (SignedInputRing K P Dg)) (outputCommitments : List P) (fee : Amount T) :
    Except (Error T) Unit := do
  if !blockVersion.maskedTokenIdFeatureIsSupported && fee.tokenId ≠ 0 then
    throw .tokenIdNotAllowed
  if rings.all (·.signedDigest.isSome) then throw .allRingsPresigned
  if rings.length ≠ sig.ringSignatures.length then
    throw (.lengthMismatch rings.length sig.ringSignatures.length)
  if rings.length ≠ sig.pseudoOutputCommitments.length then
    throw (.lengthMismatch rings.length sig.pseudoOutputCommitments.length)
  if blockVersion.mixedTransactionsAreSupported then
    if sig.pseudoOutputCommitments.length ≠ sig.pseudoOutputTokenIds.length then
      throw .missingPseudoOutputTokenIds
    if outputCommitments.length ≠ sig.outputTokenIds.length then throw .missingOutputTokenIds
  else
    if !sig.pseudoOutputTokenIds.isEmpty then throw .pseudoOutputTokenIdsNotAllowed
    if !sig.outputTokenIds.isEmpty then throw .outputTokenIdsNotAllowed
  if !sig.keyImages.Nodup then throw .duplicateKeyImage

/-- `SignatureRctBulletproofs::verify`; the scalars `Z` of the ring signatures act on the
points. -/
def verify [Zero T] [LinearOrder T] [DecidableEq KI] [CommRing Z]
    [AddCommGroup P] [Module Z P] [DecidableEq P] (c : Crypto T P RP KI Z K Dg X)
    (sig : SignatureRctBulletproofs T P KI Z) (blockVersion : BlockVersion) (txPrefix : X)
    (rings : List (SignedInputRing K P Dg)) (outputCommitments : List P) (fee : Amount T) :
    Except (Error T) Unit := do
  checkShape sig blockVersion rings outputCommitments fee
  checkRangeProofsOf c sig blockVersion outputCommitments fee
  -- the outputs and the implicit fee output less the pseudo-outputs
  let sumOfPseudoOutputCommitments := sig.pseudoOutputCommitments.sum
  let sumOfOutputCommitments := outputCommitments.sum
  let generator := c.generator fee.tokenId
  let feeCommitment := generator.commit (fee.value.toNat : Z) feeBlinding
  let difference := sumOfOutputCommitments + feeCommitment - sumOfPseudoOutputCommitments
  if difference ≠ 0 then throw .valueNotConserved
  let mlsagSigningDigest ← c.mlsagSigningDigest blockVersion txPrefix
    sig.pseudoOutputCommitments sig.rangeProofBytes sig.rangeProofs
  -- ring `i` with the `i`-th ring signature and pseudo-output; the lengths are equal
  (rings.zip (sig.ringSignatures.zip sig.pseudoOutputCommitments)).forM
    fun (ring, ringSignature, pseudoOutput) =>
      c.verifyRing ringSignature (ring.signedDigest.getD mlsagSigningDigest) ring.members
        pseudoOutput

end MobileCoin.RingCt
