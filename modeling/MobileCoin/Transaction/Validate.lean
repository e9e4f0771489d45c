import MobileCoin.Lib.Fresh
import MobileCoin.MembershipProofs.Proof
import MobileCoin.Transaction.BlockVersion

/-!
# Transaction validation

`mc_transaction_core::validation::validate`: the rules a transaction has to meet to enter the
block being built, checked one after another, the first rule broken giving the error. They bound
the numbers of inputs and outputs, fix the ring size, keep ring elements distinct and sorted and
the inputs sorted, check every ring element's membership proof against the root that the
untrusted ledger's proofs imply, verify the ring signature, the fee, that key images and output
public keys are distinct, that the tombstone block is ahead and not too far, the memo and masked
token id of every output for the block version, the order of the outputs, and the input rules.

A TxOut is opaque: `validate` reads its public key, whether it has an encrypted memo, and the
masked token id of its masked amount, and hashes it as a leaf of the TxOut tree. The ring
signature (`SignatureRctBulletproofs::verify`, in `RingCt.Verify`) and `InputRules::verify` are
parameters, as are the key images the signature holds.
-/

namespace MobileCoin.Validation

open MembershipProofs

def RING_SIZE : ℕ := 11

def MAX_INPUTS : UInt64 := 16

def MAX_OUTPUTS : UInt64 := 16

/-- `MAX_TOMBSTONE_BLOCKS`: about one week of blocks. -/
def MAX_TOMBSTONE_BLOCKS : UInt64 := 20160

def TOKEN_ID_NUM_BYTES : ℕ := 8

/-- The errors of `TransactionValidationError` that `validate` returns; `SE` is the error of the
ring signature and `IE` that of the input rules. -/
inductive TransactionValidationError (SE IE : Type)
  | noInputs
  | tooManyInputs
  | invalidTransactionSignature (error : SE)
  | insufficientRingSize
  | tombstoneBlockExceeded
  | tombstoneBlockTooFar
  | noOutputs
  | tooManyOutputs
  | excessiveRingSize
  | duplicateRingElements
  | unsortedRingElements
  | unsortedInputs
  | duplicateKeyImages
  | duplicateOutputPublicKey
  | missingTxOutMembershipProof
  | invalidTxOutMembershipProof
  | invalidLedgerContext
  | ledger (message : String)
  | membershipProofValidationError
  | txFeeError
  | missingMemo
  | memosNotAllowed
  | missingMaskedTokenId
  | maskedTokenIdNotAllowed
  | unsortedOutputs
  | inputRulesNotAllowed
  | inputRule (error : IE)
  | unknownMaskedAmountVersion
  deriving DecidableEq, Repr

structure TxIn (α H R : Type) where
  ring : List α
  proofs : List (TxOutMembershipProof H)
  inputRules : Option R

structure TxPrefix (α H R : Type) where
  inputs : List (TxIn α H R)
  outputs : List α
  fee : UInt64
  tombstoneBlock : UInt64
  feeTokenId : UInt64

structure Tx (α H R Sig : Type) where
  txPrefix : TxPrefix α H R
  signature : Sig

/-- What `validate` computes with and does not define: the fields of a TxOut it reads
(`masked_token_id` of `get_masked_amount`, `none` when the TxOut has no masked amount), the
hashes of the TxOut tree, the key images of the signature, `verify` of the signature over the
prefix, its rings and output commitments and the fee, and `InputRules::verify`. -/
structure Primitives (α K H R Sig KI SE IE : Type) where
  publicKey : α → K
  hasMemo : α → Bool
  maskedTokenId : α → Option (List UInt8)
  hasher : MerkleHasher α H
  keyImages : Sig → List KI
  verifySignature : BlockVersion → Tx α H R Sig → Except SE Unit
  verifyInputRules : R → BlockVersion → Tx α H R Sig → Except IE Unit

abbrev TransactionValidationResult (SE IE T : Type) := Except (TransactionValidationError SE IE) T

variable {α K H R Sig KI SE IE : Type}

/-! ### The checks -/

/-- `check_sorted`: every pair of neighbours is ordered, as `windows(2).all(..)`. -/
def checkSorted {β : Type} (values : List β) (ordered : β → β → Bool)
    (err : TransactionValidationError SE IE) : TransactionValidationResult SE IE Unit :=
  if !decide (values.IsChain fun a b => ordered a b = true) then throw err else pure ()

/-- `check_unique`: the values go into one `HashSet`, and a value already there is `err`. -/
def checkUnique {β : Type} [DecidableEq β] (values : List β)
    (err : TransactionValidationError SE IE) : TransactionValidationResult SE IE Unit := do
  let _ ← values.foldlM (insertFresh fun _ => err) []

/-- The shape of `validate_number_of_inputs` and `validate_number_of_outputs`: at least one, and
no more than the maximum. -/
def validateNumberOf (num : ℕ) (maximumAllowed : UInt64)
    (noneErr tooManyErr : TransactionValidationError SE IE) : TransactionValidationResult SE IE Unit := do
  if num = 0 then throw noneErr
  if num > maximumAllowed.toNat then throw tooManyErr

def validateNumberOfInputs (txPrefix : TxPrefix α H R) (maximumAllowedInputs : UInt64) :
    TransactionValidationResult SE IE Unit :=
  validateNumberOf txPrefix.inputs.length maximumAllowedInputs .noInputs .tooManyInputs

def validateNumberOfOutputs (txPrefix : TxPrefix α H R) (maximumAllowedOutputs : UInt64) :
    TransactionValidationResult SE IE Unit :=
  validateNumberOf txPrefix.outputs.length maximumAllowedOutputs .noOutputs .tooManyOutputs

def validateRingSizes (txPrefix : TxPrefix α H R) (ringSize : ℕ) :
    TransactionValidationResult SE IE Unit :=
  txPrefix.inputs.forM fun input =>
    if input.ring.length ≠ ringSize then
      throw (if input.ring.length > ringSize then .excessiveRingSize else .insufficientRingSize)
    else pure ()

/-- `validate_ring_elements_are_unique`: a ring with input rules is checked on its own; the rings
without share one set. -/
def validateRingElementsAreUnique [DecidableEq α] (txPrefix : TxPrefix α H R) :
    TransactionValidationResult SE IE Unit := do
  let _ ← txPrefix.inputs.foldlM (fun ringElementsWithoutInputRules input =>
    if input.inputRules.isSome then do
      checkUnique input.ring .duplicateRingElements
      pure ringElementsWithoutInputRules
    else
      input.ring.foldlM (insertFresh fun _ => .duplicateRingElements) ringElementsWithoutInputRules)
    []

section Order

variable [LinearOrder K] (publicKey : α → K)

def validateRingElementsAreSorted (txPrefix : TxPrefix α H R) :
    TransactionValidationResult SE IE Unit :=
  txPrefix.inputs.forM fun txIn =>
    checkSorted txIn.ring (fun a b => publicKey a < publicKey b) .unsortedRingElements

/-- `validate_inputs_are_sorted`, by the public key of the first element of each ring. -/
def validateInputsAreSorted (txPrefix : TxPrefix α H R) : TransactionValidationResult SE IE Unit :=
  checkSorted txPrefix.inputs
    (fun a b => !a.ring.isEmpty && !b.ring.isEmpty &&
      match a.ring.head?, b.ring.head? with
      | some first, some first' => decide (publicKey first < publicKey first')
      | _, _ => false)
    .unsortedInputs

def validateOutputsAreSorted (txPrefix : TxPrefix α H R) :
    TransactionValidationResult SE IE Unit :=
  checkSorted txPrefix.outputs (fun a b => publicKey a < publicKey b) .unsortedOutputs

end Order

/-- `validate_membership_proofs`: every ring element has a proof, every element with its proof
has a root proof from the untrusted ledger, the root proofs' ranges are ordered, and each proof is
valid against the root of the proof its root proof rolls back to at its index. -/
def validateMembershipProofs [DecidableEq H] (h : MerkleHasher α H) (txPrefix : TxPrefix α H R)
    (rootProofs : List (TxOutMembershipProof H)) : TransactionValidationResult SE IE Unit := do
  txPrefix.inputs.forM fun txIn =>
    if txIn.ring.length ≠ txIn.proofs.length then throw .missingTxOutMembershipProof else pure ()
  let txOutWithMembershipProof := txPrefix.inputs.flatMap fun txIn => txIn.ring.zip txIn.proofs
  if txOutWithMembershipProof.length ≠ rootProofs.length then throw .invalidLedgerContext
  rootProofs.forM fun rootProof =>
    if rootProof.elements.any (fun element => decide (element.range.to < element.range.from)) then
      throw .membershipProofValidationError
    else pure ()
  (txOutWithMembershipProof.zip rootProofs).forM fun ((txOut, membershipProof), rootProof) =>
    match deriveProofAtIndex h rootProof with
    | .error _ => throw .invalidLedgerContext
    | .ok derivedProof =>
      match computeImpliedMerkleRoot h derivedProof with
      | .error _ => throw .invalidLedgerContext
      | .ok rootElement =>
        match isMembershipProofValid h txOut membershipProof rootElement.hash with
        | .error _ => throw .membershipProofValidationError
        | .ok isValid => if !isValid then throw .invalidTxOutMembershipProof else pure ()

section Primitives

variable (p : Primitives α K H R Sig KI SE IE)

def getMaskedTokenId (txOut : α) : TransactionValidationResult SE IE (List UInt8) :=
  okOr (p.maskedTokenId txOut) .unknownMaskedAmountVersion

/-- `validate_signature`: `get_input_rings` and `output_commitments` need the masked amount of
every ring element and every output; then the signature is verified. -/
def validateSignature (blockVersion : BlockVersion) (tx : Tx α H R Sig) :
    TransactionValidationResult SE IE Unit := do
  tx.txPrefix.inputs.forM fun input => input.ring.forM fun txOut => do
    let _ ← getMaskedTokenId p txOut
  tx.txPrefix.outputs.forM fun txOut => do
    let _ ← getMaskedTokenId p txOut
  (p.verifySignature blockVersion tx).mapError .invalidTransactionSignature

def validateTransactionFee (tx : Tx α H R Sig) (minimumFee : UInt64) :
    TransactionValidationResult SE IE Unit :=
  if tx.txPrefix.fee < minimumFee then throw .txFeeError else pure ()

def validateKeyImagesAreUnique [DecidableEq KI] (tx : Tx α H R Sig) :
    TransactionValidationResult SE IE Unit :=
  checkUnique (p.keyImages tx.signature) .duplicateKeyImages

def validateOutputsPublicKeysAreUnique [DecidableEq K] (tx : Tx α H R Sig) :
    TransactionValidationResult SE IE Unit :=
  checkUnique (tx.txPrefix.outputs.map p.publicKey) .duplicateOutputPublicKey

def validateThatNoMemoExists (txOut : α) : TransactionValidationResult SE IE Unit :=
  if p.hasMemo txOut then throw .memosNotAllowed else pure ()

def validateMemoExists (txOut : α) : TransactionValidationResult SE IE Unit :=
  if !p.hasMemo txOut then throw .missingMemo else pure ()

def validateThatNoMaskedTokenIdExists (txOut : α) : TransactionValidationResult SE IE Unit := do
  if !(← getMaskedTokenId p txOut).isEmpty then throw .maskedTokenIdNotAllowed

def validateMaskedTokenIdExists (txOut : α) : TransactionValidationResult SE IE Unit := do
  if (← getMaskedTokenId p txOut).length ≠ TOKEN_ID_NUM_BYTES then throw .missingMaskedTokenId

/-- `validate_tx_out`: memos from v1, masked token ids from v2, and none before. -/
def validateTxOut (blockVersion : BlockVersion) (txOut : α) :
    TransactionValidationResult SE IE Unit := do
  if blockVersion.eMemoFeatureIsSupported then validateMemoExists p txOut
  else validateThatNoMemoExists p txOut
  if blockVersion.maskedTokenIdFeatureIsSupported then validateMaskedTokenIdExists p txOut
  else validateThatNoMaskedTokenIdExists p txOut

def validateAllInputRules (blockVersion : BlockVersion) (tx : Tx α H R Sig) :
    TransactionValidationResult SE IE Unit :=
  tx.txPrefix.inputs.forM fun input =>
    match input.inputRules with
    | some rules => (p.verifyInputRules rules blockVersion tx).mapError .inputRule
    | none => pure ()

end Primitives

def validateThatNoInputRulesExist (tx : Tx α H R Sig) : TransactionValidationResult SE IE Unit :=
  tx.txPrefix.inputs.forM fun input =>
    if input.inputRules.isSome then throw .inputRulesNotAllowed else pure ()

/-- `validate_tombstone`: the tombstone block is ahead of the block being built, by at most
`MAX_TOMBSTONE_BLOCKS` (a `u64` sum). -/
def validateTombstone (currentBlockIndex tombstoneBlockIndex : UInt64) :
    TransactionValidationResult SE IE Unit := do
  if currentBlockIndex ≥ tombstoneBlockIndex then throw .tombstoneBlockExceeded
  let limit := currentBlockIndex + MAX_TOMBSTONE_BLOCKS
  if tombstoneBlockIndex > limit then throw .tombstoneBlockTooFar

/-! ### `validate` -/

variable [DecidableEq α] [LinearOrder K] [DecidableEq H] [DecidableEq KI]

def validate (p : Primitives α K H R Sig KI SE IE) (tx : Tx α H R Sig) (currentBlockIndex : UInt64)
    (blockVersion : BlockVersion) (rootProofs : List (TxOutMembershipProof H))
    (minimumFee : UInt64) : TransactionValidationResult SE IE Unit := do
  if BlockVersion.MAX.val < blockVersion.val then
    throw (.ledger ("Invalid block version: " ++ toString blockVersion.val))
  validateNumberOfInputs tx.txPrefix MAX_INPUTS
  validateNumberOfOutputs tx.txPrefix MAX_OUTPUTS
  validateRingSizes tx.txPrefix RING_SIZE
  validateRingElementsAreUnique tx.txPrefix
  validateRingElementsAreSorted p.publicKey tx.txPrefix
  validateInputsAreSorted p.publicKey tx.txPrefix
  validateMembershipProofs p.hasher tx.txPrefix rootProofs
  validateSignature p blockVersion tx
  validateTransactionFee tx minimumFee
  validateKeyImagesAreUnique p tx
  validateOutputsPublicKeysAreUnique p tx
  validateTombstone currentBlockIndex tx.txPrefix.tombstoneBlock
  -- the key images spent before are the ledger's to check, outside the enclave
  tx.txPrefix.outputs.forM (validateTxOut p blockVersion)
  if blockVersion.validateTransactionOutputsAreSorted then
    validateOutputsAreSorted p.publicKey tx.txPrefix
  if blockVersion.signedInputRulesAreSupported then validateAllInputRules p blockVersion tx
  else validateThatNoInputRulesExist tx

end MobileCoin.Validation
