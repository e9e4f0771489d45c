import Mathlib
import MobileCoin.Digestible.Transcript
import MobileCoin.TxSummary.Report

/-!
# The TxSummary streaming verifier

`TxSummaryStreamingVerifier` lets a hardware wallet take a `TxSummary` and its unblinding data
one output and one input at a time. It checks each output and input against its unblinding
data, adds its value to the report under the party it belongs to, and writes the `TxSummary`
into a merlin transcript by hand: the aggregate header and the `outputs` sequence header in
`new`, each output, the `inputs` sequence header after the last output, each input, and the
three `u64` fields and the closer in `finalize`.

The cryptography the verifier calls is a structure of functions (`Crypto`), and merlin's digest
of a transcript is `extractDigest`. The derived `Digestible` impls of `TxOutSummary` and
`TxInSummary` are parameters.

`verifyTxSummary_digest` gives the transcript a successful run digests, and
`verifyTxSummary_balances` the report it returns: every output and input changes the balance of
the party it was attributed to by its value, once.
-/

namespace MobileCoin.TxSummaryUnblinding

open Digestible Util

/-! ### Data -/

structure TxOutSummary (K M : Type) where
  maskedAmount : Option M
  targetKey : K
  publicKey : K
  associatedToInputRules : Bool
  deriving DecidableEq, Repr

structure TxInSummary (C : Type) where
  pseudoOutputCommitment : C
  inputRulesDigest : Bytes
  deriving DecidableEq, Repr

structure TxSummary (K M C : Type) where
  outputs : List (TxOutSummary K M)
  inputs : List (TxInSummary C)
  fee : UInt64
  feeTokenId : UInt64
  tombstoneBlock : UInt64

structure UnmaskedAmount (S : Type) where
  value : UInt64
  tokenId : UInt64
  blinding : S

structure TxOutSummaryUnblindingData (S Addr : Type) where
  unmaskedAmount : UnmaskedAmount S
  address : Option Addr
  txPrivateKey : Option S

structure TxSummaryUnblindingData (S Addr : Type) where
  blockVersion : UInt32
  outputs : List (TxOutSummaryUnblindingData S Addr)
  inputs : List (UnmaskedAmount S)

/-- The key and amount cryptography the verifier calls, over compressed keys `K`, masked amounts
`M`, compressed commitments `C`, decompressed points `R`, scalars and private keys `S`, public
addresses `Addr` and short address hashes `A`. -/
structure Crypto (K M C R S Addr A : Type) where
  /-- `RistrettoPublic::try_from(&CompressedRistrettoPublic)`. -/
  decompress : K → Except KeyError R
  getTxOutSharedSecret : S → R → R
  /-- `MaskedAmount::get_value(shared_secret)`, without the blinding it also returns. -/
  getValue : M → R → Except AmountError Amount
  createTxOutTargetKey : S → Addr → K
  /-- `create_tx_out_public_key(tx_private_key, recipient.spend_public_key())`. -/
  createTxOutPublicKey : S → Addr → K
  /-- `create_shared_secret(recipient.view_public_key(), tx_private_key)`. -/
  createSharedSecret : Addr → S → R
  maskedAmountNew : BlockVersion → Amount → R → Except AmountError M
  commitment : M → C
  /-- `CompressedCommitment::new(value, blinding, &generators(token_id))`. -/
  compressedCommitmentNew : UInt64 → S → UInt64 → C
  shortAddressHash : Addr → A

/-! ### Transcript labels -/

def EXTENDED_MESSAGE_AND_TX_SUMMARY_DOMAIN_TAG : Bytes :=
  [0x6d, 0x63, 0x5f, 0x65, 0x78, 0x74, 0x65, 0x6e, 0x64, 0x65, 0x64, 0x5f, 0x6d, 0x65, 0x73, 0x73,
    0x61, 0x67, 0x65, 0x5f, 0x61, 0x6e, 0x64, 0x5f, 0x74, 0x78, 0x5f, 0x73, 0x75, 0x6d, 0x6d, 0x61,
    0x72, 0x79]

def domSepLabel : Bytes := [0x64, 0x6f, 0x6d, 0x2d, 0x73, 0x65, 0x70]

def extendedMessageLabel : Bytes :=
  [0x65, 0x78, 0x74, 0x65, 0x6e, 0x64, 0x65, 0x64, 0x5f, 0x6d, 0x65, 0x73, 0x73, 0x61, 0x67, 0x65]

def txSummaryLabel : Bytes := [0x74, 0x78, 0x5f, 0x73, 0x75, 0x6d, 0x6d, 0x61, 0x72, 0x79]

def txSummaryName : Bytes := [0x54, 0x78, 0x53, 0x75, 0x6d, 0x6d, 0x61, 0x72, 0x79]

def outputsLabel : Bytes := [0x6f, 0x75, 0x74, 0x70, 0x75, 0x74, 0x73]

def inputsLabel : Bytes := [0x69, 0x6e, 0x70, 0x75, 0x74, 0x73]

def feeLabel : Bytes := [0x66, 0x65, 0x65]

def feeTokenIdLabel : Bytes := [0x66, 0x65, 0x65, 0x5f, 0x74, 0x6f, 0x6b, 0x65, 0x6e, 0x5f, 0x69, 0x64]

def tombstoneBlockLabel : Bytes :=
  [0x74, 0x6f, 0x6d, 0x62, 0x73, 0x74, 0x6f, 0x6e, 0x65, 0x5f, 0x62, 0x6c, 0x6f, 0x63, 0x6b]

/-- merlin's `Transcript::new(label)`, which appends the label under `dom-sep`. -/
def merlinNew (label : Bytes) : Transcript := [(domSepLabel, label)]

/-- The transcript before the `TxSummary`, the same in the verifier and in
`compute_mlsag_signing_digest`: the domain tag, then the extended message digest. -/
def extendedMessageTranscript (extendedMessageDigest : Bytes) : Transcript :=
  merlinNew EXTENDED_MESSAGE_AND_TX_SUMMARY_DOMAIN_TAG ++
    bytesAppend extendedMessageLabel extendedMessageDigest

/-- The `TxSummary` fields after the two lists, and its closer. -/
def feeFieldsAndCloser (fee feeTokenId tombstoneBlock : UInt64) : Transcript :=
  u64Append feeLabel fee ++ u64Append feeTokenIdLabel feeTokenId ++
    u64Append tombstoneBlockLabel tombstoneBlock ++ appendAggCloser txSummaryLabel txSummaryName

/-! ### The verifier -/

structure TxSummaryStreamingVerifier (S A : Type) where
  viewPrivateKey : S
  blockVersion : BlockVersion
  transcript : Transcript
  report : TxSummaryUnblindingReport A
  expectedNumOutputs : Nat
  expectedNumInputs : Nat
  outputCount : Nat
  inputCount : Nat

variable {K M C R S Addr A : Type}

namespace TxSummaryStreamingVerifier

def new (extendedMessageDigest : Bytes) (blockVersion : BlockVersion)
    (expectedNumOutputs expectedNumInputs : Nat) (viewPrivateKey : S) :
    TxSummaryStreamingVerifier S A where
  viewPrivateKey
  blockVersion
  transcript := extendedMessageTranscript extendedMessageDigest ++
    appendAggHeader txSummaryLabel txSummaryName ++ appendSeqHeader outputsLabel expectedNumOutputs
  report := default
  expectedNumOutputs
  expectedNumInputs
  outputCount := 0
  inputCount := 0

section Steps

variable [DecidableEq K] [DecidableEq M] [DecidableEq C] [DecidableEq A]
  (crypto : Crypto K M C R S Addr A)
  (appendTxOutSummary : Bytes → TxOutSummary K M → Transcript)
  (appendTxInSummary : Bytes → TxInSummary C → Transcript)

/-- `view_key_match`, which reads only the verifier's view private key: the amount when the
output is to one of our subaddresses, `none` when the amount does not open under our key. -/
def viewKeyMatch (viewPrivateKey : S) (txOutSummary : TxOutSummary K M) :
    Except Error (Option Amount) := do
  let publicKey ← (crypto.decompress txOutSummary.publicKey).mapError .key
  let txOutSharedSecret := crypto.getTxOutSharedSecret viewPrivateKey publicKey
  let maskedAmount ← okOr txOutSummary.maskedAmount .missingMaskedAmount
  match crypto.getValue maskedAmount txOutSharedSecret with
  | .ok amount => pure (some amount)
  | .error .inconsistentCommitment => pure none
  | .error err => throw (.amount err)

/-- `expected_tx_out_summary`: the summary of the output `TxOut::new` makes for the recipient. -/
def expectedTxOutSummary (blockVersion : BlockVersion) (amount : Amount) (recipient : Addr)
    (txPrivateKey : S) : Except Error (TxOutSummary K M) := do
  let targetKey := crypto.createTxOutTargetKey txPrivateKey recipient
  let publicKey := crypto.createTxOutPublicKey txPrivateKey recipient
  let sharedSecret := crypto.createSharedSecret recipient txPrivateKey
  let maskedAmount ← (crypto.maskedAmountNew blockVersion amount sharedSecret).mapError .amount
  pure { targetKey, publicKey, maskedAmount := some maskedAmount, associatedToInputRules := false }

/-- The recipient check of `digest_output`: each of its three branches ends in `balance_add`,
with the party and amount returned here. -/
def outputRecipient (viewPrivateKey : S) (blockVersion : BlockVersion)
    (txOutSummary : TxOutSummary K M) (unblindingData : TxOutSummaryUnblindingData S Addr) :
    Except Error (TransactionEntity A × Amount) := do
  match ← viewKeyMatch crypto viewPrivateKey txOutSummary with
  | some amount => pure (.ourself, amount)
  | none =>
    match unblindingData.address with
    | some address =>
      let amount : Amount :=
        ⟨unblindingData.unmaskedAmount.value, unblindingData.unmaskedAmount.tokenId⟩
      let txPrivateKey ← okOr unblindingData.txPrivateKey .missingTxPrivateKey
      let expected ← expectedTxOutSummary crypto blockVersion amount address txPrivateKey
      if expected = txOutSummary then pure (.address (crypto.shortAddressHash address), amount)
      else throw .addressVerificationFailed
    | none =>
      if !txOutSummary.associatedToInputRules then
        throw .missingDataRequiredToVerifyTxOutRecipient
      else do
        let value := unblindingData.unmaskedAmount.value
        let tokenId := unblindingData.unmaskedAmount.tokenId
        let expectedCommitment :=
          crypto.compressedCommitmentNew value unblindingData.unmaskedAmount.blinding tokenId
        let maskedAmount ← okOr txOutSummary.maskedAmount .missingMaskedAmount
        if expectedCommitment ≠ crypto.commitment maskedAmount then
          throw .amountVerificationFailed
        else pure (.swap, ⟨value, tokenId⟩)

/-- An input with input rules is a swap counterparty's, one without is ours. -/
def inputEntity (txInSummary : TxInSummary C) : TransactionEntity A :=
  if txInSummary.inputRulesDigest.isEmpty then .ourself else .swap

def digestOutput (self : TxSummaryStreamingVerifier S A) (txOutSummary : TxOutSummary K M)
    (unblindingData : TxOutSummaryUnblindingData S Addr) :
    Except Error (TxSummaryStreamingVerifier S A) :=
  if self.outputCount ≥ self.expectedNumOutputs then throw .unexpectedOutput
  else do
    let (entity, amount) ←
      outputRecipient crypto self.viewPrivateKey self.blockVersion txOutSummary unblindingData
    let report ← self.report.balanceAdd entity amount.tokenId amount.value
    let outputCount := self.outputCount + 1
    let inputsHeader :=
      if outputCount = self.expectedNumOutputs then
        appendSeqHeader inputsLabel self.expectedNumInputs
      else []
    pure { self with
      report
      transcript := self.transcript ++ appendTxOutSummary [] txOutSummary ++ inputsHeader
      outputCount }

def digestInput (self : TxSummaryStreamingVerifier S A) (txInSummary : TxInSummary C)
    (unblindingData : UnmaskedAmount S) : Except Error (TxSummaryStreamingVerifier S A) :=
  if self.outputCount ≠ self.expectedNumOutputs then throw .stillExpectingMoreOutputs
  else if self.inputCount ≥ self.expectedNumInputs then throw .unexpectedInput
  else
    let expectedCommitment := crypto.compressedCommitmentNew unblindingData.value
      unblindingData.blinding unblindingData.tokenId
    if expectedCommitment ≠ txInSummary.pseudoOutputCommitment then throw .amountVerificationFailed
    else do
      let report ← self.report.balanceSubtract (inputEntity txInSummary) unblindingData.tokenId
        unblindingData.value
      pure { self with
        report
        transcript := self.transcript ++ appendTxInSummary [] txInSummary
        inputCount := self.inputCount + 1 }

omit [DecidableEq A] in
/-- The three ways `digest_output` establishes the recipient of an output: the output opens under
our view key, and is ours with the amount it reveals; or the unblinding data names an address and
a tx private key from which the output is rebuilt exactly, and it is that address's with the
unblinded amount; or it belongs to an input with rules and its commitment opens to the unblinded
amount, and it is the swap counterparty's. -/
theorem outputRecipient_ok {viewPrivateKey : S} {blockVersion : BlockVersion}
    {txOutSummary : TxOutSummary K M} {unblindingData : TxOutSummaryUnblindingData S Addr}
    {entity : TransactionEntity A} {amount : Amount}
    (ok : outputRecipient crypto viewPrivateKey blockVersion txOutSummary unblindingData =
      .ok (entity, amount)) :
    (viewKeyMatch crypto viewPrivateKey txOutSummary = .ok (some amount) ∧ entity = .ourself) ∨
    (viewKeyMatch crypto viewPrivateKey txOutSummary = .ok none ∧
      amount = ⟨unblindingData.unmaskedAmount.value, unblindingData.unmaskedAmount.tokenId⟩ ∧
      ∃ address txPrivateKey, unblindingData.address = some address ∧
        unblindingData.txPrivateKey = some txPrivateKey ∧
        expectedTxOutSummary crypto blockVersion amount address txPrivateKey = .ok txOutSummary ∧
        entity = .address (crypto.shortAddressHash address)) ∨
    (viewKeyMatch crypto viewPrivateKey txOutSummary = .ok none ∧
      amount = ⟨unblindingData.unmaskedAmount.value, unblindingData.unmaskedAmount.tokenId⟩ ∧
      unblindingData.address = none ∧ txOutSummary.associatedToInputRules = true ∧
      ∃ maskedAmount, txOutSummary.maskedAmount = some maskedAmount ∧
        crypto.compressedCommitmentNew amount.value unblindingData.unmaskedAmount.blinding
          amount.tokenId = crypto.commitment maskedAmount ∧
        entity = .swap) := by
  unfold outputRecipient at ok
  obtain ⟨matched, viewed, ok⟩ := bind_ok ok
  cases matched with
  | some revealed =>
    simp only [pure_eq_ok, Except.ok.injEq, Prod.mk.injEq] at ok
    obtain ⟨rfl, rfl⟩ := ok
    exact .inl ⟨viewed, rfl⟩
  | none =>
    dsimp only at ok
    cases named : unblindingData.address with
    | some address =>
      simp only [named] at ok
      obtain ⟨txPrivateKey, keyed, ok⟩ := bind_ok ok
      obtain ⟨expected, built, ok⟩ := bind_ok ok
      split_ifs at ok with rebuilt
      simp only [pure_eq_ok, Except.ok.injEq, Prod.mk.injEq] at ok
      obtain ⟨rfl, rfl⟩ := ok
      subst rebuilt
      exact .inr (.inl ⟨viewed, rfl, address, txPrivateKey, rfl, okOr_eq_ok.mp keyed, built, rfl⟩)
    | none =>
      simp only [named, Bool.not_eq_true', ite_throw_eq_ok, Bool.not_eq_false] at ok
      obtain ⟨associated, ok⟩ := ok
      obtain ⟨maskedAmount, masked, ok⟩ := bind_ok ok
      simp only [ite_throw_eq_ok, ne_eq, not_not, pure_eq_ok, Except.ok.injEq, Prod.mk.injEq] at ok
      obtain ⟨opened, rfl, rfl⟩ := ok
      exact .inr (.inr ⟨viewed, rfl, rfl, associated, maskedAmount, okOr_eq_ok.mp masked, opened,
        rfl⟩)

/-- What a successful `digest_output` does: the output is checked, its value added to the
report under its recipient, and the output, with the `inputs` header after the last one,
appended to the transcript. -/
theorem digestOutput_ok {self self' : TxSummaryStreamingVerifier S A} {txOutSummary : TxOutSummary K M}
    {unblindingData : TxOutSummaryUnblindingData S Addr}
    (ok : self.digestOutput crypto appendTxOutSummary txOutSummary unblindingData = .ok self') :
    self.outputCount < self.expectedNumOutputs ∧
      ∃ recipient report,
        outputRecipient crypto self.viewPrivateKey self.blockVersion txOutSummary unblindingData =
          .ok recipient ∧
        self.report.balanceAdd recipient.1 recipient.2.tokenId recipient.2.value = .ok report ∧
        self' = { self with
          report
          transcript := self.transcript ++ appendTxOutSummary [] txOutSummary ++
            if self.outputCount + 1 = self.expectedNumOutputs then
              appendSeqHeader inputsLabel self.expectedNumInputs
            else []
          outputCount := self.outputCount + 1 } := by
  unfold digestOutput at ok
  rw [ite_throw_eq_ok] at ok
  obtain ⟨room, ok⟩ := ok
  obtain ⟨⟨entity, amount⟩, recipient, ok⟩ := bind_ok ok
  obtain ⟨report, added, ok⟩ := bind_ok ok
  rw [pure_eq_ok, Except.ok.injEq] at ok
  exact ⟨by omega, (entity, amount), report, recipient, added, ok.symm⟩

omit [DecidableEq K] [DecidableEq M] in
/-- What a successful `digest_input` does: all outputs are in, the input's commitment opens to
its unblinding data, whose value is subtracted from the report, and the input is appended to the
transcript. -/
theorem digestInput_ok {self self' : TxSummaryStreamingVerifier S A} {txInSummary : TxInSummary C}
    {unblindingData : UnmaskedAmount S}
    (ok : self.digestInput crypto appendTxInSummary txInSummary unblindingData = .ok self') :
    self.outputCount = self.expectedNumOutputs ∧ self.inputCount < self.expectedNumInputs ∧
      crypto.compressedCommitmentNew unblindingData.value unblindingData.blinding
        unblindingData.tokenId = txInSummary.pseudoOutputCommitment ∧
      ∃ report,
        self.report.balanceSubtract (inputEntity txInSummary) unblindingData.tokenId
          unblindingData.value = .ok report ∧
        self' = { self with
          report
          transcript := self.transcript ++ appendTxInSummary [] txInSummary
          inputCount := self.inputCount + 1 } := by
  unfold digestInput at ok
  simp only [ite_throw_eq_ok, ne_eq, not_not] at ok
  obtain ⟨waiting, room, opened, ok⟩ := ok
  obtain ⟨report, subtracted, ok⟩ := bind_ok ok
  rw [pure_eq_ok, Except.ok.injEq] at ok
  exact ⟨waiting, by omega, opened, report, subtracted, ok.symm⟩

/-- A run of `digest_output` over some outputs appends them, and the `inputs` header when the
last expected output is among them. -/
theorem foldlM_digestOutput_ok :
    ∀ {pairs : List (TxOutSummary K M × TxOutSummaryUnblindingData S Addr)}
      {self self' : TxSummaryStreamingVerifier S A},
    pairs.foldlM (fun v pair => v.digestOutput crypto appendTxOutSummary pair.1 pair.2) self =
        .ok self' →
      pairs.length ≤ self.expectedNumOutputs - self.outputCount ∧
      ∃ report, self' = { self with
        report
        transcript := self.transcript ++ pairs.flatMap (fun pair => appendTxOutSummary [] pair.1) ++
          if 0 < pairs.length ∧ self.outputCount + pairs.length = self.expectedNumOutputs then
            appendSeqHeader inputsLabel self.expectedNumInputs
          else []
        outputCount := self.outputCount + pairs.length }
  | [], self, self', ok => by
    rw [List.foldlM_nil, pure_eq_ok, Except.ok.injEq] at ok
    subst ok
    exact ⟨by simp, self.report, by simp⟩
  | pair :: rest, self, self', ok => by
    obtain ⟨mid, first, later⟩ := foldlM_cons_ok.mp ok
    obtain ⟨room, -, report, -, -, rfl⟩ := digestOutput_ok crypto appendTxOutSummary first
    obtain ⟨fits, report', rfl⟩ := foldlM_digestOutput_ok later
    dsimp only at fits ⊢
    refine ⟨by simp only [List.length_cons]; omega, report', ?_⟩
    rw [List.flatMap_cons, List.length_cons]
    rcases Nat.eq_zero_or_pos rest.length with last | more
    · rw [List.eq_nil_of_length_eq_zero last]
      simp
    · have notYet : self.outputCount + 1 ≠ self.expectedNumOutputs := by omega
      simp only [notYet, if_false, List.append_nil, List.append_assoc, Nat.add_assoc,
        Nat.add_comm 1 rest.length, more, true_and, Nat.succ_pos]

omit [DecidableEq K] [DecidableEq M] in
theorem foldlM_digestInput_ok :
    ∀ {pairs : List (TxInSummary C × UnmaskedAmount S)} {self self' : TxSummaryStreamingVerifier S A},
    pairs.foldlM (fun v pair => v.digestInput crypto appendTxInSummary pair.1 pair.2) self =
        .ok self' →
      ∃ report, self' = { self with
        report
        transcript := self.transcript ++ pairs.flatMap (fun pair => appendTxInSummary [] pair.1)
        inputCount := self.inputCount + pairs.length }
  | [], self, self', ok => by
    rw [List.foldlM_nil, pure_eq_ok, Except.ok.injEq] at ok
    subst ok
    exact ⟨self.report, by simp⟩
  | pair :: rest, self, self', ok => by
    obtain ⟨mid, first, later⟩ := foldlM_cons_ok.mp ok
    obtain ⟨-, -, -, report, -, rfl⟩ := digestInput_ok crypto appendTxInSummary first
    obtain ⟨report', rfl⟩ := foldlM_digestInput_ok later
    refine ⟨report', ?_⟩
    simp only [List.flatMap_cons, List.length_cons, List.append_assoc, Nat.add_assoc,
      Nat.add_comm 1 rest.length]

/-- The balance change a verified output makes. -/
def outputChange (recipient : TransactionEntity A × Amount) : TxSummaryUnblindingReport.Change A :=
  ((recipient.1, recipient.2.tokenId), recipient.2.value.toNat)

/-- The balance change a verified input makes. -/
def inputChange (pair : TxInSummary C × UnmaskedAmount S) : TxSummaryUnblindingReport.Change A :=
  ((inputEntity pair.1, pair.2.tokenId), -(pair.2.value.toNat : Int))

open TxSummaryUnblindingReport in
/-- A run of `digest_output` checks the recipient of every output and adds each output's value
to its recipient's balance. -/
theorem foldlM_digestOutput_applied :
    ∀ {pairs : List (TxOutSummary K M × TxOutSummaryUnblindingData S Addr)}
      {self self' : TxSummaryStreamingVerifier S A},
    self.report.balanceChanges.Distinct →
    pairs.foldlM (fun v pair => v.digestOutput crypto appendTxOutSummary pair.1 pair.2) self =
        .ok self' →
      ∃ recipients, pairs.mapM (fun pair =>
          outputRecipient crypto self.viewPrivateKey self.blockVersion pair.1 pair.2) = .ok recipients ∧
        Applied self.report self'.report (recipients.map outputChange)
  | [], self, self', distinct, ok => by
    rw [List.foldlM_nil, pure_eq_ok, Except.ok.injEq] at ok
    subst ok
    exact ⟨[], rfl, Applied.refl distinct⟩
  | pair :: rest, self, self', distinct, ok => by
    obtain ⟨mid, first, later⟩ := foldlM_cons_ok.mp ok
    obtain ⟨-, recipient, report, checked, added, rfl⟩ := digestOutput_ok crypto appendTxOutSummary first
    have applied := balanceAdd_applied distinct added
    obtain ⟨recipients, checkedRest, appliedRest⟩ := foldlM_digestOutput_applied applied.distinct later
    refine ⟨recipient :: recipients, ?_, applied.trans appliedRest⟩
    rw [List.mapM_cons, checked, ok_bind, checkedRest, ok_bind, pure_eq_ok]

omit [DecidableEq K] [DecidableEq M] in
open TxSummaryUnblindingReport in
theorem foldlM_digestInput_applied :
    ∀ {pairs : List (TxInSummary C × UnmaskedAmount S)} {self self' : TxSummaryStreamingVerifier S A},
    self.report.balanceChanges.Distinct →
    pairs.foldlM (fun v pair => v.digestInput crypto appendTxInSummary pair.1 pair.2) self =
        .ok self' →
      Applied self.report self'.report (pairs.map inputChange)
  | [], self, self', distinct, ok => by
    rw [List.foldlM_nil, pure_eq_ok, Except.ok.injEq] at ok
    subst ok
    exact Applied.refl distinct
  | pair :: rest, self, self', distinct, ok => by
    obtain ⟨mid, first, later⟩ := foldlM_cons_ok.mp ok
    obtain ⟨-, -, -, report, subtracted, rfl⟩ := digestInput_ok crypto appendTxInSummary first
    have applied := balanceSubtract_applied distinct subtracted
    exact applied.trans (foldlM_digestInput_applied applied.distinct later)

end Steps

def finalize [Ord A] (extractDigest : Transcript → Bytes) (self : TxSummaryStreamingVerifier S A)
    (fee : Amount) (tombstoneBlock : UInt64) : Bytes × TxSummaryUnblindingReport A :=
  let report := { self.report with networkFee := fee, tombstoneBlock }.sort
  let transcript := self.transcript ++ feeFieldsAndCloser fee.value fee.tokenId tombstoneBlock
  (extractDigest transcript, report)

end TxSummaryStreamingVerifier

open TxSummaryStreamingVerifier

theorem flatMap_zip_fst {α β γ : Type} {l : List α} {l' : List β} (f : α → List γ)
    (same : l.length = l'.length) : (l.zip l').flatMap (fun pair => f pair.1) = l.flatMap f := by
  rw [← List.flatMap_map Prod.fst, List.map_fst_zip same.le]

section Verify

variable [DecidableEq K] [DecidableEq M] [DecidableEq C] [DecidableEq A] [Ord A]
  (crypto : Crypto K M C R S Addr A)
  (appendTxOutSummary : Bytes → TxOutSummary K M → Transcript)
  (appendTxInSummary : Bytes → TxInSummary C → Transcript)
  (extractDigest : Transcript → Bytes)

/-- `verify_tx_summary`: the streaming verifier run over a whole `TxSummary`. -/
def verifyTxSummary (extendedMessageDigest : Bytes) (txSummary : TxSummary K M C)
    (unblindingData : TxSummaryUnblindingData S Addr) (viewPrivateKey : S) :
    Except Error (Bytes × TxSummaryUnblindingReport A) := do
  let blockVersion ← (BlockVersion.tryFrom unblindingData.blockVersion).mapError .blockVersion
  let verifier := new extendedMessageDigest blockVersion txSummary.outputs.length
    txSummary.inputs.length viewPrivateKey
  let outputs ← zipExact txSummary.outputs unblindingData.outputs
  let verifier ← outputs.foldlM
    (fun v pair => v.digestOutput crypto appendTxOutSummary pair.1 pair.2) verifier
  let inputs ← zipExact txSummary.inputs unblindingData.inputs
  let verifier ← inputs.foldlM
    (fun v pair => v.digestInput crypto appendTxInSummary pair.1 pair.2) verifier
  pure (verifier.finalize extractDigest ⟨txSummary.fee, txSummary.feeTokenId⟩ txSummary.tombstoneBlock)

omit [DecidableEq K] [DecidableEq M] [DecidableEq C] [DecidableEq A] [Ord A] in
/-- The transcript a successful run of the verifier digests, read off `new`, `digest_output`,
`digest_input` and `finalize`. -/
def streamedTranscript (extendedMessageDigest : Bytes) (txSummary : TxSummary K M C) : Transcript :=
  extendedMessageTranscript extendedMessageDigest ++ appendAggHeader txSummaryLabel txSummaryName ++
    appendSeqHeader outputsLabel txSummary.outputs.length ++
    txSummary.outputs.flatMap (appendTxOutSummary []) ++
    (if txSummary.outputs.isEmpty then [] else appendSeqHeader inputsLabel txSummary.inputs.length) ++
    txSummary.inputs.flatMap (appendTxInSummary []) ++
    feeFieldsAndCloser txSummary.fee txSummary.feeTokenId txSummary.tombstoneBlock

/-- The shape of a successful `verify_tx_summary`: the block version is supported, the
unblinding data has one entry per output and per input, and the verifier runs over them from
`new`. -/
theorem verifyTxSummary_ok {extendedMessageDigest : Bytes} {txSummary : TxSummary K M C}
    {unblindingData : TxSummaryUnblindingData S Addr} {viewPrivateKey : S} {digest : Bytes}
    {report : TxSummaryUnblindingReport A}
    (ok : verifyTxSummary crypto appendTxOutSummary appendTxInSummary extractDigest
      extendedMessageDigest txSummary unblindingData viewPrivateKey = .ok (digest, report)) :
    ∃ afterOutputs afterInputs,
      unblindingData.blockVersion ≤ BlockVersion.MAX.val ∧
      txSummary.outputs.length = unblindingData.outputs.length ∧
      txSummary.inputs.length = unblindingData.inputs.length ∧
      (txSummary.outputs.zip unblindingData.outputs).foldlM
        (fun v pair => v.digestOutput crypto appendTxOutSummary pair.1 pair.2)
        (new extendedMessageDigest ⟨unblindingData.blockVersion⟩ txSummary.outputs.length
          txSummary.inputs.length viewPrivateKey) = .ok afterOutputs ∧
      (txSummary.inputs.zip unblindingData.inputs).foldlM
        (fun v pair => v.digestInput crypto appendTxInSummary pair.1 pair.2) afterOutputs =
          .ok afterInputs ∧
      afterInputs.finalize extractDigest ⟨txSummary.fee, txSummary.feeTokenId⟩
        txSummary.tombstoneBlock = (digest, report) := by
  unfold verifyTxSummary at ok
  obtain ⟨blockVersion, versioned, ok⟩ := bind_ok ok
  obtain ⟨supported, rfl⟩ := BlockVersion.tryFrom_eq_ok.mp (mapError_eq_ok.mp versioned)
  obtain ⟨outputs, zipped, ok⟩ := bind_ok ok
  obtain ⟨sameOutputs, rfl⟩ := zipExact_eq_ok.mp zipped
  obtain ⟨afterOutputs, outputsRun, ok⟩ := bind_ok ok
  obtain ⟨inputs, zippedInputs, ok⟩ := bind_ok ok
  obtain ⟨sameInputs, rfl⟩ := zipExact_eq_ok.mp zippedInputs
  obtain ⟨afterInputs, inputsRun, ok⟩ := bind_ok ok
  rw [pure_eq_ok, Except.ok.injEq] at ok
  exact ⟨afterOutputs, afterInputs, supported, sameOutputs, sameInputs, outputsRun, inputsRun, ok⟩

theorem verifyTxSummary_digest {extendedMessageDigest : Bytes} {txSummary : TxSummary K M C}
    {unblindingData : TxSummaryUnblindingData S Addr} {viewPrivateKey : S} {digest : Bytes}
    {report : TxSummaryUnblindingReport A}
    (ok : verifyTxSummary crypto appendTxOutSummary appendTxInSummary extractDigest
      extendedMessageDigest txSummary unblindingData viewPrivateKey = .ok (digest, report)) :
    digest = extractDigest
      (streamedTranscript appendTxOutSummary appendTxInSummary extendedMessageDigest txSummary) := by
  obtain ⟨afterOutputs, afterInputs, -, sameOutputs, sameInputs, outputsRun, inputsRun, finalized⟩ :=
    verifyTxSummary_ok crypto appendTxOutSummary appendTxInSummary extractDigest ok
  obtain ⟨-, _, rfl⟩ := foldlM_digestOutput_ok crypto appendTxOutSummary outputsRun
  obtain ⟨_, rfl⟩ := foldlM_digestInput_ok crypto appendTxInSummary inputsRun
  obtain ⟨rfl, -⟩ := Prod.ext_iff.mp finalized
  have header : (0 < (txSummary.outputs.zip unblindingData.outputs).length ∧
      0 + (txSummary.outputs.zip unblindingData.outputs).length = txSummary.outputs.length) ↔
      txSummary.outputs.isEmpty = false := by
    rw [List.length_zip, sameOutputs, Nat.min_self, ← sameOutputs, List.isEmpty_eq_false_iff,
      ← List.length_pos_iff]
    omega
  simp only [finalize, new, streamedTranscript, flatMap_zip_fst _ sameOutputs,
    flatMap_zip_fst _ sameInputs, header, List.append_assoc]
  cases txSummary.outputs.isEmpty <;> simp

open TxSummaryUnblindingReport in
/-- The report of a successful `verify_tx_summary`: the recipient of every output was checked,
and each output's value was added to, and each input's value subtracted from, the balance of the
party it was attributed to, once each. The report has a record for exactly the keys with a
change, and the summary's fee and tombstone block. -/
theorem verifyTxSummary_balances {extendedMessageDigest : Bytes} {txSummary : TxSummary K M C}
    {unblindingData : TxSummaryUnblindingData S Addr} {viewPrivateKey : S} {digest : Bytes}
    {report : TxSummaryUnblindingReport A}
    (ok : verifyTxSummary crypto appendTxOutSummary appendTxInSummary extractDigest
      extendedMessageDigest txSummary unblindingData viewPrivateKey = .ok (digest, report)) :
    ∃ recipients,
      (txSummary.outputs.zip unblindingData.outputs).mapM (fun pair =>
          outputRecipient crypto viewPrivateKey ⟨unblindingData.blockVersion⟩ pair.1 pair.2) =
        .ok recipients ∧
      (∀ key, report.balanceOf key = changeOf (recipients.map outputChange ++
        (txSummary.inputs.zip unblindingData.inputs).map inputChange) key) ∧
      (∀ key, key ∈ report.balanceChanges.keys ↔ ∃ change ∈ recipients.map outputChange ++
        (txSummary.inputs.zip unblindingData.inputs).map inputChange, change.1 = key) ∧
      report.networkFee = ⟨txSummary.fee, txSummary.feeTokenId⟩ ∧
      report.tombstoneBlock = txSummary.tombstoneBlock := by
  obtain ⟨afterOutputs, afterInputs, -, -, -, outputsRun, inputsRun, finalized⟩ :=
    verifyTxSummary_ok crypto appendTxOutSummary appendTxInSummary extractDigest ok
  obtain ⟨-, rfl⟩ := Prod.ext_iff.mp finalized
  obtain ⟨recipients, checked, outputsApplied⟩ :=
    foldlM_digestOutput_applied crypto appendTxOutSummary VecMap.distinct_default outputsRun
  have applied := outputsApplied.trans
    (foldlM_digestInput_applied crypto appendTxInSummary outputsApplied.distinct inputsRun)
  refine ⟨recipients, checked, fun key => ?_, fun key => ?_, rfl, rfl⟩
  · dsimp only [finalize]
    refine (balanceOf_sort ?_ key).trans ?_
    · exact applied.distinct
    · exact (applied.balanceOf_eq key).trans (by simp [balanceOf, new])
  · dsimp only [finalize, sort]
    rw [VecMap.mem_keys_sort]
    rw [applied.mem_keys key]
    simp [new]

/-- Cryptography over one-point types, under which every check passes. -/
def unitCrypto : Crypto Unit Unit Unit Unit Unit Unit Unit where
  decompress _ := .ok ()
  getTxOutSharedSecret _ _ := ()
  getValue _ _ := .ok ⟨5, 0⟩
  createTxOutTargetKey _ _ := ()
  createTxOutPublicKey _ _ := ()
  createSharedSecret _ _ := ()
  maskedAmountNew _ _ _ := .ok ()
  commitment _ := ()
  compressedCommitmentNew _ _ _ := ()
  shortAddressHash _ := ()

open TxSummaryUnblindingReport in
/-- One output of 5 to ourselves, paid for by one input of ours of 5. -/
theorem verifyTxSummary_balances_one_each :
    let txSummary : TxSummary Unit Unit Unit := ⟨[⟨some (), (), (), false⟩], [⟨(), []⟩], 1, 0, 10⟩
    let unblindingData : TxSummaryUnblindingData Unit Unit :=
      ⟨3, [⟨⟨5, 0, ()⟩, none, none⟩], [⟨5, 0, ()⟩]⟩
    let extractDigest : Transcript → Bytes :=
      fun transcript => transcript.flatMap fun message => message.1 ++ message.2
    ∃ digest report,
      verifyTxSummary unitCrypto (fun _ _ => []) (fun _ _ => []) extractDigest [] txSummary
        unblindingData () = .ok (digest, report) ∧
      ∃ recipients,
        (txSummary.outputs.zip unblindingData.outputs).mapM (fun pair =>
            outputRecipient unitCrypto () ⟨unblindingData.blockVersion⟩ pair.1 pair.2) =
          .ok recipients ∧
        (∀ key, report.balanceOf key = changeOf (recipients.map outputChange ++
          (txSummary.inputs.zip unblindingData.inputs).map inputChange) key) ∧
        (∀ key, key ∈ report.balanceChanges.keys ↔ ∃ change ∈ recipients.map outputChange ++
          (txSummary.inputs.zip unblindingData.inputs).map inputChange, change.1 = key) ∧
        report.networkFee = ⟨txSummary.fee, txSummary.feeTokenId⟩ ∧
        report.tombstoneBlock = txSummary.tombstoneBlock := by
  intro txSummary unblindingData extractDigest
  refine ⟨_, _, rfl, ?_⟩
  exact verifyTxSummary_balances unitCrypto (fun _ _ => []) (fun _ _ => []) extractDigest rfl

end Verify

end MobileCoin.TxSummaryUnblinding
