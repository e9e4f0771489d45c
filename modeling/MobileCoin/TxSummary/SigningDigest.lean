import Mathlib
import MobileCoin.TxSummary.Verifier

/-!
# The signing digest and the streamed digest

From block version 3 `compute_mlsag_signing_digest` signs merlin's digest of the extended
message followed by the `TxSummary` under its derived `Digestible` impl. That impl appends each
field with `append_to_transcript_allow_omit`, which appends nothing for an empty `Vec`. The
streaming verifier appends the `outputs` sequence header whatever the number of outputs, and the
`inputs` header only after the last output.

When the summary has outputs and inputs the two transcripts are the same
(`streamedTranscript_eq_signingTranscript`), so a successful `verify_tx_summary` returns the
signing digest. When either list is empty they differ (`streamedTranscript_ne_signingTranscript`):
after a common prefix the verifier appends a sequence header where the signed transcript has the
next field.
-/

namespace MobileCoin.TxSummaryUnblinding

open Digestible

variable {K M C R S Addr A : Type}

section Digest

variable (appendTxOutSummary : Bytes → TxOutSummary K M → Transcript)
  (appendTxInSummary : Bytes → TxInSummary C → Transcript)
  (extractDigest : Transcript → Bytes)

/-- The derived `Digestible` impl of `TxSummary`: its fields in order, each appended with
`append_to_transcript_allow_omit`, which omits an empty `Vec` and never a `u64`. -/
def txSummaryAppend (context : Bytes) (txSummary : TxSummary K M C) : Transcript :=
  appendAggHeader context txSummaryName ++
    sliceAppendAllowOmit appendTxOutSummary outputsLabel txSummary.outputs ++
    sliceAppendAllowOmit appendTxInSummary inputsLabel txSummary.inputs ++
    u64Append feeLabel txSummary.fee ++ u64Append feeTokenIdLabel txSummary.feeTokenId ++
    u64Append tombstoneBlockLabel txSummary.tombstoneBlock ++ appendAggCloser context txSummaryName

/-- The transcript `compute_mlsag_signing_digest` digests when the block version signs the
`TxSummary`. -/
def signingTranscript (extendedMessage : Bytes) (txSummary : TxSummary K M C) : Transcript :=
  extendedMessageTranscript extendedMessage ++
    txSummaryAppend appendTxOutSummary appendTxInSummary txSummaryLabel txSummary

/-- The digest `compute_mlsag_signing_digest` has the MLSAGs sign, from the extended message
digest and the `TxSummary` it computes from the transaction. -/
def mlsagSigningDigest (blockVersion : BlockVersion) (extendedMessage : Bytes)
    (txSummary : TxSummary K M C) : Bytes :=
  if blockVersion.mlsagsSignExtendedMessageAndTxSummaryDigest then
    extractDigest (signingTranscript appendTxOutSummary appendTxInSummary extendedMessage txSummary)
  else extendedMessage

theorem append_cons_ne {pre : Transcript} {message message' : Bytes × Bytes} (rest rest' : Transcript)
    (differs : message ≠ message') : pre ++ message :: rest ≠ pre ++ message' :: rest' := by
  intro same
  exact differs (List.cons.inj (List.append_cancel_left same)).1

theorem streamedTranscript_eq_signingTranscript {txSummary : TxSummary K M C}
    (outputs : txSummary.outputs ≠ []) (inputs : txSummary.inputs ≠ []) (extendedMessage : Bytes) :
    streamedTranscript appendTxOutSummary appendTxInSummary extendedMessage txSummary =
      signingTranscript appendTxOutSummary appendTxInSummary extendedMessage txSummary := by
  have outputsFull : txSummary.outputs.isEmpty = false := List.isEmpty_eq_false_iff.mpr outputs
  have inputsFull : txSummary.inputs.isEmpty = false := List.isEmpty_eq_false_iff.mpr inputs
  simp [streamedTranscript, signingTranscript, txSummaryAppend, sliceAppendAllowOmit, sliceAppend,
    feeFieldsAndCloser, outputsFull, inputsFull]

/-- With no outputs or no inputs the verifier's transcript is not the signed one. With no
outputs it has the `outputs` header where the signed one has the `inputs` header or the fee;
with outputs but no inputs it has the `inputs` header after them where the signed one has the
fee. -/
theorem streamedTranscript_ne_signingTranscript {txSummary : TxSummary K M C}
    (empty : txSummary.outputs = [] ∨ txSummary.inputs = []) (extendedMessage : Bytes) :
    streamedTranscript appendTxOutSummary appendTxInSummary extendedMessage txSummary ≠
      signingTranscript appendTxOutSummary appendTxInSummary extendedMessage txSummary := by
  obtain ⟨outputs, inputs, fee, feeTokenId, tombstoneBlock⟩ := txSummary
  let head := extendedMessageTranscript extendedMessage ++ appendAggHeader txSummaryLabel txSummaryName
  let fees := feeFieldsAndCloser fee feeTokenId tombstoneBlock
  have feesHead : fees = (feeLabel, PRIMITIVE) :: fees.tail := rfl
  cases outputs with
  | nil =>
    have streamed : streamedTranscript appendTxOutSummary appendTxInSummary extendedMessage
        ⟨[], inputs, fee, feeTokenId, tombstoneBlock⟩ =
        head ++ (outputsLabel, SEQUENCE) :: ((lenLabel, leBytes 8 0) ::
          inputs.flatMap (appendTxInSummary []) ++ fees) := by
      simp [streamedTranscript, head, fees, appendSeqHeader]
    rw [streamed]
    cases inputs with
    | nil =>
      have signed : signingTranscript appendTxOutSummary appendTxInSummary extendedMessage
          ⟨[], [], fee, feeTokenId, tombstoneBlock⟩ = head ++ (feeLabel, PRIMITIVE) :: fees.tail := by
        rw [← feesHead]
        simp [signingTranscript, txSummaryAppend, sliceAppendAllowOmit, head, fees,
          feeFieldsAndCloser]
      rw [signed]
      exact append_cons_ne _ _ (by decide)
    | cons input rest =>
      have signed : signingTranscript appendTxOutSummary appendTxInSummary extendedMessage
          ⟨[], input :: rest, fee, feeTokenId, tombstoneBlock⟩ =
          head ++ (inputsLabel, SEQUENCE) :: ((lenLabel, leBytes 8 (rest.length + 1)) ::
            (input :: rest).flatMap (appendTxInSummary []) ++ fees) := by
        simp [signingTranscript, txSummaryAppend, sliceAppendAllowOmit, sliceAppend, head, fees,
          feeFieldsAndCloser, appendSeqHeader]
      rw [signed]
      exact append_cons_ne _ _ (by decide)
  | cons output more =>
    have noInputs : inputs = [] := empty.resolve_left (List.cons_ne_nil _ _)
    subst noInputs
    let listed := head ++ appendSeqHeader outputsLabel (more.length + 1) ++
      (output :: more).flatMap (appendTxOutSummary [])
    have streamed : streamedTranscript appendTxOutSummary appendTxInSummary extendedMessage
        ⟨output :: more, [], fee, feeTokenId, tombstoneBlock⟩ =
        listed ++ (inputsLabel, SEQUENCE) :: ((lenLabel, leBytes 8 0) :: fees) := by
      simp [streamedTranscript, listed, head, fees, appendSeqHeader]
    have signed : signingTranscript appendTxOutSummary appendTxInSummary extendedMessage
        ⟨output :: more, [], fee, feeTokenId, tombstoneBlock⟩ =
        listed ++ (feeLabel, PRIMITIVE) :: fees.tail := by
      rw [← feesHead]
      simp [signingTranscript, txSummaryAppend, sliceAppendAllowOmit, sliceAppend, listed, head,
        fees, feeFieldsAndCloser]
    rw [streamed, signed]
    exact append_cons_ne _ _ (by decide)

end Digest

section Verify

variable [DecidableEq K] [DecidableEq M] [DecidableEq C] [DecidableEq A] [Ord A]
  (crypto : Crypto K M C R S Addr A)
  (appendTxOutSummary : Bytes → TxOutSummary K M → Transcript)
  (appendTxInSummary : Bytes → TxInSummary C → Transcript)
  (extractDigest : Transcript → Bytes)

/-- When the summary has outputs and inputs, a successful `verify_tx_summary` returns the digest
the MLSAGs sign at a block version that signs the `TxSummary`. -/
theorem verifyTxSummary_eq_mlsagSigningDigest {extendedMessageDigest : Bytes}
    {txSummary : TxSummary K M C} {unblindingData : TxSummaryUnblindingData S Addr}
    {viewPrivateKey : S} {digest : Bytes} {report : TxSummaryUnblindingReport A}
    (ok : verifyTxSummary crypto appendTxOutSummary appendTxInSummary extractDigest
      extendedMessageDigest txSummary unblindingData viewPrivateKey = .ok (digest, report))
    (outputs : txSummary.outputs ≠ []) (inputs : txSummary.inputs ≠ [])
    (signsSummary : BlockVersion.mlsagsSignExtendedMessageAndTxSummaryDigest
      ⟨unblindingData.blockVersion⟩ = true) :
    digest = mlsagSigningDigest appendTxOutSummary appendTxInSummary extractDigest
      ⟨unblindingData.blockVersion⟩ extendedMessageDigest txSummary := by
  rw [verifyTxSummary_digest crypto appendTxOutSummary appendTxInSummary extractDigest ok,
    mlsagSigningDigest, if_pos signsSummary,
    streamedTranscript_eq_signingTranscript appendTxOutSummary appendTxInSummary outputs inputs]

theorem verifyTxSummary_eq_mlsagSigningDigest_one_each :
    let txSummary : TxSummary Unit Unit Unit := ⟨[⟨some (), (), (), false⟩], [⟨(), []⟩], 1, 0, 10⟩
    let unblindingData : TxSummaryUnblindingData Unit Unit :=
      ⟨3, [⟨⟨5, 0, ()⟩, none, none⟩], [⟨5, 0, ()⟩]⟩
    let extractDigest : Transcript → Bytes :=
      fun transcript => transcript.flatMap fun message => message.1 ++ message.2
    ∃ digest report,
      verifyTxSummary unitCrypto (fun _ _ => []) (fun _ _ => []) extractDigest [] txSummary
        unblindingData () = .ok (digest, report) ∧
      txSummary.outputs ≠ [] ∧ txSummary.inputs ≠ [] ∧
      BlockVersion.mlsagsSignExtendedMessageAndTxSummaryDigest ⟨unblindingData.blockVersion⟩ = true ∧
      digest = mlsagSigningDigest (fun _ _ => []) (fun _ _ => []) extractDigest
        ⟨unblindingData.blockVersion⟩ [] txSummary := by
  intro txSummary unblindingData extractDigest
  have outputs : txSummary.outputs ≠ [] := List.cons_ne_nil _ _
  have inputs : txSummary.inputs ≠ [] := List.cons_ne_nil _ _
  have signsSummary : BlockVersion.mlsagsSignExtendedMessageAndTxSummaryDigest
      ⟨unblindingData.blockVersion⟩ = true := by decide
  exact ⟨_, _, rfl, outputs, inputs, signsSummary,
    verifyTxSummary_eq_mlsagSigningDigest unitCrypto _ _ _ rfl outputs inputs signsSummary⟩

/-- When the summary has no outputs or no inputs, a successful `verify_tx_summary` returns a
digest other than the one the MLSAGs sign, unless merlin's digest collides on the two
transcripts. -/
theorem verifyTxSummary_ne_mlsagSigningDigest (injective : Function.Injective extractDigest)
    {extendedMessageDigest : Bytes} {txSummary : TxSummary K M C}
    {unblindingData : TxSummaryUnblindingData S Addr} {viewPrivateKey : S} {digest : Bytes}
    {report : TxSummaryUnblindingReport A}
    (ok : verifyTxSummary crypto appendTxOutSummary appendTxInSummary extractDigest
      extendedMessageDigest txSummary unblindingData viewPrivateKey = .ok (digest, report))
    (empty : txSummary.outputs = [] ∨ txSummary.inputs = [])
    (signsSummary : BlockVersion.mlsagsSignExtendedMessageAndTxSummaryDigest
      ⟨unblindingData.blockVersion⟩ = true) :
    digest ≠ mlsagSigningDigest appendTxOutSummary appendTxInSummary extractDigest
      ⟨unblindingData.blockVersion⟩ extendedMessageDigest txSummary := by
  rw [verifyTxSummary_digest crypto appendTxOutSummary appendTxInSummary extractDigest ok,
    mlsagSigningDigest, if_pos signsSummary, injective.ne_iff]
  exact streamedTranscript_ne_signingTranscript appendTxOutSummary appendTxInSummary empty _

/-- With no outputs and no inputs `verify_tx_summary` succeeds, and returns the digest of the
signed transcript with a sequence header of no outputs added after the `TxSummary` header. -/
theorem verifyTxSummary_empty_digests_extra_header (extendedMessageDigest : Bytes)
    (fee feeTokenId tombstoneBlock : UInt64) (viewPrivateKey : S) :
    (∃ report, verifyTxSummary crypto appendTxOutSummary appendTxInSummary extractDigest
        extendedMessageDigest ⟨[], [], fee, feeTokenId, tombstoneBlock⟩
        ⟨BlockVersion.MAX.val, [], []⟩ viewPrivateKey =
      .ok (extractDigest (extendedMessageTranscript extendedMessageDigest ++
        appendAggHeader txSummaryLabel txSummaryName ++ appendSeqHeader outputsLabel 0 ++
        feeFieldsAndCloser fee feeTokenId tombstoneBlock), report)) ∧
    mlsagSigningDigest appendTxOutSummary appendTxInSummary extractDigest BlockVersion.MAX
        extendedMessageDigest ⟨[], [], fee, feeTokenId, tombstoneBlock⟩ =
      extractDigest (extendedMessageTranscript extendedMessageDigest ++
        appendAggHeader txSummaryLabel txSummaryName ++ feeFieldsAndCloser fee feeTokenId tombstoneBlock) := by
  refine ⟨⟨_, rfl⟩, ?_⟩
  have signsSummary : BlockVersion.MAX.mlsagsSignExtendedMessageAndTxSummaryDigest = true := by
    decide
  simp [mlsagSigningDigest, signsSummary, signingTranscript, txSummaryAppend, sliceAppendAllowOmit,
    feeFieldsAndCloser]

end Verify

end MobileCoin.TxSummaryUnblinding
