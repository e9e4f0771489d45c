import Mathlib

/-!
# Block versions

`mc_transaction_types::BlockVersion` and the features the modelled code asks it about.
-/

namespace MobileCoin

structure BlockVersion where
  val : UInt32
  deriving DecidableEq, Repr

def BlockVersion.eMemoFeatureIsSupported (v : BlockVersion) : Bool := v.val ≥ 1

def BlockVersion.maskedTokenIdFeatureIsSupported (v : BlockVersion) : Bool := v.val ≥ 2

def BlockVersion.mixedTransactionsAreSupported (v : BlockVersion) : Bool := v.val ≥ 3

/-- From v3 the MLSAGs sign the digest of the extended message and the `TxSummary`. -/
def BlockVersion.mlsagsSignExtendedMessageAndTxSummaryDigest (v : BlockVersion) : Bool :=
  v.val ≥ 3

/-- Masked amounts v2, and with them partial fills, are introduced in v3. -/
def BlockVersion.maskedAmountV2IsSupported (v : BlockVersion) : Bool := v.val ≥ 3

/-- From v3 the outputs of a transaction are sorted by public key. -/
def BlockVersion.validateTransactionOutputsAreSorted (v : BlockVersion) : Bool := v.val ≥ 3

def BlockVersion.signedInputRulesAreSupported (v : BlockVersion) : Bool := v.val ≥ 3

/-- The highest block version this build supports. -/
def BlockVersion.MAX : BlockVersion := ⟨3⟩

inductive BlockVersionError
  | unsupportedBlockVersion (version max : UInt32)
  | parse
  deriving DecidableEq, Repr

def BlockVersion.tryFrom (src : UInt32) : Except BlockVersionError BlockVersion :=
  if src ≤ BlockVersion.MAX.val then .ok ⟨src⟩
  else .error (.unsupportedBlockVersion src BlockVersion.MAX.val)

theorem BlockVersion.tryFrom_eq_ok {src : UInt32} {v : BlockVersion} :
    BlockVersion.tryFrom src = .ok v ↔ src ≤ BlockVersion.MAX.val ∧ v = ⟨src⟩ := by
  unfold BlockVersion.tryFrom
  split_ifs with supported
  · simp [supported, eq_comm]
  · simp [supported]

end MobileCoin
