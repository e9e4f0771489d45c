import MobileCoin.Lib.Except
import MobileCoin.Lib.U64
import MobileCoin.ConsensusEnclave.CtTokenMap
import MobileCoin.Transaction.BlockVersion

/-!
# The fee outputs of a block

`SgxConsensusEnclave::form_block` adds up the fees of the block's transactions per token in a
`CtTokenMap<u128>` keyed by the tokens of the minimum fee map, sorts the zero totals to the end,
and for the first `min(num_tokens, num_transactions)` entries mints the total in `u64` chunks,
at least one output per entry. Within one block a fee output is determined by its amount and its
counter: the other inputs of `mint_output` (the parent block, the transactions, the recipient)
are the same for all of them, so the model's output is that pair.

A transaction reaches `form_block` through `get_txs_from_inputs`, which looks its fee token up in
the minimum fee map before it validates it.
-/

namespace MobileCoin.ConsensusEnclave

open U64

abbrev U128 := BitVec 128

/-- The fields of a transaction that the fees read: `tx.prefix.fee` and
`tx.prefix.fee_token_id`. -/
structure Tx where
  fee : UInt64
  feeTokenId : UInt64
  deriving DecidableEq, Repr

structure Amount where
  value : UInt64
  tokenId : TokenId
  deriving DecidableEq, Repr

structure FeeOutput where
  amount : Amount
  counter : Nat
  deriving DecidableEq, Repr

inductive TransactionValidationError
  | tokenNotYetConfigured
  deriving DecidableEq, Repr

inductive Error
  | malformedTx (error : TransactionValidationError)
  | blockVersion (message : String)
  deriving DecidableEq, Repr

/-- `mint_output`: a non-MOB output needs masked token ids. -/
def mintOutput (blockVersion : BlockVersion) (amount : Amount) (counter : Nat) :
    Except Error FeeOutput :=
  if !blockVersion.maskedTokenIdFeatureIsSupported && amount.tokenId != 0 then
    .error (.blockVersion "Cannot mint outputs for non-MOB tokens at this block version")
  else .ok ⟨amount, counter⟩

def u64MaxU128 : U128 := BitVec.ofNat 128 MAX

/-- `min(total_fee, u64::MAX as u128) as u64`. -/
def outputFeeOf (totalFee : U128) : UInt64 :=
  UInt64.ofBitVec ((if totalFee ≤ u64MaxU128 then totalFee else u64MaxU128).setWidth 64)

theorem outputFeeOf_toNat (totalFee : U128) :
    (outputFeeOf totalFee).toNat = min totalFee.toNat MAX := by
  have maxToNat : u64MaxU128.toNat = MAX := by simp [u64MaxU128, MAX]
  have maxLt : MAX < 2 ^ 64 := by simp [MAX]
  unfold outputFeeOf
  rw [UInt64.toNat_ofBitVec, BitVec.toNat_setWidth]
  split_ifs with le
  · rw [BitVec.le_def, maxToNat] at le
    rw [Nat.mod_eq_of_lt (by omega), min_eq_left le]
  · rw [BitVec.le_def, maxToNat] at le
    rw [maxToNat, Nat.mod_eq_of_lt maxLt, min_eq_right (by omega)]

theorem sub_outputFeeOf_toNat (totalFee : U128) :
    (totalFee - (outputFeeOf totalFee).toBitVec.setWidth 128).toNat =
      totalFee.toNat - min totalFee.toNat MAX := by
  have chunk : ((outputFeeOf totalFee).toBitVec.setWidth 128).toNat = min totalFee.toNat MAX := by
    rw [BitVec.toNat_setWidth, UInt64.toNat_toBitVec, outputFeeOf_toNat,
      Nat.mod_eq_of_lt (by simp only [MAX]; omega)]
  rw [BitVec.toNat_sub_of_le (by rw [BitVec.le_def, chunk]; omega), chunk]

/-- The do-while loop of `form_block` for one token. `outputs` holds the results of
`mint_output` so far; its length is the next counter. A zero total still mints once. -/
def mintFeeOutputs (blockVersion : BlockVersion) (tokenId : TokenId) (totalFee : U128)
    (outputs : List (Except Error FeeOutput)) : List (Except Error FeeOutput) :=
  let outputFee := outputFeeOf totalFee
  let outputs := outputs ++ [mintOutput blockVersion ⟨outputFee, tokenId⟩ outputs.length]
  let totalFee' := totalFee - outputFee.toBitVec.setWidth 128
  if totalFee' = 0 then outputs else mintFeeOutputs blockVersion tokenId totalFee' outputs
termination_by totalFee.toNat
decreasing_by
  -- the loop goes on only while something is left, so the chunk was not zero
  rename_i nonzero
  have remaining := sub_outputFeeOf_toNat totalFee
  have positive : 0 < MAX := by simp [MAX]
  simp only [totalFee', outputFee] at nonzero ⊢
  have zero : (0 : U128).toNat = 0 := rfl
  rw [← BitVec.toNat_inj, zero] at nonzero
  omega

/-- `total_fees`: the fee of each transaction added to the entry of its fee token, in a map
with the keys of the minimum fee map and zero values. -/
def totalFees (ctMinFeeMap : CtTokenMap UInt64) (transactions : List Tx) : CtTokenMap U128 :=
  transactions.foldl (fun totalFees tx =>
    (totalFees.add tx.feeTokenId (tx.fee.toBitVec.setWidth 128)).1)
    (CtTokenMap.ofKeys ctMinFeeMap.keys)

/-- The fee outputs of `form_block`, collected through `?`. -/
def feeOutputs (blockVersion : BlockVersion) (ctMinFeeMap : CtTokenMap UInt64)
    (transactions : List Tx) : Except Error (List FeeOutput) :=
  let totalFees := (totalFees ctMinFeeMap transactions).sortZeroesToEnd
  ((totalFees.storage.take (min totalFees.len transactions.length)).flatMap
    fun (tokenId, totalFee) => mintFeeOutputs blockVersion tokenId totalFee []).mapM id

/-- The minimum fee lookup of `get_txs_from_inputs`. -/
def minimumFee (ctMinFees : CtTokenMap UInt64) (tx : Tx) : Except Error UInt64 :=
  match ctMinFees.get tx.feeTokenId with
  | some minimumFee => .ok minimumFee
  | none => .error (.malformedTx .tokenNotYetConfigured)

/-- `get_txs_from_inputs` on decrypted transactions: each is validated against the minimum fee
of its token. `validate` stands for `mc_transaction_core::validation::validate` and the checks of
the membership proofs; the checks after the loop only reject and are left out. -/
def getTxsFromInputs (validate : Tx → UInt64 → Except Error Unit)
    (ctMinFees : CtTokenMap UInt64) (transactions : List Tx) : Except Error (List Tx) :=
  if transactions.isEmpty then .ok []
  else do
    transactions.forM fun tx => do
      let minimumFee ← minimumFee ctMinFees tx
      validate tx minimumFee
    pure transactions

end MobileCoin.ConsensusEnclave
