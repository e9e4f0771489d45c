import Mathlib
import MobileCoin.Lib.Except
import MobileCoin.Transaction.BlockVersion
import MobileCoin.Util.VecMap

/-!
# The TxSummary unblinding report

`mc_transaction_extra::tx_summary_unblinding::TxSummaryUnblindingReport`: the balance change of
each `(TransactionEntity, TokenId)` in a `VecMap` of `MAX_OUTPUTS + MAX_INPUTS` records, as `i64`,
with the network fee and the tombstone block. `balance_add` and `balance_subtract` add a `u64` to
or subtract it from a record with checked `i64` arithmetic; on a report with distinct keys each
changes the report's table at one key by exactly that value.
-/

namespace MobileCoin

namespace I64

def MIN : Int := -2 ^ 63

def MAX : Int := 2 ^ 63 - 1

def tryFrom (value : UInt64) : Option Int :=
  if (value.toNat : Int) ≤ MAX then some value.toNat else none

def checkedAdd (a b : Int) : Option Int :=
  if MIN ≤ a + b ∧ a + b ≤ MAX then some (a + b) else none

def checkedSub (a b : Int) : Option Int :=
  if MIN ≤ a - b ∧ a - b ≤ MAX then some (a - b) else none

theorem tryFrom_eq_some {value : UInt64} {n : Int} : tryFrom value = some n → n = value.toNat := by
  unfold tryFrom
  split_ifs <;> simp [eq_comm]

theorem checkedAdd_eq_some {a b c : Int} : checkedAdd a b = some c → c = a + b := by
  unfold checkedAdd
  split_ifs <;> simp [eq_comm]

theorem checkedSub_eq_some {a b c : Int} : checkedSub a b = some c → c = a - b := by
  unfold checkedSub
  split_ifs <;> simp [eq_comm]

end I64

namespace TxSummaryUnblinding

open Util

/-! ### Errors -/

inductive KeyError
  | lengthMismatch (found expected : Nat)
  | algorithmMismatch
  | invalidPublicKey
  | invalidPrivateKey
  | signatureMismatch
  | internalError
  deriving DecidableEq, Repr

inductive AmountError
  | inconsistentCommitment
  | invalidMaskedTokenId
  | missingMaskedAmount
  | tokenIdNotSupportedAtBlockVersion
  | amountVersionTooOldForAmountSharedSecret
  deriving DecidableEq, Repr

structure ZipExactError where
  left : Nat
  right : Nat
  deriving DecidableEq, Repr

inductive Error
  | unexpectedOutput
  | unexpectedInput
  | stillExpectingMoreOutputs
  | stillExpectingMoreInputs
  | amountVerificationFailed
  | addressVerificationFailed
  | missingTxPrivateKey
  | missingDataRequiredToVerifyTxOutRecipient
  | numericOverflow
  | bufferOverflow
  | blockVersion (err : BlockVersionError)
  | missingMaskedAmount
  | key (err : KeyError)
  | amount (err : AmountError)
  | zipExact (err : ZipExactError)
  deriving DecidableEq, Repr

def zipExact {α β : Type} (a : List α) (b : List β) : Except Error (List (α × β)) :=
  if a.length = b.length then .ok (a.zip b) else .error (.zipExact ⟨a.length, b.length⟩)

theorem zipExact_eq_ok {α β : Type} {a : List α} {b : List β} {pairs : List (α × β)} :
    zipExact a b = .ok pairs ↔ a.length = b.length ∧ pairs = a.zip b := by
  unfold zipExact
  split_ifs with same <;> simp [same, eq_comm]

/-! ### The report -/

structure Amount where
  value : UInt64
  tokenId : UInt64
  deriving DecidableEq, Repr

instance : Inhabited Amount := ⟨⟨0, 0⟩⟩

/-- The parties a balance change is reported for. The derived order puts the constructors in
this order and compares address hashes by their own order. -/
inductive TransactionEntity (A : Type) where
  | ourself
  | address (hash : A)
  | swap
  deriving DecidableEq, Repr, Ord

variable {A : Type}

instance [Ord A] : Ord (TransactionEntity A × UInt64) := lexOrd

def MAX_RECORDS : Nat := 16 + 16

structure TxSummaryUnblindingReport (A : Type) where
  balanceChanges : VecMap (TransactionEntity A × UInt64) Int MAX_RECORDS
  networkFee : Amount
  tombstoneBlock : UInt64

namespace TxSummaryUnblindingReport

instance : Inhabited (TxSummaryUnblindingReport A) := ⟨⟨default, default, 0⟩⟩

@[simp] theorem balanceChanges_default :
    (default : TxSummaryUnblindingReport A).balanceChanges = default := rfl

section Balance

variable [DecidableEq A]

/-- `balance_add` and `balance_subtract`, which differ only in the checked operation applied to
the stored balance and the value. -/
def balanceChange (op : Int → Int → Option Int) (report : TxSummaryUnblindingReport A)
    (entity : TransactionEntity A) (tokenId value : UInt64) :
    Except Error (TxSummaryUnblindingReport A) := do
  let value ← okOr (I64.tryFrom value) .numericOverflow
  let (balanceChanges, idx, stored) ←
    (report.balanceChanges.getMutOrInsertWith (entity, tokenId) 0).mapError fun _ => .bufferOverflow
  let updated ← okOr (op stored value) .numericOverflow
  pure { report with balanceChanges := balanceChanges.setValue idx updated }

def balanceAdd : TxSummaryUnblindingReport A → TransactionEntity A → UInt64 → UInt64 →
    Except Error (TxSummaryUnblindingReport A) :=
  balanceChange I64.checkedAdd

def balanceSubtract : TxSummaryUnblindingReport A → TransactionEntity A → UInt64 → UInt64 →
    Except Error (TxSummaryUnblindingReport A) :=
  balanceChange I64.checkedSub

/-- The reported balance change of a key, zero when there is no record. -/
def balanceOf (report : TxSummaryUnblindingReport A) (key : TransactionEntity A × UInt64) : Int :=
  (report.balanceChanges.get key).getD 0

theorem balanceChange_ok {op : Int → Int → Option Int} {report report' : TxSummaryUnblindingReport A}
    {entity : TransactionEntity A} {tokenId value : UInt64}
    (distinct : report.balanceChanges.Distinct)
    (ok : report.balanceChange op entity tokenId value = .ok report') :
    ∃ updated, op (report.balanceOf (entity, tokenId)) value.toNat = some updated ∧
      report'.balanceChanges.get = Table.put report.balanceChanges.get (entity, tokenId) updated ∧
      report'.balanceChanges.Distinct ∧
      (∀ k, k ∈ report'.balanceChanges.keys ↔ k = (entity, tokenId) ∨ k ∈ report.balanceChanges.keys) ∧
      report'.networkFee = report.networkFee ∧ report'.tombstoneBlock = report.tombstoneBlock := by
  unfold balanceChange at ok
  obtain ⟨signed, converted, ok⟩ := bind_ok ok
  obtain ⟨⟨balanceChanges, idx, stored⟩, found, ok⟩ := bind_ok ok
  obtain ⟨updated, computed, ok⟩ := bind_ok ok
  rw [pure_eq_ok, Except.ok.injEq] at ok
  subst ok
  have same : signed = value.toNat := I64.tryFrom_eq_some (okOr_eq_ok.mp converted)
  subst same
  obtain ⟨held, written, distinct', keys', -⟩ :=
    VecMap.getMutOrInsertWith_ok distinct (mapError_eq_ok.mp found) updated
  refine ⟨updated, ?_, written, distinct', keys', rfl, rfl⟩
  rw [balanceOf, ← held]
  exact okOr_eq_ok.mp computed

/-! ### Accounting

A change is a key and a signed amount. `Applied report report' changes` says that `report'` is
`report` with the changes made: each key's balance moved by the sum of its changes, the keys
with a change added, and the fee fields kept. A successful `balance_add` or `balance_subtract`
applies one change, and runs of them compose. -/

abbrev Change (A : Type) := (TransactionEntity A × UInt64) × Int

/-- The sum of the changes to `key`. -/
def changeOf (changes : List (Change A)) (key : TransactionEntity A × UInt64) : Int :=
  ((changes.filter (·.1 = key)).map Prod.snd).sum

theorem changeOf_append (changes changes' : List (Change A)) (key : TransactionEntity A × UInt64) :
    changeOf (changes ++ changes') key = changeOf changes key + changeOf changes' key := by
  simp [changeOf, List.filter_append]

theorem changeOf_singleton (change : Change A) (key : TransactionEntity A × UInt64) :
    changeOf [change] key = if key = change.1 then change.2 else 0 := by
  by_cases same : key = change.1
  · simp [changeOf, same]
  · simp [changeOf, Ne.symm same, same]

structure Applied (report report' : TxSummaryUnblindingReport A) (changes : List (Change A)) :
    Prop where
  distinct : report'.balanceChanges.Distinct
  balanceOf_eq : ∀ key, report'.balanceOf key = report.balanceOf key + changeOf changes key
  mem_keys : ∀ key, key ∈ report'.balanceChanges.keys ↔
    key ∈ report.balanceChanges.keys ∨ ∃ change ∈ changes, change.1 = key
  networkFee_eq : report'.networkFee = report.networkFee
  tombstoneBlock_eq : report'.tombstoneBlock = report.tombstoneBlock

theorem Applied.refl {report : TxSummaryUnblindingReport A} (distinct : report.balanceChanges.Distinct) :
    Applied report report [] :=
  ⟨distinct, fun key => by simp [changeOf], fun key => by simp, rfl, rfl⟩

theorem Applied.trans {first second third : TxSummaryUnblindingReport A}
    {changes changes' : List (Change A)} (before : Applied first second changes)
    (after : Applied second third changes') : Applied first third (changes ++ changes') where
  distinct := after.distinct
  balanceOf_eq key := by
    rw [after.balanceOf_eq, before.balanceOf_eq, changeOf_append, add_assoc]
  mem_keys key := by
    rw [after.mem_keys, before.mem_keys]
    simp only [List.mem_append, or_and_right, exists_or, or_assoc]
  networkFee_eq := after.networkFee_eq.trans before.networkFee_eq
  tombstoneBlock_eq := after.tombstoneBlock_eq.trans before.tombstoneBlock_eq

theorem balanceChange_applied {op : Int → Int → Option Int} (sign : Int)
    (exact : ∀ a b c, op a b = some c → c = a + sign * b)
    {report report' : TxSummaryUnblindingReport A} {entity : TransactionEntity A}
    {tokenId value : UInt64} (distinct : report.balanceChanges.Distinct)
    (ok : report.balanceChange op entity tokenId value = .ok report') :
    Applied report report' [((entity, tokenId), sign * value.toNat)] := by
  obtain ⟨updated, computed, written, distinct', keys', fee, tombstone⟩ :=
    balanceChange_ok distinct ok
  have total := exact _ _ _ computed
  refine ⟨distinct', fun key => ?_, fun key => ?_, fee, tombstone⟩
  · rw [changeOf_singleton, balanceOf, written, Table.put_apply]
    split_ifs with same
    · subst same
      simp [total]
    · simp [balanceOf]
  · rw [keys']
    simp [or_comm, eq_comm]

theorem balanceAdd_applied {report report' : TxSummaryUnblindingReport A}
    {entity : TransactionEntity A} {tokenId value : UInt64}
    (distinct : report.balanceChanges.Distinct)
    (ok : report.balanceAdd entity tokenId value = .ok report') :
    Applied report report' [((entity, tokenId), (value.toNat : Int))] := by
  have applied := balanceChange_applied 1
    (fun _ _ _ added => by rw [I64.checkedAdd_eq_some added, one_mul]) distinct ok
  rwa [one_mul] at applied

theorem balanceSubtract_applied {report report' : TxSummaryUnblindingReport A}
    {entity : TransactionEntity A} {tokenId value : UInt64}
    (distinct : report.balanceChanges.Distinct)
    (ok : report.balanceSubtract entity tokenId value = .ok report') :
    Applied report report' [((entity, tokenId), -(value.toNat : Int))] := by
  have applied := balanceChange_applied (-1)
    (fun _ _ _ subtracted => by rw [I64.checkedSub_eq_some subtracted]; ring) distinct ok
  rwa [neg_one_mul] at applied

end Balance

def sort [Ord A] (report : TxSummaryUnblindingReport A) : TxSummaryUnblindingReport A :=
  { report with balanceChanges := report.balanceChanges.sort }

theorem balanceOf_sort [Ord A] [DecidableEq A] {report : TxSummaryUnblindingReport A}
    (distinct : report.balanceChanges.Distinct) (key : TransactionEntity A × UInt64) :
    report.sort.balanceOf key = report.balanceOf key := by
  simp only [balanceOf, sort, VecMap.get_sort distinct]

end TxSummaryUnblindingReport

end TxSummaryUnblinding

end MobileCoin
