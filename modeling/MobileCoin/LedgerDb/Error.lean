import MobileCoin.Lib.Table

/-!
# Ledger errors

`mc_ledger_db::Error`, with the variants the modelled functions return. LMDB errors other
than `NotFound` keep their LMDB kind; the only one a modelled write raises is `KeyExist`, from
a `NO_OVERWRITE` put on a present key.
-/

namespace MobileCoin.LedgerDb

open Table

inductive LmdbError where
  | keyExist
  deriving DecidableEq, Repr

inductive Error where
  | notFound
  | invalidBlockVersion (version : Nat)
  | noKeyImages
  | invalidBlockIndex (index : Nat)
  | keyImageAlreadySpent
  | duplicateOutputPublicKey
  | invalidBlockContents
  | invalidBlockID
  | invalidParentBlockID
  | noOutputs
  | tooFewOutputs
  | capacityExceeded
  | txOutIndexOutOfBounds (index : Nat)
  | lmdb (error : LmdbError)
  | range
  | invalidMintConfig (message : String)
  | mintLimitExceeded (amount minted limit : UInt64)
  | totalMintedAmountCannotDecrease (amount minted : UInt64)
  | duplicateMintTx
  | duplicateMintConfigTx
  | blockMetadataRequired
  | missingMaskedAmount
  deriving DecidableEq, Repr

/-- A `NO_OVERWRITE` put through `?`. -/
def putNew {κ ν : Type} [DecidableEq κ] (table : κ → Option ν) (key : κ) (value : ν) :
    Except Error (κ → Option ν) :=
  match putNoOverwrite table key value with
  | some table' => .ok table'
  | none => .error (.lmdb .keyExist)

theorem putNew_eq_ok {κ ν : Type} [DecidableEq κ] {table table' : κ → Option ν} {key : κ}
    {value : ν} : putNew table key value = .ok table' ↔ table key = none ∧ table' = put table key value := by
  rw [← putNoOverwrite_eq_some, putNew]
  split <;> simp_all

theorem putNew_of_none {κ ν : Type} [DecidableEq κ] {table : κ → Option ν} {key : κ}
    (absent : table key = none) (value : ν) : putNew table key value = .ok (put table key value) :=
  putNew_eq_ok.mpr ⟨absent, rfl⟩

end MobileCoin.LedgerDb
