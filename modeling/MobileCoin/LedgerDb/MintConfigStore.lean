import MobileCoin.Lib.Except
import MobileCoin.Lib.U64
import MobileCoin.LedgerDb.Error

/-!
# Mint configurations and mint transactions in the ledger

`mc_ledger_db::mint_config_store` and `mc_ledger_db::mint_tx_store`. A token's active mint
configurations are the configurations of the last `MintConfigTx` written for it, each with the
amount minted through it so far. A `MintTx` is matched to the first configuration whose signer
set signed it and which has room for its amount; `update_total_minted` then finds the
configuration to update again, as the first one equal to the matched configuration.

Signer sets and nonces are opaque; whether a signer set signed a `MintTx` (the signature check
over the hash of its prefix) is the parameter `verify`. Nonce keys `nonce || token_id` are the
pairs `(nonce, token_id)`.
-/

namespace MobileCoin.LedgerDb

open Table U64

structure MintConfig (S : Type) where
  tokenId : Nat
  signerSet : S
  mintLimit : UInt64
  deriving DecidableEq, Repr

/-- The fields of a `MintConfigTx` (its prefix) that the ledger reads. -/
structure MintConfigTx (S N : Type) where
  tokenId : Nat
  configs : List (MintConfig S)
  nonce : N
  totalMintLimit : UInt64
  deriving DecidableEq, Repr

structure ValidatedMintConfigTx (S N : Type) where
  mintConfigTx : MintConfigTx S N
  signerSet : S
  deriving DecidableEq, Repr

/-- The fields of a `MintTx` (its prefix) that the ledger reads. -/
structure MintTx (N : Type) where
  tokenId : Nat
  amount : UInt64
  nonce : N
  deriving DecidableEq, Repr

structure ActiveMintConfig (S : Type) where
  mintConfig : MintConfig S
  totalMinted : UInt64
  deriving DecidableEq, Repr

structure ActiveMintConfigs (S N : Type) where
  configs : List (ActiveMintConfig S)
  mintConfigTx : MintConfigTx S N
  deriving DecidableEq, Repr

namespace ActiveMintConfigs

variable {S N : Type}

def totalMintLimit (a : ActiveMintConfigs S N) : UInt64 := a.mintConfigTx.totalMintLimit

/-- `total_minted`: an iterator sum of `u64`s, which wraps in release builds. -/
def totalMinted (a : ActiveMintConfigs S N) : UInt64 :=
  (a.configs.map (·.totalMinted)).sum

def canMint (a : ActiveMintConfigs S N) (amount : UInt64) : Bool :=
  match checkedAdd a.totalMinted amount with
  | some newTotalMinted => newTotalMinted ≤ a.totalMintLimit
  | none => false

/-- `From<&MintConfigTx>`: every configuration of the transaction, nothing minted yet. -/
def ofMintConfigTx (mintConfigTx : MintConfigTx S N) : ActiveMintConfigs S N :=
  ⟨mintConfigTx.configs.map fun mintConfig => ⟨mintConfig, 0⟩, mintConfigTx⟩

/-- The loop of `get_active_mint_config_for_mint_tx`: the first configuration that signed the
`MintTx` and has room for its amount. `error` is what to report when none does. -/
def findConfig (verify : S → MintTx N → Bool) (mintTx : MintTx N) :
    List (ActiveMintConfig S) → Error → Except Error (ActiveMintConfig S)
  | [], error => .error error
  | activeMintConfig :: rest, error =>
    if !verify activeMintConfig.mintConfig.signerSet mintTx then
      findConfig verify mintTx rest error
    else
      let full := Error.mintLimitExceeded mintTx.amount activeMintConfig.totalMinted
        activeMintConfig.mintConfig.mintLimit
      match checkedAdd activeMintConfig.totalMinted mintTx.amount with
      | some newTotalMinted =>
        if newTotalMinted ≤ activeMintConfig.mintConfig.mintLimit then .ok activeMintConfig
        else findConfig verify mintTx rest full
      | none => findConfig verify mintTx rest full

variable [DecidableEq S]

def getActiveMintConfigForMintTx (verify : S → MintTx N → Bool) (a : ActiveMintConfigs S N)
    (mintTx : MintTx N) : Except Error (ActiveMintConfig S) :=
  if !a.canMint mintTx.amount then
    .error (.mintLimitExceeded mintTx.amount a.totalMinted a.totalMintLimit)
  else if a.configs.map (·.mintConfig) ≠ a.mintConfigTx.configs then
    .error (.invalidMintConfig "MintConfigs do not match origianl transaction")
  else findConfig verify mintTx a.configs .notFound

end ActiveMintConfigs

structure MintConfigStore (S N : Type) where
  activeMintConfigsByTokenId : Nat → Option (ActiveMintConfigs S N)
  blockIndexByMintConfigTxNonceAndTokenId : N × Nat → Option Nat
  validatedMintConfigTxsByBlock : Nat → Option (List (ValidatedMintConfigTx S N))

structure MintTxStore (N : Type) where
  mintTxsByBlock : Nat → Option (List (MintTx N))
  blockIndexByMintTxNonceAndTokenId : N × Nat → Option Nat

namespace MintConfigStore

variable {S N : Type} [DecidableEq S] [DecidableEq N]

def create : MintConfigStore S N := ⟨fun _ => none, fun _ => none, fun _ => none⟩

def getActiveMintConfigs (store : MintConfigStore S N) (tokenId : Nat) :
    Option (ActiveMintConfigs S N) :=
  store.activeMintConfigsByTokenId tokenId

def getActiveMintConfigForMintTx (verify : S → MintTx N → Bool) (store : MintConfigStore S N)
    (mintTx : MintTx N) : Except Error (ActiveMintConfig S) := do
  let activeMintConfigs ← okOr (store.getActiveMintConfigs mintTx.tokenId) .notFound
  activeMintConfigs.getActiveMintConfigForMintTx verify mintTx

/-- `update_total_minted`: set the total minted of the first configuration equal to
`mintConfig`, which may not decrease, pass the configuration's limit or, summed over the
token's configurations, the token's limit. -/
def updateTotalMinted (store : MintConfigStore S N) (mintConfig : MintConfig S) (amount : UInt64) :
    Except Error (MintConfigStore S N) := do
  let activeMintConfigs ← okOr (store.getActiveMintConfigs mintConfig.tokenId) .notFound
  -- `iter_mut().find`: the position stands for the mutable reference it returns
  let (activeMintConfig, position) ←
    okOr (activeMintConfigs.configs.zipIdx.find? (·.1.mintConfig = mintConfig)) .notFound
  if amount < activeMintConfig.totalMinted then
    throw (.totalMintedAmountCannotDecrease amount activeMintConfig.totalMinted)
  let mintIncreaseAmount := amount - activeMintConfig.totalMinted
  if amount > activeMintConfig.mintConfig.mintLimit then
    throw (.mintLimitExceeded mintIncreaseAmount activeMintConfig.totalMinted
      activeMintConfig.mintConfig.mintLimit)
  let activeMintConfigs := { activeMintConfigs with
    configs := activeMintConfigs.configs.set position { activeMintConfig with totalMinted := amount } }
  if activeMintConfigs.totalMinted > activeMintConfigs.totalMintLimit then
    throw (.mintLimitExceeded mintIncreaseAmount activeMintConfigs.totalMinted
      activeMintConfigs.totalMintLimit)
  pure { store with
    activeMintConfigsByTokenId :=
      put store.activeMintConfigsByTokenId mintConfig.tokenId activeMintConfigs }

def checkMintConfigTxNonce (store : MintConfigStore S N) (tokenId : Nat) (nonce : N) :
    Option Nat :=
  store.blockIndexByMintConfigTxNonceAndTokenId (nonce, tokenId)

def checkMintConfig (mintConfigTx : MintConfigTx S N) : Except Error Unit :=
  if mintConfigTx.configs.any (·.tokenId ≠ mintConfigTx.tokenId) then
    .error (.invalidMintConfig "All mint configurations must have the same token id")
  else .ok ()

/-- One iteration of `write_validated_mint_config_txs`: the nonce is recorded, and the token's
active configurations are replaced by fresh ones. -/
def writeValidatedMintConfigTx (blockIndex : Nat) (store : MintConfigStore S N)
    (validatedMintConfigTx : ValidatedMintConfigTx S N) : Except Error (MintConfigStore S N) := do
  let mintConfigTx := validatedMintConfigTx.mintConfigTx
  checkMintConfig mintConfigTx
  let blockIndexByNonce ← putNew store.blockIndexByMintConfigTxNonceAndTokenId
    (mintConfigTx.nonce, mintConfigTx.tokenId) blockIndex
  pure { store with
    blockIndexByMintConfigTxNonceAndTokenId := blockIndexByNonce
    activeMintConfigsByTokenId := put store.activeMintConfigsByTokenId mintConfigTx.tokenId
      (ActiveMintConfigs.ofMintConfigTx mintConfigTx) }

def writeValidatedMintConfigTxs (store : MintConfigStore S N) (blockIndex : Nat)
    (validatedMintConfigTxs : List (ValidatedMintConfigTx S N)) :
    Except Error (MintConfigStore S N) := do
  let byBlock ← putNew store.validatedMintConfigTxsByBlock blockIndex validatedMintConfigTxs
  validatedMintConfigTxs.foldlM (writeValidatedMintConfigTx blockIndex)
    { store with validatedMintConfigTxsByBlock := byBlock }

end MintConfigStore

namespace MintTxStore

variable {S N : Type} [DecidableEq S] [DecidableEq N]

def create : MintTxStore N := ⟨fun _ => none, fun _ => none⟩

def checkMintTxNonce (store : MintTxStore N) (tokenId : Nat) (nonce : N) : Option Nat :=
  store.blockIndexByMintTxNonceAndTokenId (nonce, tokenId)

/-- One iteration of `write_mint_txs`: match the `MintTx` to a configuration, add its amount
to that configuration's total, and record its nonce. -/
def writeMintTx (verify : S → MintTx N → Bool) (blockIndex : Nat)
    (stores : MintTxStore N × MintConfigStore S N) (mintTx : MintTx N) :
    Except Error (MintTxStore N × MintConfigStore S N) := do
  let (store, mintConfigStore) := stores
  let activeMintConfig ← mintConfigStore.getActiveMintConfigForMintTx verify mintTx
  let newTotalMinted ← okOr (checkedAdd activeMintConfig.totalMinted mintTx.amount) .notFound
  let mintConfigStore ←
    mintConfigStore.updateTotalMinted activeMintConfig.mintConfig newTotalMinted
  let blockIndexByNonce ← putNew store.blockIndexByMintTxNonceAndTokenId
    (mintTx.nonce, mintTx.tokenId) blockIndex
  pure ({ store with blockIndexByMintTxNonceAndTokenId := blockIndexByNonce }, mintConfigStore)

def writeMintTxs (verify : S → MintTx N → Bool) (store : MintTxStore N) (blockIndex : Nat)
    (mintTxs : List (MintTx N)) (mintConfigStore : MintConfigStore S N) :
    Except Error (MintTxStore N × MintConfigStore S N) := do
  let byBlock ← putNew store.mintTxsByBlock blockIndex mintTxs
  mintTxs.foldlM (writeMintTx verify blockIndex)
    ({ store with mintTxsByBlock := byBlock }, mintConfigStore)

end MintTxStore

end MobileCoin.LedgerDb
