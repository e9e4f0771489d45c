import MobileCoin.LedgerDb.TxOutStore
import MobileCoin.LedgerDb.MintConfigStore

/-!
# The ledger database

`mc_ledger_db::LedgerDB`: the block chain as LMDB databases, written by `append_block` inside
one write transaction. A failed `append_block` drops the transaction, so the ledger keeps the
state it had; a successful one commits the state `append_block` built.

`append_block` reads the committed ledger in two places besides the write transaction:
`validate_append_block` asks `num_blocks` and `get_block` through read-only transactions, and
so do the spent check of `write_key_images` (`contains_key_image`) and the public key check of
`write_tx_outs` (`contains_tx_out_public_key`). Those reads see the ledger before the block,
never what the block itself has written. Each writer is modelled on the databases it writes.

Block ids, contents hashes, key images, TxOuts and signer sets are opaque. `Crypto` collects
the functions of them the ledger computes: the TxOut hashes and keys of the TxOut store, the
check that a TxOut's masked amount decodes, the contents hash, the block id check of
`Block::is_block_id_valid`, and the signature check of a `MintTx`.
-/

namespace MobileCoin.LedgerDb

open Table MembershipProofs

/-- The fields of a `Block` that `append_block` reads; `is_block_id_valid` reads the rest. -/
structure Block (D : Type) where
  id : D
  version : Nat
  parentId : D
  index : Nat
  contentsHash : D
  deriving DecidableEq, Repr

structure BlockContents (KI α S N : Type) where
  keyImages : List KI
  outputs : List α
  validatedMintConfigTxs : List (ValidatedMintConfigTx S N)
  mintTxs : List (MintTx N)

structure Crypto (KI α K P H D S N : Type) where
  txOutHash : α → K
  publicKey : α → P
  hasher : MerkleHasher α H
  maskedAmountIsOk : α → Bool
  contentsHash : BlockContents KI α S N → D
  isBlockIdValid : Block D → Bool
  verify : S → MintTx N → Bool

def maxBlockVersion : Nat := 3

def requireBlockMetadata (version : Nat) : Bool := version ≥ 3

structure LedgerDB (KI α K P H D S N : Type) where
  numBlocks : Nat
  blocks : Nat → Option (Block D)
  keyImages : KI → Option Nat
  keyImagesByBlock : Nat → Option (List KI)
  txOutStore : TxOutStore α K P H
  txOutsByBlock : Nat → Option (Nat × Nat)
  blockNumberByTxOutIndex : Nat → Option Nat
  mintConfigStore : MintConfigStore S N
  mintTxStore : MintTxStore N

namespace LedgerDB

variable {KI α K P H D S N : Type}

/-- `LedgerDB::create`: empty databases and no blocks. -/
def create : LedgerDB KI α K P H D S N :=
  ⟨0, fun _ => none, fun _ => none, fun _ => none, TxOutStore.create, fun _ => none,
    fun _ => none, MintConfigStore.create, MintTxStore.create⟩

def getBlock (s : LedgerDB KI α K P H D S N) (blockNumber : Nat) : Except Error (Block D) :=
  match s.blocks blockNumber with
  | some block => .ok block
  | none => .error .notFound

def getKeyImagesByBlock (s : LedgerDB KI α K P H D S N) (blockNumber : Nat) :
    Except Error (List KI) :=
  match s.keyImagesByBlock blockNumber with
  | some keyImages => .ok keyImages
  | none => .error .notFound

def checkKeyImage (s : LedgerDB KI α K P H D S N) (keyImage : KI) : Option Nat :=
  s.keyImages keyImage

def containsKeyImage (s : LedgerDB KI α K P H D S N) (keyImage : KI) : Bool :=
  (s.checkKeyImage keyImage).isSome

def containsTxOutPublicKey (s : LedgerDB KI α K P H D S N) (publicKey : P) : Bool :=
  (s.txOutStore.txOutIndexByPublicKey publicKey).isSome

def numTxos (s : LedgerDB KI α K P H D S N) : Nat := s.txOutStore.numTxOuts

/-! ### Validation -/

variable [Inhabited D] [DecidableEq D] [DecidableEq S] [DecidableEq N]

/-- The first checks of `validate_append_block`: the block extends the chain at its end. -/
def validateBlockPosition (s : LedgerDB KI α K P H D S N) (block : Block D) :
    Except Error Unit := do
  let numBlocks := s.numBlocks
  if numBlocks = 0 then
    -- the origin block
    if block.version ≠ 0 then throw (.invalidBlockVersion block.version)
    if block.index ≠ 0 then throw (.invalidBlockIndex block.index)
    if block.parentId ≠ default then throw .invalidParentBlockID
  else
    let lastBlock ← s.getBlock (numBlocks - 1)
    if block.version < lastBlock.version ∨ block.version > maxBlockVersion then
      throw (.invalidBlockVersion block.version)
    if block.index ≠ numBlocks then throw (.invalidBlockIndex block.index)
    if block.parentId ≠ lastBlock.id then throw .invalidParentBlockID

/-- The checks of `validate_append_block` on the sizes of the contents. -/
def validateContentsShape (block : Block D) (contents : BlockContents KI α S N) :
    Except Error Unit := do
  let hasMintConfigTxs := !contents.validatedMintConfigTxs.isEmpty
  if contents.outputs.isEmpty ∧ !hasMintConfigTxs then throw .noOutputs
  if contents.outputs.length < contents.mintTxs.length then throw .tooFewOutputs
  let hasMintingTxs := !contents.validatedMintConfigTxs.isEmpty || !contents.mintTxs.isEmpty
  if block.index ≠ 0 ∧ contents.keyImages.isEmpty ∧ !hasMintingTxs then throw .noKeyImages

/-- The checks of `validate_append_block` against what the ledger already holds. -/
def validateNotInLedger (c : Crypto KI α K P H D S N) (s : LedgerDB KI α K P H D S N)
    (block : Block D) (contents : BlockContents KI α S N) : Except Error Unit := do
  contents.keyImages.forM fun keyImage =>
    if (s.checkKeyImage keyImage).isSome then throw .keyImageAlreadySpent else pure ()
  contents.outputs.forM fun output =>
    if s.containsTxOutPublicKey (c.publicKey output) then throw .duplicateOutputPublicKey
    else pure ()
  if !c.isBlockIdValid block then throw .invalidBlockID
  contents.mintTxs.forM fun mintTx =>
    if (s.mintTxStore.checkMintTxNonce mintTx.tokenId mintTx.nonce).isSome then
      throw .duplicateMintTx
    else pure ()
  contents.validatedMintConfigTxs.forM fun validatedMintConfigTx =>
    let mintConfigTx := validatedMintConfigTx.mintConfigTx
    if (s.mintConfigStore.checkMintConfigTxNonce mintConfigTx.tokenId mintConfigTx.nonce).isSome
    then throw .duplicateMintConfigTx
    else pure ()

def validateAppendBlock (c : Crypto KI α K P H D S N) (s : LedgerDB KI α K P H D S N)
    (block : Block D) (contents : BlockContents KI α S N) (hasMetadata : Bool) :
    Except Error Unit := do
  validateBlockPosition s block
  validateContentsShape block contents
  if block.contentsHash ≠ c.contentsHash contents then throw .invalidBlockContents
  if contents.outputs.any (!c.maskedAmountIsOk ·) then throw .missingMaskedAmount
  validateNotInLedger c s block contents
  -- `BlockVersion::try_from`
  if block.version > maxBlockVersion then throw (.invalidBlockVersion block.version)
  if requireBlockMetadata block.version && !hasMetadata then throw .blockMetadataRequired

/-! ### Writing a block -/

variable [DecidableEq KI] [DecidableEq K] [DecidableEq P]

/-- One iteration of `write_key_images`: the spent check reads the committed ledger `s`. The
put has no `NO_OVERWRITE` flag. -/
def writeKeyImage (s : LedgerDB KI α K P H D S N) (blockIndex : Nat) (keyImages : KI → Option Nat)
    (keyImage : KI) : Except Error (KI → Option Nat) :=
  if s.containsKeyImage keyImage then .error .keyImageAlreadySpent
  else .ok (put keyImages keyImage blockIndex)

def writeKeyImages (s : LedgerDB KI α K P H D S N) (blockIndex : Nat) (keyImages : List KI) :
    Except Error ((KI → Option Nat) × (Nat → Option (List KI))) := do
  let table ← keyImages.foldlM (writeKeyImage s blockIndex) s.keyImages
  pure (table, put s.keyImagesByBlock blockIndex keyImages)

/-- The databases `write_tx_outs` writes. -/
structure TxOutTables (α K P H : Type) where
  txOutStore : TxOutStore α K P H
  txOutsByBlock : Nat → Option (Nat × Nat)
  blockNumberByTxOutIndex : Nat → Option Nat

/-- One iteration of `write_tx_outs`: the public key check reads the committed ledger `s`; the
push and the put with `NO_OVERWRITE` see the earlier TxOuts of the block. -/
def writeTxOut (c : Crypto KI α K P H D S N) (s : LedgerDB KI α K P H D S N) (blockIndex : Nat)
    (tables : TxOutTables α K P H) (txOut : α) : Except Error (TxOutTables α K P H) := do
  if s.containsTxOutPublicKey (c.publicKey txOut) then throw .duplicateOutputPublicKey
  let (txOutStore, txOutIndex) ←
    tables.txOutStore.push c.txOutHash c.publicKey c.hasher txOut
  let blockNumberByTxOutIndex ← putNew tables.blockNumberByTxOutIndex txOutIndex blockIndex
  pure { tables with txOutStore, blockNumberByTxOutIndex }

def writeTxOuts (c : Crypto KI α K P H D S N) (s : LedgerDB KI α K P H D S N) (blockIndex : Nat)
    (txOuts : List α) : Except Error (TxOutTables α K P H) :=
  let nextTxOutIndex := s.txOutStore.numTxOuts
  txOuts.foldlM (writeTxOut c s blockIndex)
    ⟨s.txOutStore, put s.txOutsByBlock blockIndex (nextTxOutIndex, txOuts.length),
      s.blockNumberByTxOutIndex⟩

/-- `write_block`: the block count goes up by one (a `u64`) and the block is stored. -/
def writeBlock (s : LedgerDB KI α K P H D S N) (block : Block D) :
    Nat × (Nat → Option (Block D)) :=
  ((s.numBlocks + 1) % 2 ^ 64, put s.blocks block.index block)

def appendBlock (c : Crypto KI α K P H D S N) (s : LedgerDB KI α K P H D S N) (block : Block D)
    (contents : BlockContents KI α S N) (hasMetadata : Bool) :
    Except Error (LedgerDB KI α K P H D S N) := do
  validateAppendBlock c s block contents hasMetadata
  let (keyImages, keyImagesByBlock) ← writeKeyImages s block.index contents.keyImages
  let tables ← writeTxOuts c s block.index contents.outputs
  let (mintTxStore, mintConfigStore) ←
    s.mintTxStore.writeMintTxs c.verify block.index contents.mintTxs s.mintConfigStore
  let mintConfigStore ←
    mintConfigStore.writeValidatedMintConfigTxs block.index contents.validatedMintConfigTxs
  let (numBlocks, blocks) := writeBlock s block
  pure ⟨numBlocks, blocks, keyImages, keyImagesByBlock, tables.txOutStore, tables.txOutsByBlock,
    tables.blockNumberByTxOutIndex, mintConfigStore, mintTxStore⟩

/-- The ledger after `append_block` returns: the new state on success, the old one when the
write transaction is dropped. -/
def commit (c : Crypto KI α K P H D S N) (s : LedgerDB KI α K P H D S N) (block : Block D)
    (contents : BlockContents KI α S N) (hasMetadata : Bool) : LedgerDB KI α K P H D S N :=
  match appendBlock c s block contents hasMetadata with
  | .ok s' => s'
  | .error _ => s

/-- The ledgers that `append_block` calls reach from an empty ledger. -/
inductive Reachable (c : Crypto KI α K P H D S N) : LedgerDB KI α K P H D S N → Prop
  | create : Reachable c create
  | append {s s' : LedgerDB KI α K P H D S N} {block : Block D}
      {contents : BlockContents KI α S N} {hasMetadata : Bool} :
      Reachable c s → appendBlock c s block contents hasMetadata = .ok s' → Reachable c s'

end LedgerDB

end MobileCoin.LedgerDb
