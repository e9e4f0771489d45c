import MobileCoin.Lib.Fresh
import MobileCoin.LedgerDb.Run

/-!
# The key images and outputs of a block

`get_txs_from_inputs` ends with three loops, each with a `BTreeSet` of what it has seen: a
repeated transaction hash, key image or output public key is an `Error::FormBlock`. `form_block`
then collects the outputs and the key images of the transactions, adds the fee outputs and the
minted outputs, and sorts both lists. The key images of a block it forms are therefore distinct,
and the worker, which appends each block `form_block` returns, never makes the ledger spend a key
image twice: `append_block`, which by itself accepts a key image twice within one block, is kept
from it by the enclave.

A transaction here is what these steps read of it: its hash, its key images and its outputs.
TxOuts are opaque, with the public key the ledger computes. The fee outputs and the minted
outputs come from `mint_output`, whose keys are derived from hashes, and are given.
-/

namespace MobileCoin.ConsensusEnclave

open LedgerDb LedgerDb.LedgerDB MembershipProofs

/-- What the duplicate checks and the contents of a block read of a `Tx`: `tx_hash()`,
`key_images()` and `prefix.outputs`. -/
structure TxKeys (Hs KI α : Type) where
  txHash : Hs
  keyImages : List KI
  outputs : List α
  deriving DecidableEq, Repr

/-- The `Error::FormBlock`s of the duplicate checks, by the value their message prints. -/
inductive Duplicate (Hs KI P : Type)
  | transaction (txHash : Hs)
  | keyImage (keyImage : KI)
  | outputPublicKey (publicKey : P)
  deriving DecidableEq, Repr

variable {Hs KI α P S N : Type}

/-! ### The duplicate checks of `get_txs_from_inputs` -/

section Checks

variable [DecidableEq Hs] [DecidableEq KI] [DecidableEq P]

/-- "Duplicate transactions are not allowed": the loop over `tx_hashes`. -/
def rejectDuplicateTransactions (transactions : List (TxKeys Hs KI α)) :
    Except (Duplicate Hs KI P) (List Hs) :=
  insertAllFresh Duplicate.transaction (fun tx => [tx.txHash]) [] transactions

/-- "Duplicate key images are not allowed": the loop over `used_key_images`. -/
def rejectDuplicateKeyImages (transactions : List (TxKeys Hs KI α)) :
    Except (Duplicate Hs KI P) (List KI) :=
  insertAllFresh Duplicate.keyImage (·.keyImages) [] transactions

/-- "Duplicate output public keys are not allowed": the loop over `seen_output_public_keys`. -/
def rejectDuplicateOutputPublicKeys (publicKey : α → P) (transactions : List (TxKeys Hs KI α)) :
    Except (Duplicate Hs KI P) (List P) :=
  insertAllFresh Duplicate.outputPublicKey (fun tx => tx.outputs.map publicKey) [] transactions

/-- The three checks at the end of `get_txs_from_inputs`, in their order. -/
def rejectDuplicates (publicKey : α → P) (transactions : List (TxKeys Hs KI α)) :
    Except (Duplicate Hs KI P) Unit := do
  let _ ← rejectDuplicateTransactions transactions
  let _ ← rejectDuplicateKeyImages transactions
  let _ ← rejectDuplicateOutputPublicKeys publicKey transactions
  pure ()

theorem insertAllFresh_nil_ok_iff {κ β ε : Type} [DecidableEq κ] {duplicate : κ → ε}
    {keys : β → List κ} {items : List β} :
    (∃ used, insertAllFresh duplicate keys [] items = .ok used) ↔ (items.flatMap keys).Nodup := by
  simp only [insertAllFresh_eq_ok, List.disjoint_nil_right, true_and, List.append_nil,
    exists_and_left, exists_eq, and_true]

omit [DecidableEq KI] [DecidableEq P] in
theorem rejectDuplicateTransactions_ok_iff {transactions : List (TxKeys Hs KI α)} :
    (∃ used, (rejectDuplicateTransactions transactions : Except (Duplicate Hs KI P) _) = .ok used) ↔
      (transactions.map (·.txHash)).Nodup := by
  rw [rejectDuplicateTransactions, insertAllFresh_nil_ok_iff, List.map_eq_flatMap]

omit [DecidableEq Hs] [DecidableEq P] in
theorem rejectDuplicateKeyImages_ok_iff {transactions : List (TxKeys Hs KI α)} :
    (∃ used, (rejectDuplicateKeyImages transactions : Except (Duplicate Hs KI P) _) = .ok used) ↔
      (transactions.flatMap (·.keyImages)).Nodup :=
  insertAllFresh_nil_ok_iff

omit [DecidableEq Hs] [DecidableEq KI] in
theorem rejectDuplicateOutputPublicKeys_ok_iff {publicKey : α → P}
    {transactions : List (TxKeys Hs KI α)} :
    (∃ used, (rejectDuplicateOutputPublicKeys publicKey transactions :
      Except (Duplicate Hs KI P) _) = .ok used) ↔
      (transactions.flatMap fun tx => tx.outputs.map publicKey).Nodup :=
  insertAllFresh_nil_ok_iff

/-- The checks pass exactly when the hashes of the transactions are distinct, and so are their
key images, and the public keys of their outputs, all transactions together. -/
theorem rejectDuplicates_eq_ok {publicKey : α → P} {transactions : List (TxKeys Hs KI α)} :
    (rejectDuplicates publicKey transactions : Except (Duplicate Hs KI P) Unit) = .ok () ↔
      (transactions.map (·.txHash)).Nodup ∧ (transactions.flatMap (·.keyImages)).Nodup ∧
        (transactions.flatMap fun tx => tx.outputs.map publicKey).Nodup := by
  unfold rejectDuplicates
  simp only [bind_ok_iff, pure_eq_ok, and_true, exists_and_right]
  rw [rejectDuplicateTransactions_ok_iff, rejectDuplicateKeyImages_ok_iff,
    rejectDuplicateOutputPublicKeys_ok_iff]

end Checks

/-! ### The contents of the block -/

/-- The key images of `form_block`: those of the transactions in order, then
`key_images.sort()`. -/
def blockKeyImages [LinearOrder KI] (transactions : List (TxKeys Hs KI α)) : List KI :=
  (transactions.flatMap (·.keyImages)).insertionSort (· ≤ ·)

/-- The outputs of `form_block`: those of the transactions, then the fee outputs, then the minted
outputs, sorted by public key with the stable `sort_by`. -/
def blockOutputs [LinearOrder P] (publicKey : α → P) (transactions : List (TxKeys Hs KI α))
    (feeOutputs mintOutputs : List α) : List α :=
  (transactions.flatMap (·.outputs) ++ feeOutputs ++ mintOutputs).insertionSort
    fun a b => publicKey a ≤ publicKey b

variable [DecidableEq Hs] [LinearOrder KI] [LinearOrder P]

/-- The contents `form_block` builds from the transactions that `get_txs_from_inputs` decrypted
and validated, past the duplicate checks at its end, with the fee outputs, the minted outputs, the
`MintTx`s and the validated `MintConfigTx`s. -/
def formBlockContents (publicKey : α → P) (transactions : List (TxKeys Hs KI α))
    (feeOutputs mintOutputs : List α) (mintTxs : List (MintTx N))
    (validatedMintConfigTxs : List (ValidatedMintConfigTx S N)) :
    Except (Duplicate Hs KI P) (BlockContents KI α S N) := do
  rejectDuplicates publicKey transactions
  pure ⟨blockKeyImages transactions, blockOutputs publicKey transactions feeOutputs mintOutputs,
    validatedMintConfigTxs, mintTxs⟩

theorem formBlockContents_keyImages_nodup {publicKey : α → P}
    {transactions : List (TxKeys Hs KI α)} {feeOutputs mintOutputs : List α}
    {mintTxs : List (MintTx N)} {validatedMintConfigTxs : List (ValidatedMintConfigTx S N)}
    {contents : BlockContents KI α S N}
    (formed : formBlockContents publicKey transactions feeOutputs mintOutputs mintTxs
      validatedMintConfigTxs = .ok contents) :
    contents.keyImages.Nodup := by
  unfold formBlockContents at formed
  obtain ⟨checked, formed⟩ := bind_unit_ok_iff.mp formed
  cases formed
  -- sorting keeps the key images, which the check found distinct
  exact (List.perm_insertionSort _ _).nodup_iff.mpr (rejectDuplicates_eq_ok.mp checked).2.1

example : (formBlockContents id [(⟨0, [7], [1]⟩ : TxKeys ℕ ℕ ℕ), ⟨1, [7], [2]⟩] [] []
    ([] : List (MintTx ℕ)) ([] : List (ValidatedMintConfigTx ℕ ℕ))).map (·.keyImages) =
      .error (.keyImage 7) := by
  decide

/-! ### Blocks formed and appended -/

variable {K H D : Type} [Inhabited D] [DecidableEq D] [DecidableEq S] [DecidableEq N]
  [DecidableEq K]

variable (Hs) in
/-- The ledgers that the worker reaches from an empty ledger by appending blocks that
`form_block` formed, with the contents of the blocks appended, the last one first. -/
inductive Formed (c : Crypto KI α K P H D S N) :
    LedgerDB KI α K P H D S N → List (BlockContents KI α S N) → Prop
  | create : Formed c create []
  | append {s s' : LedgerDB KI α K P H D S N} {appended : List (BlockContents KI α S N)}
      {transactions : List (TxKeys Hs KI α)} {feeOutputs mintOutputs : List α}
      {mintTxs : List (MintTx N)} {validatedMintConfigTxs : List (ValidatedMintConfigTx S N)}
      {contents : BlockContents KI α S N} {block : Block D} {hasMetadata : Bool} :
      Formed c s appended →
      formBlockContents c.publicKey transactions feeOutputs mintOutputs mintTxs
        validatedMintConfigTxs = .ok contents →
      appendBlock c s block contents hasMetadata = .ok s' → Formed c s' (contents :: appended)

variable {c : Crypto KI α K P H D S N} {s : LedgerDB KI α K P H D S N}
  {appended : List (BlockContents KI α S N)}

theorem Formed.toAppended (run : Formed Hs c s appended) : Appended c s appended := by
  induction run with
  | create => exact .create
  | append _ _ step before => exact .append before step

theorem Formed.keyImages_nodup (run : Formed Hs c s appended) :
    ∀ contents ∈ appended, contents.keyImages.Nodup := by
  induction run with
  | create =>
    intro contents mem
    cases mem
  | append _ formed _ before =>
    intro contents mem
    rcases List.mem_cons.mp mem with rfl | earlier
    · exact formBlockContents_keyImages_nodup formed
    · exact before contents earlier

/-- No key image is spent twice: along every run that appends blocks formed by `form_block` to an
empty ledger, the key images of all the blocks appended are distinct, and the ledger's table of
spent key images holds exactly them. -/
theorem formed_spends_once (run : Formed Hs c s appended) :
    (spentKeyImages appended).Nodup ∧
      ∀ keyImage, (s.keyImages keyImage).isSome ↔ keyImage ∈ spentKeyImages appended :=
  ⟨run.toAppended.nodup run.keyImages_nodup, run.toAppended.spent⟩

theorem formed_spends_once_two_blocks :
    ∃ s : LedgerDB ℕ ℕ ℕ ℕ (HashTree ℕ) ℕ ℕ ℕ,
      Formed ℕ ⟨id, id, MerkleHasher.free, fun _ => true, (·.keyImages.length), fun _ => true,
        fun _ _ => true⟩ s [⟨[7, 8], [6], [], []⟩, ⟨[], [5], [], []⟩] ∧
      (spentKeyImages [(⟨[7, 8], [6], [], []⟩ : BlockContents ℕ ℕ ℕ ℕ), ⟨[], [5], [], []⟩]).Nodup ∧
        ∀ keyImage, (s.keyImages keyImage).isSome ↔
          keyImage ∈ spentKeyImages [(⟨[7, 8], [6], [], []⟩ : BlockContents ℕ ℕ ℕ ℕ),
            ⟨[], [5], [], []⟩] := by
  -- the origin block holds a fee output only; block 1 one transaction spending key images 8 and 7
  let c : Crypto ℕ ℕ ℕ ℕ (HashTree ℕ) ℕ ℕ ℕ :=
    ⟨id, id, MerkleHasher.free, fun _ => true, (·.keyImages.length), fun _ => true, fun _ _ => true⟩
  let s₁ := (appendBlock c create ⟨1, 0, 0, 0, 0⟩ ⟨[], [5], [], []⟩ false).toOption.getD create
  have origin : appendBlock c create ⟨1, 0, 0, 0, 0⟩ ⟨[], [5], [], []⟩ false = .ok s₁ := rfl
  obtain ⟨s₂, next⟩ : ∃ s₂, appendBlock c s₁ ⟨2, 0, 1, 1, 2⟩ ⟨[7, 8], [6], [], []⟩ false = .ok s₂ := by
    dsimp only [c, s₁]
    exact ⟨_, rfl⟩
  have run : Formed ℕ c s₂ [⟨[7, 8], [6], [], []⟩, ⟨[], [5], [], []⟩] :=
    .append
      (.append .create
        (show formBlockContents id ([] : List (TxKeys ℕ ℕ ℕ)) [5] [] [] [] =
          .ok ⟨[], [5], [], []⟩ from rfl) origin)
      (show formBlockContents id [(⟨0, [8, 7], [6]⟩ : TxKeys ℕ ℕ ℕ)] [] [] [] [] =
        .ok ⟨[7, 8], [6], [], []⟩ from rfl) next
  exact ⟨_, run, formed_spends_once run⟩

end MobileCoin.ConsensusEnclave
