import MobileCoin.LedgerDb.LedgerDB
import MobileCoin.MembershipProofs.Verify

/-!
# What `append_block` checks and writes

One lemma per step of `append_block`: when it succeeds, and what it writes. Key images are
checked against the committed ledger only, and written with an overwriting put, so a key image
that appears twice in one block passes both `validate_append_block` and `write_key_images`.
-/

namespace MobileCoin.LedgerDb.LedgerDB

open Table MembershipProofs

variable {KI α K P H D S N : Type} {c : Crypto KI α K P H D S N} {s : LedgerDB KI α K P H D S N}

/-! ### Validation -/

theorem validateNotInLedger_eq_ok {block : Block D} {contents : BlockContents KI α S N} :
    validateNotInLedger c s block contents = .ok () ↔
      (∀ keyImage ∈ contents.keyImages, s.keyImages keyImage = none) ∧
      (∀ output ∈ contents.outputs,
        s.txOutStore.txOutIndexByPublicKey (c.publicKey output) = none) ∧
      c.isBlockIdValid block = true ∧
      (∀ mintTx ∈ contents.mintTxs,
        s.mintTxStore.checkMintTxNonce mintTx.tokenId mintTx.nonce = none) ∧
      (∀ validated ∈ contents.validatedMintConfigTxs,
        s.mintConfigStore.checkMintConfigTxNonce validated.mintConfigTx.tokenId
          validated.mintConfigTx.nonce = none) := by
  unfold validateNotInLedger
  simp only [bind_unit_ok_iff, throw_bind, ite_throw_eq_ok, forM_guard_eq_ok]
  simp only [checkKeyImage, containsTxOutPublicKey, Option.isSome_eq_false_iff,
    Option.isNone_iff_eq_none, Bool.not_eq_true', Bool.not_eq_false]

section Position

variable [Inhabited D] [DecidableEq D]

theorem validateAppendBlock_eq_ok {block : Block D} {contents : BlockContents KI α S N}
    {hasMetadata : Bool} :
    validateAppendBlock c s block contents hasMetadata = .ok () ↔
      validateBlockPosition s block = .ok () ∧ validateContentsShape block contents = .ok () ∧
      block.contentsHash = c.contentsHash contents ∧
      contents.outputs.any (!c.maskedAmountIsOk ·) = false ∧
      validateNotInLedger c s block contents = .ok () ∧ block.version ≤ maxBlockVersion ∧
      (requireBlockMetadata block.version && !hasMetadata) = false := by
  unfold validateAppendBlock
  simp only [bind_unit_ok_iff, throw_bind, ite_throw_eq_ok, Bool.not_eq_true, not_lt, ne_eq,
    Decidable.not_not, pure_eq_ok, and_true]

theorem validateBlockPosition_congr {block block' : Block D}
    (version : block'.version = block.version) (index : block'.index = block.index)
    (parent : block'.parentId = block.parentId) :
    validateBlockPosition s block' = validateBlockPosition s block := by
  simp only [validateBlockPosition, version, index, parent]

end Position

/-! ### Key images -/

section KeyImages

variable [DecidableEq KI]

theorem writeKeyImage_eq_ok {blockIndex : Nat} {table table' : KI → Option Nat} {keyImage : KI} :
    writeKeyImage s blockIndex table keyImage = .ok table' ↔
      s.keyImages keyImage = none ∧ table' = put table keyImage blockIndex := by
  unfold writeKeyImage containsKeyImage checkKeyImage
  cases spent : s.keyImages keyImage <;> simp [eq_comm]

/-- The loop of `write_key_images` succeeds when no key image is spent in the committed ledger,
and then records every key image of the block at the block, repeated ones included. -/
theorem foldlM_writeKeyImage_eq_ok {blockIndex : Nat} {keyImages : List KI} :
    ∀ {table table' : KI → Option Nat},
      keyImages.foldlM (writeKeyImage s blockIndex) table = .ok table' ↔
        (∀ keyImage ∈ keyImages, s.keyImages keyImage = none) ∧
        table' = fun keyImage => if keyImage ∈ keyImages then some blockIndex else table keyImage := by
  induction keyImages with
  | nil =>
    intro table table'
    simp only [List.foldlM_nil, pure_eq_ok, Except.ok.injEq, List.not_mem_nil, if_false]
    exact ⟨fun same => ⟨fun _ => False.elim, same.symm⟩, fun ⟨_, same⟩ => same.symm⟩
  | cons keyImage rest ih =>
    intro table table'
    rw [foldlM_cons_ok]
    constructor
    · rintro ⟨mid, step, loop⟩
      obtain ⟨unspent, rfl⟩ := writeKeyImage_eq_ok.mp step
      obtain ⟨restUnspent, rfl⟩ := ih.mp loop
      refine ⟨List.forall_mem_cons.mpr ⟨unspent, restUnspent⟩, funext fun other => ?_⟩
      by_cases inRest : other ∈ rest
      · simp [inRest]
      · by_cases same : other = keyImage
        · subst same; simp [inRest]
        · simp [inRest, same]
    · rintro ⟨unspent, rfl⟩
      refine ⟨put table keyImage blockIndex,
        writeKeyImage_eq_ok.mpr ⟨unspent keyImage List.mem_cons_self, rfl⟩,
        ih.mpr ⟨fun k mem => unspent k (List.mem_cons_of_mem _ mem), funext fun other => ?_⟩⟩
      by_cases inRest : other ∈ rest
      · simp [inRest]
      · by_cases same : other = keyImage
        · subst same; simp [inRest]
        · simp [inRest, same]

theorem writeKeyImages_eq_ok {blockIndex : Nat} {keyImages : List KI}
    {written : (KI → Option Nat) × (Nat → Option (List KI))} :
    writeKeyImages s blockIndex keyImages = .ok written ↔
      (∀ keyImage ∈ keyImages, s.keyImages keyImage = none) ∧
      written = (fun keyImage => if keyImage ∈ keyImages then some blockIndex else s.keyImages keyImage,
        put s.keyImagesByBlock blockIndex keyImages) := by
  unfold writeKeyImages
  rw [bind_ok_iff]
  constructor
  · rintro ⟨table, loop, stored⟩
    obtain ⟨unspent, rfl⟩ := foldlM_writeKeyImage_eq_ok.mp loop
    exact ⟨unspent, (Except.ok.inj stored).symm⟩
  · rintro ⟨unspent, rfl⟩
    exact ⟨_, foldlM_writeKeyImage_eq_ok.mpr ⟨unspent, rfl⟩, rfl⟩

theorem writeKeyImages_repeat {blockIndex : Nat} {keyImages : List KI} {keyImage : KI}
    {written : (KI → Option Nat) × (Nat → Option (List KI))}
    (ok : writeKeyImages s blockIndex keyImages = .ok written) (inBlock : keyImage ∈ keyImages) :
    writeKeyImages s blockIndex (keyImages ++ [keyImage]) =
      .ok (written.1, put s.keyImagesByBlock blockIndex (keyImages ++ [keyImage])) := by
  obtain ⟨unspent, rfl⟩ := writeKeyImages_eq_ok.mp ok
  refine writeKeyImages_eq_ok.mpr ⟨fun other mem => ?_, ?_⟩
  · rcases List.mem_append.mp mem with early | last
    · exact unspent other early
    · rw [List.mem_singleton.mp last]
      exact unspent keyImage inBlock
  · have same : ∀ other, other ∈ keyImages ++ [keyImage] ↔ other ∈ keyImages := fun other =>
      ⟨fun mem => (List.mem_append.mp mem).elim id fun last => List.mem_singleton.mp last ▸ inBlock,
        fun mem => List.mem_append_left _ mem⟩
    simp only [same]

end KeyImages

/-! ### A key image repeated within a block -/

theorem validateContentsShape_repeat {block block' : Block D} (sameIndex : block'.index = block.index)
    {contents : BlockContents KI α S N} {keyImage : KI} (inBlock : keyImage ∈ contents.keyImages) :
    validateContentsShape block' { contents with keyImages := contents.keyImages ++ [keyImage] } =
      validateContentsShape block contents := by
  have nonempty : contents.keyImages.isEmpty = false := by
    cases keys : contents.keyImages with
    | nil => rw [keys] at inBlock; cases inBlock
    | cons _ _ => rfl
  simp [validateContentsShape, nonempty, sameIndex]

section Repeated

variable [Inhabited D] [DecidableEq D]

/-- Validation looks at the key images of a block only one by one against the committed ledger,
so a block that passes still passes with one of its key images repeated. -/
theorem validateAppendBlock_repeat {block block' : Block D} {contents : BlockContents KI α S N}
    {hasMetadata : Bool} (validated : validateAppendBlock c s block contents hasMetadata = .ok ())
    {keyImage : KI} (inBlock : keyImage ∈ contents.keyImages)
    (sameVersion : block'.version = block.version) (sameIndex : block'.index = block.index)
    (sameParent : block'.parentId = block.parentId)
    (hashed : block'.contentsHash =
      c.contentsHash { contents with keyImages := contents.keyImages ++ [keyImage] })
    (valid : c.isBlockIdValid block' = true) :
    validateAppendBlock c s block'
      { contents with keyImages := contents.keyImages ++ [keyImage] } hasMetadata = .ok () := by
  obtain ⟨position, shape, _, masked, ledger, version, metadata⟩ :=
    validateAppendBlock_eq_ok.mp validated
  obtain ⟨unspent, fresh, _, mintNonces, configNonces⟩ := validateNotInLedger_eq_ok.mp ledger
  refine validateAppendBlock_eq_ok.mpr ⟨?_, ?_, hashed, masked, ?_, ?_, ?_⟩
  · rw [validateBlockPosition_congr sameVersion sameIndex sameParent, position]
  · rw [validateContentsShape_repeat sameIndex inBlock, shape]
  · refine validateNotInLedger_eq_ok.mpr ⟨fun other mem => ?_, fresh, valid, mintNonces, configNonces⟩
    rcases List.mem_append.mp mem with early | last
    · exact unspent other early
    · rw [List.mem_singleton.mp last]
      exact unspent keyImage inBlock
  · rw [sameVersion]; exact version
  · rw [sameVersion]; exact metadata

variable [DecidableEq S] [DecidableEq N] [DecidableEq KI] [DecidableEq K] [DecidableEq P]

/-- `append_block` accepts a key image twice in one block: whenever it accepts a block, it also
accepts the block with one of its key images repeated (under a block id computed for those
contents), and records the key image list with the repetition. -/
theorem appendBlock_repeated_key_image {block : Block D} {contents : BlockContents KI α S N}
    {hasMetadata : Bool} {s' : LedgerDB KI α K P H D S N}
    (appended : appendBlock c s block contents hasMetadata = .ok s') {keyImage : KI}
    (inBlock : keyImage ∈ contents.keyImages) (block' : Block D)
    (sameVersion : block'.version = block.version) (sameIndex : block'.index = block.index)
    (sameParent : block'.parentId = block.parentId)
    (hashed : block'.contentsHash =
      c.contentsHash { contents with keyImages := contents.keyImages ++ [keyImage] })
    (valid : c.isBlockIdValid block' = true) :
    appendBlock c s block' { contents with keyImages := contents.keyImages ++ [keyImage] }
        hasMetadata =
      .ok { s' with
        blocks := put s'.blocks block.index block'
        keyImagesByBlock :=
          put s'.keyImagesByBlock block.index (contents.keyImages ++ [keyImage]) } := by
  unfold appendBlock at appended ⊢
  obtain ⟨validated, appended⟩ := bind_unit_ok_iff.mp appended
  obtain ⟨written, keyImagesOk, appended⟩ := bind_ok appended
  rw [validateAppendBlock_repeat validated inBlock sameVersion sameIndex sameParent hashed valid,
    ok_bind, sameIndex, writeKeyImages_repeat keyImagesOk inBlock, ok_bind]
  obtain ⟨_, rfl⟩ := writeKeyImages_eq_ok.mp keyImagesOk
  -- the writes after the key images read neither the key images nor the block itself
  obtain ⟨tables, tablesOk, appended⟩ := bind_ok appended
  obtain ⟨⟨mintTxStore, mintConfigStore⟩, mintOk, appended⟩ := bind_ok appended
  obtain ⟨configStore, configOk, appended⟩ := bind_ok appended
  simp only [writeBlock, pure_eq_ok, Except.ok.injEq] at appended
  subst appended
  simp only [writeBlock, tablesOk, mintOk, configOk, ok_bind, sameIndex, put_put]
  rfl

end Repeated

theorem appendBlock_repeated_key_image_after_origin :
    ∃ s', appendBlock ⟨id, id, MerkleHasher.free, fun _ => true, (·.keyImages.length),
        fun _ => true, fun _ _ => true⟩
        ((appendBlock ⟨id, id, MerkleHasher.free, fun _ => true, (·.keyImages.length),
          fun _ => true, fun _ _ => true⟩ create ⟨1, 0, 0, 0, 0⟩ ⟨[], [5], [], []⟩ false).toOption.getD
          (create : LedgerDB Nat Nat Nat Nat (HashTree Nat) Nat Nat Nat))
        ⟨3, 0, 1, 1, 2⟩ ⟨[7, 7], [6], [], []⟩ false = .ok s' ∧
      s'.getKeyImagesByBlock 1 = .ok [7, 7] := by
  have appended : appendBlock ⟨id, id, MerkleHasher.free, fun _ => true, (·.keyImages.length),
      fun _ => true, fun _ _ => true⟩
      ((appendBlock ⟨id, id, MerkleHasher.free, fun _ => true, (·.keyImages.length),
        fun _ => true, fun _ _ => true⟩ create ⟨1, 0, 0, 0, 0⟩ ⟨[], [5], [], []⟩ false).toOption.getD
        (create : LedgerDB Nat Nat Nat Nat (HashTree Nat) Nat Nat Nat))
      ⟨2, 0, 1, 1, 1⟩ ⟨[7], [6], [], []⟩ false = .ok _ := rfl
  exact ⟨_, appendBlock_repeated_key_image appended List.mem_cons_self ⟨3, 0, 1, 1, 2⟩
    rfl rfl rfl rfl rfl, rfl⟩

end MobileCoin.LedgerDb.LedgerDB
