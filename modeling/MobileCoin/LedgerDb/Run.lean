import MobileCoin.LedgerDb.AppendBlock
import MobileCoin.LedgerDb.MintLimits

/-!
# Runs of the ledger

What every run of `append_block` calls from an empty ledger keeps.

The blocks form a chain: `validate_append_block` takes the origin block only into an empty
ledger, and any other block only at the index after the last block, naming the last block's id as
its parent and with a version no lower than the last block's; `write_block` stores it at its
index. The count of blocks is a `u64`, so the chain is stated below that count.

`write_key_images` refuses a key image that the committed ledger holds and records every key
image of the block, so along a run of `append_block` calls from an empty ledger the table of
spent key images holds exactly the key images of the blocks appended. A key image is therefore
never appended in two blocks; within one block the ledger does not look, and the key images of
the blocks appended are distinct exactly when each block's are.
-/

namespace MobileCoin.LedgerDb.LedgerDB

open Table MembershipProofs

variable {KI α K P H D S N : Type} {c : Crypto KI α K P H D S N}
  {s s' : LedgerDB KI α K P H D S N}

/-! ### The chain of blocks -/

section Chain

variable [Inhabited D]

/-- The blocks below the count: block `i` is stored with index `i`, block `0` is an origin block,
and each later block names the block before it as its parent, with a version at least its
parent's. -/
structure Chained (s : LedgerDB KI α K P H D S N) : Prop where
  fits : s.numBlocks < 2 ^ 64
  stored : ∀ i < s.numBlocks, ∃ b, s.blocks i = some b ∧ b.index = i
  origin : ∀ b, 0 < s.numBlocks → s.blocks 0 = some b → b.version = 0 ∧ b.parentId = default
  linked : ∀ i b b', i + 1 < s.numBlocks → s.blocks i = some b → s.blocks (i + 1) = some b' →
    b'.parentId = b.id ∧ b.version ≤ b'.version

theorem create_chained : (create : LedgerDB KI α K P H D S N).Chained where
  fits := by simp [LedgerDB.create]
  stored := by simp [LedgerDB.create]
  origin := by simp [LedgerDB.create]
  linked := by simp [LedgerDB.create]

theorem Chained.of_numBlocks_zero (zero : s.numBlocks = 0) : s.Chained where
  fits := by rw [zero]; norm_num
  stored := by simp [zero]
  origin := by simp [zero]
  linked := by simp [zero]

variable [DecidableEq D]

theorem validateBlockPosition_eq_ok {block : Block D} :
    validateBlockPosition s block = .ok () ↔
      (s.numBlocks = 0 ∧ block.version = 0 ∧ block.index = 0 ∧ block.parentId = default) ∨
      (s.numBlocks ≠ 0 ∧ ∃ last, s.blocks (s.numBlocks - 1) = some last ∧
        last.version ≤ block.version ∧ block.version ≤ maxBlockVersion ∧
        block.index = s.numBlocks ∧ block.parentId = last.id) := by
  unfold validateBlockPosition getBlock
  by_cases empty : s.numBlocks = 0
  · simp [empty]
  · cases last : s.blocks (s.numBlocks - 1) <;> simp [empty, last, and_assoc]

end Chain

/-! ### Runs -/

/-- The ledgers that a run of `append_block` calls reaches from an empty ledger, with the contents
of the blocks it appended, the last one first. Failed calls leave the ledger as it was and append
nothing. -/
inductive Appended [Inhabited D] [DecidableEq D] [DecidableEq S] [DecidableEq N] [DecidableEq KI]
    [DecidableEq K] [DecidableEq P] (c : Crypto KI α K P H D S N) :
    LedgerDB KI α K P H D S N → List (BlockContents KI α S N) → Prop
  | create : Appended c create []
  | append {s s' : LedgerDB KI α K P H D S N} {appended : List (BlockContents KI α S N)}
      {block : Block D} {contents : BlockContents KI α S N} {hasMetadata : Bool} :
      Appended c s appended → appendBlock c s block contents hasMetadata = .ok s' →
      Appended c s' (contents :: appended)

/-- The key images of the blocks appended, the last block's first. -/
def spentKeyImages (appended : List (BlockContents KI α S N)) : List KI :=
  appended.flatMap (·.keyImages)

@[simp] theorem spentKeyImages_nil : spentKeyImages ([] : List (BlockContents KI α S N)) = [] := rfl

@[simp] theorem spentKeyImages_cons (contents : BlockContents KI α S N)
    (appended : List (BlockContents KI α S N)) :
    spentKeyImages (contents :: appended) = contents.keyImages ++ spentKeyImages appended :=
  List.flatMap_cons

variable [Inhabited D] [DecidableEq D] [DecidableEq S] [DecidableEq N] [DecidableEq KI]
  [DecidableEq K] [DecidableEq P]

/-- What `append_block` does to the blocks: the block passed the position checks, and it is
stored at its index as the count goes up by one. -/
theorem appendBlock_blocks {block : Block D} {contents : BlockContents KI α S N}
    {hasMetadata : Bool} (appended : appendBlock c s block contents hasMetadata = .ok s') :
    validateBlockPosition s block = .ok () ∧ s'.numBlocks = (s.numBlocks + 1) % 2 ^ 64 ∧
      s'.blocks = put s.blocks block.index block := by
  unfold appendBlock at appended
  obtain ⟨validated, appended⟩ := bind_unit_ok_iff.mp appended
  obtain ⟨position, -⟩ := validateAppendBlock_eq_ok.mp validated
  obtain ⟨⟨keyImages, keyImagesByBlock⟩, -, appended⟩ := bind_ok appended
  obtain ⟨tables, -, appended⟩ := bind_ok appended
  obtain ⟨⟨mintTxStore, mintConfigStore⟩, -, appended⟩ := bind_ok appended
  obtain ⟨configStore, -, appended⟩ := bind_ok appended
  simp only [writeBlock, pure_eq_ok, Except.ok.injEq] at appended
  subst appended
  exact ⟨position, rfl, rfl⟩

theorem Chained.append (chained : s.Chained) {block : Block D} {contents : BlockContents KI α S N}
    {hasMetadata : Bool} (appended : appendBlock c s block contents hasMetadata = .ok s') :
    s'.Chained := by
  obtain ⟨position, counted, stored⟩ := appendBlock_blocks appended
  by_cases wrapped : s.numBlocks + 1 = 2 ^ 64
  · exact Chained.of_numBlocks_zero (by rw [counted, wrapped, Nat.mod_self])
  have count : s'.numBlocks = s.numBlocks + 1 := by
    rw [counted, Nat.mod_eq_of_lt (by have := chained.fits; omega)]
  -- the block goes at index `numBlocks`, and the blocks below it stay
  have atEnd : block.index = s.numBlocks := by
    rcases validateBlockPosition_eq_ok.mp position with ⟨empty, -, index, -⟩ | ⟨-, -, -, -, -, index, -⟩
    · rw [index, empty]
    · exact index
  have below : ∀ i < s.numBlocks, s'.blocks i = s.blocks i := fun i lt => by
    rw [stored, put_other _ _ (by omega)]
  have last : s'.blocks s.numBlocks = some block := by rw [stored, atEnd, put_same]
  refine ⟨by have := chained.fits; omega, fun i lt => ?_, fun b positive first => ?_,
    fun i b b' lt earlier later => ?_⟩
  · -- stored
    rcases Nat.lt_succ_iff_lt_or_eq.mp (count ▸ lt) with lt | rfl
    · rw [below i lt]
      exact chained.stored i lt
    · exact ⟨block, last, atEnd⟩
  · -- origin
    by_cases empty : s.numBlocks = 0
    · rw [← empty, last] at first
      cases first
      rcases validateBlockPosition_eq_ok.mp position with ⟨-, version, -, parent⟩ | ⟨nonempty, -⟩
      · exact ⟨version, parent⟩
      · exact absurd empty nonempty
    · rw [below 0 (by omega)] at first
      exact chained.origin b (by omega) first
  · -- linked
    rcases Nat.lt_succ_iff_lt_or_eq.mp (count ▸ lt) with lt | next
    · rw [below i (by omega)] at earlier
      rw [below (i + 1) lt] at later
      exact chained.linked i b b' lt earlier later
    · -- the new block names the last block as its parent
      rw [next, last] at later
      cases later
      rw [below i (by omega)] at earlier
      rcases validateBlockPosition_eq_ok.mp position with ⟨empty, -⟩ | ⟨-, previous, found, version, -, -, parent⟩
      · omega
      · have same : s.numBlocks - 1 = i := by omega
        rw [same, earlier] at found
        cases found
        exact ⟨parent, version⟩

theorem Reachable.chained (reached : Reachable c s) : s.Chained := by
  induction reached with
  | create => exact create_chained
  | append _ appended chained => exact chained.append appended

theorem chained_after_two_blocks :
    ∃ s : LedgerDB ℕ ℕ ℕ ℕ (HashTree ℕ) ℕ ℕ ℕ,
      Reachable ⟨id, id, MerkleHasher.free, fun _ => true, (·.keyImages.length), fun _ => true,
        fun _ _ => true⟩ s ∧ s.numBlocks = 2 ∧ s.Chained := by
  -- the origin block, then block 1 spending key image 7
  let c : Crypto ℕ ℕ ℕ ℕ (HashTree ℕ) ℕ ℕ ℕ :=
    ⟨id, id, MerkleHasher.free, fun _ => true, (·.keyImages.length), fun _ => true, fun _ _ => true⟩
  let s₁ := (appendBlock c create ⟨1, 0, 0, 0, 0⟩ ⟨[], [5], [], []⟩ false).toOption.getD create
  have origin : appendBlock c create ⟨1, 0, 0, 0, 0⟩ ⟨[], [5], [], []⟩ false = .ok s₁ := rfl
  obtain ⟨s₂, next⟩ : ∃ s₂, appendBlock c s₁ ⟨2, 0, 1, 1, 1⟩ ⟨[7], [6], [], []⟩ false = .ok s₂ := by
    dsimp only [c, s₁]
    exact ⟨_, rfl⟩
  have reached : Reachable c s₂ := .append (.append .create origin) next
  have counted : s₁.numBlocks = 1 := rfl
  refine ⟨s₂, reached, ?_, Reachable.chained reached⟩
  rw [(appendBlock_blocks next).2.1, counted]
  rfl

/-- What `append_block` does to the spent key images: none of the block's was spent, and all of
them are spent at the block's index after it. -/
theorem appendBlock_keyImages {block : Block D} {contents : BlockContents KI α S N}
    {hasMetadata : Bool} (appended : appendBlock c s block contents hasMetadata = .ok s') :
    (∀ keyImage ∈ contents.keyImages, s.keyImages keyImage = none) ∧
      s'.keyImages = fun keyImage =>
        if keyImage ∈ contents.keyImages then some block.index else s.keyImages keyImage := by
  unfold appendBlock at appended
  obtain ⟨-, appended⟩ := bind_unit_ok_iff.mp appended
  obtain ⟨written, keyImagesOk, appended⟩ := bind_ok appended
  obtain ⟨unspent, rfl⟩ := writeKeyImages_eq_ok.mp keyImagesOk
  obtain ⟨tables, -, appended⟩ := bind_ok appended
  obtain ⟨⟨mintTxStore, mintConfigStore⟩, -, appended⟩ := bind_ok appended
  obtain ⟨configStore, -, appended⟩ := bind_ok appended
  simp only [writeBlock, pure_eq_ok, Except.ok.injEq] at appended
  subst appended
  exact ⟨unspent, rfl⟩

theorem Appended.reachable {appended : List (BlockContents KI α S N)}
    (run : Appended c s appended) : Reachable c s := by
  induction run with
  | create => exact .create
  | append _ step reached => exact .append reached step

theorem Appended.spent {appended : List (BlockContents KI α S N)} (run : Appended c s appended)
    (keyImage : KI) : (s.keyImages keyImage).isSome ↔ keyImage ∈ spentKeyImages appended := by
  induction run with
  | create => simp [LedgerDB.create]
  | @append s s' appended block contents hasMetadata _ step spent =>
    rw [(appendBlock_keyImages step).2, spentKeyImages_cons, List.mem_append, ← spent]
    by_cases inBlock : keyImage ∈ contents.keyImages <;> simp [inBlock]

/-- No key image is appended in two blocks, so the key images of the blocks appended are distinct
when each block's are. -/
theorem Appended.nodup {appended : List (BlockContents KI α S N)} (run : Appended c s appended)
    (each : ∀ contents ∈ appended, contents.keyImages.Nodup) :
    (spentKeyImages appended).Nodup := by
  induction run with
  | create => exact List.nodup_nil
  | @append s s' appended block contents hasMetadata before step ih =>
    have unspent := (appendBlock_keyImages step).1
    rw [spentKeyImages_cons, List.nodup_append]
    refine ⟨each contents List.mem_cons_self,
      ih fun other mem => each other (List.mem_cons_of_mem _ mem), ?_⟩
    -- a key image of the block was not spent before it, so no earlier block has it
    intro keyImage inBlock earlier inEarlier same
    subst same
    have spentBefore := (before.spent keyImage).mpr inEarlier
    rw [unspent keyImage inBlock] at spentBefore
    cases spentBefore

end MobileCoin.LedgerDb.LedgerDB
