import Mathlib
import MobileCoin.Lib.Table
import MobileCoin.Lib.TreeIndex

/-!
# `OcallORAMStorage`

`mc_fog_ocall_oram_storage_trusted::OcallORAMStorage` keeps an ORAM tree of `count` blocks, each
with its metadata. The top of the tree, below `treetop_max_count`, is a `HeapORAMStorage` in the
enclave; the rest is kept by the untrusted host and reached over OCALLs. A block leaving the
enclave is encrypted with AES-CTR under a nonce made of its index and a per-block counter, and its
metadata is extended with an `ExtraMeta`: the counter and the hashes of its two children. The
enclave keeps, for each untrusted block whose parent is in the treetop, the hash of that block in
`trusted_merkle_roots`.

The secret `aes_key` and `hash_key` are the functions they key (`Keys`). What untrusted writes
back on a checkout is an argument: any function from the indices it is asked for to a data block
and an extended metadata block. A panic is `none`.
-/

namespace MobileCoin.OramStorage

open TreeIndex Table

/-- The counter and child hashes appended to the metadata of an untrusted block. -/
structure ExtraMeta (H : Type) where
  blockCtr : UInt64
  leftChildHash : H
  rightChildHash : H
  deriving DecidableEq, Repr

/-- The metadata an untrusted block is kept with: the caller's metadata, encrypted, and the
`ExtraMeta` in the clear. -/
structure ExtendedMeta (M H : Type) where
  metadata : M
  extraMeta : ExtraMeta H
  deriving DecidableEq, Repr

variable {D M H : Type}

instance [Inhabited H] : Inhabited (ExtraMeta H) := ⟨⟨0, default, default⟩⟩

instance [Inhabited M] [Inhabited H] : Inhabited (ExtendedMeta M H) := ⟨⟨default, default⟩⟩

namespace ExtraMeta

/-- The hash recorded for the child `childIdx`: the left child's when `childIdx` is even. -/
def childHash (extraMeta : ExtraMeta H) (childIdx : Nat) : H :=
  if childIdx &&& 1 = 0 then extraMeta.leftChildHash else extraMeta.rightChildHash

def setChildHash (extraMeta : ExtraMeta H) (childIdx : Nat) (hash : H) : ExtraMeta H :=
  if childIdx &&& 1 = 0 then { extraMeta with leftChildHash := hash }
  else { extraMeta with rightChildHash := hash }

@[simp] theorem childHash_setChildHash_self (extraMeta : ExtraMeta H) (childIdx : Nat) (hash : H) :
    (extraMeta.setChildHash childIdx hash).childHash childIdx = hash := by
  unfold setChildHash childHash
  split_ifs <;> rfl

theorem childHash_setChildHash_sibling (extraMeta : ExtraMeta H) {childIdx sibling : Nat}
    (differs : sibling ≠ childIdx) (same : sibling / 2 = childIdx / 2) (hash : H) :
    (extraMeta.setChildHash childIdx hash).childHash sibling = extraMeta.childHash sibling := by
  unfold setChildHash childHash
  simp only [Nat.and_one_is_mod]
  -- two children of one parent have opposite parities
  by_cases left : childIdx % 2 = 0
  · have right : sibling % 2 ≠ 0 := by omega
    simp [left, right]
  · have right : sibling % 2 = 0 := by omega
    simp [left, right]

@[simp] theorem childHash_withBlockCtr (extraMeta : ExtraMeta H) (blockCtr : UInt64) (childIdx : Nat) :
    ({ extraMeta with blockCtr } : ExtraMeta H).childHash childIdx = extraMeta.childHash childIdx := rfl

@[simp] theorem blockCtr_setChildHash (extraMeta : ExtraMeta H) (childIdx : Nat) (hash : H) :
    (extraMeta.setChildHash childIdx hash).blockCtr = extraMeta.blockCtr := by
  unfold setChildHash
  split_ifs <;> rfl

end ExtraMeta

/-- The storage's secret keys, as the functions they key. -/
structure Keys (D M H : Type) where
  /-- `Aes256Ctr` under `aes_key` and the nonce `make_aes_nonce(block_idx, block_ctr)`, applied
  to a block's data and then to its metadata. -/
  applyKeystream : Nat → UInt64 → D × M → D × M
  /-- `compute_block_hash(hash_key, e_data, block_idx, extended_metadata)`. -/
  computeBlockHash : D → Nat → ExtendedMeta M H → H

/-! ### `HeapORAMStorage` -/

/-- `mc_oblivious_traits::HeapORAMStorage`: every block and its metadata in enclave memory. The
number of blocks is left out: the storage is only used at indices below it. -/
structure HeapORAMStorage (D M : Type) where
  data : Nat → D × M

namespace HeapORAMStorage

/-- A storage of zeroed blocks. -/
def new [Inhabited D] [Inhabited M] : HeapORAMStorage D M := ⟨fun _ => default⟩

/-- Copies out the blocks on the path from `leafIndex` to the root. -/
def checkout (self : HeapORAMStorage D M) (leafIndex : Nat) : List (D × M) :=
  (parents leafIndex).map self.data

/-- Writes `src[n]` back at the `n`-th block of the path from `leafIndex` to the root. -/
def checkin (self : HeapORAMStorage D M) (leafIndex : Nat) (src : List (D × M)) :
    HeapORAMStorage D M :=
  ⟨writeAll self.data (parents leafIndex) src⟩

@[simp] theorem data_checkin (self : HeapORAMStorage D M) (leafIndex : Nat) (src : List (D × M)) :
    (self.checkin leafIndex src).data = writeAll self.data (parents leafIndex) src := rfl

end HeapORAMStorage

/-! ### `OcallORAMStorage` -/

structure OcallORAMStorage (D M H : Type) where
  count : Nat
  treetopMaxCount : Nat
  two_le_treetopMaxCount : 2 ≤ treetopMaxCount
  treetop : HeapORAMStorage D M
  /-- Indexed by the tree index of an untrusted block whose parent is in the treetop. -/
  trustedMerkleRoots : Nat → H
  metaScratchBuffer : List (ExtendedMeta M H)

/-- `max(2, (1u64 << TREETOP_CACHING_THRESHOLD_LOG2) / DataSize::U64)`. -/
def treetopMaxCountOf (treetopCachingThresholdLog2 : UInt32) (dataSize : UInt64) : Nat :=
  max 2 (((1 : UInt64) <<< treetopCachingThresholdLog2.toUInt64) / dataSize).toNat

def resizeWith {α : Type} [Inhabited α] (n : Nat) (l : List α) : List α :=
  l.take n ++ List.replicate (n - l.length) default

@[simp] theorem length_resizeWith {α : Type} [Inhabited α] (n : Nat) (l : List α) :
    (resizeWith n l).length = n := by
  simp only [resizeWith, List.length_append, List.length_take, List.length_replicate]
  omega

namespace OcallORAMStorage

variable [Inhabited D] [Inhabited M] [Inhabited H] [DecidableEq M] [DecidableEq H]

/-- `OcallORAMStorage::new`, given the tree-top caching threshold it loads and the id untrusted
answers to `allocate_ocall`, which is only asked when the tree does not fit in the treetop. -/
def new (count : Nat) (treetopCachingThresholdLog2 : UInt32) (dataSize allocationId : UInt64) :
    Option (OcallORAMStorage D M H) := do
  if count = 0 then none
  -- "count must be a power of two"
  if count &&& (count - 1) ≠ 0 then none
  let treetopMaxCount := treetopMaxCountOf treetopCachingThresholdLog2 dataSize
  -- "Untrusted could not allocate storage!"
  if treetopMaxCount < count ∧ allocationId = 0 then none
  pure {
    count
    treetopMaxCount
    two_le_treetopMaxCount := le_max_left _ _
    treetop := HeapORAMStorage.new
    trustedMerkleRoots := fun _ => default
    metaScratchBuffer := [] }

/-! #### `checkout` -/

/-- The hash a block carries up to its parent in `checkout`: the zero hash for a block untrusted
returned with zeroed metadata, `compute_block_hash` of it otherwise. -/
def carriedHash (keys : Keys D M H) (blockIdx : Nat) (block : D × ExtendedMeta M H) : H :=
  if block.2 = default then default else keys.computeBlockHash block.1 blockIdx block.2

/-- A block's data and metadata decrypted under the counter its extra metadata records. -/
def decrypt (keys : Keys D M H) (blockIdx : Nat) (block : D × ExtendedMeta M H) : D × M :=
  keys.applyKeystream blockIdx block.2.extraMeta.blockCtr (block.1, block.2.metadata)

/-- What `checkout` hands the caller for a block untrusted returned: zeroes for zeroed metadata,
the decryption otherwise. -/
def openBlock (keys : Keys D M H) (blockIdx : Nat) (block : D × ExtendedMeta M H) : D × M :=
  if block.2 = default then default else decrypt keys blockIdx block

/-- One round of the loop of `checkout`, at the untrusted block `blockIdx` returned as `eData`
and `extendedMeta`, after the round that carried `lastHash` up from the child below: the hash
carried up from this block, the block handed to the caller, and the scratch buffer entry. -/
def checkoutBlock (keys : Keys D M H) (lastHash : Option (Nat × H)) (blockIdx : Nat) (eData : D)
    (extendedMeta : ExtendedMeta M H) : Option (Option (Nat × H) × (D × M) × ExtendedMeta M H) :=
  if extendedMeta = default then some (some (blockIdx, default), default, extendedMeta)
  else
    let thisBlockHash := keys.computeBlockHash eData blockIdx extendedMeta
    let childChecked := match lastHash with
      | none => true
      | some (lastIdx, lastHash) => lastHash == extendedMeta.extraMeta.childHash lastIdx
    if childChecked then
      let (data, metadata) :=
        keys.applyKeystream blockIdx extendedMeta.extraMeta.blockCtr (eData, extendedMeta.metadata)
      some (some (blockIdx, thisBlockHash), (data, metadata), { extendedMeta with metadata })
    else none

/-- The loop of `checkout` over the untrusted blocks of the path, from the bottom up. -/
def checkoutPath (keys : Keys D M H) :
    Option (Nat × H) → List (Nat × D × ExtendedMeta M H) →
      Option (Option (Nat × H) × List (D × M) × List (ExtendedMeta M H))
  | lastHash, [] => some (lastHash, [], [])
  | lastHash, (blockIdx, eData, extendedMeta) :: rest => do
    let (lastHash, block, scratch) ← checkoutBlock keys lastHash blockIdx eData extendedMeta
    let (lastHash, blocks, scratches) ← checkoutPath keys lastHash rest
    pure (lastHash, block :: blocks, scratch :: scratches)

/-- What `checkout_ocall` leaves in `dest` and the scratch buffer when asked for the untrusted
`indices`, each less `treetop_max_count`, read back against the tree index. -/
def checkoutOcallAt (checkoutOcall : Nat → D × ExtendedMeta M H) (treetopMaxCount : Nat)
    (indices : List Nat) : List (Nat × D × ExtendedMeta M H) :=
  indices.map fun idx => (idx, checkoutOcall (idx - treetopMaxCount))

/-- The part of `checkout` past the treetop: the untrusted blocks of the path checked and
decrypted from the bottom up, and the hash carried out of the last one checked against its
trusted merkle root. -/
def checkoutUntrusted (keys : Keys D M H) (self : OcallORAMStorage D M H) (indices : List Nat)
    (checkoutOcall : Nat → D × ExtendedMeta M H) :
    Option (List (ExtendedMeta M H) × List (D × M)) := do
  let returned := checkoutOcallAt checkoutOcall self.treetopMaxCount indices
  let (lastHash, lower, metaScratchBuffer) ← checkoutPath keys none returned
  let (lastIdx, lastHash) ← lastHash
  -- "authentication failed, trusted merkle root mismatch"
  if self.trustedMerkleRoots lastIdx ≠ lastHash then none
  pure (metaScratchBuffer, lower)

/-- `ORAMStorage::checkout`: the blocks on the path from `index` to the root. -/
def checkout (keys : Keys D M H) (self : OcallORAMStorage D M H) (index : Nat)
    (checkoutOcall : Nat → D × ExtendedMeta M H) :
    Option (OcallORAMStorage D M H × List (D × M)) := do
  -- "0 is not a valid TreeIndex"
  if index = 0 then none
  if self.count ≤ index then none
  let indices := parents index
  let firstTreetopIndex ← indices.findIdx? (· < self.treetopMaxCount)
  let top ← indices[firstTreetopIndex]?
  let upper := self.treetop.checkout top
  if firstTreetopIndex = 0 then return (self, upper)
  let (metaScratchBuffer, lower) ←
    self.checkoutUntrusted keys (indices.take firstTreetopIndex) checkoutOcall
  return ({ self with metaScratchBuffer }, lower ++ upper)

/-! #### What a checkout checks

`checkout` succeeds exactly when every untrusted block with nonzero metadata records, for the
child below it on the path, the hash carried up from that child, and the hash carried out of the
last untrusted block is its trusted merkle root. A block untrusted returns with zeroed metadata
is not checked against the hash carried up to it. -/

/-- The scratch buffer entry `checkout` leaves for a block untrusted returned: the extended
metadata with the caller's metadata decrypted, or the zeroed metadata as it came. -/
def scratchEntry (keys : Keys D M H) (blockIdx : Nat) (block : D × ExtendedMeta M H) :
    ExtendedMeta M H :=
  if block.2 = default then block.2 else { block.2 with metadata := (openBlock keys blockIdx block).2 }

/-- The check `checkout` makes of a block untrusted returned, against the hash carried up from
the block below it. -/
def ChildChecked (lastHash : Option (Nat × H)) (extendedMeta : ExtendedMeta M H) : Prop :=
  match lastHash with
  | none => True
  | some (lastIdx, hash) => extendedMeta ≠ default → hash = extendedMeta.extraMeta.childHash lastIdx

/-- Every block of a path, from the bottom up, passes its check. -/
def PathChecked (keys : Keys D M H) : Option (Nat × H) → List (Nat × D × ExtendedMeta M H) → Prop
  | _, [] => True
  | lastHash, (blockIdx, block) :: rest =>
    ChildChecked lastHash block.2 ∧ PathChecked keys (some (blockIdx, carriedHash keys blockIdx block)) rest

/-- The hash carried out of the last block of a path. -/
def lastCarried (keys : Keys D M H) (lastHash : Option (Nat × H))
    (blocks : List (Nat × D × ExtendedMeta M H)) : Option (Nat × H) :=
  match blocks.getLast? with
  | some (blockIdx, block) => some (blockIdx, carriedHash keys blockIdx block)
  | none => lastHash

@[simp] theorem scratchEntry_extraMeta (keys : Keys D M H) (blockIdx : Nat)
    (block : D × ExtendedMeta M H) : (scratchEntry keys blockIdx block).extraMeta = block.2.extraMeta := by
  unfold scratchEntry
  split_ifs <;> rfl

omit [Inhabited D] in
theorem carriedHash_of_ne_default (keys : Keys D M H) (blockIdx : Nat) {block : D × ExtendedMeta M H}
    (nonzero : block.2 ≠ default) :
    carriedHash keys blockIdx block = keys.computeBlockHash block.1 blockIdx block.2 := by
  simp [carriedHash, nonzero]

omit [Inhabited D] in
theorem lastCarried_cons (keys : Keys D M H) (lastHash : Option (Nat × H))
    (blockIdx : Nat) (block : D × ExtendedMeta M H) (rest : List (Nat × D × ExtendedMeta M H)) :
    lastCarried keys lastHash ((blockIdx, block) :: rest) =
      lastCarried keys (some (blockIdx, carriedHash keys blockIdx block)) rest := by
  unfold lastCarried
  cases rest with
  | nil => rfl
  | cons next rest =>
    rw [List.getLast?_cons_cons]
    cases found : (next :: rest).getLast? with
    | none => simp at found
    | some last => rfl

theorem checkoutBlock_eq_some {keys : Keys D M H} {lastHash : Option (Nat × H)} {blockIdx : Nat}
    {eData : D} {extendedMeta : ExtendedMeta M H}
    {result : Option (Nat × H) × (D × M) × ExtendedMeta M H} :
    checkoutBlock keys lastHash blockIdx eData extendedMeta = some result ↔
      ChildChecked lastHash extendedMeta ∧
        result = (some (blockIdx, carriedHash keys blockIdx (eData, extendedMeta)),
          openBlock keys blockIdx (eData, extendedMeta), scratchEntry keys blockIdx (eData, extendedMeta)) := by
  unfold checkoutBlock
  by_cases zero : extendedMeta = default
  · cases lastHash <;> simp [zero, ChildChecked, carriedHash, openBlock, scratchEntry, eq_comm]
  · rcases lastHash with _ | ⟨lastIdx, hash⟩
    · simp [zero, ChildChecked, carriedHash, openBlock, decrypt, scratchEntry, eq_comm]
    · by_cases recorded : hash = extendedMeta.extraMeta.childHash lastIdx
      · simp [zero, ChildChecked, carriedHash, openBlock, decrypt, scratchEntry, recorded, eq_comm]
      · simp [zero, ChildChecked, recorded]

theorem checkoutPath_cons (keys : Keys D M H) (lastHash : Option (Nat × H)) (blockIdx : Nat)
    (eData : D) (extendedMeta : ExtendedMeta M H) (rest : List (Nat × D × ExtendedMeta M H)) :
    checkoutPath keys lastHash ((blockIdx, eData, extendedMeta) :: rest) =
      (checkoutBlock keys lastHash blockIdx eData extendedMeta).bind fun round =>
        (checkoutPath keys round.1 rest).bind fun later =>
          some (later.1, round.2.1 :: later.2.1, round.2.2 :: later.2.2) := rfl

theorem checkoutPath_eq_some {keys : Keys D M H} {lastHash : Option (Nat × H)}
    {blocks : List (Nat × D × ExtendedMeta M H)}
    {result : Option (Nat × H) × List (D × M) × List (ExtendedMeta M H)} :
    checkoutPath keys lastHash blocks = some result ↔
      PathChecked keys lastHash blocks ∧
        result = (lastCarried keys lastHash blocks, blocks.map (fun b => openBlock keys b.1 b.2),
          blocks.map (fun b => scratchEntry keys b.1 b.2)) := by
  induction blocks generalizing lastHash result with
  | nil => simp [checkoutPath, PathChecked, lastCarried, eq_comm]
  | cons entry rest ih =>
    obtain ⟨blockIdx, eData, extendedMeta⟩ := entry
    rw [checkoutPath_cons, Option.bind_eq_some_iff]
    simp only [Option.bind_eq_some_iff, Option.some.injEq, checkoutBlock_eq_some, ih, PathChecked,
      lastCarried_cons, List.map_cons]
    constructor
    · rintro ⟨_, ⟨checked, rfl⟩, _, ⟨restChecked, rfl⟩, rfl⟩
      exact ⟨⟨checked, restChecked⟩, rfl⟩
    · rintro ⟨⟨checked, restChecked⟩, rfl⟩
      exact ⟨_, ⟨checked, rfl⟩, _, ⟨restChecked, rfl⟩, rfl⟩

/-- The root check: the last untrusted block returned carries out its trusted merkle root. -/
def RootChecked (keys : Keys D M H) (self : OcallORAMStorage D M H)
    (returned : List (Nat × D × ExtendedMeta M H)) : Prop :=
  match returned.getLast? with
  | some (lastIdx, block) => self.trustedMerkleRoots lastIdx = carriedHash keys lastIdx block
  | none => False

theorem checkoutUntrusted_eq_some {keys : Keys D M H} {self : OcallORAMStorage D M H}
    {indices : List Nat} {checkoutOcall : Nat → D × ExtendedMeta M H}
    {result : List (ExtendedMeta M H) × List (D × M)} :
    self.checkoutUntrusted keys indices checkoutOcall = some result ↔
      let returned := checkoutOcallAt checkoutOcall self.treetopMaxCount indices
      PathChecked keys none returned ∧ RootChecked keys self returned ∧
        result = (returned.map (fun b => scratchEntry keys b.1 b.2),
          returned.map (fun b => openBlock keys b.1 b.2)) := by
  unfold checkoutUntrusted RootChecked
  simp only [Option.bind_eq_bind, Option.bind_eq_some_iff, Prod.exists, checkoutPath_eq_some]
  cases last : (checkoutOcallAt checkoutOcall self.treetopMaxCount indices).getLast? with
  | none => simp [lastCarried, last]
  | some top =>
    obtain ⟨lastIdx, block⟩ := top
    by_cases root : self.trustedMerkleRoots lastIdx = carriedHash keys lastIdx block
    · simp [lastCarried, last, root, eq_comm]
    · simp [lastCarried, last, root]

omit [Inhabited D] [Inhabited M] [Inhabited H] [DecidableEq M] [DecidableEq H] in
/-- The first treetop index: the nodes of the path before it are kept by untrusted, the node at it
and, as the path decreases, every node after it are in the treetop. -/
theorem findIdx?_parents {index treetopMaxCount first : Nat}
    (found : (parents index).findIdx? (· < treetopMaxCount) = some first) :
    ∃ inside : first < (parents index).length, (parents index)[first] < treetopMaxCount ∧
      ∀ j (earlier : j < first), treetopMaxCount ≤ (parents index)[j] := by
  obtain ⟨inside, top, below⟩ := List.findIdx?_eq_some_iff_getElem.mp found
  refine ⟨inside, by simpa using top, fun j earlier => ?_⟩
  simpa using below j earlier

omit [Inhabited D] [Inhabited M] [Inhabited H] [DecidableEq M] [DecidableEq H] in
/-- Every path reaches the root `1`, which is in the treetop: the search for the first treetop
index always finds one. -/
theorem exists_findIdx?_parents {index treetopMaxCount : Nat} (pos : 0 < index)
    (root : 1 < treetopMaxCount) :
    ∃ first, (parents index).findIdx? (· < treetopMaxCount) = some first := by
  apply Option.isSome_iff_exists.mp
  rw [List.findIdx?_isSome, List.any_eq_true]
  exact ⟨1, one_mem_parents pos, by simp; omega⟩

/-- `checkout` succeeds exactly on a valid index, where it returns the untrusted part of the path
as `checkoutUntrusted` opens it, followed by the treetop part. -/
theorem checkout_eq_some {keys : Keys D M H} {self self' : OcallORAMStorage D M H} {index : Nat}
    {checkoutOcall : Nat → D × ExtendedMeta M H} {outputs : List (D × M)} :
    self.checkout keys index checkoutOcall = some (self', outputs) ↔
      0 < index ∧ index < self.count ∧
        ∃ first, (parents index).findIdx? (· < self.treetopMaxCount) = some first ∧
          ((first = 0 ∧ self' = self ∧ outputs = self.treetop.checkout index) ∨
            (0 < first ∧ ∃ metaScratchBuffer lower,
              self.checkoutUntrusted keys ((parents index).take first) checkoutOcall =
                some (metaScratchBuffer, lower) ∧
              self' = { self with metaScratchBuffer } ∧
              outputs = lower ++ ((parents index).drop first).map self.treetop.data)) := by
  unfold checkout
  by_cases zero : index = 0
  · simp [zero]
  by_cases outside : self.count ≤ index
  · simp [zero, outside]
  have pos : 0 < index := Nat.pos_of_ne_zero zero
  have inside : index < self.count := Nat.lt_of_not_le outside
  cases found : (parents index).findIdx? (· < self.treetopMaxCount) with
  | none => simp [zero, outside, found]
  | some first =>
    have onPath : first < (parents index).length := (List.findIdx?_eq_some_iff_getElem.mp found).1
    have path := parents_getElem onPath
    by_cases top : first = 0
    · subst top
      simp [zero, outside, found, pos, inside, List.getElem?_eq_getElem onPath, path,
        HeapORAMStorage.checkout, eq_comm]
    · simp [zero, outside, found, pos, inside, List.getElem?_eq_getElem onPath, path, top,
        HeapORAMStorage.checkout, Nat.pos_of_ne_zero top, Option.bind_eq_some_iff]
      constructor <;> rintro ⟨metaScratchBuffer, lower, opened, rfl, rfl⟩ <;>
        exact ⟨metaScratchBuffer, lower, opened, rfl, rfl⟩

/-! #### `checkin` -/

/-- One round of the loop of `checkin` at `blockIdx`: the caller's block encrypted under the next
counter, with the scratch entry's extra metadata and the hash carried up from the child below. -/
def checkinBlock (keys : Keys D M H) (lastHash : Option (Nat × H)) (blockIdx : Nat) (src : D × M)
    (scratch : ExtendedMeta M H) : D × ExtendedMeta M H :=
  let extraMeta := match lastHash with
    | none => scratch.extraMeta
    | some (lastIdx, lastHash) => scratch.extraMeta.setChildHash lastIdx lastHash
  let extraMeta := { extraMeta with blockCtr := extraMeta.blockCtr + 1 }
  let (eData, eMeta) := keys.applyKeystream blockIdx extraMeta.blockCtr src
  (eData, ⟨eMeta, extraMeta⟩)

/-- The loop of `checkin` over the untrusted blocks of the path, from the bottom up: each block
sealed, and the hash of the last one. -/
def checkinPath (keys : Keys D M H) :
    Option (Nat × H) → List (Nat × (D × M) × ExtendedMeta M H) →
      Option (Nat × H) × List (D × ExtendedMeta M H)
  | lastHash, [] => (lastHash, [])
  | lastHash, (blockIdx, src, scratch) :: rest =>
    let sealed := checkinBlock keys lastHash blockIdx src scratch
    let (lastHash, sealedRest) :=
      checkinPath keys (some (blockIdx, keys.computeBlockHash sealed.1 blockIdx sealed.2)) rest
    (lastHash, sealed :: sealedRest)

/-- The part of `checkin` past the treetop: the untrusted blocks of the path sealed from the
bottom up, the hash of the last one, the scratch buffer left behind, and what `checkin_ocall`
sends untrusted, indexed less `treetop_max_count`. -/
def checkinUntrusted (keys : Keys D M H) (self : OcallORAMStorage D M H) (indices : List Nat)
    (src : List (D × M)) :
    Option (Nat × H × List (ExtendedMeta M H) × List (Nat × D × ExtendedMeta M H)) := do
  let scratch := resizeWith indices.length self.metaScratchBuffer
  let (lastHash, sealed) := checkinPath keys none (indices.zip (src.zip scratch))
  let (lastIdx, lastHash) ← lastHash
  pure (lastIdx, lastHash, sealed.map Prod.snd,
    indices.zipWith (fun idx block => (idx - self.treetopMaxCount, block)) sealed)

/-- `ORAMStorage::checkin`: writes `src` back along the path from `index` to the root, and
returns what `checkin_ocall` sends untrusted. -/
def checkin (keys : Keys D M H) (self : OcallORAMStorage D M H) (index : Nat) (src : List (D × M)) :
    Option (OcallORAMStorage D M H × List (Nat × D × ExtendedMeta M H)) := do
  if index = 0 then none
  if self.count ≤ index then none
  let indices := parents index
  if indices.length ≠ src.length then none
  let firstTreetopIndex ← indices.findIdx? (· < self.treetopMaxCount)
  let top ← indices[firstTreetopIndex]?
  let treetop := self.treetop.checkin top (src.drop firstTreetopIndex)
  if firstTreetopIndex = 0 then return ({ self with treetop }, [])
  let (lastIdx, lastHash, metaScratchBuffer, sent) ←
    self.checkinUntrusted keys (indices.take firstTreetopIndex) src
  return ({ self with
      treetop
      trustedMerkleRoots := Function.update self.trustedMerkleRoots lastIdx lastHash
      metaScratchBuffer }, sent)

/-! #### What a checkin writes -/

section Sealing

omit [Inhabited D] [Inhabited M] [Inhabited H] [DecidableEq M] [DecidableEq H]

variable (keys : Keys D M H)

theorem decrypt_checkinBlock (involutive : ∀ blockIdx blockCtr,
      Function.Involutive (keys.applyKeystream blockIdx blockCtr))
    (lastHash : Option (Nat × H)) (blockIdx : Nat) (src : D × M) (scratch : ExtendedMeta M H) :
    decrypt keys blockIdx (checkinBlock keys lastHash blockIdx src scratch) = src :=
  involutive _ _ src

theorem childHash_checkinBlock_self (childIdx : Nat) (hash : H) (blockIdx : Nat) (src : D × M)
    (scratch : ExtendedMeta M H) :
    (checkinBlock keys (some (childIdx, hash)) blockIdx src scratch).2.extraMeta.childHash childIdx =
      hash := by
  simp [checkinBlock]

theorem childHash_checkinBlock_other (lastHash : Option (Nat × H)) {child : Nat}
    (other : ∀ childIdx hash, lastHash = some (childIdx, hash) → child ≠ childIdx ∧ child / 2 = childIdx / 2)
    (blockIdx : Nat) (src : D × M) (scratch : ExtendedMeta M H) :
    (checkinBlock keys lastHash blockIdx src scratch).2.extraMeta.childHash child =
      scratch.extraMeta.childHash child := by
  rcases lastHash with _ | ⟨childIdx, hash⟩
  · simp [checkinBlock]
  · obtain ⟨differs, same⟩ := other childIdx hash rfl
    simp [checkinBlock, ExtraMeta.childHash_setChildHash_sibling _ differs same]

theorem blockCtr_checkinBlock (lastHash : Option (Nat × H)) (blockIdx : Nat) (src : D × M)
    (scratch : ExtendedMeta M H) :
    (checkinBlock keys lastHash blockIdx src scratch).2.extraMeta.blockCtr = scratch.extraMeta.blockCtr + 1 := by
  rcases lastHash with _ | ⟨childIdx, hash⟩ <;> simp [checkinBlock]

@[simp] theorem checkinPath_length (lastHash : Option (Nat × H))
    (blocks : List (Nat × (D × M) × ExtendedMeta M H)) :
    (checkinPath keys lastHash blocks).2.length = blocks.length := by
  induction blocks generalizing lastHash with
  | nil => rfl
  | cons block rest ih =>
    obtain ⟨blockIdx, src, scratch⟩ := block
    simp [checkinPath, ih]

theorem checkinPath_getElem_zero (lastHash : Option (Nat × H))
    {blocks : List (Nat × (D × M) × ExtendedMeta M H)} (given : 0 < blocks.length)
    (inside : 0 < (checkinPath keys lastHash blocks).2.length) :
    (checkinPath keys lastHash blocks).2[0] =
      checkinBlock keys lastHash blocks[0].1 blocks[0].2.1 blocks[0].2.2 := by
  cases blocks with
  | nil => simp at given
  | cons block rest => rfl

theorem checkinPath_getElem_succ (lastHash : Option (Nat × H))
    {blocks : List (Nat × (D × M) × ExtendedMeta M H)} {j : Nat} (given : j + 1 < blocks.length)
    (inside : j + 1 < (checkinPath keys lastHash blocks).2.length) :
    (checkinPath keys lastHash blocks).2[j + 1] =
      checkinBlock keys (some (blocks[j].1, keys.computeBlockHash (checkinPath keys lastHash blocks).2[j].1
        blocks[j].1 (checkinPath keys lastHash blocks).2[j].2)) blocks[j + 1].1 blocks[j + 1].2.1
        blocks[j + 1].2.2 := by
  induction blocks generalizing lastHash j with
  | nil => simp at given
  | cons block rest ih =>
    obtain ⟨blockIdx, src, scratch⟩ := block
    cases j with
    | zero =>
      have rest_pos : 0 < rest.length := by simpa using given
      exact checkinPath_getElem_zero keys _ rest_pos (by simpa using rest_pos)
    | succ j =>
      exact ih _ (by simpa using given) (by simpa using given)

theorem checkinPath_fst (lastHash : Option (Nat × H))
    {blocks : List (Nat × (D × M) × ExtendedMeta M H)} {j : Nat} (last : j + 1 = blocks.length)
    (inside : j < (checkinPath keys lastHash blocks).2.length) :
    (checkinPath keys lastHash blocks).1 = some (blocks[j].1,
      keys.computeBlockHash (checkinPath keys lastHash blocks).2[j].1 blocks[j].1
        (checkinPath keys lastHash blocks).2[j].2) := by
  induction blocks generalizing lastHash j with
  | nil => simp at last
  | cons block rest ih =>
    obtain ⟨blockIdx, src, scratch⟩ := block
    cases j with
    | zero =>
      have empty : rest = [] := List.eq_nil_of_length_eq_zero (by simpa using last.symm)
      subst empty
      rfl
    | succ j =>
      have restLast : j + 1 = rest.length := by simpa using last
      exact ih _ restLast (by simp; omega)

theorem decrypt_checkinPath (involutive : ∀ blockIdx blockCtr,
      Function.Involutive (keys.applyKeystream blockIdx blockCtr))
    (lastHash : Option (Nat × H)) (blocks : List (Nat × (D × M) × ExtendedMeta M H)) {j : Nat}
    (given : j < blocks.length) (inside : j < (checkinPath keys lastHash blocks).2.length) :
    decrypt keys blocks[j].1 (checkinPath keys lastHash blocks).2[j] = blocks[j].2.1 := by
  cases j with
  | zero =>
    rw [checkinPath_getElem_zero keys lastHash given inside]
    exact decrypt_checkinBlock keys involutive _ _ _ _
  | succ j =>
    rw [checkinPath_getElem_succ keys lastHash given inside]
    exact decrypt_checkinBlock keys involutive _ _ _ _

theorem blockCtr_checkinPath (lastHash : Option (Nat × H))
    (blocks : List (Nat × (D × M) × ExtendedMeta M H)) {j : Nat} (given : j < blocks.length)
    (inside : j < (checkinPath keys lastHash blocks).2.length) :
    (checkinPath keys lastHash blocks).2[j].2.extraMeta.blockCtr = blocks[j].2.2.extraMeta.blockCtr + 1 := by
  cases j with
  | zero =>
    rw [checkinPath_getElem_zero keys lastHash given inside]
    exact blockCtr_checkinBlock keys _ _ _ _
  | succ j =>
    rw [checkinPath_getElem_succ keys lastHash given inside]
    exact blockCtr_checkinBlock keys _ _ _ _

theorem childHash_checkinPath_self (lastHash : Option (Nat × H))
    (blocks : List (Nat × (D × M) × ExtendedMeta M H)) {j : Nat} (given : j + 1 < blocks.length)
    (inside : j + 1 < (checkinPath keys lastHash blocks).2.length) :
    (checkinPath keys lastHash blocks).2[j + 1].2.extraMeta.childHash blocks[j].1 =
      keys.computeBlockHash (checkinPath keys lastHash blocks).2[j].1 blocks[j].1
        (checkinPath keys lastHash blocks).2[j].2 := by
  rw [checkinPath_getElem_succ keys lastHash given inside, childHash_checkinBlock_self]

/-- A block sealed along a path records for a child off the path what its scratch buffer entry
recorded. -/
theorem childHash_checkinPath_other (blocks : List (Nat × (D × M) × ExtendedMeta M H)) {j : Nat}
    (given : j < blocks.length) (inside : j < (checkinPath keys none blocks).2.length) (child : Nat)
    (other : ∀ i (below : i < blocks.length), i + 1 = j →
      child ≠ blocks[i].1 ∧ child / 2 = blocks[i].1 / 2) :
    (checkinPath keys none blocks).2[j].2.extraMeta.childHash child =
      blocks[j].2.2.extraMeta.childHash child := by
  cases j with
  | zero =>
    rw [checkinPath_getElem_zero keys none given inside]
    exact childHash_checkinBlock_other keys none (fun _ _ absent => nomatch absent) _ _ _
  | succ i =>
    rw [checkinPath_getElem_succ keys none given inside]
    refine childHash_checkinBlock_other keys _ (fun childIdx hash last => ?_) _ _ _
    obtain ⟨rfl, -⟩ := Prod.mk.inj (Option.some.inj last)
    exact other i (by omega) rfl

/-- What the loop of `checkin` seals at each node of `path`, with `src` the blocks checked in and
`scratch` the scratch buffer: a block that decrypts to the one checked in, that records for the
child below it on the path the hash of that child's sealed block, and for its other children what
the scratch buffer recorded. -/
structure SealedAlong (path : List Nat) (src : List (D × M)) (scratch : List (ExtendedMeta M H))
    (sealed : List (D × ExtendedMeta M H)) : Prop where
  srcLength : path.length ≤ src.length
  scratchLength : path.length ≤ scratch.length
  length : sealed.length = path.length
  decrypts : ∀ j (inside : j < path.length), decrypt keys path[j] sealed[j] = src[j]
  counts : ∀ j (inside : j < path.length),
    sealed[j].2.extraMeta.blockCtr = scratch[j].extraMeta.blockCtr + 1
  records : ∀ j (inside : j + 1 < path.length),
    sealed[j + 1].2.extraMeta.childHash path[j] = keys.computeBlockHash sealed[j].1 path[j] sealed[j].2
  keeps : ∀ j (inside : j < path.length) child,
    (∀ i (before : i + 1 = j), child ≠ path[i] ∧ child / 2 = path[i] / 2) →
      sealed[j].2.extraMeta.childHash child = scratch[j].extraMeta.childHash child

theorem sealedAlong_checkinPath (involutive : ∀ blockIdx blockCtr,
      Function.Involutive (keys.applyKeystream blockIdx blockCtr))
    {path : List Nat} {src : List (D × M)} {scratch : List (ExtendedMeta M H)}
    (srcLength : path.length ≤ src.length) (scratchLength : path.length ≤ scratch.length) :
    SealedAlong keys path src scratch (checkinPath keys none (path.zip (src.zip scratch))).2 := by
  have blocksLength : (path.zip (src.zip scratch)).length = path.length := by
    simp only [List.length_zip]
    omega
  refine ⟨srcLength, scratchLength, by simp [blocksLength], fun j inside => ?_, fun j inside => ?_,
    fun j inside => ?_, fun j inside child other => ?_⟩
  · have decrypted := decrypt_checkinPath keys involutive none (path.zip (src.zip scratch))
      (j := j) (by omega) (by simp; omega)
    simpa using decrypted
  · have counted := blockCtr_checkinPath keys none (path.zip (src.zip scratch))
      (j := j) (by omega) (by simp; omega)
    simpa using counted
  · have recorded := childHash_checkinPath_self keys none (path.zip (src.zip scratch))
      (j := j) (by omega) (by simp; omega)
    simpa using recorded
  · have kept := childHash_checkinPath_other keys (path.zip (src.zip scratch)) (j := j)
      (by omega) (by simp; omega) child (fun i below before => by simpa using other i before)
    simpa using kept

end Sealing

theorem getElem?_resizeWith {α : Type} [Inhabited α] {n j : Nat} (inside : j < n) (l : List α) :
    (resizeWith n l)[j]? = some (l[j]?.getD default) := by
  unfold resizeWith
  by_cases held : j < l.length
  · rw [List.getElem?_append_left (by simp; omega), List.getElem?_take, if_pos inside,
      List.getElem?_eq_getElem held]
    rfl
  · rw [List.getElem?_append_right (by simp; omega), List.getElem?_replicate,
      List.getElem?_eq_none (by omega)]
    simp only [List.length_take]
    rw [if_pos (by omega)]
    rfl

section Checkin

variable (keys : Keys D M H)

omit [Inhabited D] [DecidableEq M] [DecidableEq H] in
/-- `checkinUntrusted` returns the hash carried out of the loop, the extended metadata of the
sealed blocks as the scratch buffer, and the sealed blocks, each at its index less
`treetop_max_count`. -/
theorem checkinUntrusted_eq_some {self : OcallORAMStorage D M H} {indices : List Nat}
    {src : List (D × M)} {result : Nat × H × List (ExtendedMeta M H) × List (Nat × D × ExtendedMeta M H)}
    (ok : self.checkinUntrusted keys indices src = some result) :
    let sealing := checkinPath keys none (indices.zip (src.zip (resizeWith indices.length self.metaScratchBuffer)))
    sealing.1 = some (result.1, result.2.1) ∧ result.2.2.1 = sealing.2.map Prod.snd ∧
      result.2.2.2 = indices.zipWith (fun idx block => (idx - self.treetopMaxCount, block)) sealing.2 := by
  unfold checkinUntrusted at ok
  cases sealed : (checkinPath keys none
      (indices.zip (src.zip (resizeWith indices.length self.metaScratchBuffer)))).1 with
  | none => simp [sealed] at ok
  | some last =>
    simp only [sealed, Option.bind_eq_bind, Option.bind_some, pure, Option.some.injEq] at ok
    rw [← ok]
    exact ⟨sealed, rfl, rfl⟩

omit [Inhabited D] [DecidableEq M] [DecidableEq H] in
/-- `checkin` succeeds only on a valid index and a block for each node of its path. It writes
the treetop part of the path into the treetop, and past the treetop records the hash of the last
block sealed as its trusted merkle root. -/
theorem checkin_eq_some {self self' : OcallORAMStorage D M H} {index : Nat} {src : List (D × M)}
    {sent : List (Nat × D × ExtendedMeta M H)} (ok : self.checkin keys index src = some (self', sent)) :
    0 < index ∧ index < self.count ∧ (parents index).length = src.length ∧
      ∃ first, (parents index).findIdx? (· < self.treetopMaxCount) = some first ∧
        self'.count = self.count ∧ self'.treetopMaxCount = self.treetopMaxCount ∧
        self'.treetop.data = writeAll self.treetop.data ((parents index).drop first) (src.drop first) ∧
        ((first = 0 ∧ self'.trustedMerkleRoots = self.trustedMerkleRoots ∧ sent = []) ∨
          (0 < first ∧ ∃ lastIdx lastHash,
            self.checkinUntrusted keys ((parents index).take first) src =
              some (lastIdx, lastHash, self'.metaScratchBuffer, sent) ∧
            self'.trustedMerkleRoots = Function.update self.trustedMerkleRoots lastIdx lastHash)) := by
  unfold checkin at ok
  by_cases zero : index = 0
  · simp [zero] at ok
  by_cases outside : self.count ≤ index
  · simp [zero, outside] at ok
  by_cases mismatch : (parents index).length ≠ src.length
  · simp [zero, outside, mismatch] at ok
  have sameLength : (parents index).length = src.length := not_not.mp mismatch
  cases found : (parents index).findIdx? (· < self.treetopMaxCount) with
  | none => simp [zero, outside, sameLength, found] at ok
  | some first =>
    have onPath : first < (parents index).length := (List.findIdx?_eq_some_iff_getElem.mp found).1
    have path := parents_getElem onPath
    refine ⟨Nat.pos_of_ne_zero zero, Nat.lt_of_not_le outside, sameLength, first, rfl, ?_⟩
    by_cases top : first = 0
    · subst top
      simp [zero, outside, sameLength, found, List.getElem?_eq_getElem onPath] at ok
      obtain ⟨rfl, rfl⟩ := ok
      simp [HeapORAMStorage.checkin, path]
    · simp [zero, outside, sameLength, found, List.getElem?_eq_getElem onPath, top,
        Option.bind_eq_some_iff] at ok
      obtain ⟨lastIdx, lastHash, metaScratchBuffer, untrusted, rfl, rfl⟩ := ok
      exact ⟨rfl, rfl, by simp [HeapORAMStorage.checkin, path],
        .inr ⟨Nat.pos_of_ne_zero top, lastIdx, lastHash, untrusted, rfl⟩⟩

omit [Inhabited D] [DecidableEq M] [DecidableEq H] in
theorem checkinUntrusted_isSome {self : OcallORAMStorage D M H} {indices : List Nat}
    {src : List (D × M)} (nonempty : indices ≠ []) (given : indices.length ≤ src.length) :
    (self.checkinUntrusted keys indices src).isSome := by
  have pos := List.length_pos_of_ne_nil nonempty
  have lastIndex : indices.length - 1 + 1 =
      (indices.zip (src.zip (resizeWith indices.length self.metaScratchBuffer))).length := by
    simp only [List.length_zip, length_resizeWith]
    omega
  have last := checkinPath_fst keys none lastIndex (by rw [checkinPath_length]; omega)
  unfold checkinUntrusted
  cases sealing : checkinPath keys none (indices.zip (src.zip
      (resizeWith indices.length self.metaScratchBuffer))) with
  | mk lastHash sealed =>
    simp only [sealing] at last
    simp [sealing, last]

omit [Inhabited D] [DecidableEq M] [DecidableEq H] in
/-- `checkin` panics only on an invalid index or a number of blocks other than the length of the
path. -/
theorem checkin_isSome {self : OcallORAMStorage D M H} {index : Nat} {src : List (D × M)}
    (pos : 0 < index) (inside : index < self.count) (sameLength : (parents index).length = src.length) :
    (self.checkin keys index src).isSome := by
  have two := self.two_le_treetopMaxCount
  obtain ⟨first, found⟩ := exists_findIdx?_parents pos (by omega : 1 < self.treetopMaxCount)
  have onPath : first < (parents index).length := (List.findIdx?_eq_some_iff_getElem.mp found).1
  unfold checkin
  by_cases top : first = 0
  · subst top
    simp [Nat.pos_iff_ne_zero.mp pos, Nat.not_le_of_lt inside, sameLength, found,
      List.getElem?_eq_getElem onPath]
  · have untrusted : (self.checkinUntrusted keys ((parents index).take first) src).isSome :=
      checkinUntrusted_isSome keys (List.ne_nil_of_length_pos (by simp; omega)) (by simp; omega)
    obtain ⟨result, untrusted⟩ := Option.isSome_iff_exists.mp untrusted
    simp [Nat.pos_iff_ne_zero.mp pos, Nat.not_le_of_lt inside, sameLength, found,
      List.getElem?_eq_getElem onPath, top, untrusted]

end Checkin

end OcallORAMStorage

end MobileCoin.OramStorage
