import MobileCoin.Lib.U64

/-!
# The block tracker of the fog view server

`mc_fog_view_server::block_tracker::BlockTracker` records, for each ingress key, the last
block loaded with it. `next_blocks` asks each key record for the block after that one (or for
its start block), when the record covers it; `highest_fully_processed_block_count` advances a
count past every block that each record covering it has loaded, up to the highest block known,
and returns the record it stopped on.

Block indices and counts are `u64`, and `+ 1` wraps as in release builds. The loop of
`highest_fully_processed_block_count` runs on fuel: its count takes `2 ^ 64` values, so a loop
that has not stopped after `2 ^ 64` turns has come back to a count it passed and never stops,
which the model returns as `none`. The `HashMap`s are association lists with one entry per
key. The logger is left out.
-/

namespace MobileCoin.FogView

structure IngressPublicKeyStatus where
  startBlock : UInt64
  pubkeyExpiry : UInt64
  retired : Bool
  lost : Bool
  deriving DecidableEq, Repr

structure IngressPublicKeyRecord (K : Type) where
  key : K
  status : IngressPublicKeyStatus
  lastScannedBlock : Option UInt64
  deriving DecidableEq, Repr

namespace IngressPublicKeyRecord

variable {K : Type}

/-- `IngressPublicKeyRecord::covers_block_index`: from the start block up to the last scanned
block for a lost key, up to the expiry for a retired one, and on for an active one. -/
def coversBlockIndex (self : IngressPublicKeyRecord K) (blockIndex : UInt64) : Bool :=
  if self.status.lost then
    self.status.startBlock ≤ blockIndex &&
      (self.lastScannedBlock.map fun idx => decide (blockIndex ≤ idx)).getD false
  else
    self.status.startBlock ≤ blockIndex &&
      (!self.status.retired || blockIndex < self.status.pubkeyExpiry)

theorem startBlock_le_of_covers {self : IngressPublicKeyRecord K} {blockIndex : UInt64}
    (covers : self.coversBlockIndex blockIndex = true) : self.status.startBlock ≤ blockIndex := by
  unfold coversBlockIndex at covers
  split at covers <;> exact of_decide_eq_true ((Bool.and_eq_true _ _).mp covers).1

end IngressPublicKeyRecord

/-- The `assert!` of `block_processed`. -/
inductive Panic where
  | blockIndexNotConsecutive
  deriving DecidableEq, Repr

structure BlockTracker (K : Type) [DecidableEq K] where
  processedBlockPerIngressKey : AList fun _ : K => UInt64
  lastHighestProcessedBlockCount : UInt64

namespace BlockTracker

variable {K : Type} [DecidableEq K]

def new : BlockTracker K := ⟨∅, 0⟩

/-- The body of the loop of `next_blocks`, for one record: the block after the last one
processed for its key, or its start block, when the record covers it. -/
def addNextBlock (self : BlockTracker K) (nextBlocks : AList fun _ : K => UInt64)
    (rec : IngressPublicKeyRecord K) : AList fun _ : K => UInt64 :=
  match self.processedBlockPerIngressKey.lookup rec.key with
  | some lastProcessedBlock =>
    if rec.coversBlockIndex (lastProcessedBlock + 1) then
      nextBlocks.insert rec.key (lastProcessedBlock + 1)
    else nextBlocks
  | none =>
    if rec.coversBlockIndex rec.status.startBlock then
      nextBlocks.insert rec.key rec.status.startBlock
    else nextBlocks

def nextBlocks (self : BlockTracker K) (ingressKeyRecords : List (IngressPublicKeyRecord K)) :
    AList fun _ : K => UInt64 :=
  ingressKeyRecords.foldl (addNextBlock self) ∅

/-- `BlockTracker::block_processed`: record the block, which must follow the last one of the
key, if there is one. -/
def blockProcessed (self : BlockTracker K) (ingressKey : K) (blockIndex : UInt64) :
    Except Panic (BlockTracker K) :=
  let previous := self.processedBlockPerIngressKey.lookup ingressKey
  let self := { self with
    processedBlockPerIngressKey := self.processedBlockPerIngressKey.insert ingressKey blockIndex }
  match previous with
  | some previousBlockIndex =>
    if blockIndex = previousBlockIndex + 1 then .ok self else .error .blockIndexNotConsecutive
  | none => .ok self

/-- `BlockTracker::highest_known_block_count`: one past the highest block processed. -/
def highestKnownBlockCount (self : BlockTracker K) : UInt64 :=
  (self.processedBlockPerIngressKey.entries.map fun entry => entry.2 + 1).max?.getD 0

/-- The inner loop of `highest_fully_processed_block_count`: the first record that covers the
block and whose key has not processed it. -/
def blockingRecord (self : BlockTracker K) (ingressKeys : List (IngressPublicKeyRecord K))
    (nextBlockIndex : UInt64) : Option (IngressPublicKeyRecord K) :=
  ingressKeys.find? fun rec => rec.coversBlockIndex nextBlockIndex &&
    match self.processedBlockPerIngressKey.lookup rec.key with
    | some lastProcessedBlock => lastProcessedBlock < nextBlockIndex
    | none => true

/-- The outer loop of `highest_fully_processed_block_count`, from `count` for at most `fuel`
turns: advance the count past each block no record is missing, up to the highest known block
count. -/
def advance (self : BlockTracker K) (ingressKeys : List (IngressPublicKeyRecord K))
    (highestKnownBlockCount : UInt64) :
    ℕ → UInt64 → Option (UInt64 × Option (IngressPublicKeyRecord K))
  | 0, _ => none
  | fuel + 1, count =>
    if highestKnownBlockCount < count + 1 then some (count, none)
    else match self.blockingRecord ingressKeys count with
      | some rec => some (count, some rec)
      | none => self.advance ingressKeys highestKnownBlockCount fuel (count + 1)

/-- `BlockTracker::highest_fully_processed_block_count`: the count, the record it stopped on,
and the tracker keeping the count; `none` when the loop never stops. -/
def highestFullyProcessedBlockCount (self : BlockTracker K)
    (ingressKeys : List (IngressPublicKeyRecord K)) :
    Option ((UInt64 × Option (IngressPublicKeyRecord K)) × BlockTracker K) :=
  (self.advance ingressKeys self.highestKnownBlockCount UInt64.size
      self.lastHighestProcessedBlockCount).map fun result =>
    (result, { self with lastHighestProcessedBlockCount := result.1 })

/-! ### What each function does -/

/-- `blockIndex` is what `next_blocks` asks of `rec`: the block after the last one processed
for its key, or its start block, when `rec` covers it. -/
def Asks (self : BlockTracker K) (rec : IngressPublicKeyRecord K) (blockIndex : UInt64) : Prop :=
  rec.coversBlockIndex blockIndex = true ∧
    ((∃ previous, self.processedBlockPerIngressKey.lookup rec.key = some previous ∧
        blockIndex = previous + 1) ∨
      (self.processedBlockPerIngressKey.lookup rec.key = none ∧
        blockIndex = rec.status.startBlock))

theorem lookup_addNextBlock {self : BlockTracker K} {nextBlocks : AList fun _ : K => UInt64}
    {rec : IngressPublicKeyRecord K} {key : K} {blockIndex : UInt64}
    (asked : (self.addNextBlock nextBlocks rec).lookup key = some blockIndex) :
    nextBlocks.lookup key = some blockIndex ∨ (rec.key = key ∧ self.Asks rec blockIndex) := by
  unfold addNextBlock at asked
  -- the record adds its entry, or leaves the others as they were
  have added : ∀ {b}, rec.coversBlockIndex b = true →
      (nextBlocks.insert rec.key b).lookup key = some blockIndex →
      nextBlocks.lookup key = some blockIndex ∨ (rec.key = key ∧ b = blockIndex) := by
    intro b covers found
    by_cases same : key = rec.key
    · rw [same, AList.lookup_insert, Option.some.injEq] at found
      exact .inr ⟨same.symm, found⟩
    · exact .inl (by rwa [AList.lookup_insert_ne same] at found)
  split at asked
  · next previous processed =>
    split at asked
    · next covers =>
      rcases added covers asked with before | ⟨same, rfl⟩
      · exact .inl before
      · exact .inr ⟨same, covers, .inl ⟨previous, processed, rfl⟩⟩
    · exact .inl asked
  · next unprocessed =>
    split at asked
    · next covers =>
      rcases added covers asked with before | ⟨same, rfl⟩
      · exact .inl before
      · exact .inr ⟨same, covers, .inr ⟨unprocessed, rfl⟩⟩
    · exact .inl asked

theorem lookup_nextBlocks {self : BlockTracker K} {records : List (IngressPublicKeyRecord K)}
    {key : K} {blockIndex : UInt64} (asked : (self.nextBlocks records).lookup key = some blockIndex) :
    ∃ rec ∈ records, rec.key = key ∧ self.Asks rec blockIndex := by
  -- the loop, from any table: an entry comes from the table or from a record walked
  have walk : ∀ (walked : List (IngressPublicKeyRecord K)) (nextBlocks : AList fun _ : K => UInt64),
      (walked.foldl (addNextBlock self) nextBlocks).lookup key = some blockIndex →
      nextBlocks.lookup key = some blockIndex ∨
        ∃ rec ∈ walked, rec.key = key ∧ self.Asks rec blockIndex := by
    intro walked
    induction walked with
    | nil => exact fun _ found => .inl found
    | cons rec rest ih =>
      intro nextBlocks found
      rcases ih _ found with before | ⟨other, member, same, asks⟩
      · rcases lookup_addNextBlock before with earlier | ⟨same, asks⟩
        · exact .inl earlier
        · exact .inr ⟨rec, List.mem_cons_self, same, asks⟩
      · exact .inr ⟨other, List.mem_cons_of_mem rec member, same, asks⟩
  rcases walk records ∅ asked with empty | found
  · exact absurd empty (by simp)
  · exact found

theorem Asks.consecutive {self : BlockTracker K} {rec : IngressPublicKeyRecord K}
    {blockIndex : UInt64} (asks : self.Asks rec blockIndex) (previous : UInt64)
    (found : self.processedBlockPerIngressKey.lookup rec.key = some previous) :
    blockIndex = previous + 1 := by
  rcases asks.2 with ⟨previous', before, rfl⟩ | ⟨unprocessed, -⟩
  · rw [before, Option.some.injEq] at found
    rw [found]
  · rw [unprocessed] at found
    cases found

theorem blockProcessed_eq_ok {self : BlockTracker K} {key : K} {blockIndex : UInt64}
    (consecutive : ∀ previous ∈ self.processedBlockPerIngressKey.lookup key,
      blockIndex = previous + 1) :
    self.blockProcessed key blockIndex = .ok { self with
      processedBlockPerIngressKey := self.processedBlockPerIngressKey.insert key blockIndex } := by
  unfold blockProcessed
  cases processed : self.processedBlockPerIngressKey.lookup key with
  | none => rfl
  | some previous =>
    dsimp only
    rw [if_pos (consecutive previous processed)]

theorem blockProcessed_ok_iff {self self' : BlockTracker K} {key : K} {blockIndex : UInt64} :
    self.blockProcessed key blockIndex = .ok self' ↔
      (∀ previous ∈ self.processedBlockPerIngressKey.lookup key, blockIndex = previous + 1) ∧
      self' = { self with
        processedBlockPerIngressKey := self.processedBlockPerIngressKey.insert key blockIndex } := by
  constructor
  · intro processed
    have consecutive : ∀ previous ∈ self.processedBlockPerIngressKey.lookup key,
        blockIndex = previous + 1 := by
      intro previous found
      unfold blockProcessed at processed
      rw [found] at processed
      dsimp only at processed
      split at processed
      · assumption
      · cases processed
    rw [blockProcessed_eq_ok consecutive, Except.ok.injEq] at processed
    exact ⟨consecutive, processed.symm⟩
  · rintro ⟨consecutive, rfl⟩
    exact blockProcessed_eq_ok consecutive

theorem highestFullyProcessedBlockCount_eq {self : BlockTracker K}
    {ingressKeys : List (IngressPublicKeyRecord K)} {result : UInt64 × Option (IngressPublicKeyRecord K)}
    (loop : self.advance ingressKeys self.highestKnownBlockCount UInt64.size
      self.lastHighestProcessedBlockCount = some result) :
    self.highestFullyProcessedBlockCount ingressKeys =
      some (result, { self with lastHighestProcessedBlockCount := result.1 }) := by
  rw [highestFullyProcessedBlockCount, loop, Option.map_some]

theorem toNat_highestKnownBlockCount (self : BlockTracker K) :
    self.highestKnownBlockCount.toNat =
      (self.processedBlockPerIngressKey.entries.map fun entry => (entry.2 + 1).toNat).max?.getD 0 := by
  rw [highestKnownBlockCount, U64.toNat_max?_getD, List.map_map]
  rfl

theorem le_highestKnownBlockCount {self : BlockTracker K} {key : K} {blockIndex : UInt64}
    (processed : self.processedBlockPerIngressKey.lookup key = some blockIndex) :
    blockIndex + 1 ≤ self.highestKnownBlockCount := by
  rw [UInt64.le_iff_toNat_le, toNat_highestKnownBlockCount]
  exact List.le_max?_getD_of_mem (List.mem_map.mpr
    ⟨⟨key, blockIndex⟩, AList.mem_lookup_iff.mp processed, rfl⟩)

/-- The highest known block count is below a bound above every count `block + 1` of a block
processed, and above `0`. -/
theorem toNat_highestKnownBlockCount_lt {self : BlockTracker K} {bound : ℕ} (positive : 0 < bound)
    (below : ∀ key blockIndex, self.processedBlockPerIngressKey.lookup key = some blockIndex →
      (blockIndex + 1).toNat < bound) :
    self.highestKnownBlockCount.toNat < bound := by
  rw [toNat_highestKnownBlockCount]
  cases highest : (self.processedBlockPerIngressKey.entries.map
      fun entry => (entry.2 + 1).toNat).max? with
  | none => exact positive
  | some top =>
    obtain ⟨⟨key, blockIndex⟩, entry, rfl⟩ := List.mem_map.mp (List.max?_mem highest)
    exact below key blockIndex (AList.mem_lookup_iff.mpr entry)

theorem highestKnownBlockCount_le {self : BlockTracker K} {bound : UInt64}
    (below : ∀ key blockIndex, self.processedBlockPerIngressKey.lookup key = some blockIndex →
      blockIndex + 1 ≤ bound) :
    self.highestKnownBlockCount ≤ bound := by
  rw [UInt64.le_iff_toNat_le, toNat_highestKnownBlockCount]
  cases highest : (self.processedBlockPerIngressKey.entries.map
      fun entry => (entry.2 + 1).toNat).max? with
  | none => exact Nat.zero_le _
  | some top =>
    refine (List.max?_le_iff highest).mpr fun count member => ?_
    obtain ⟨⟨key, blockIndex⟩, entry, rfl⟩ := List.mem_map.mp member
    exact UInt64.le_iff_toNat_le.mp (below key blockIndex (AList.mem_lookup_iff.mpr entry))

theorem blockingRecord_eq_none_iff {self : BlockTracker K}
    {ingressKeys : List (IngressPublicKeyRecord K)} {blockIndex : UInt64} :
    self.blockingRecord ingressKeys blockIndex = none ↔
      ∀ rec ∈ ingressKeys, rec.coversBlockIndex blockIndex = true →
        ∃ last, self.processedBlockPerIngressKey.lookup rec.key = some last ∧ blockIndex ≤ last := by
  unfold blockingRecord
  rw [List.find?_eq_none]
  refine forall₂_congr fun rec _ => ?_
  cases self.processedBlockPerIngressKey.lookup rec.key <;> simp [UInt64.not_lt]

theorem blockingRecord_eq_some {self : BlockTracker K}
    {ingressKeys : List (IngressPublicKeyRecord K)} {blockIndex : UInt64}
    {rec : IngressPublicKeyRecord K} (stuck : self.blockingRecord ingressKeys blockIndex = some rec) :
    rec ∈ ingressKeys ∧ rec.coversBlockIndex blockIndex = true ∧
      ∀ last, self.processedBlockPerIngressKey.lookup rec.key = some last → last < blockIndex := by
  unfold blockingRecord at stuck
  have missing := List.find?_some stuck
  rw [Bool.and_eq_true] at missing
  refine ⟨List.mem_of_find?_eq_some stuck, missing.1, fun last processed => ?_⟩
  rw [processed] at missing
  exact of_decide_eq_true missing.2

/-! ### The count loop -/

section Advance

variable (tracker : BlockTracker K) (ingressKeys : List (IngressPublicKeyRecord K))
  (known : UInt64)

/-- What the outer loop returns from `count`: a count no lower and within `known`, past blocks
no record is missing; it stops at `known`, or at a block a record is missing below `known`,
with that record. -/
structure Advanced (count : UInt64) (result : UInt64 × Option (IngressPublicKeyRecord K)) :
    Prop where
  le_result : count ≤ result.1
  result_le : result.1 ≤ known
  passed : ∀ blockIndex, count ≤ blockIndex → blockIndex < result.1 →
    tracker.blockingRecord ingressKeys blockIndex = none
  stopped_none : result.2 = none → result.1 = known
  stopped_some : ∀ rec, result.2 = some rec →
    tracker.blockingRecord ingressKeys result.1 = some rec ∧ result.1 < known

/-- Below `u64::MAX`, from a count within `known`, the loop stops within the turns left up to
`known`, where the count never wraps. -/
theorem advance_advanced (room : known.toNat < U64.MAX) :
    ∀ fuel count, count ≤ known → known.toNat - count.toNat < fuel →
      ∃ result, tracker.advance ingressKeys known fuel count = some result ∧
        tracker.Advanced ingressKeys known count result := by
  intro fuel
  induction fuel with
  | zero => exact fun _ _ short => absurd short (Nat.not_lt_zero _)
  | succ fuel ih =>
    intro count within enough
    have within' := UInt64.le_iff_toNat_le.mp within
    have next : (count + 1).toNat = count.toNat + 1 := U64.toNat_add_one (by omega)
    rw [advance]
    split
    · -- the count has reached the known blocks
      next done =>
      rw [UInt64.lt_iff_toNat_lt, next] at done
      have same : count = known := UInt64.toNat_inj.mp (by omega)
      refine ⟨_, rfl, ⟨UInt64.le_refl count, within, fun blockIndex lower upper => ?_,
        fun _ => same, fun _ stopped => by cases stopped⟩⟩
      exact absurd (UInt64.lt_of_lt_of_le upper lower) (UInt64.lt_irrefl _)
    · next more =>
      rw [UInt64.lt_iff_toNat_lt, next, Nat.not_lt] at more
      split
      · -- a record is missing the block
        next rec stuck =>
        refine ⟨_, rfl, ⟨UInt64.le_refl count, within, fun blockIndex lower upper => ?_,
          fun stopped => (by cases stopped), fun _ same => ⟨?_, ?_⟩⟩⟩
        · exact absurd (UInt64.lt_of_lt_of_le upper lower) (UInt64.lt_irrefl _)
        · cases same
          exact stuck
        · exact UInt64.lt_iff_toNat_lt.mpr (show count.toNat < known.toNat by omega)
      · -- every record covering the block has it: one block further
        next free =>
        obtain ⟨result, loop, advanced⟩ := ih (count + 1)
          (UInt64.le_iff_toNat_le.mpr (by omega)) (by omega)
        refine ⟨result, loop, ⟨?_, advanced.result_le, fun blockIndex lower upper => ?_,
          advanced.stopped_none, advanced.stopped_some⟩⟩
        · have := UInt64.le_iff_toNat_le.mp advanced.le_result
          exact UInt64.le_iff_toNat_le.mpr (by omega)
        · by_cases same : blockIndex = count
          · exact same ▸ free
          · have differs := mt UInt64.toNat_inj.mp same
            have lower' := UInt64.le_iff_toNat_le.mp lower
            exact advanced.passed blockIndex (UInt64.le_iff_toNat_le.mpr (by omega)) upper

/-- The loop passes `n` blocks in `n` turns when none of them stops it. -/
theorem advance_add : ∀ (n fuel : ℕ) (count : UInt64),
    (∀ i < n, ¬known < count + UInt64.ofNat i + 1 ∧
      tracker.blockingRecord ingressKeys (count + UInt64.ofNat i) = none) →
    tracker.advance ingressKeys known (fuel + n) count =
      tracker.advance ingressKeys known fuel (count + UInt64.ofNat n)
  | 0, fuel, count, _ => by
    change _ = tracker.advance ingressKeys known fuel (count + 0)
    rw [Nat.add_zero, UInt64.add_zero]
  | n + 1, fuel, count, free => by
    obtain ⟨more, unblocked⟩ := free 0 (Nat.zero_lt_succ n)
    change ¬known < count + 0 + 1 at more
    change tracker.blockingRecord ingressKeys (count + 0) = none at unblocked
    rw [UInt64.add_zero] at more unblocked
    -- the first turn moves on, and the others are the turns of the loop from the next block
    have rest : ∀ i < n, ¬known < count + 1 + UInt64.ofNat i + 1 ∧
        tracker.blockingRecord ingressKeys (count + 1 + UInt64.ofNat i) = none := by
      intro i below
      have shifted : count + 1 + UInt64.ofNat i = count + UInt64.ofNat (i + 1) := by
        rw [UInt64.ofNat_add, UInt64.ofNat_one, UInt64.add_assoc, UInt64.add_comm 1]
      rw [shifted]
      exact free (i + 1) (Nat.succ_lt_succ below)
    rw [← Nat.add_assoc, advance, if_neg more, unblocked]
    dsimp only
    rw [advance_add n fuel (count + 1) rest, UInt64.ofNat_add, UInt64.ofNat_one, UInt64.add_assoc,
      UInt64.add_comm 1]

/-- A loop that no block stops never stops. -/
theorem advance_eq_none
    (free : ∀ count, ¬known < count + 1 ∧ tracker.blockingRecord ingressKeys count = none) :
    ∀ fuel count, tracker.advance ingressKeys known fuel count = none
  | 0, _ => rfl
  | fuel + 1, count => by
    rw [advance, if_neg (free count).1, (free count).2]
    exact advance_eq_none free fuel (count + 1)

end Advance

end BlockTracker

end MobileCoin.FogView
