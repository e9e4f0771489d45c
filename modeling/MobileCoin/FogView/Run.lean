import MobileCoin.FogView.BlockTracker

/-!
# Runs of the block tracker

A run starts from `BlockTracker::new`, feeds `block_processed` only blocks that `next_blocks`
asks for with a fixed list of key records, and calls `highest_fully_processed_block_count`
with the same list. The blocks fed are kept beside the tracker. When no two records share a
key and one past each block fed stays below `u64::MAX`, every call returns, and the count it
returns is within the known blocks and never lower than the one before; every block below it
was fed for each record covering it, as part of the run of blocks from the record's start
block that its key was fed, and the record it stops on covers the block it stops at and was not
fed it.

Both conditions are needed. With two records of one key, `next_blocks` keeps the request of
the later one only. Block `u64::MAX` wraps the highest known block count to `0`, and the count
drops; after block `u64::MAX - 1` the count can pass `u64::MAX`, and the loop never ends.
-/

namespace MobileCoin.FogView

namespace BlockTracker

variable {K : Type} [DecidableEq K]

/-- The blocks fed to `block_processed` for a key, in the order fed. -/
def fedBlocks (log : List (K × UInt64)) (key : K) : List UInt64 :=
  (log.filter fun entry => entry.1 = key).map (·.2)

@[simp] theorem fedBlocks_nil (key : K) : fedBlocks [] key = [] := rfl

@[simp] theorem mem_fedBlocks {log : List (K × UInt64)} {key : K} {blockIndex : UInt64} :
    blockIndex ∈ fedBlocks log key ↔ (key, blockIndex) ∈ log := by
  simp [fedBlocks]

theorem fedBlocks_append_same (log : List (K × UInt64)) (key : K) (blockIndex : UInt64) :
    fedBlocks (log ++ [(key, blockIndex)]) key = fedBlocks log key ++ [blockIndex] := by
  simp [fedBlocks]

theorem fedBlocks_append_other (log : List (K × UInt64)) {key other : K} (blockIndex : UInt64)
    (differs : other ≠ key) :
    fedBlocks (log ++ [(key, blockIndex)]) other = fedBlocks log other := by
  simp [fedBlocks, Ne.symm differs]

/-- The blocks fed for a key, when they are the run from `start` to `last`, are the blocks
between the two. -/
theorem mem_fedBlocks_of_run {log : List (K × UInt64)} {key : K} {start : ℕ} {last : UInt64}
    (run : (fedBlocks log key).map UInt64.toNat = List.range' start (last.toNat + 1 - start))
    {blockIndex : UInt64} :
    blockIndex ∈ fedBlocks log key ↔ start ≤ blockIndex.toNat ∧ blockIndex.toNat ≤ last.toNat := by
  constructor
  · intro fed
    have inRun := List.mem_map_of_mem (f := UInt64.toNat) fed
    rw [run, List.mem_range'_1] at inRun
    omega
  · intro within
    have inRun : blockIndex.toNat ∈ List.range' start (last.toNat + 1 - start) :=
      List.mem_range'_1.mpr (by omega)
    rw [← run] at inRun
    obtain ⟨other, fed, same⟩ := List.mem_map.mp inRun
    rwa [← UInt64.toNat_inj.mp same]

/-- The trackers a run from `new` reaches when `block_processed` is fed only what `next_blocks`
asks for, with the blocks fed so far. -/
inductive Fed (records : List (IngressPublicKeyRecord K)) :
    BlockTracker K → List (K × UInt64) → Prop
  | new : Fed records new []
  | blockProcessed {tracker tracker' : BlockTracker K} {log : List (K × UInt64)} (key : K)
      (blockIndex : UInt64) : Fed records tracker log →
      (tracker.nextBlocks records).lookup key = some blockIndex →
      tracker.blockProcessed key blockIndex = .ok tracker' →
      Fed records tracker' (log ++ [(key, blockIndex)])
  | highestFullyProcessedBlockCount {tracker tracker' : BlockTracker K} {log : List (K × UInt64)}
      (result : UInt64 × Option (IngressPublicKeyRecord K)) : Fed records tracker log →
      tracker.highestFullyProcessedBlockCount records = some (result, tracker') →
      Fed records tracker' log

/-- A new tracker fed the first block `next_blocks` asks for a key. -/
theorem Fed.first {records : List (IngressPublicKeyRecord K)} {key : K} {blockIndex : UInt64}
    (asked :
      ((BlockTracker.new : BlockTracker K).nextBlocks records).lookup key = some blockIndex) :
    Fed records ⟨(∅ : AList fun _ : K => UInt64).insert key blockIndex, 0⟩ [(key, blockIndex)] :=
  Fed.new.blockProcessed key blockIndex asked (blockProcessed_eq_ok fun _ found => by cases found)

/-- What holds of every tracker a run reaches: each key processed was fed the blocks from the
start block of its record up to its last block, with none missing, and a key not processed was
fed none; each block below the count is processed by every record covering it; and the count
is within the known blocks. -/
structure Tracks (records : List (IngressPublicKeyRecord K)) (tracker : BlockTracker K)
    (log : List (K × UInt64)) : Prop where
  processed : ∀ key last, tracker.processedBlockPerIngressKey.lookup key = some last →
    ∃ rec ∈ records, rec.key = key ∧ rec.status.startBlock ≤ last ∧
      (fedBlocks log key).map UInt64.toNat =
        List.range' rec.status.startBlock.toNat (last.toNat + 1 - rec.status.startBlock.toNat)
  unprocessed : ∀ key, tracker.processedBlockPerIngressKey.lookup key = none →
    fedBlocks log key = []
  below_count : ∀ blockIndex < tracker.lastHighestProcessedBlockCount, ∀ rec ∈ records,
    rec.coversBlockIndex blockIndex = true →
      ∃ last, tracker.processedBlockPerIngressKey.lookup rec.key = some last ∧ blockIndex ≤ last
  count_le : tracker.lastHighestProcessedBlockCount ≤ tracker.highestKnownBlockCount

theorem tracks_new (records : List (IngressPublicKeyRecord K)) : Tracks records new [] where
  processed _ _ found := absurd found (by simp [new])
  unprocessed _ _ := fedBlocks_nil _
  below_count _ below := absurd below (UInt64.not_lt.mpr UInt64.zero_le)
  count_le := UInt64.zero_le

section Step

variable {records : List (IngressPublicKeyRecord K)} {tracker tracker' : BlockTracker K}
  {log : List (K × UInt64)}

theorem Tracks.last_mem (tracks : Tracks records tracker log) {key : K} {last : UInt64}
    (found : tracker.processedBlockPerIngressKey.lookup key = some last) :
    last ∈ fedBlocks log key := by
  obtain ⟨rec, -, -, startLe, run⟩ := tracks.processed key last found
  exact (mem_fedBlocks_of_run run).mpr ⟨UInt64.le_iff_toNat_le.mp startLe, le_refl _⟩

theorem Tracks.run (tracks : Tracks records tracker log) (distinct : (records.map (·.key)).Nodup)
    {rec : IngressPublicKeyRecord K} (member : rec ∈ records) {last : UInt64}
    (found : tracker.processedBlockPerIngressKey.lookup rec.key = some last) :
    (fedBlocks log rec.key).map UInt64.toNat =
      List.range' rec.status.startBlock.toNat (last.toNat + 1 - rec.status.startBlock.toNat) := by
  obtain ⟨other, otherMember, otherKey, -, run⟩ := tracks.processed rec.key last found
  cases List.inj_on_of_nodup_map distinct otherMember member otherKey
  exact run

theorem Tracks.room (tracks : Tracks records tracker log)
    (room : ∀ entry ∈ log, entry.2.toNat + 1 < U64.MAX) {key : K} {last : UInt64}
    (found : tracker.processedBlockPerIngressKey.lookup key = some last) :
    last.toNat + 1 < U64.MAX :=
  room (key, last) (mem_fedBlocks.mp (tracks.last_mem found))

theorem tracks_blockProcessed (distinct : (records.map (·.key)).Nodup)
    (tracks : Tracks records tracker log) (room : ∀ entry ∈ log, entry.2.toNat + 1 < U64.MAX)
    {key : K} {blockIndex : UInt64} (fits : blockIndex.toNat + 1 < U64.MAX)
    (asked : (tracker.nextBlocks records).lookup key = some blockIndex)
    (processed : tracker.blockProcessed key blockIndex = .ok tracker') :
    Tracks records tracker' (log ++ [(key, blockIndex)]) := by
  obtain ⟨rec, member, rfl, covers, next⟩ := lookup_nextBlocks asked
  obtain ⟨-, rfl⟩ := blockProcessed_ok_iff.mp processed
  -- the one record of the key, by the distinct keys
  have only : ∀ other ∈ records, other.key = rec.key → other = rec := fun other found same =>
    List.inj_on_of_nodup_map distinct found member same
  have lookupSame : (tracker.processedBlockPerIngressKey.insert rec.key blockIndex).lookup
      rec.key = some blockIndex := AList.lookup_insert _
  have lookupOther : ∀ {other : K}, other ≠ rec.key →
      (tracker.processedBlockPerIngressKey.insert rec.key blockIndex).lookup other =
        tracker.processedBlockPerIngressKey.lookup other := fun differs =>
    AList.lookup_insert_ne differs
  -- the block follows the last block of its key, with no wrap below `u64::MAX`
  have follows : ∀ {last}, tracker.processedBlockPerIngressKey.lookup rec.key = some last →
      blockIndex.toNat = last.toNat + 1 := fun found => by
    rw [Asks.consecutive ⟨covers, next⟩ _ found]
    exact U64.toNat_add_one (by have := tracks.room room found; omega)
  have next' : (blockIndex + 1).toNat = blockIndex.toNat + 1 := U64.toNat_add_one (by omega)
  refine ⟨fun other last found => ?_, fun other missing => ?_, ?_, ?_⟩
  · by_cases same : other = rec.key
    · -- the key of the block: its run grows by the block
      subst same
      rw [lookupSame, Option.some.injEq] at found
      subst found
      refine ⟨rec, member, rfl, IngressPublicKeyRecord.startBlock_le_of_covers covers, ?_⟩
      rcases next with ⟨previous, before, rfl⟩ | ⟨unprocessed, rfl⟩
      · obtain ⟨other, otherMember, otherKey, startLe, run⟩ :=
          tracks.processed rec.key previous before
        cases only other otherMember otherKey
        have started := UInt64.le_iff_toNat_le.mp startLe
        rw [fedBlocks_append_same, List.map_append, List.map_singleton, run, follows before,
          show previous.toNat + 1 + 1 - rec.status.startBlock.toNat =
            previous.toNat + 1 - rec.status.startBlock.toNat + 1 by omega, List.range'_concat]
        congr 2
        omega
      · rw [fedBlocks_append_same, tracks.unprocessed rec.key unprocessed, Nat.add_sub_cancel_left]
        rfl
    · rw [lookupOther same] at found
      rw [fedBlocks_append_other _ _ same]
      exact tracks.processed other last found
  · have differs : other ≠ rec.key := fun same => by
      rw [same, lookupSame] at missing
      cases missing
    rw [lookupOther differs] at missing
    rw [fedBlocks_append_other _ _ differs]
    exact tracks.unprocessed other missing
  · intro below lower covering coveringMember covered
    obtain ⟨last, found, within⟩ := tracks.below_count below lower covering coveringMember covered
    by_cases same : covering.key = rec.key
    · have moved := follows (same ▸ found)
      have within' := UInt64.le_iff_toNat_le.mp within
      exact ⟨blockIndex, by rw [same, lookupSame], UInt64.le_iff_toNat_le.mpr (by omega)⟩
    · exact ⟨last, by rw [lookupOther same]; exact found, within⟩
  · -- the known blocks only grow
    refine UInt64.le_trans tracks.count_le (highestKnownBlockCount_le fun other last found => ?_)
    by_cases same : other = rec.key
    · subst same
      have moved := follows found
      have fits := tracks.room room found
      have before : (last + 1).toNat = last.toNat + 1 := U64.toNat_add_one (by omega)
      refine UInt64.le_trans (UInt64.le_iff_toNat_le.mpr ?_) (le_highestKnownBlockCount lookupSame)
      omega
    · exact le_highestKnownBlockCount (by rw [lookupOther same]; exact found)

/-- Along a run whose blocks leave room below `u64::MAX`, the count loop stops, with the count
within the known blocks. -/
theorem Tracks.advance_eq_some (tracks : Tracks records tracker log)
    (room : ∀ entry ∈ log, entry.2.toNat + 1 < U64.MAX) :
    ∃ result, tracker.advance records tracker.highestKnownBlockCount UInt64.size
        tracker.lastHighestProcessedBlockCount = some result ∧
      tracker.Advanced records tracker.highestKnownBlockCount
        tracker.lastHighestProcessedBlockCount result := by
  have known : tracker.highestKnownBlockCount.toNat < U64.MAX := by
    refine toNat_highestKnownBlockCount_lt (by decide) fun key last found => ?_
    have fits := tracks.room room found
    rw [U64.toNat_add_one (by omega)]
    exact fits
  have fuel : U64.MAX < UInt64.size := by decide
  exact advance_advanced tracker records _ known UInt64.size _ tracks.count_le (by omega)

/-- The count advances only past blocks every covering record has processed, and stays within
the known blocks. -/
theorem tracks_highestFullyProcessedBlockCount (tracks : Tracks records tracker log)
    (room : ∀ entry ∈ log, entry.2.toNat + 1 < U64.MAX)
    {result : UInt64 × Option (IngressPublicKeyRecord K)}
    (computed : tracker.highestFullyProcessedBlockCount records = some (result, tracker')) :
    Tracks records tracker' log := by
  obtain ⟨result', loop, advanced⟩ := tracks.advance_eq_some room
  rw [highestFullyProcessedBlockCount_eq loop, Option.some.injEq, Prod.mk.injEq] at computed
  obtain ⟨-, rfl⟩ := computed
  refine ⟨tracks.processed, tracks.unprocessed, fun blockIndex below => ?_, advanced.result_le⟩
  by_cases earlier : blockIndex < tracker.lastHighestProcessedBlockCount
  · exact tracks.below_count blockIndex earlier
  · exact blockingRecord_eq_none_iff.mp
      (advanced.passed blockIndex (UInt64.not_lt.mp earlier) below)

end Step

theorem Fed.tracks {records : List (IngressPublicKeyRecord K)}
    (distinct : (records.map (·.key)).Nodup) {tracker : BlockTracker K} {log : List (K × UInt64)}
    (fed : Fed records tracker log) (room : ∀ entry ∈ log, entry.2.toNat + 1 < U64.MAX) :
    Tracks records tracker log := by
  induction fed with
  | new => exact tracks_new records
  | @blockProcessed _ _ log key blockIndex _ asked processed ih =>
    -- the run so far fed a prefix of the blocks
    have earlier : ∀ entry ∈ log, entry.2.toNat + 1 < U64.MAX := fun entry member =>
      room entry (List.mem_append_left _ member)
    exact tracks_blockProcessed distinct (ih earlier) earlier
      (room (key, blockIndex) (List.mem_append_right _ (List.mem_singleton_self _))) asked processed
  | highestFullyProcessedBlockCount _ _ computed ih =>
    exact tracks_highestFullyProcessedBlockCount (ih room) room computed

/-- Over key records with distinct keys, along a run in which one past each block fed stays
below `u64::MAX`, `highest_fully_processed_block_count` returns a count within the known blocks,
never below the one before (which the tracker keeps, and `block_processed` does not move), past
blocks fed for every record covering them, each within the run of blocks from the record's
start block; below the known blocks it stops on a record that covers the block and was not fed
it. `block_processed` passes its assertion on every block `next_blocks` asks for. -/
theorem highestFullyProcessedBlockCount_of_fed {records : List (IngressPublicKeyRecord K)}
    (distinct : (records.map (·.key)).Nodup) {tracker : BlockTracker K} {log : List (K × UInt64)}
    (fed : Fed records tracker log) (room : ∀ entry ∈ log, entry.2.toNat + 1 < U64.MAX) :
    ∃ count reason tracker', tracker.highestFullyProcessedBlockCount records =
        some ((count, reason), tracker') ∧
      count ≤ tracker.highestKnownBlockCount ∧ tracker.lastHighestProcessedBlockCount ≤ count ∧
      tracker'.lastHighestProcessedBlockCount = count ∧
      (∀ blockIndex < count, ∀ rec ∈ records, rec.coversBlockIndex blockIndex = true →
        ∃ last, tracker.processedBlockPerIngressKey.lookup rec.key = some last ∧
          blockIndex ≤ last ∧ blockIndex ∈ fedBlocks log rec.key ∧
          (fedBlocks log rec.key).map UInt64.toNat =
            List.range' rec.status.startBlock.toNat (last.toNat + 1 - rec.status.startBlock.toNat)) ∧
      (count < tracker.highestKnownBlockCount → ∃ rec, reason = some rec ∧ rec ∈ records ∧
        rec.coversBlockIndex count = true ∧ count ∉ fedBlocks log rec.key) ∧
      ∀ key blockIndex, (tracker.nextBlocks records).lookup key = some blockIndex →
        ∃ tracker'', tracker.blockProcessed key blockIndex = .ok tracker'' ∧
          tracker''.lastHighestProcessedBlockCount = tracker.lastHighestProcessedBlockCount := by
  have tracks := fed.tracks distinct room
  obtain ⟨⟨count, reason⟩, loop, advanced⟩ := tracks.advance_eq_some room
  have computed := highestFullyProcessedBlockCount_eq loop
  have after := tracks_highestFullyProcessedBlockCount tracks room computed
  refine ⟨count, reason, _, computed, advanced.result_le, advanced.le_result, rfl, ?_, ?_, ?_⟩
  · intro blockIndex below rec member covers
    obtain ⟨last, found, within⟩ := after.below_count blockIndex below rec member covers
    have run := tracks.run distinct member found
    have started := UInt64.le_iff_toNat_le.mp (IngressPublicKeyRecord.startBlock_le_of_covers covers)
    exact ⟨last, found, within,
      (mem_fedBlocks_of_run run).mpr ⟨started, UInt64.le_iff_toNat_le.mp within⟩, run⟩
  · intro short
    -- below the known blocks the loop stops on a record
    cases reason with
    | none => exact absurd (advanced.stopped_none rfl ▸ short) (UInt64.lt_irrefl _)
    | some rec =>
      obtain ⟨stuck, -⟩ := advanced.stopped_some rec rfl
      obtain ⟨member, covers, missing⟩ := blockingRecord_eq_some stuck
      refine ⟨rec, rfl, member, covers, fun fedIt => ?_⟩
      cases found : tracker.processedBlockPerIngressKey.lookup rec.key with
      | none =>
        rw [tracks.unprocessed rec.key found] at fedIt
        cases fedIt
      | some last =>
        have within := ((mem_fedBlocks_of_run (tracks.run distinct member found)).mp fedIt).2
        exact absurd (UInt64.lt_iff_toNat_lt.mp (missing last found)) (Nat.not_lt.mpr within)
  · intro key blockIndex asked
    obtain ⟨rec, -, rfl, asks⟩ := lookup_nextBlocks asked
    exact ⟨_, blockProcessed_eq_ok asks.consecutive, rfl⟩

theorem highestFullyProcessedBlockCount_of_fed_two_keys :
    ∃ tracker : BlockTracker ℕ,
      (([⟨0, ⟨0, 0, false, false⟩, none⟩, ⟨1, ⟨2, 0, false, false⟩, none⟩] :
        List (IngressPublicKeyRecord ℕ)).map (·.key)).Nodup ∧
      Fed [⟨0, ⟨0, 0, false, false⟩, none⟩, ⟨1, ⟨2, 0, false, false⟩, none⟩] tracker
        [(0, 0), (0, 1), (1, 2)] ∧
      (∀ entry ∈ ([(0, 0), (0, 1), (1, 2)] : List (ℕ × UInt64)), entry.2.toNat + 1 < U64.MAX) ∧
      ∃ count reason tracker', tracker.highestFullyProcessedBlockCount
          [⟨0, ⟨0, 0, false, false⟩, none⟩, ⟨1, ⟨2, 0, false, false⟩, none⟩] =
        some ((count, reason), tracker') ∧ count = 2 ∧ count < tracker.highestKnownBlockCount ∧
        ∃ rec, reason = some rec ∧ rec.key = 0 ∧ rec.coversBlockIndex count = true ∧
          count ∉ fedBlocks [(0, 0), (0, 1), (1, 2)] rec.key := by
  -- block 0 of key 0, a call that passes it, block 1 of key 0 and block 2 of key 1
  have first : Fed [⟨0, ⟨0, 0, false, false⟩, none⟩, ⟨1, ⟨2, 0, false, false⟩, none⟩]
      ⟨(∅ : AList fun _ : ℕ => UInt64).insert 0 0, 0⟩ [(0, 0)] := Fed.first (by decide)
  have fed := ((first.highestFullyProcessedBlockCount (1, none)
      (highestFullyProcessedBlockCount_eq (by decide))).blockProcessed 0 1 (by decide)
      (blockProcessed_eq_ok fun _ found => by cases found; decide)).blockProcessed 1 2
      (by decide) (blockProcessed_eq_ok fun _ found => by cases found)
  have room : ∀ entry ∈ ([(0, 0), (0, 1), (1, 2)] : List (ℕ × UInt64)),
      entry.2.toNat + 1 < U64.MAX := by decide
  obtain ⟨count, reason, tracker', computed, -, -, -, -, stopped, -⟩ :=
    highestFullyProcessedBlockCount_of_fed (by decide) fed room
  -- the call stops at block 2, which key 0 was not fed
  have mapped := congrArg (Option.map fun call => call.1) computed
  rw [Option.map_some] at mapped
  have counted : (count, reason) = (2, some ⟨0, ⟨0, 0, false, false⟩, none⟩) := by
    rw [← Option.some.injEq, ← mapped]
    decide
  cases counted
  obtain ⟨rec, same, -, covers, unfed⟩ := stopped (by decide)
  cases same
  exact ⟨_, by decide, fed, room, 2, _, tracker', computed, rfl, by decide, _, rfl, rfl, covers, unfed⟩

/-- Two records of key `0`, from block `0` and from block `5`: `next_blocks` asks for block `5`
only, and once it is processed the count passes block `0`, which the first record covers and
which was never fed. -/
theorem highestFullyProcessedBlockCount_passes_unfed_block :
    ∃ tracker, Fed [⟨0, ⟨0, 0, false, false⟩, none⟩, ⟨0, ⟨5, 0, false, false⟩, none⟩] tracker
        [(0, 5)] ∧
      (tracker.highestFullyProcessedBlockCount
        [⟨0, ⟨0, 0, false, false⟩, none⟩, ⟨0, ⟨5, 0, false, false⟩, none⟩]).map (·.1.1) = some 6 ∧
      (⟨0, ⟨0, 0, false, false⟩, none⟩ : IngressPublicKeyRecord ℕ).coversBlockIndex 0 = true ∧
      0 ∉ fedBlocks [((0 : ℕ), 5)] 0 :=
  ⟨_, Fed.first (by decide), by decide, by decide, by decide⟩

/-- One record of key `0` from block `u64::MAX - 1`: once that block is fed, the call counts up
to `u64::MAX` and stops on the record; once block `u64::MAX` is fed, the highest known block
count wraps to `0`, and the next call returns `0`. -/
theorem highestFullyProcessedBlockCount_drops_past_max :
    ∃ tracker tracker' : BlockTracker ℕ,
      Fed [⟨0, ⟨UInt64.ofNat (U64.MAX - 1), 0, false, false⟩, none⟩] tracker
        [(0, UInt64.ofNat (U64.MAX - 1))] ∧
      (tracker.highestFullyProcessedBlockCount
        [⟨0, ⟨UInt64.ofNat (U64.MAX - 1), 0, false, false⟩, none⟩]).map (·.1.1) =
        some (UInt64.ofNat U64.MAX) ∧
      Fed [⟨0, ⟨UInt64.ofNat (U64.MAX - 1), 0, false, false⟩, none⟩] tracker'
        [(0, UInt64.ofNat (U64.MAX - 1)), (0, UInt64.ofNat U64.MAX)] ∧
      tracker'.lastHighestProcessedBlockCount = UInt64.ofNat U64.MAX ∧
      (tracker'.highestFullyProcessedBlockCount
        [⟨0, ⟨UInt64.ofNat (U64.MAX - 1), 0, false, false⟩, none⟩]).map (·.1.1) = some 0 := by
  have fed : Fed [⟨0, ⟨UInt64.ofNat (U64.MAX - 1), 0, false, false⟩, none⟩]
      ⟨(∅ : AList fun _ : ℕ => UInt64).insert 0 (UInt64.ofNat (U64.MAX - 1)), 0⟩
      [(0, UInt64.ofNat (U64.MAX - 1))] := Fed.first (by decide)
  -- the first call passes every block below `u64::MAX`, all at or below the block fed
  have loop : (⟨(∅ : AList fun _ : ℕ => UInt64).insert 0 (UInt64.ofNat (U64.MAX - 1)), 0⟩ :
      BlockTracker ℕ).advance [⟨0, ⟨UInt64.ofNat (U64.MAX - 1), 0, false, false⟩, none⟩]
        (UInt64.ofNat U64.MAX) (1 + U64.MAX) 0 =
      some (UInt64.ofNat U64.MAX, some ⟨0, ⟨UInt64.ofNat (U64.MAX - 1), 0, false, false⟩, none⟩) := by
    rw [advance_add _ _ _ U64.MAX 1 0 fun i below => ⟨U64.not_MAX_lt _, ?_⟩]
    · decide
    refine blockingRecord_eq_none_iff.mpr fun rec member _ => ?_
    rw [List.mem_singleton] at member
    subst member
    refine ⟨_, rfl, UInt64.le_iff_toNat_le.mpr ?_⟩
    have fits : i < 2 ^ 64 := by unfold U64.MAX at below; omega
    rw [UInt64.zero_add, UInt64.toNat_ofNat_of_lt' fits, UInt64.toNat_ofNat_of_lt' (by decide)]
    omega
  -- the block after it is `u64::MAX`, and then the known count wraps
  have called : Fed [⟨0, ⟨UInt64.ofNat (U64.MAX - 1), 0, false, false⟩, none⟩]
      ⟨(∅ : AList fun _ : ℕ => UInt64).insert 0 (UInt64.ofNat (U64.MAX - 1)), UInt64.ofNat U64.MAX⟩
      [(0, UInt64.ofNat (U64.MAX - 1))] :=
    fed.highestFullyProcessedBlockCount _ (highestFullyProcessedBlockCount_eq loop)
  have fed' := called.blockProcessed 0 (UInt64.ofNat U64.MAX) (by decide)
    (blockProcessed_eq_ok fun _ found => by cases found; decide)
  refine ⟨_, _, fed, ?_, fed', rfl, by decide⟩
  rw [highestFullyProcessedBlockCount_eq loop]
  rfl

/-- One retired record of key `0` that covers block `u64::MAX - 1` only: once that block is fed,
no block stops the count, which passes `u64::MAX` and comes back around, and the call never
returns. -/
theorem highestFullyProcessedBlockCount_hangs_past_max :
    ∃ tracker : BlockTracker ℕ,
      Fed [⟨0, ⟨UInt64.ofNat (U64.MAX - 1), UInt64.ofNat U64.MAX, true, false⟩, none⟩] tracker
        [(0, UInt64.ofNat (U64.MAX - 1))] ∧
      tracker.highestFullyProcessedBlockCount
        [⟨0, ⟨UInt64.ofNat (U64.MAX - 1), UInt64.ofNat U64.MAX, true, false⟩, none⟩] = none := by
  have fed : Fed [⟨0, ⟨UInt64.ofNat (U64.MAX - 1), UInt64.ofNat U64.MAX, true, false⟩, none⟩]
      ⟨(∅ : AList fun _ : ℕ => UInt64).insert 0 (UInt64.ofNat (U64.MAX - 1)), 0⟩
      [(0, UInt64.ofNat (U64.MAX - 1))] := Fed.first (by decide)
  have known : (⟨(∅ : AList fun _ : ℕ => UInt64).insert 0 (UInt64.ofNat (U64.MAX - 1)), 0⟩ :
      BlockTracker ℕ).highestKnownBlockCount = UInt64.ofNat U64.MAX := by decide
  refine ⟨_, fed, ?_⟩
  rw [highestFullyProcessedBlockCount, advance_eq_none _ _ _ fun count => ⟨known ▸ U64.not_MAX_lt _, ?_⟩]
  · rfl
  -- the record covers block `u64::MAX - 1` only, which its key has processed
  refine blockingRecord_eq_none_iff.mpr fun rec member covers => ?_
  rw [List.mem_singleton] at member
  subst member
  have within : UInt64.ofNat (U64.MAX - 1) ≤ count ∧ count < UInt64.ofNat U64.MAX := by
    simpa [IngressPublicKeyRecord.coversBlockIndex] using covers
  rw [UInt64.le_iff_toNat_le, UInt64.lt_iff_toNat_lt, UInt64.toNat_ofNat_of_lt' (by decide),
    UInt64.toNat_ofNat_of_lt' (by decide)] at within
  refine ⟨_, rfl, UInt64.le_iff_toNat_le.mpr ?_⟩
  rw [UInt64.toNat_ofNat_of_lt' (by decide)]
  omega

/-- Without distinct keys the count passes a block never fed; with block `u64::MAX - 1` fed the
call can hang, and with block `u64::MAX` fed the count drops. -/
theorem highestFullyProcessedBlockCount_needs_distinct_keys_and_room :
    (∃ tracker, Fed [⟨0, ⟨0, 0, false, false⟩, none⟩, ⟨0, ⟨5, 0, false, false⟩, none⟩] tracker
        [(0, 5)] ∧
      (tracker.highestFullyProcessedBlockCount
        [⟨0, ⟨0, 0, false, false⟩, none⟩, ⟨0, ⟨5, 0, false, false⟩, none⟩]).map (·.1.1) = some 6 ∧
      (⟨0, ⟨0, 0, false, false⟩, none⟩ : IngressPublicKeyRecord ℕ).coversBlockIndex 0 = true ∧
      0 ∉ fedBlocks [((0 : ℕ), 5)] 0) ∧
    (∃ tracker tracker' : BlockTracker ℕ,
      Fed [⟨0, ⟨UInt64.ofNat (U64.MAX - 1), 0, false, false⟩, none⟩] tracker
        [(0, UInt64.ofNat (U64.MAX - 1))] ∧
      (tracker.highestFullyProcessedBlockCount
        [⟨0, ⟨UInt64.ofNat (U64.MAX - 1), 0, false, false⟩, none⟩]).map (·.1.1) =
        some (UInt64.ofNat U64.MAX) ∧
      Fed [⟨0, ⟨UInt64.ofNat (U64.MAX - 1), 0, false, false⟩, none⟩] tracker'
        [(0, UInt64.ofNat (U64.MAX - 1)), (0, UInt64.ofNat U64.MAX)] ∧
      tracker'.lastHighestProcessedBlockCount = UInt64.ofNat U64.MAX ∧
      (tracker'.highestFullyProcessedBlockCount
        [⟨0, ⟨UInt64.ofNat (U64.MAX - 1), 0, false, false⟩, none⟩]).map (·.1.1) = some 0) ∧
    ∃ tracker : BlockTracker ℕ,
      Fed [⟨0, ⟨UInt64.ofNat (U64.MAX - 1), UInt64.ofNat U64.MAX, true, false⟩, none⟩] tracker
        [(0, UInt64.ofNat (U64.MAX - 1))] ∧
      tracker.highestFullyProcessedBlockCount
        [⟨0, ⟨UInt64.ofNat (U64.MAX - 1), UInt64.ofNat U64.MAX, true, false⟩, none⟩] = none :=
  ⟨highestFullyProcessedBlockCount_passes_unfed_block, highestFullyProcessedBlockCount_drops_past_max,
    highestFullyProcessedBlockCount_hangs_past_max⟩

end BlockTracker

end MobileCoin.FogView
