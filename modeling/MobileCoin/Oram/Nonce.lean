import Mathlib
import MobileCoin.Lib.Counter
import MobileCoin.Oram.Run

/-!
# The AES-CTR nonces of `OcallORAMStorage`

`checkin` encrypts each block it sends untrusted under `make_aes_nonce(block_idx, block_ctr)`, with
`block_ctr` one more than the counter of the block the checkout before read. Over a run from a new
storage, whatever untrusted answers, the counters a block is encrypted under go up by one from
each checkin of it to the next (`run_counters_consecutive`): the checkout authenticates the counter
it reads. No nonce repeats before some block has been encrypted `2 ^ 64 + 1` times
(`run_nonces_nodup`). The counter is a `u64` that wraps, so a run that checks one block in
`2 ^ 64 + 1` times encrypts it twice under one nonce (`run_reuses_nonce`).
-/

namespace MobileCoin.OramStorage

open TreeIndex Table Counter OcallORAMStorage

variable {D M H : Type} [Inhabited D] [Inhabited M] [Inhabited H] [DecidableEq M] [DecidableEq H]

/-- `make_aes_nonce(block_idx, block_ctr)` of a block sent untrusted: the tree index it was sent
for, and the counter it records, which `checkinBlock` encrypted it under. -/
def sentNonce (treetopMaxCount : Nat) (block : Nat × D × ExtendedMeta M H) : Nat × UInt64 :=
  (block.1 + treetopMaxCount, block.2.2.extraMeta.blockCtr)

/-- The counters the blocks sent untrusted for `idx` were encrypted under, in order. -/
def sentCounters (treetopMaxCount : Nat) (log : List (Nat × D × ExtendedMeta M H)) (idx : Nat) :
    List UInt64 :=
  (log.filter fun block => (sentNonce treetopMaxCount block).1 = idx).map fun block =>
    (sentNonce treetopMaxCount block).2

section Counters

omit [Inhabited D] [Inhabited M] [Inhabited H] [DecidableEq M] [DecidableEq H]

variable {treetopMaxCount : Nat}

theorem sentCounters_append (log sent : List (Nat × D × ExtendedMeta M H)) (idx : Nat) :
    sentCounters treetopMaxCount (log ++ sent) idx =
      sentCounters treetopMaxCount log idx ++ sentCounters treetopMaxCount sent idx := by
  simp [sentCounters, List.filter_append]

theorem receive_of_getLast?_sentCounters {log : List (Nat × D × ExtendedMeta M H)} {idx : Nat}
    {last : UInt64} (isLast : (sentCounters treetopMaxCount log idx).getLast? = some last) :
    ∃ block, receive treetopMaxCount (fun _ => none) log idx = some block ∧
      block.2.extraMeta.blockCtr = last := by
  rw [sentCounters, List.getLast?_map, Option.map_eq_some_iff] at isLast
  obtain ⟨sent, lastSent, rfl⟩ := isLast
  refine ⟨sent.2, ?_, rfl⟩
  simp only [sentNonce] at lastSent
  rw [receive_apply, Option.or_none]
  exact congrArg (Option.map Prod.snd) lastSent

theorem sentCounters_zipWith_of_not_mem {path : List Nat} (above : ∀ idx ∈ path, treetopMaxCount ≤ idx)
    (sealed : List (D × ExtendedMeta M H)) {idx : Nat} (absent : idx ∉ path) :
    sentCounters treetopMaxCount
      (path.zipWith (fun idx block => (idx - treetopMaxCount, block)) sealed) idx = [] := by
  induction path generalizing sealed with
  | nil => simp [sentCounters]
  | cons p rest ih =>
    cases sealed with
    | nil => simp [sentCounters]
    | cons block more =>
      rw [List.mem_cons, not_or] at absent
      have differs : p - treetopMaxCount + treetopMaxCount ≠ idx := by
        rw [Nat.sub_add_cancel (above p List.mem_cons_self)]
        exact Ne.symm absent.1
      have restEmpty := ih (fun i member => above i (List.mem_cons_of_mem _ member)) more absent.2
      simp only [sentCounters, sentNonce] at restEmpty ⊢
      simpa [List.zipWith_cons_cons, List.filter_cons, differs] using restEmpty

theorem sentCounters_zipWith {path : List Nat} (distinct : path.Nodup)
    (above : ∀ idx ∈ path, treetopMaxCount ≤ idx) {sealed : List (D × ExtendedMeta M H)}
    (length : sealed.length = path.length) {j : Nat} (inside : j < path.length) :
    sentCounters treetopMaxCount
        (path.zipWith (fun idx block => (idx - treetopMaxCount, block)) sealed) path[j] =
      [sealed[j].2.extraMeta.blockCtr] := by
  induction path generalizing sealed j with
  | nil => simp at inside
  | cons p rest ih =>
    cases sealed with
    | nil => simp at length
    | cons block more =>
      rw [List.nodup_cons] at distinct
      have restAbove : ∀ idx ∈ rest, treetopMaxCount ≤ idx := fun i member =>
        above i (List.mem_cons_of_mem _ member)
      have back : p - treetopMaxCount + treetopMaxCount = p :=
        Nat.sub_add_cancel (above p List.mem_cons_self)
      cases j with
      | zero =>
        have restEmpty := sentCounters_zipWith_of_not_mem restAbove more distinct.1
        simp only [sentCounters, sentNonce] at restEmpty ⊢
        simpa [List.zipWith_cons_cons, List.filter_cons, back] using restEmpty
      | succ j =>
        have restInside : j < rest.length := by simpa using inside
        have differs : p ≠ rest[j] := fun same => distinct.1 (same ▸ List.getElem_mem _)
        have restOne := ih distinct.2 restAbove (show more.length = rest.length by simpa using length)
          restInside
        simp only [sentCounters, sentNonce] at restOne ⊢
        simpa [List.zipWith_cons_cons, List.filter_cons, back, differs] using restOne

end Counters

/-! ### Counters over a run -/

section Run

variable {keys : Keys D M H} {heap : HeapORAMStorage D M}

/-- An access adds to the counters of each node it checks in past the treetop the counter after
the last one: its checkout authenticates the counter of the block untrusted holds there, and
leaves it in the scratch buffer for the checkin. -/
theorem access_counters (collisionFree : CollisionFree keys) (involutive : KeystreamInvolutive keys)
    {self self' : OcallORAMStorage D M H} {log : List (Nat × D × ExtendedMeta M H)}
    (authentic : Authentic keys self heap (receive self.treetopMaxCount (fun _ => none) log))
    (consecutive : ∀ idx, Consecutive (sentCounters self.treetopMaxCount log idx))
    {a : Access D M H} {outputs : List (D × M)} {sent : List (Nat × D × ExtendedMeta M H)}
    (ok : self.access keys a = some (self', outputs, sent)) (idx : Nat) :
    Consecutive (sentCounters self.treetopMaxCount (log ++ sent) idx) := by
  obtain ⟨checkedOut, checkout, checkin⟩ := access_eq_some.mp ok
  obtain ⟨scratchOnly, records, -⟩ := checkout_authentic collisionFree authentic checkout
  have sameTreetop : checkedOut.treetopMaxCount = self.treetopMaxCount := by
    rw [scratchOnly]
  obtain ⟨first, found, sealed, along, rfl⟩ := checkin_sealed involutive checkin
  rw [sameTreetop] at found ⊢
  have above : ∀ idx ∈ (parents a.index).take first, self.treetopMaxCount ≤ idx :=
    fun idx member => le_of_mem_untrustedPath found member
  have distinct : ((parents a.index).take first).Nodup :=
    (nodup_parents _).sublist (List.take_sublist _ _)
  rw [sentCounters_append]
  by_cases member : idx ∈ (parents a.index).take first
  · obtain ⟨j, inside, rfl⟩ := List.getElem_of_mem member
    rw [sentCounters_zipWith distinct above along.length inside]
    refine (consecutive _).append_singleton fun last isLast => ?_
    -- the last counter is that of the block untrusted holds, which the checkout read
    obtain ⟨block, held, counter⟩ := receive_of_getLast?_sentCounters isLast
    have onPath : j < (parents a.index).length := by
      simp only [List.length_take] at inside
      omega
    obtain ⟨entry, entryAt, sameMeta⟩ := records j onPath block (by simpa using held)
    have scratchAt := getElem?_resizeWith inside checkedOut.metaScratchBuffer
    rw [entryAt, Option.getD_some] at scratchAt
    rw [along.counts j inside, (List.getElem_eq_iff _).mpr scratchAt, sameMeta, counter]
  · rw [sentCounters_zipWith_of_not_mem above sealed member, List.append_nil]
    exact consecutive idx

/-- Over a run, the counters each node is encrypted under go up by one from each checkin of it to
the next. -/
theorem run_counters_consecutive (collisionFree : CollisionFree keys)
    (involutive : KeystreamInvolutive keys) {accesses : List (Access D M H)}
    {self self' : OcallORAMStorage D M H} {log₀ log : List (Nat × D × ExtendedMeta M H)}
    (authentic : Authentic keys self heap (receive self.treetopMaxCount (fun _ => none) log₀))
    (consecutive : ∀ idx, Consecutive (sentCounters self.treetopMaxCount log₀ idx))
    (ran : self.run keys accesses = some (self', log)) (idx : Nat) :
    Consecutive (sentCounters self.treetopMaxCount (log₀ ++ log) idx) := by
  induction accesses generalizing self heap log₀ log with
  | nil =>
    simp only [run, Option.some.injEq, Prod.mk.injEq] at ran
    obtain ⟨rfl, rfl⟩ := ran
    rw [List.append_nil]
    exact consecutive idx
  | cons a rest ih =>
    obtain ⟨accessed, outputs, sent, later, accessOk, restOk, rfl⟩ := run_cons_eq_some.mp ran
    obtain ⟨-, sameTreetop, authentic₁, -⟩ :=
      access_authentic collisionFree involutive authentic accessOk
    have consecutive₁ := access_counters collisionFree involutive authentic consecutive accessOk
    rw [← receive_append, ← sameTreetop] at authentic₁
    simp only [← sameTreetop] at consecutive₁
    have later := ih authentic₁ consecutive₁ restOk
    rwa [sameTreetop, List.append_assoc] at later

end Run

/-! ### Runs with an honest untrusted -/

/-- A run of `n` honestly answered accesses of node `2` from a new storage of four blocks: each
sends one block for node `2`. -/
theorem honest_run (n : Nat) :
    ∃ accesses self log, fourBlocks.run pairKeys accesses = some (self, log) ∧ log.length = n ∧
      ∀ block ∈ log, block.1 = 0 ∧ block.2.2.metadata = true := by
  induction n with
  | zero => exact ⟨[], fourBlocks, [], rfl, rfl, fun _ member => absurd member List.not_mem_nil⟩
  | succ n ih =>
    obtain ⟨accesses, self, log, ran, length, sentAtTwo⟩ := ih
    obtain ⟨count, treetop, authentic, -⟩ := run_authentic pairKeys_collisionFree pairKeys_involutive
      (authentic_new pairKeys new_fourBlocks) ran
    -- untrusted holds for node `2` the last block sent for it
    have marked : ∀ block, receive fourBlocks.treetopMaxCount (fun _ => none) log 2 = some block →
        block.2.metadata = true := by
      intro block held
      rw [receive_apply, Option.or_none, Option.map_eq_some_iff] at held
      obtain ⟨sent, lastSent, rfl⟩ := held
      exact (sentAtTwo sent (List.mem_of_mem_filter (List.mem_of_getLast? lastSent))).2
    obtain ⟨self', outputs, block, accessOk, marking⟩ := honestAccess_ok authentic count treetop marked
    refine ⟨accesses ++ [honestAccess _], self', log ++ [(0, block)],
      run_append_singleton ran accessOk, by simp [length], fun sent member => ?_⟩
    rcases List.mem_append.mp member with earlier | latest
    · exact sentAtTwo sent earlier
    · rw [List.mem_singleton] at latest
      subst latest
      exact ⟨rfl, marking⟩

/-! ### Nonces -/

section Nonces

variable {keys : Keys D M H}

/-- Over any run from a new storage, no two checkins encrypt under one nonce, as long as no block
is encrypted more than `2 ^ 64` times. -/
theorem run_nonces_nodup (collisionFree : CollisionFree keys) (involutive : KeystreamInvolutive keys)
    {count : Nat} {treetopCachingThresholdLog2 : UInt32} {dataSize allocationId : UInt64}
    {created self : OcallORAMStorage D M H}
    (fresh : new count treetopCachingThresholdLog2 dataSize allocationId = some created)
    {accesses : List (Access D M H)} {log : List (Nat × D × ExtendedMeta M H)}
    (ran : created.run keys accesses = some (self, log))
    (few : ∀ idx, (log.filter fun block => block.1 + created.treetopMaxCount = idx).length ≤ 2 ^ 64) :
    (log.map (sentNonce created.treetopMaxCount)).Nodup := by
  have consecutive : ∀ idx, Consecutive (sentCounters created.treetopMaxCount ([] ++ log) idx) :=
    run_counters_consecutive collisionFree involutive (authentic_new keys fresh)
      (fun _ => List.IsChain.nil) ran
  refine nodup_of_filter _ fun idx => (consecutive idx).nodup ?_
  rw [sentCounters, List.length_map, List.nil_append]
  exact few idx

theorem run_nonces_nodup_honest :
    ∃ accesses self log, fourBlocks.run pairKeys accesses = some (self, log) ∧ log.length = 3 ∧
      (log.map (sentNonce fourBlocks.treetopMaxCount)).Nodup := by
  obtain ⟨accesses, self, log, ran, length, -⟩ := honest_run 3
  refine ⟨accesses, self, log, ran, length, ?_⟩
  exact run_nonces_nodup pairKeys_collisionFree pairKeys_involutive new_fourBlocks ran fun idx => by
    have := List.length_filter_le (fun block => decide (block.1 + fourBlocks.treetopMaxCount = idx)) log
    omega

end Nonces

/-- The counter wraps: a run that checks one block in `2 ^ 64 + 1` times, with untrusted answering
honestly, encrypts it twice under one nonce, under collision-free keys. -/
theorem run_reuses_nonce :
    CollisionFree pairKeys ∧ KeystreamInvolutive pairKeys ∧ new 4 1 1 1 = some fourBlocks ∧
      ∃ accesses self log, fourBlocks.run pairKeys accesses = some (self, log) ∧
        ¬ (log.map (sentNonce fourBlocks.treetopMaxCount)).Nodup := by
  obtain ⟨accesses, self, log, ran, length, atTwo⟩ := honest_run (2 ^ 64 + 1)
  refine ⟨pairKeys_collisionFree, pairKeys_involutive, new_fourBlocks, accesses, self, log, ran,
    fun distinct => ?_⟩
  have consecutive : Consecutive (sentCounters fourBlocks.treetopMaxCount ([] ++ log) 2) :=
    run_counters_consecutive pairKeys_collisionFree pairKeys_involutive
      (authentic_new pairKeys new_fourBlocks) (fun _ => by exact List.IsChain.nil) ran 2
  rw [List.nil_append] at consecutive
  -- every block was sent for node `2`, so the nonces are the counters paired with it
  have everyBlock : sentCounters fourBlocks.treetopMaxCount log 2 =
      log.map fun block => block.2.2.extraMeta.blockCtr := by
    rw [sentCounters, List.filter_eq_self.mpr fun block member => by
      simp [sentNonce, fourBlocks, eightBlocks, (atTwo block member).1]]
    rfl
  have nonces : log.map (sentNonce fourBlocks.treetopMaxCount) =
      (sentCounters fourBlocks.treetopMaxCount log 2).map fun counter => (2, counter) := by
    rw [everyBlock, List.map_map]
    refine List.map_congr_left fun block member => ?_
    simp [sentNonce, fourBlocks, eightBlocks, (atTwo block member).1]
  rw [nonces] at distinct
  have countersDistinct := distinct.of_map _
  -- after `2 ^ 64` increments the counter is back where it started
  have long : 2 ^ 64 < (sentCounters fourBlocks.treetopMaxCount log 2).length := by
    rw [everyBlock, List.length_map, length]
    omega
  have wrapped := consecutive.getElem long
  have zero : (2 ^ 64 : Nat).toUInt64 = 0 := by decide
  rw [zero, add_zero] at wrapped
  have same := (List.Nodup.getElem_inj_iff countersDistinct).mp wrapped
  omega

end MobileCoin.OramStorage
