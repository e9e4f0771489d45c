import MobileCoin.ConsensusService.Worker

/-!
# Runs of the byzantine ledger worker

Which of its own checks the worker can trip. Between ticks the `is_behind` flag is up exactly in
the `IsBehind` state, and the slot index is at most the ledger's length, equal to it outside
`IsBehind`. Every tick keeps this, whatever the node and the environment answer, so the
forbidden transitions, the sync outside `IsBehind`, the `is_behind` assert, the lookup of the
block before a message's slot and the assert that the ledger grew by one block never fail.
-/

namespace MobileCoin.ConsensusService

open Scp

/-- Whether a panic is the SCP node's. -/
def Panic.fromNode {ε : Type} : Panic ε → Bool
  | .scpNode _ => true
  | _ => false

theorem Panic.fromNode_iff {ε : Type} {p : Panic ε} : p.fromNode = true ↔ ∃ e, p = .scpNode e := by
  cases p <;> simp [Panic.fromNode]

/-- A call of the node, its error wrapped as the node's, followed by code that cannot fail, fails
only in the node. -/
theorem Panic.fromNode_of_bind {ε α β : Type} {call : Except ε α} {rest : α → Except (Panic ε) β}
    {p : Panic ε} (failed : call.mapError Panic.scpNode >>= rest = .error p)
    (total : ∀ a, ∃ b, rest a = .ok b) : p.fromNode := by
  rcases bind_error_iff.mp failed with called | ⟨a, -, done⟩
  · obtain ⟨e, -, rfl⟩ := mapError_eq_error.mp called
    rfl
  · obtain ⟨b, ok⟩ := total a
    rw [ok] at done
    cases done

/-- The transitions of the sync state that `tick` allows: `InSync` never goes to `IsBehind`
directly, and `IsBehind` never goes back to `MaybeBehind`. -/
def LedgerSyncState.Allowed : LedgerSyncState → LedgerSyncState → Prop
  | .inSync, .isBehind _ _ => False
  | .isBehind _ _, .maybeBehind _ => False
  | _, _ => True

namespace ByzantineLedgerWorker

variable {N ID V B ε : Type}

/-- What the checks of `tick` read: the slot index, the ledger, the sync state and the
`is_behind` flag. -/
def checked (self : ByzantineLedgerWorker N ID V B) : ℕ × List B × LedgerSyncState × Bool :=
  (self.currentSlotIndex, self.ledger, self.ledgerSyncState, self.isBehind)

/-- The invariant of the worker between ticks. -/
structure Consistent (worker : ByzantineLedgerWorker N ID V B) : Prop where
  isBehind_eq : worker.isBehind = worker.ledgerSyncState.behind
  slot_le : worker.currentSlotIndex ≤ worker.ledger.length
  slot_eq : worker.ledgerSyncState.behind = false → worker.currentSlotIndex = worker.ledger.length

theorem Consistent.of_checked {self self' : ByzantineLedgerWorker N ID V B}
    (consistent : self.Consistent) (same : self'.checked = self.checked) : self'.Consistent := by
  simp only [checked, Prod.mk.injEq] at same
  obtain ⟨slot, ledger, state, flag⟩ := same
  refine ⟨?_, ?_, ?_⟩
  · rw [flag, state]
    exact consistent.isBehind_eq
  · rw [slot, ledger]
    exact consistent.slot_le
  · rw [state, slot, ledger]
    exact consistent.slot_eq

theorem ledgerSyncState_of_checked {self self' : ByzantineLedgerWorker N ID V B}
    (same : self'.checked = self.checked) : self'.ledgerSyncState = self.ledgerSyncState := by
  simp only [checked, Prod.mk.injEq] at same
  exact same.2.2.1

/-! ### What each call keeps -/

section Frame

variable [LinearOrder V]

variable {self self' : ByzantineLedgerWorker N ID V B}

theorem issueConsensusMessage_eq {msg : Msg ID V}
    (issued : self.issueConsensusMessage msg = .ok self') :
    self' = { self with highestIssuedMsg := self'.highestIssuedMsg } := by
  unfold issueConsensusMessage at issued
  rw [bind_ok_iff] at issued
  obtain ⟨consensusMsg, -, issued⟩ := issued
  split at issued
  · split at issued <;>
    · rw [pure_eq_ok, Except.ok.injEq] at issued
      subst issued
      rfl
  · rw [pure_eq_ok, Except.ok.injEq] at issued
    subst issued
    rfl

theorem issueConsensusMessages_cons (msg : Msg ID V) (msgs : List (Msg ID V))
    (self : ByzantineLedgerWorker N ID V B) :
    self.issueConsensusMessages (msg :: msgs) =
      ((self.issueConsensusMessage msg).toOption.getD self).issueConsensusMessages msgs := rfl

theorem issueConsensusMessages_eq :
    ∀ (msgs : List (Msg ID V)) (self : ByzantineLedgerWorker N ID V B),
      ∃ highestIssuedMsg, self.issueConsensusMessages msgs = { self with highestIssuedMsg }
  | [], self => ⟨self.highestIssuedMsg, rfl⟩
  | msg :: msgs, self => by
    rw [issueConsensusMessages_cons]
    obtain ⟨highestIssuedMsg, issued⟩ := issueConsensusMessages_eq msgs
      ((self.issueConsensusMessage msg).toOption.getD self)
    refine ⟨highestIssuedMsg, ?_⟩
    rw [issued]
    cases first : self.issueConsensusMessage msg with
    | error _ => rfl
    | ok self₁ =>
      rw [issueConsensusMessage_eq first]
      rfl

@[simp] theorem checked_issueConsensusMessages (msgs : List (Msg ID V))
    (self : ByzantineLedgerWorker N ID V B) :
    (self.issueConsensusMessages msgs).checked = self.checked := by
  obtain ⟨highestIssuedMsg, issued⟩ := issueConsensusMessages_eq msgs self
  rw [issued]
  rfl

@[simp] theorem checked_pushValues (validate : V → Bool) :
    ∀ (newValues : List V) (self : ByzantineLedgerWorker N ID V B),
      (self.pushValues validate newValues).checked = self.checked
  | [], _ => rfl
  | _ :: newValues, _ => checked_pushValues validate newValues _

@[simp] theorem checked_receiveTasks (validate : V → Bool) :
    ∀ (tasks : List (TaskMessage ID V B)) (self : ByzantineLedgerWorker N ID V B),
      (self.receiveTasks validate tasks).2.checked = self.checked
  | [], _ => rfl
  | .values newValues :: tasks, self => by
    rw [receiveTasks, checked_receiveTasks validate tasks, checked_pushValues]
  | .consensusMsg _ :: tasks, _ => by
    rw [receiveTasks, checked_receiveTasks validate tasks]
    rfl
  | .stopTrigger :: _, _ => rfl

end Frame

variable {node : ScpNode N ID V ε} {env : Env ID V B} {self self' : ByzantineLedgerWorker N ID V B}
  {p : Panic ε}

/-! ### The sync state machine -/

theorem allowed_nextSyncState (isBehind : Bool) (now : ℕ) (self : ByzantineLedgerWorker N ID V B) :
    self.ledgerSyncState.Allowed (self.nextSyncState isBehind now) := by
  unfold nextSyncState
  cases isBehind
  · cases self.ledgerSyncState <;> trivial
  · cases self.ledgerSyncState with
    | inSync => trivial
    | maybeBehind behindSince =>
      dsimp only [Bool.not_true]
      split <;> trivial
    | isBehind attemptSyncAt numSyncAttempts => trivial

theorem consistent_of_unchanged {previous : LedgerSyncState}
    (flag : self.isBehind = previous.behind) (le : self.currentSlotIndex ≤ self.ledger.length)
    (eq : previous.behind = false → self.currentSlotIndex = self.ledger.length)
    (same : self.ledgerSyncState.behind = previous.behind) : self.Consistent :=
  ⟨flag.trans same.symm, le, fun notBehind => eq (same ▸ notBehind)⟩

/-- The transition keeps the invariant, given that the worker was consistent with `previous`
and moved to a state `previous` allows. -/
theorem transition_ok {previous : LedgerSyncState} {shouldSync : Bool}
    (transitioned : self.transition node env previous = .ok (shouldSync, self'))
    (flag : self.isBehind = previous.behind) (le : self.currentSlotIndex ≤ self.ledger.length)
    (eq : previous.behind = false → self.currentSlotIndex = self.ledger.length)
    (allowed : previous.Allowed self.ledgerSyncState) :
    self'.Consistent ∧ (shouldSync = true → self'.ledgerSyncState.behind = true) := by
  unfold transition at transitioned
  cases previous with
  | inSync =>
    cases state : self.ledgerSyncState with
    | inSync | maybeBehind _ =>
      simp only [state, pure_eq_ok, Except.ok.injEq, Prod.mk.injEq] at transitioned
      obtain ⟨rfl, rfl⟩ := transitioned
      exact ⟨consistent_of_unchanged flag le eq (by simp [state, LedgerSyncState.behind]), nofun⟩
    | isBehind _ _ =>
      simp only [state, LedgerSyncState.Allowed] at allowed
  | maybeBehind _ =>
    cases state : self.ledgerSyncState with
    | inSync | maybeBehind _ =>
      simp only [state, pure_eq_ok, Except.ok.injEq, Prod.mk.injEq] at transitioned
      obtain ⟨rfl, rfl⟩ := transitioned
      exact ⟨consistent_of_unchanged flag le eq (by simp [state, LedgerSyncState.behind]), nofun⟩
    | isBehind _ _ =>
      -- the grace period is over: the flag goes up, and the worker syncs
      simp only [state, pure_eq_ok, Except.ok.injEq, Prod.mk.injEq] at transitioned
      obtain ⟨rfl, rfl⟩ := transitioned
      refine ⟨⟨?_, le, ?_⟩, fun _ => ?_⟩ <;> simp [LedgerSyncState.behind]
  | isBehind _ _ =>
    cases state : self.ledgerSyncState with
    | inSync =>
      -- synced: the slot after the ledger, and the flag down
      simp only [state, bind_ok_iff, pure_eq_ok, Except.ok.injEq, Prod.mk.injEq] at transitioned
      obtain ⟨scpNode, -, rfl, rfl⟩ := transitioned
      refine ⟨⟨?_, le_refl _, fun _ => rfl⟩, nofun⟩
      simp [LedgerSyncState.behind]
    | maybeBehind _ =>
      simp only [state, LedgerSyncState.Allowed] at allowed
    | isBehind _ _ =>
      simp only [state, pure_eq_ok, Except.ok.injEq, Prod.mk.injEq] at transitioned
      obtain ⟨rfl, rfl⟩ := transitioned
      exact ⟨consistent_of_unchanged flag le eq (by simp [state, LedgerSyncState.behind]),
        fun _ => by simp [state, LedgerSyncState.behind]⟩

theorem transition_error {previous : LedgerSyncState}
    (allowed : previous.Allowed self.ledgerSyncState)
    (failed : self.transition node env previous = .error p) : p.fromNode := by
  unfold transition at failed
  cases previous <;> cases state : self.ledgerSyncState <;>
    simp only [state, LedgerSyncState.Allowed] at failed allowed
  -- only the end of `IsBehind` calls the node; the other allowed transitions cannot fail
  case isBehind.inSync => exact Panic.fromNode_of_bind failed fun _ => ⟨_, rfl⟩
  all_goals cases failed

theorem advanceSyncState_ok (consistent : self.Consistent) {shouldSync : Bool}
    (advanced : self.advanceSyncState node env = .ok (shouldSync, self')) :
    self'.Consistent ∧ (shouldSync = true → self'.ledgerSyncState.behind = true) :=
  transition_ok advanced consistent.isBehind_eq consistent.slot_le consistent.slot_eq
    (allowed_nextSyncState env.isBehind env.now self)

theorem advanceSyncState_error (failed : self.advanceSyncState node env = .error p) :
    p.fromNode :=
  transition_error (allowed_nextSyncState env.isBehind env.now self) failed

theorem syncNextBlocks_ok (consistent : self.Consistent) (behind : self.ledgerSyncState.behind = true)
    (numBlocks : ℕ) :
    ∃ self', (self.syncNextBlocks env numBlocks : Except (Panic ε) _) = .ok self' ∧
      self'.Consistent := by
  unfold syncNextBlocks
  cases state : self.ledgerSyncState with
  | inSync | maybeBehind _ => simp [state, LedgerSyncState.behind] at behind
  | isBehind attemptSyncAt numSyncAttempts =>
    have flag : self.isBehind = true := by rw [consistent.isBehind_eq, behind]
    -- the ledger only grows, and the state stays `IsBehind`
    cases env.attemptLedgerSync numBlocks with
    | some blocks =>
      refine ⟨_, rfl, ⟨by simp [flag, LedgerSyncState.behind], ?_, nofun⟩⟩
      simp only [List.length_append]
      exact le_trans consistent.slot_le (Nat.le_add_right _ _)
    | none => exact ⟨_, rfl, ⟨by simp [flag, LedgerSyncState.behind], consistent.slot_le, nofun⟩⟩

/-! ### The consensus work -/

section Consensus

variable [LinearOrder V]

theorem checked_of_proposePendingValues (proposed : self.proposePendingValues node env = .ok self') :
    self'.checked = self.checked := by
  unfold proposePendingValues at proposed
  split at proposed
  · simp at proposed
  · rw [bind_ok_iff] at proposed
    obtain ⟨⟨scpNode, msgOpt⟩, -, proposed⟩ := proposed
    dsimp only at proposed
    rw [pure_eq_ok, Except.ok.injEq] at proposed
    subst proposed
    exact checked_issueConsensusMessages msgOpt.toList { self with scpNode }

theorem proposePendingValues_error (failed : self.proposePendingValues node env = .error p) :
    p = .pendingValuesEmpty ∨ p.fromNode := by
  unfold proposePendingValues at failed
  split at failed
  · cases failed
    exact .inl rfl
  · exact .inr (Panic.fromNode_of_bind failed fun _ => ⟨_, rfl⟩)

theorem checked_of_processBatch {chunk : List (ConsensusMsg ID V B)}
    (processed : self.processBatch node env chunk = .ok self') : self'.checked = self.checked := by
  unfold processBatch at processed
  rw [bind_ok_iff] at processed
  obtain ⟨⟨scpNode, outgoingMsgs⟩, -, processed⟩ := processed
  dsimp only at processed
  rw [pure_eq_ok, Except.ok.injEq] at processed
  subst processed
  exact checked_issueConsensusMessages outgoingMsgs { self with scpNode }

theorem processBatch_error {chunk : List (ConsensusMsg ID V B)}
    (failed : self.processBatch node env chunk = .error p) : p.fromNode := by
  unfold processBatch at failed
  exact Panic.fromNode_of_bind failed fun _ => ⟨_, rfl⟩

/-- With the slot index at the ledger's length, completing the slot appends one block, passes
the assert, and returns to `InSync` with the slot index at the new length. -/
theorem completeCurrentSlot_ok (slot : self.currentSlotIndex = self.ledger.length)
    (externalized : List V) :
    ∃ self', (self.completeCurrentSlot node env externalized : Except (Panic ε) _) = .ok self' ∧
      self'.isBehind = self.isBehind ∧ self'.ledgerSyncState = .inSync ∧
      self'.currentSlotIndex = self'.ledger.length := by
  have grown : (self.ledger ++ [env.formBlock externalized]).length = self.currentSlotIndex + 1 := by
    rw [List.length_append, List.length_singleton, slot]
  unfold completeCurrentSlot
  simp only [grown, ne_eq, not_true_eq_false, if_false]
  exact ⟨_, rfl, rfl, rfl, grown.symm⟩

theorem checked_of_nominate (nominated : self.nominate node env = .ok self') :
    self'.checked = self.checked := by
  unfold nominate at nominated
  split at nominated
  · exact checked_of_proposePendingValues nominated
  · rw [pure_eq_ok, Except.ok.injEq] at nominated
    rw [← nominated]

theorem nominate_error (failed : self.nominate node env = .error p) :
    p = .pendingValuesEmpty ∨ p.fromNode := by
  unfold nominate at failed
  split at failed
  · exact proposePendingValues_error failed
  · cases failed

theorem checked_of_processScpTimeouts (processed : self.processScpTimeouts node env = .ok self') :
    self'.checked = self.checked := by
  unfold processScpTimeouts at processed
  rw [bind_ok_iff] at processed
  obtain ⟨⟨scpNode, msgs⟩, -, processed⟩ := processed
  dsimp only at processed
  rw [pure_eq_ok, Except.ok.injEq] at processed
  subst processed
  exact checked_issueConsensusMessages msgs { self with scpNode }

theorem processScpTimeouts_error (failed : self.processScpTimeouts node env = .error p) :
    p.fromNode := by
  unfold processScpTimeouts at failed
  exact Panic.fromNode_of_bind failed fun _ => ⟨_, rfl⟩

/-- Outside `IsBehind`, completing the slot when it has externalized keeps the invariant and
fails only in the node. -/
theorem completeIfExternalized_ok (consistent : self.Consistent)
    (inSync : self.ledgerSyncState.behind = false)
    (completed : self.completeIfExternalized node env = .ok self') : self'.Consistent := by
  unfold completeIfExternalized at completed
  rw [bind_ok_iff] at completed
  obtain ⟨externalized, -, completed⟩ := completed
  cases externalized with
  | none =>
    rw [pure_eq_ok, Except.ok.injEq] at completed
    rw [← completed]
    exact consistent
  | some values =>
    obtain ⟨next, ok, flag, state, slot⟩ := completeCurrentSlot_ok (consistent.slot_eq inSync) values
    dsimp only at completed
    rw [ok, Except.ok.injEq] at completed
    subst completed
    -- back in `InSync` with the flag down, at the slot after the ledger
    have down : self.isBehind = false := consistent.isBehind_eq.trans inSync
    refine ⟨?_, le_of_eq slot, fun _ => slot⟩
    rw [flag, state, down]
    rfl

theorem completeIfExternalized_error (consistent : self.Consistent)
    (inSync : self.ledgerSyncState.behind = false)
    (failed : self.completeIfExternalized node env = .error p) : p.fromNode := by
  unfold completeIfExternalized at failed
  rcases bind_error_iff.mp failed with getting | ⟨externalized, -, failed⟩
  · obtain ⟨e, -, rfl⟩ := mapError_eq_error.mp getting
    rfl
  · cases externalized with
    | none => cases failed
    | some values =>
      obtain ⟨next, ok, -⟩ := completeCurrentSlot_ok (consistent.slot_eq inSync) values
      dsimp only at failed
      rw [ok] at failed
      cases failed

variable [DecidableEq B]

omit [LinearOrder V] in
theorem compatible_ok {consensusMsg : ConsensusMsg ID V B}
    (positive : consensusMsg.scpMsg.slotIndex.toNat ≠ 0)
    (inLedger : consensusMsg.scpMsg.slotIndex.toNat ≤ self.ledger.length) :
    ∃ isCompatible, (self.compatible consensusMsg : Except (Panic ε) Bool) = .ok isCompatible := by
  unfold compatible
  rw [List.getElem?_eq_getElem (by omega)]
  exact ⟨_, rfl⟩

theorem checked_of_processConsensusMsgs
    (processed : self.processConsensusMsgs node env = .ok self') : self'.checked = self.checked := by
  unfold processConsensusMsgs at processed
  simp only [List.partition_eq_filter_filter, bind_ok_iff] at processed
  obtain ⟨compatibleMsgs, -, looped⟩ := processed
  -- every batch keeps what the checks read, from the worker with the future messages kept
  exact foldlM_ok_invariant (motive := fun worker => worker.checked = self.checked)
    (fun _ _ _ before batch => (checked_of_processBatch batch).trans before) rfl looped

/-- Outside `IsBehind` the messages processed all find the block before their slot, so only the
node can fail. -/
theorem processConsensusMsgs_error (slot : self.currentSlotIndex = self.ledger.length)
    (failed : self.processConsensusMsgs node env = .error p) : p.fromNode := by
  unfold processConsensusMsgs at failed
  simp only [List.partition_eq_filter_filter] at failed
  rcases bind_error_iff.mp failed with filtered | ⟨compatibleMsgs, -, looped⟩
  · -- the messages processed are of the slots from `1` to the current one
    refine absurd filtered (filterM_ne_error fun consensusMsg member => ?_)
    simp only [List.mem_filter, Bool.and_eq_true, decide_eq_true_eq] at member
    exact compatible_ok member.1.2.1 (slot ▸ member.2)
  · exact foldlM_error (fun _ _ _ batch => processBatch_error batch) looped

theorem runConsensus_ok (consistent : self.Consistent) (inSync : self.ledgerSyncState.behind = false)
    (ran : self.runConsensus node env = .ok self') : self'.Consistent := by
  unfold runConsensus at ran
  simp only [bind_ok_iff] at ran
  obtain ⟨nominated, nominating, processed, processing, timedOut, timing, completing⟩ := ran
  -- up to the completion of the slot, nothing the checks read has changed
  have same : timedOut.checked = self.checked :=
    (checked_of_processScpTimeouts timing).trans
      ((checked_of_processConsensusMsgs processing).trans (checked_of_nominate nominating))
  exact completeIfExternalized_ok (consistent.of_checked same)
    ((ledgerSyncState_of_checked same).symm ▸ inSync) completing

/-- Outside `IsBehind` the consensus work fails only on the assert that there are values to
propose, or in the node. -/
theorem runConsensus_error (consistent : self.Consistent)
    (inSync : self.ledgerSyncState.behind = false) (failed : self.runConsensus node env = .error p) :
    p = .pendingValuesEmpty ∨ p.fromNode := by
  unfold runConsensus at failed
  rcases bind_error_iff.mp failed with nominating | ⟨nominated, nominating, failed⟩
  · exact nominate_error nominating
  have first := checked_of_nominate nominating
  rcases bind_error_iff.mp failed with processing | ⟨processed, processing, failed⟩
  · exact .inr (processConsensusMsgs_error ((consistent.of_checked first).slot_eq
      ((ledgerSyncState_of_checked first).symm ▸ inSync)) processing)
  have second := (checked_of_processConsensusMsgs processing).trans first
  rcases bind_error_iff.mp failed with timing | ⟨timedOut, timing, completing⟩
  · exact .inr (processScpTimeouts_error timing)
  have third := (checked_of_processScpTimeouts timing).trans second
  exact .inr (completeIfExternalized_error (consistent.of_checked third)
    ((ledgerSyncState_of_checked third).symm ▸ inSync) completing)

end Consensus

/-! ### Ticks -/

section Tick

variable [LinearOrder V] [DecidableEq B]

theorem tick_ok (consistent : self.Consistent) {running : Bool}
    (ticked : self.tick node env = .ok (running, self')) : self'.Consistent := by
  unfold tick at ticked
  cases received : self.receiveTasks env.validate env.tasks with
  | mk running₁ self₁ =>
  have consistent₁ : self₁.Consistent := consistent.of_checked (by
    rw [← checked_receiveTasks env.validate env.tasks self, received])
  simp only [received] at ticked
  cases running₁
  · -- asked to stop
    simp only [Bool.not_false, ↓reduceIte, pure_eq_ok, Except.ok.injEq, Prod.mk.injEq] at ticked
    rw [← ticked.2]
    exact consistent₁
  simp only [Bool.not_true, Bool.false_eq_true, ↓reduceIte, bind_ok_iff] at ticked
  obtain ⟨⟨shouldSync, self₂⟩, advanced, ticked⟩ := ticked
  obtain ⟨consistent₂, syncs⟩ := advanceSyncState_ok consistent₁ advanced
  cases shouldSync
  · cases behind : self₂.ledgerSyncState.behind
    · -- in sync: the flag is down, and the consensus work runs
      have down : self₂.isBehind = false := consistent₂.isBehind_eq.trans behind
      simp only [behind, down, Bool.false_eq_true, ↓reduceIte, bind_ok_iff, pure_eq_ok,
        Except.ok.injEq, Prod.mk.injEq] at ticked
      obtain ⟨self₃, ran, -, rfl⟩ := ticked
      exact runConsensus_ok consistent₂ behind ran
    · simp only [behind, Bool.false_eq_true, ↓reduceIte, pure_eq_ok, Except.ok.injEq,
        Prod.mk.injEq] at ticked
      rw [← ticked.2]
      exact consistent₂
  · -- syncing
    obtain ⟨synced, ok, consistent₃⟩ := syncNextBlocks_ok consistent₂ (syncs rfl) 100
    simp only [↓reduceIte] at ticked
    rw [ok, ok_bind, pure_eq_ok, Except.ok.injEq, Prod.mk.injEq] at ticked
    rw [← ticked.2]
    exact consistent₃

/-- From a consistent worker a tick fails only on the assert that there are values to propose,
or in the node. -/
theorem tick_error (consistent : self.Consistent) (failed : self.tick node env = .error p) :
    p = .pendingValuesEmpty ∨ p.fromNode := by
  unfold tick at failed
  cases received : self.receiveTasks env.validate env.tasks with
  | mk running₁ self₁ =>
  have consistent₁ : self₁.Consistent := consistent.of_checked (by
    rw [← checked_receiveTasks env.validate env.tasks self, received])
  simp only [received] at failed
  cases running₁
  · simp only [Bool.not_false, ↓reduceIte, pure_eq_ok, reduceCtorEq] at failed
  simp only [Bool.not_true, Bool.false_eq_true, ↓reduceIte] at failed
  rcases bind_error_iff.mp failed with advancing | ⟨⟨shouldSync, self₂⟩, advanced, failed⟩
  · exact .inr (advanceSyncState_error advancing)
  obtain ⟨consistent₂, syncs⟩ := advanceSyncState_ok consistent₁ advanced
  cases shouldSync
  · cases behind : self₂.ledgerSyncState.behind
    · -- in sync, the `is_behind` assert passes and only the consensus work can fail
      have down : self₂.isBehind = false := consistent₂.isBehind_eq.trans behind
      simp only [behind, down, Bool.false_eq_true, ↓reduceIte] at failed
      rcases bind_error_iff.mp failed with running | ⟨_, -, done⟩
      · exact runConsensus_error consistent₂ behind running
      · cases done
    · simp only [behind, ↓reduceIte, pure_eq_ok, reduceCtorEq] at failed
  · -- in `IsBehind` the sync succeeds
    obtain ⟨synced, ok, -⟩ := syncNextBlocks_ok consistent₂ (syncs rfl) 100
    simp only [↓reduceIte] at failed
    rw [ok, ok_bind] at failed
    cases failed

end Tick

/-! ### Runs -/

/-- The workers that ticks from `new` reach while running, whatever the node and the
environment answer at each tick. -/
inductive Reachable [LinearOrder V] [DecidableEq B] (node : ScpNode N ID V ε) :
    ByzantineLedgerWorker N ID V B → Prop
  | new (scpNode : N) (ledger : List B) : Reachable node (new scpNode ledger)
  | tick {self self' : ByzantineLedgerWorker N ID V B} (env : Env ID V B) :
      Reachable node self → self.tick node env = .ok (true, self') → Reachable node self'

theorem consistent_new (scpNode : N) (ledger : List B) :
    (new scpNode ledger : ByzantineLedgerWorker N ID V B).Consistent :=
  ⟨rfl, le_refl _, fun _ => rfl⟩

theorem Reachable.consistent [LinearOrder V] [DecidableEq B]
    (reachable : Reachable node self) : self.Consistent := by
  induction reachable with
  | new scpNode ledger => exact consistent_new scpNode ledger
  | tick env _ ticked consistent => exact tick_ok consistent ticked

/-- Along every run from `new`, whatever the SCP node, the sync service, the managers, the
peers and the clock answer, the worker between ticks has its `is_behind` flag up exactly in
`IsBehind` and its slot index at most the ledger's length, equal to it outside `IsBehind`; and
a tick trips none of the worker's own checks but the assert that there are values to
propose. -/
theorem tick_panics_only_without_values [LinearOrder V] [DecidableEq B]
    (reachable : Reachable node self) :
    self.Consistent ∧ ∀ (env : Env ID V B) (p : Panic ε), self.tick node env = .error p →
      p = .pendingValuesEmpty ∨ ∃ e, p = .scpNode e := by
  have consistent := reachable.consistent
  refine ⟨consistent, fun env p failed => ?_⟩
  rcases tick_error consistent failed with pending | fromNode
  · exact .inl pending
  · exact .inr (Panic.fromNode_iff.mp fromNode)

theorem tick_panics_only_without_values_after_sync :
    ∃ (self : ByzantineLedgerWorker Unit ℕ ℕ ℕ) (p : Panic Empty),
      Reachable (⟨fun _ => 1, fun _ _ _ => .ok ((), none), fun _ _ _ => .ok ((), []),
          fun _ _ => .ok ((), []), fun _ _ => .ok none, fun _ _ => .ok ()⟩ : ScpNode Unit ℕ ℕ Empty)
        self ∧
        self.ledger = [0, 1, 2, 3, 4, 5] ∧ self.Consistent ∧
        self.tick ⟨fun _ => 1, fun _ _ _ => .ok ((), none), fun _ _ _ => .ok ((), []),
            fun _ _ => .ok ((), []), fun _ _ => .ok none, fun _ _ => .ok ()⟩
          ⟨[.values [9]], 10002, false, fun _ => none, fun _ => true, fun _ => false,
            fun _ => true, fun _ => true, fun _ _ => false, fun _ => 0⟩ = .error p ∧
        (p = .pendingValuesEmpty ∨ ∃ e, p = .scpNode e) := by
  -- two ticks from a ledger of five blocks: the sync service reports the worker behind, and past
  -- the grace period the sync appends block `5`
  have reachable : Reachable (⟨fun _ => 1, fun _ _ _ => .ok ((), none), fun _ _ _ => .ok ((), []),
      fun _ _ => .ok ((), []), fun _ _ => .ok none, fun _ _ => .ok ()⟩ : ScpNode Unit ℕ ℕ Empty) _ :=
    .tick ⟨[], 10001, true, fun _ => some [5], fun _ => true, fun _ => true, fun _ => true,
        fun _ => true, fun _ _ => false, fun _ => 0⟩
      (.tick ⟨[], 0, true, fun _ => none, fun _ => true, fun _ => true, fun _ => true,
          fun _ => true, fun _ _ => false, fun _ => 0⟩ (.new () [0, 1, 2, 3, 4]) rfl) rfl
  obtain ⟨consistent, classified⟩ := tick_panics_only_without_values reachable
  -- the third tick receives value `9`, which the sync finds invalid
  refine ⟨_, .pendingValuesEmpty, reachable, rfl, consistent, ?failed, classified _ _ ?failed⟩
  rfl

end ByzantineLedgerWorker

end MobileCoin.ConsensusService
