import Mathlib
import MobileCoin.Lib.Except
import MobileCoin.Scp.Msg

/-!
# The byzantine ledger worker

`mc_consensus_service::byzantine_ledger::worker::ByzantineLedgerWorker`: at every `tick` the
worker reads its task queue, advances the state machine that tracks whether its ledger is
behind the network's (syncing blocks while it is), and otherwise nominates its pending values,
hands the queued consensus messages to its SCP node, processes the node's timeouts, and appends
a block when the current slot has externalized.

The SCP node is any state with the calls the worker makes on it (`ScpNode`); the ledger sync
service, the tx and mint-tx managers, the enclave that forms blocks, the peers the missing
transactions are fetched from, the task queue and the clock answer through one `Env` record per
tick. Within a tick the clock is read once. The ledger is the list of its block ids; block
indices and slot indices are naturals (the `u64` increments wrap only past `2^64 - 1` blocks).
The metrics, the logger, the broadcaster, the network state (whose only effect is the sync
service's answer), the responder ids and the signatures of the messages are left out.
-/

namespace MobileCoin.ConsensusService

open Scp

/-- `IS_BEHIND_GRACE_PERIOD`, ten seconds, in milliseconds. -/
def IS_BEHIND_GRACE_PERIOD : ℕ := 10000

def MAX_PENDING_VALUES_TO_NOMINATE : ℕ := 100

def CONSENSUS_MSG_BATCH_SIZE : ℕ := 5

/-- `LedgerSyncState`, with instants in milliseconds. -/
inductive LedgerSyncState where
  | inSync
  | maybeBehind (behindSince : ℕ)
  | isBehind (attemptSyncAt numSyncAttempts : ℕ)
  deriving DecidableEq, Repr

def LedgerSyncState.behind : LedgerSyncState → Bool
  | .isBehind _ _ => true
  | _ => false

/-! ### Pending values -/

/-- `PendingValues`: the values to propose, in the order they came. The source keeps them in a
vector and in a map from value to timestamp, whose lengths `is_empty`, `len` and `retain`
assert to agree; a list without repeats is both. The timestamps, which only the metrics read,
are left out. -/
structure PendingValues (V : Type) where
  pendingValues : List V
  nodup : pendingValues.Nodup

namespace PendingValues

variable {V : Type} [DecidableEq V]

def new : PendingValues V := ⟨[], List.nodup_nil⟩

def isEmpty (self : PendingValues V) : Bool := self.pendingValues.isEmpty

/-- `PendingValues::push`: a value not yet pending is added at the end when the managers find
it valid; whether it was added. -/
def push (validate : V → Bool) (self : PendingValues V) (value : V) : Bool × PendingValues V :=
  if present : value ∈ self.pendingValues then (false, self)
  else if validate value then
    (true, ⟨self.pendingValues ++ [value],
      List.nodup_append.mpr ⟨self.nodup, List.nodup_singleton value,
        fun _ member _ single => by
          rw [List.mem_singleton.mp single]
          rintro rfl
          exact present member⟩⟩)
  else (false, self)

def retain (predicate : V → Bool) (self : PendingValues V) : PendingValues V :=
  ⟨self.pendingValues.filter predicate, self.nodup.filter _⟩

/-- `PendingValues::clear_invalid_values`: keep the values the managers find valid. -/
def clearInvalidValues (validate : V → Bool) (self : PendingValues V) : PendingValues V :=
  self.retain validate

end PendingValues

/-! ### Messages, the node and the environment -/

/-- A `ConsensusMsg`: an SCP message and the id of the block before its slot. -/
structure ConsensusMsg (ID V B : Type) where
  scpMsg : Msg ID V
  prevBlockId : B

/-- The error of `ConsensusMsg::from_scp_msg`. -/
inductive ConsensusMsgError where
  | zeroSlot
  | ledgerDb
  deriving DecidableEq, Repr

/-- `ConsensusMsg::from_scp_msg`: the message with the id of the ledger's block before its
slot. -/
def ConsensusMsg.fromScpMsg {ID V B : Type} (ledger : List B) (scpMsg : Msg ID V) :
    Except ConsensusMsgError (ConsensusMsg ID V B) :=
  if scpMsg.slotIndex = 0 then .error .zeroSlot
  else match ledger[scpMsg.slotIndex.toNat - 1]? with
    | some prevBlockId => .ok ⟨scpMsg, prevBlockId⟩
    | none => .error .ledgerDb

/-- `TaskMessage`: client values (their timestamp left out), a consensus message from a peer
(its responder id left out), or the request to stop. -/
inductive TaskMessage (ID V B : Type) where
  | values (newValues : List V)
  | consensusMsg (consensusMsg : ConsensusMsg ID V B)
  | stopTrigger

/-- The calls the worker makes on its `ScpNode`, over the node's state `N`, each at the time of
the tick; each may panic with `ε`. -/
structure ScpNode (N ID V ε : Type) where
  maxExternalizedSlots : N → ℕ
  proposeValues : ℕ → List V → N → Except ε (N × Option (Msg ID V))
  handleMessages : ℕ → List (Msg ID V) → N → Except ε (N × List (Msg ID V))
  processTimeouts : ℕ → N → Except ε (N × List (Msg ID V))
  getExternalizedValues : ℕ → N → Except ε (Option (List V))
  resetSlotIndex : ℕ → N → Except ε N

/-- What the rest of the consensus service answers during one tick. -/
structure Env (ID V B : Type) where
  /-- The tasks `try_iter` yields. -/
  tasks : List (TaskMessage ID V B)
  now : ℕ
  /-- `LedgerSync::is_behind`. -/
  isBehind : Bool
  /-- The blocks `attempt_ledger_sync` appends to the ledger for a number of blocks asked, or
  `none` for an error. -/
  attemptLedgerSync : ℕ → Option (List B)
  /-- The managers' `validate` when values are pushed, when the ledger has synced, and when a
  slot has completed. -/
  validate : V → Bool
  validateAfterSync : V → Bool
  validateAfterSlot : V → Bool
  /-- `fetch_missing_txs`: whether the transactions of a message could be obtained. -/
  fetchMissingTxs : ConsensusMsg ID V B → Bool
  /-- Whether a value is purged at completion, for the expired block index: by
  `TxManager::remove_expired` for a transaction, by its tombstone block for a mint
  transaction. -/
  removeExpired : ℕ → V → Bool
  /-- The id of the block `form_block_from_externalized_values` forms. -/
  formBlock : List V → B

/-! ### The worker -/

/-- The panics of the worker's own checks, and those of its SCP node. -/
inductive Panic (ε : Type) where
  /-- `panic!("InSync --> IsBehind transition is not allowed.")` -/
  | inSyncToIsBehind
  /-- `panic!("IsBehind --> MaybeBehind transition is not allowed.")` -/
  | isBehindToMaybeBehind
  /-- `panic!("Attempted to sync when not behind?")` -/
  | notBehind
  /-- `assert!(!self.is_behind.load(Ordering::SeqCst))` -/
  | isBehind
  /-- `assert!(!self.pending_values.is_empty())` -/
  | pendingValuesEmpty
  /-- `expect("This block must be in our ledger")` -/
  | blockMustBeInLedger
  /-- `assert_eq!(current_slot_index, self.current_slot_index + 1)` -/
  | slotIndexNotNext
  | scpNode (panic : ε)
  deriving DecidableEq, Repr

structure ByzantineLedgerWorker (N ID V B : Type) where
  scpNode : N
  currentSlotIndex : ℕ
  ledger : List B
  ledgerSyncState : LedgerSyncState
  isBehind : Bool
  highestIssuedMsg : Option (ConsensusMsg ID V B)
  pendingConsensusMsgs : List (ConsensusMsg ID V B)
  pendingValues : PendingValues V
  needNominate : Bool

namespace ByzantineLedgerWorker

variable {N ID V B ε : Type} [LinearOrder V] [DecidableEq B]
  (node : ScpNode N ID V ε) (env : Env ID V B)

/-- `ByzantineLedgerWorker::new`, with the `is_behind` flag and the highest issued message as
`ByzantineLedger::new` creates them. -/
def new (scpNode : N) (ledger : List B) : ByzantineLedgerWorker N ID V B :=
  { scpNode, currentSlotIndex := ledger.length, ledger, ledgerSyncState := .inSync,
    isBehind := false, highestIssuedMsg := none, pendingConsensusMsgs := [],
    pendingValues := .new, needNominate := false }

/-- `ByzantineLedgerWorker::issue_consensus_message`: the message, with the id of the block
before its slot, replaces the highest one issued when its slot is higher or its topic is. -/
def issueConsensusMessage (msg : Msg ID V) (self : ByzantineLedgerWorker N ID V B) :
    Except ConsensusMsgError (ByzantineLedgerWorker N ID V B) := do
  let consensusMsg ← ConsensusMsg.fromScpMsg self.ledger msg
  match self.highestIssuedMsg with
  | some highestMsg =>
    if highestMsg.scpMsg.slotIndex < consensusMsg.scpMsg.slotIndex ∨
        consensusMsg.scpMsg.topic.cmp highestMsg.scpMsg.topic = .gt then
      pure { self with highestIssuedMsg := some consensusMsg }
    else pure self
  | none => pure { self with highestIssuedMsg := some consensusMsg }

/-- `let _ = self.issue_consensus_message(msg)` for each message: a message that fails leaves
the worker as it was. -/
def issueConsensusMessages (msgs : List (Msg ID V)) (self : ByzantineLedgerWorker N ID V B) :
    ByzantineLedgerWorker N ID V B :=
  msgs.foldl (fun self msg => (self.issueConsensusMessage msg).toOption.getD self) self

/-- The client values of one `TaskMessage::Values`: each one pushed asks for a nomination. -/
def pushValues (validate : V → Bool) (self : ByzantineLedgerWorker N ID V B) (newValues : List V) :
    ByzantineLedgerWorker N ID V B :=
  newValues.foldl (fun self txHash =>
    let (pushed, pendingValues) := self.pendingValues.push validate txHash
    { self with pendingValues, needNominate := self.needNominate || pushed }) self

/-- `ByzantineLedgerWorker::receive_tasks`: false when asked to stop. -/
def receiveTasks (validate : V → Bool) :
    List (TaskMessage ID V B) → ByzantineLedgerWorker N ID V B → Bool × ByzantineLedgerWorker N ID V B
  | [], self => (true, self)
  | .values newValues :: tasks, self => receiveTasks validate tasks (self.pushValues validate newValues)
  | .consensusMsg consensusMsg :: tasks, self =>
    receiveTasks validate tasks
      { self with pendingConsensusMsgs := self.pendingConsensusMsgs ++ [consensusMsg] }
  | .stopTrigger :: _, self => (false, self)

def nextSyncState (isBehind : Bool) (now : ℕ) (self : ByzantineLedgerWorker N ID V B) :
    LedgerSyncState :=
  if !isBehind then .inSync
  else
    match self.ledgerSyncState with
    | .inSync => .maybeBehind now
    | .maybeBehind behindSince =>
      if IS_BEHIND_GRACE_PERIOD < now - behindSince then .isBehind now 0
      else .maybeBehind behindSince
    | .isBehind attemptSyncAt numSyncAttempts => .isBehind attemptSyncAt numSyncAttempts

/-- The `match` of `tick` on the transition from `previous` to the worker's sync state: its
effects, and whether to sync. -/
def transition (previous : LedgerSyncState) (self : ByzantineLedgerWorker N ID V B) :
    Except (Panic ε) (Bool × ByzantineLedgerWorker N ID V B) :=
  match previous, self.ledgerSyncState with
  | .inSync, .inSync => pure (false, self)
  | .inSync, .maybeBehind _ => pure (false, self)
  | .inSync, .isBehind _ _ => throw .inSyncToIsBehind
  | .maybeBehind _, .inSync => pure (false, self)
  | .maybeBehind _, .maybeBehind _ => pure (false, self)
  | .maybeBehind _, .isBehind _ _ => pure (true, { self with isBehind := true })
  | .isBehind _ _, .inSync => do
    -- the slot after the synced ledger, and the values still valid
    let currentSlotIndex := self.ledger.length
    let scpNode ← (node.resetSlotIndex currentSlotIndex self.scpNode).mapError .scpNode
    let pendingValues := self.pendingValues.clearInvalidValues env.validateAfterSync
    pure (false, { self with
      isBehind := false, currentSlotIndex, scpNode, pendingValues,
      needNominate := self.needNominate || !pendingValues.isEmpty })
  | .isBehind _ _, .maybeBehind _ => throw .isBehindToMaybeBehind
  | .isBehind _ _, .isBehind attemptSyncAt _ => pure (decide (attemptSyncAt ≤ env.now), self)

/-- "Advance the sync state state machine" in `tick`: replace the sync state by the next one
and make the transition. -/
def advanceSyncState (self : ByzantineLedgerWorker N ID V B) :
    Except (Panic ε) (Bool × ByzantineLedgerWorker N ID V B) :=
  let previousSyncState := self.ledgerSyncState
  { self with ledgerSyncState := self.nextSyncState env.isBehind env.now }.transition node env
    previousSyncState

/-- `ByzantineLedgerWorker::sync_next_blocks`: append what the sync service returns, or back
off linearly, capped at a minute, after an error. -/
def syncNextBlocks (numBlocks : ℕ) (self : ByzantineLedgerWorker N ID V B) :
    Except (Panic ε) (ByzantineLedgerWorker N ID V B) :=
  match self.ledgerSyncState with
  | .isBehind _ numSyncAttempts =>
    match env.attemptLedgerSync numBlocks with
    | some blocks =>
      pure { self with ledger := self.ledger ++ blocks, ledgerSyncState := .isBehind env.now 0 }
    | none =>
      pure { self with
        ledgerSyncState :=
          .isBehind (env.now + 1000 * min (numSyncAttempts + 1) 60) (numSyncAttempts + 1) }
  | _ => throw .notBehind

def proposePendingValues (self : ByzantineLedgerWorker N ID V B) :
    Except (Panic ε) (ByzantineLedgerWorker N ID V B) := do
  if self.pendingValues.isEmpty then throw .pendingValuesEmpty
  let values := self.pendingValues.pendingValues.take MAX_PENDING_VALUES_TO_NOMINATE
  let (scpNode, msgOpt) ← (node.proposeValues env.now values self.scpNode).mapError .scpNode
  let self := { self with scpNode }.issueConsensusMessages msgOpt.toList
  pure { self with needNominate := false }

/-- The `partition` of `process_consensus_msgs` by compatibility: whether a message names the
ledger's block before its slot, which must be in the ledger. -/
def compatible (self : ByzantineLedgerWorker N ID V B) (consensusMsg : ConsensusMsg ID V B) :
    Except (Panic ε) Bool :=
  match self.ledger[consensusMsg.scpMsg.slotIndex.toNat - 1]? with
  | some previousBlockId => pure (decide (consensusMsg.prevBlockId = previousBlockId))
  | none => throw .blockMustBeInLedger

/-- A batch of `process_consensus_msgs`: the messages whose transactions were obtained go to
the node, and the node's responses are issued. -/
def processBatch (self : ByzantineLedgerWorker N ID V B) (chunk : List (ConsensusMsg ID V B)) :
    Except (Panic ε) (ByzantineLedgerWorker N ID V B) := do
  let resolved := chunk.filter env.fetchMissingTxs
  let (scpNode, outgoingMsgs) ←
    (node.handleMessages env.now (resolved.map (·.scpMsg)) self.scpNode).mapError .scpNode
  pure ({ self with scpNode }.issueConsensusMessages outgoingMsgs)

/-- `ByzantineLedgerWorker::process_consensus_msgs`: the messages of the slots from the oldest
externalized one the node keeps to the current one are processed, those of later slots kept. -/
def processConsensusMsgs (self : ByzantineLedgerWorker N ID V B) :
    Except (Panic ε) (ByzantineLedgerWorker N ID V B) := do
  let currentSlotIndex := self.currentSlotIndex
  let oldestSlotIndex := currentSlotIndex - node.maxExternalizedSlots self.scpNode
  let kept := self.pendingConsensusMsgs.filter fun consensusMsg =>
    consensusMsg.scpMsg.slotIndex.toNat ≠ 0 && oldestSlotIndex ≤ consensusMsg.scpMsg.slotIndex.toNat
  let (consensusMsgs, futureMsgs) :=
    kept.partition fun consensusMsg => consensusMsg.scpMsg.slotIndex.toNat ≤ currentSlotIndex
  let self := { self with pendingConsensusMsgs := futureMsgs }
  let compatibleMsgs ← consensusMsgs.filterM self.compatible
  (compatibleMsgs.toChunks CONSENSUS_MSG_BATCH_SIZE).foldlM (processBatch node env) self

/-- `ByzantineLedgerWorker::complete_current_slot`: drop the externalized values, append the
block, move to the next slot, drop the expired and invalid values, and return to `InSync`. -/
def completeCurrentSlot (externalized : List V) (self : ByzantineLedgerWorker N ID V B) :
    Except (Panic ε) (ByzantineLedgerWorker N ID V B) := do
  let pendingValues := self.pendingValues.retain fun value => !externalized.contains value
  let ledger := self.ledger ++ [env.formBlock externalized]
  let currentSlotIndex := ledger.length
  if currentSlotIndex ≠ self.currentSlotIndex + 1 then throw .slotIndexNotNext
  let expiredBlockIndex := currentSlotIndex - node.maxExternalizedSlots self.scpNode
  let pendingValues := pendingValues.retain fun value => !env.removeExpired expiredBlockIndex value
  let pendingValues := pendingValues.clearInvalidValues env.validateAfterSlot
  pure { self with
    pendingValues, ledger, currentSlotIndex,
    needNominate := self.needNominate || !pendingValues.isEmpty,
    ledgerSyncState := .inSync }

/-- "Nominate values for current slot": propose the pending values when a nomination is asked
for. -/
def nominate (self : ByzantineLedgerWorker N ID V B) :
    Except (Panic ε) (ByzantineLedgerWorker N ID V B) :=
  if self.needNominate then self.proposePendingValues node env else pure self

/-- "Process SCP timeouts": issue the messages the node's timeouts send. -/
def processScpTimeouts (self : ByzantineLedgerWorker N ID V B) :
    Except (Panic ε) (ByzantineLedgerWorker N ID V B) := do
  let (scpNode, msgs) ← (node.processTimeouts env.now self.scpNode).mapError .scpNode
  pure ({ self with scpNode }.issueConsensusMessages msgs)

/-- Complete the current slot when the node has externalized it. -/
def completeIfExternalized (self : ByzantineLedgerWorker N ID V B) :
    Except (Panic ε) (ByzantineLedgerWorker N ID V B) := do
  match ← (node.getExternalizedValues self.currentSlotIndex self.scpNode).mapError .scpNode with
  | some externalizedValues => self.completeCurrentSlot node env externalizedValues
  | none => pure self

/-- The consensus work of `tick` once the ledger is in sync. -/
def runConsensus (self : ByzantineLedgerWorker N ID V B) :
    Except (Panic ε) (ByzantineLedgerWorker N ID V B) := do
  let self ← self.nominate node env
  let self ← self.processConsensusMsgs node env
  let self ← self.processScpTimeouts node env
  self.completeIfExternalized node env

/-- `ByzantineLedgerWorker::tick`: false once asked to stop. -/
def tick (self : ByzantineLedgerWorker N ID V B) :
    Except (Panic ε) (Bool × ByzantineLedgerWorker N ID V B) := do
  let (running, self) := self.receiveTasks env.validate env.tasks
  if !running then return (false, self)
  let (shouldSync, self) ← self.advanceSyncState node env
  if shouldSync then return (true, ← self.syncNextBlocks env 100)
  if self.ledgerSyncState.behind then return (true, self)
  if self.isBehind then throw .isBehind
  return (true, ← self.runConsensus node env)

/-- The thread `ByzantineLedger::new` spawns: tick, each tick answered by its environment,
until a tick asks to stop. -/
def run (self : ByzantineLedgerWorker N ID V B) :
    List (Env ID V B) → Except (Panic ε) (ByzantineLedgerWorker N ID V B)
  | [] => pure self
  | env :: envs => do
    let (running, self) ← self.tick node env
    if running then self.run envs else pure self

end ByzantineLedgerWorker

end MobileCoin.ConsensusService
