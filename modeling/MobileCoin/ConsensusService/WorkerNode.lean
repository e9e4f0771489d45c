import MobileCoin.ConsensusService.WorkerRun
import MobileCoin.Scp.Node

/-!
# The worker over the SCP node

The worker's calls on the `Node` of `mc_consensus_scp`, whose slot indices are `u64`s, and two
runs of the worker thread with it from `new`, on a ledger of five blocks and node 1 with
quorum set {1 of node 2}.

In the first, a value submitted while the ledger is behind asks for a nomination; the sync that
ends `IsBehind` finds it invalid and drops it without withdrawing the request, and the same tick
trips the assert of `propose_pending_values`.

In the second, the slot the node externalizes stays among its externalized slots and answers a
later `Externalize` of a peer, which raises its `HN`, after the worker has issued a `Nominate`
for the next slot. `issue_consensus_message` replaces the highest message when the slot *or* the
topic is higher, so the `Externalize` of the earlier slot replaces the `Nominate` of the later
one, and the slot of the highest issued message goes down.
-/

namespace MobileCoin.ConsensusService

open Scp

/-- `impl ScpNode for Node`: the calls the worker makes. -/
def ScpNode.ofNode {NodeID V : Type} [DecidableEq NodeID] [LinearOrder V] (fns : Fns NodeID V) :
    ScpNode (Node NodeID V) NodeID V NodePanic where
  maxExternalizedSlots node := node.maxExternalizedSlots
  proposeValues now values node := node.proposeValues fns now values
  handleMessages now msgs node := node.handleMessages fns now msgs
  processTimeouts now node := node.processTimeouts fns now
  getExternalizedValues slotIndex node := node.getExternalizedValues (UInt64.ofNat slotIndex)
  resetSlotIndex slotIndex node := node.resetSlotIndex fns (UInt64.ofNat slotIndex)

namespace ByzantineLedgerWorker

variable {N ID V B ε : Type} [LinearOrder V]

/-- The guard of `issue_consensus_message` is not the order of `(slot_index, topic)`: an
`Externalize` message of an earlier slot replaces a highest message of a later slot in any other
phase, as long as the ledger holds the block before its slot. -/
theorem issueConsensusMessage_externalize_replaces {self : ByzantineLedgerWorker N ID V B}
    {highestMsg : ConsensusMsg ID V B} {msg : Msg ID V} {payload : ExternalizePayload V}
    (highest : self.highestIssuedMsg = some highestMsg)
    (externalize : msg.topic = .externalize payload)
    (notExternalize : ∀ other, highestMsg.scpMsg.topic ≠ .externalize other)
    (positive : msg.slotIndex ≠ 0) (inLedger : msg.slotIndex.toNat ≤ self.ledger.length) :
    ∃ self', self.issueConsensusMessage msg = .ok self' ∧
      self'.highestIssuedMsg.map (·.scpMsg) = some msg := by
  have index : msg.slotIndex.toNat - 1 < self.ledger.length := by
    have : msg.slotIndex.toNat ≠ 0 := fun zero => positive (UInt64.toNat_inj.mp zero)
    omega
  have found : self.ledger[msg.slotIndex.toNat - 1]? = some self.ledger[msg.slotIndex.toNat - 1] :=
    List.getElem?_eq_getElem index
  -- an `Externalize` is above every other topic
  have higher : msg.topic.cmp highestMsg.scpMsg.topic = .gt := by
    rw [externalize]
    cases topic : highestMsg.scpMsg.topic with
    | externalize other => exact absurd topic (notExternalize other)
    | _ => rfl
  unfold issueConsensusMessage
  rw [ConsensusMsg.fromScpMsg, if_neg positive, found, ok_bind, highest]
  dsimp only
  rw [if_pos (.inr higher)]
  exact ⟨_, rfl, rfl⟩

end ByzantineLedgerWorker

/-- A value pushed while the ledger is behind, then found invalid by the sync that ends
`IsBehind`, trips the assert that there are values to propose. The sync service reports the
worker behind at times `0` and `10001`, past the grace period, where the sync appends block `5`;
at `10002` it reports it in sync, in the tick that receives value `9`, valid when pushed and
invalid after the sync. -/
theorem run_trips_pending_values_assert :
    ((Node.new ⟨fun _ => .ok (), fun values => .ok values, fun _ _ _ _ => 0⟩ 1
        (QuorumSet.newWithNodeIds 1 [2]) 5).mapError Panic.scpNode >>= fun scpNode =>
      (ByzantineLedgerWorker.new scpNode [0, 1, 2, 3, 4] :
          ByzantineLedgerWorker (Node ℕ ℕ) ℕ ℕ ℕ).run
        (ScpNode.ofNode ⟨fun _ => .ok (), fun values => .ok values, fun _ _ _ _ => 0⟩)
        [⟨[], 0, true, fun _ => none, fun _ => true, fun _ => true, fun _ => true, fun _ => true,
            fun _ _ => false, fun _ => 0⟩,
          ⟨[], 10001, true, fun _ => some [5], fun _ => true, fun _ => true, fun _ => true,
            fun _ => true, fun _ _ => false, fun _ => 0⟩,
          ⟨[.values [9]], 10002, false, fun _ => none, fun _ => true, fun _ => false,
            fun _ => true, fun _ => true, fun _ _ => false, fun _ => 0⟩]).map (fun _ => ()) =
      .error .pendingValuesEmpty := by
  decide +kernel

/-- The slot of the highest issued message goes down: the node externalizes slot `5` on a
`Commit` of node 2 (highest: the `Externalize` of slot `5`), the worker nominates value `9` in
slot `6` (highest: that `Nominate`), and node 2's `Externalize` of slot `5` makes the
externalized slot raise its `HN` and send a new `Externalize`, which becomes the highest although
its slot is lower. -/
theorem run_lowers_highest_issued_slot :
    ((Node.new ⟨fun _ => .ok (), fun values => .ok values, fun _ _ _ _ => 0⟩ 1
        (QuorumSet.newWithNodeIds 1 [2]) 5).mapError Panic.scpNode >>= fun scpNode =>
      (ByzantineLedgerWorker.new scpNode [0, 1, 2, 3, 4] :
          ByzantineLedgerWorker (Node ℕ ℕ) ℕ ℕ ℕ).run
        (ScpNode.ofNode ⟨fun _ => .ok (), fun values => .ok values, fun _ _ _ _ => 0⟩)
        [⟨[.consensusMsg ⟨⟨2, 5, QuorumSet.newWithNodeIds 1 [1], .commit ⟨⟨1, [7]⟩, 1, 1, 1⟩⟩, 4⟩],
            0, false, fun _ => none, fun _ => true, fun _ => true, fun _ => true, fun _ => true,
            fun _ _ => false, fun _ => 5⟩,
          ⟨[.values [9]], 0, false, fun _ => none, fun _ => true, fun _ => true, fun _ => true,
            fun _ => true, fun _ _ => false, fun _ => 6⟩]).map
        (fun worker => worker.highestIssuedMsg.map fun msg => (msg.scpMsg.slotIndex, msg.scpMsg.topic)) =
      .ok (some (6, .nominate ⟨[9], []⟩)) ∧
    ((Node.new ⟨fun _ => .ok (), fun values => .ok values, fun _ _ _ _ => 0⟩ 1
        (QuorumSet.newWithNodeIds 1 [2]) 5).mapError Panic.scpNode >>= fun scpNode =>
      (ByzantineLedgerWorker.new scpNode [0, 1, 2, 3, 4] :
          ByzantineLedgerWorker (Node ℕ ℕ) ℕ ℕ ℕ).run
        (ScpNode.ofNode ⟨fun _ => .ok (), fun values => .ok values, fun _ _ _ _ => 0⟩)
        [⟨[.consensusMsg ⟨⟨2, 5, QuorumSet.newWithNodeIds 1 [1], .commit ⟨⟨1, [7]⟩, 1, 1, 1⟩⟩, 4⟩],
            0, false, fun _ => none, fun _ => true, fun _ => true, fun _ => true, fun _ => true,
            fun _ _ => false, fun _ => 5⟩,
          ⟨[.values [9]], 0, false, fun _ => none, fun _ => true, fun _ => true, fun _ => true,
            fun _ => true, fun _ _ => false, fun _ => 6⟩,
          ⟨[.consensusMsg ⟨⟨2, 5, QuorumSet.newWithNodeIds 1 [1], .externalize ⟨⟨1, [7]⟩, 1⟩⟩, 4⟩],
            0, false, fun _ => none, fun _ => true, fun _ => true, fun _ => true, fun _ => true,
            fun _ _ => false, fun _ => 7⟩]).map
        (fun worker => worker.highestIssuedMsg.map fun msg => (msg.scpMsg.slotIndex, msg.scpMsg.topic)) =
      .ok (some (5, .externalize ⟨⟨1, [7]⟩, 0xFFFFFFFF⟩)) := by
  constructor <;> decide +kernel

end MobileCoin.ConsensusService
