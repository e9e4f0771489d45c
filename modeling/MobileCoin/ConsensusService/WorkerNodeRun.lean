import MobileCoin.Lib.Through
import MobileCoin.ConsensusService.WorkerNode
import MobileCoin.Scp.NodeRun

/-!
# The worker thread over the SCP node

Every tick of the worker changes its SCP node only through the node's calls, and every panic of
the node that ends a tick is raised by a call on a node state so reached. With the `Node` of
`mc_consensus_scp` from `Node::new`, every such state is well formed, so the node panics only
inside a slot: the `expect` and the `panic!` of `get_externalized_values`, which the worker calls
at every tick in sync, are never reached, and the worker thread panics only at the assert that
there are values to propose or in a slot.
-/

namespace MobileCoin.ConsensusService

open Scp Relation

namespace ScpNode

variable {N ID V ε : Type} (node : ScpNode N ID V ε)

/-- One call of the node that may change it. -/
def Step (n n' : N) : Prop :=
  (∃ now values msg, node.proposeValues now values n = .ok (n', msg)) ∨
    (∃ now msgs out, node.handleMessages now msgs n = .ok (n', out)) ∨
    (∃ now out, node.processTimeouts now n = .ok (n', out)) ∨
    ∃ slotIndex, node.resetSlotIndex slotIndex n = .ok n'

/-- A call of the node that panics with `e`. -/
def Fails (n : N) (e : ε) : Prop :=
  (∃ now values, node.proposeValues now values n = .error e) ∨
    (∃ now msgs, node.handleMessages now msgs n = .error e) ∨
    (∃ now, node.processTimeouts now n = .error e) ∨
    (∃ slotIndex, node.getExternalizedValues slotIndex n = .error e) ∨
    ∃ slotIndex, node.resetSlotIndex slotIndex n = .error e

end ScpNode

theorem Panic.scpNode_injective {ε : Type} : Function.Injective (Panic.scpNode : ε → Panic ε) :=
  fun _ _ same => Panic.scpNode.inj same

namespace ByzantineLedgerWorker

variable {N ID V B ε : Type} {node : ScpNode N ID V ε} {env : Env ID V B}
  {self : ByzantineLedgerWorker N ID V B}

/-! ### What leaves the node alone -/

section Frame

variable [LinearOrder V]

@[simp] theorem scpNode_issueConsensusMessages (msgs : List (Msg ID V))
    (self : ByzantineLedgerWorker N ID V B) :
    (self.issueConsensusMessages msgs).scpNode = self.scpNode := by
  obtain ⟨highestIssuedMsg, issued⟩ := issueConsensusMessages_eq msgs self
  rw [issued]

@[simp] theorem scpNode_pushValues (validate : V → Bool) :
    ∀ (newValues : List V) (self : ByzantineLedgerWorker N ID V B),
      (self.pushValues validate newValues).scpNode = self.scpNode
  | [], _ => rfl
  | _ :: newValues, _ => scpNode_pushValues validate newValues _

@[simp] theorem scpNode_receiveTasks (validate : V → Bool) :
    ∀ (tasks : List (TaskMessage ID V B)) (self : ByzantineLedgerWorker N ID V B),
      (self.receiveTasks validate tasks).2.scpNode = self.scpNode
  | [], _ => rfl
  | .values newValues :: tasks, self => by
    rw [receiveTasks, scpNode_receiveTasks validate tasks, scpNode_pushValues]
  | .consensusMsg _ :: tasks, _ => by
    rw [receiveTasks, scpNode_receiveTasks validate tasks]
  | .stopTrigger :: _, _ => rfl

end Frame

/-! ### Each part of a tick -/

theorem transition_through (previous : LedgerSyncState) :
    Through node.Step node.Fails Panic.scpNode self.scpNode (·.2.scpNode)
      (self.transition node env previous) := by
  unfold transition
  split
  -- the transitions that keep the node, and the two that panic
  all_goals try first
    | exact Through.pure .refl
    | exact Through.throw fun _ => nofun
  -- back in sync: a fresh slot after the synced ledger
  refine (Through.call Panic.scpNode_injective
    (fun reset called => .single (.inr (.inr (.inr ⟨_, called⟩))))
    (fun e failed => .inr (.inr (.inr (.inr ⟨_, failed⟩))))).bind fun _ _ => Through.pure .refl

theorem advanceSyncState_through :
    Through node.Step node.Fails Panic.scpNode self.scpNode (·.2.scpNode)
      (self.advanceSyncState node env) :=
  transition_through _

theorem syncNextBlocks_through (numBlocks : ℕ) :
    Through node.Step node.Fails Panic.scpNode self.scpNode (·.scpNode)
      (self.syncNextBlocks env numBlocks) := by
  unfold syncNextBlocks
  split
  · split <;> exact Through.pure .refl
  · exact Through.throw fun _ => nofun

section Calls

variable [LinearOrder V]

theorem proposePendingValues_through :
    Through node.Step node.Fails Panic.scpNode self.scpNode (·.scpNode)
      (self.proposePendingValues node env) := by
  unfold proposePendingValues
  dsimp only
  split
  · rw [throw_bind]
    exact Through.throw fun _ => nofun
  refine (Through.call Panic.scpNode_injective
    (fun _ called => .single (.inl ⟨_, _, _, called⟩))
    (fun _ failed => .inl ⟨_, _, failed⟩)).bind fun ⟨scpNode, msgOpt⟩ _ => Through.pure ?_
  rw [scpNode_issueConsensusMessages]

theorem processBatch_through (chunk : List (ConsensusMsg ID V B)) :
    Through node.Step node.Fails Panic.scpNode self.scpNode (·.scpNode)
      (self.processBatch node env chunk) := by
  unfold processBatch
  dsimp only
  refine (Through.call Panic.scpNode_injective
    (fun _ called => .single (.inr (.inl ⟨_, _, _, called⟩)))
    (fun _ failed => .inr (.inl ⟨_, _, failed⟩))).bind fun ⟨scpNode, msgs⟩ _ => Through.pure ?_
  rw [scpNode_issueConsensusMessages]

theorem processConsensusMsgs_through [DecidableEq B] :
    Through node.Step node.Fails Panic.scpNode self.scpNode (·.scpNode)
      (self.processConsensusMsgs node env) := by
  unfold processConsensusMsgs
  dsimp only
  -- the compatibility filter only reads the ledger; the batches call the node
  refine (Through.of_ne_error fun e failed => ?_).bind fun _ _ =>
    Through.foldlM (fun _ _ => processBatch_through _) _ _
  refine filterM_error (P := fun p => ∀ e, p ≠ .scpNode e) (fun _ p tested => ?_) failed e rfl
  unfold compatible at tested
  split at tested
  · cases tested
  · cases tested
    intro e same
    cases same

theorem completeCurrentSlot_through (externalized : List V) :
    Through node.Step node.Fails Panic.scpNode self.scpNode (·.scpNode)
      (self.completeCurrentSlot node env externalized) := by
  unfold completeCurrentSlot
  dsimp only
  split
  · rw [throw_bind]
    exact Through.throw fun _ => nofun
  · exact Through.pure .refl

theorem nominate_through :
    Through node.Step node.Fails Panic.scpNode self.scpNode (·.scpNode)
      (self.nominate node env) := by
  unfold nominate
  split
  · exact proposePendingValues_through
  · exact Through.pure .refl

theorem processScpTimeouts_through :
    Through node.Step node.Fails Panic.scpNode self.scpNode (·.scpNode)
      (self.processScpTimeouts node env) := by
  unfold processScpTimeouts
  refine (Through.call Panic.scpNode_injective
    (fun _ called => .single (.inr (.inr (.inl ⟨_, _, called⟩))))
    (fun _ failed => .inr (.inr (.inl ⟨_, failed⟩)))).bind fun ⟨scpNode, msgs⟩ _ => Through.pure ?_
  rw [scpNode_issueConsensusMessages]

theorem completeIfExternalized_through :
    Through node.Step node.Fails Panic.scpNode self.scpNode (·.scpNode)
      (self.completeIfExternalized node env) := by
  unfold completeIfExternalized
  -- `get_externalized_values` reads the node and leaves it as it is
  refine (Through.call Panic.scpNode_injective (fun _ _ => .refl)
    (fun _ failed => .inr (.inr (.inr (.inl ⟨_, failed⟩))))).bind fun externalized _ => ?_
  split
  · exact completeCurrentSlot_through _
  · exact Through.pure .refl

theorem runConsensus_through [DecidableEq B] :
    Through node.Step node.Fails Panic.scpNode self.scpNode (·.scpNode)
      (self.runConsensus node env) := by
  unfold runConsensus
  exact nominate_through.bind fun _ _ => processConsensusMsgs_through.bind fun _ _ =>
    processScpTimeouts_through.bind fun _ _ => completeIfExternalized_through

/-- A tick changes the node only through its calls, and a panic of the node that ends it comes
from a call on a node so reached. -/
theorem tick_through [DecidableEq B] :
    Through node.Step node.Fails Panic.scpNode self.scpNode (·.2.scpNode)
      (self.tick node env) := by
  unfold tick
  dsimp only
  -- receiving the tasks leaves the node as it is
  have received := scpNode_receiveTasks env.validate env.tasks self
  split
  · exact Through.pure (received ▸ .refl)
  refine (received ▸ advanceSyncState_through).bind fun ⟨shouldSync, synced⟩ _ => ?_
  dsimp only
  split
  · exact (syncNextBlocks_through _).bind fun _ _ => Through.pure .refl
  split
  · exact Through.pure .refl
  split
  · rw [throw_bind]
    exact Through.throw fun _ => nofun
  · exact runConsensus_through.bind fun _ _ => Through.pure .refl

/-- A run changes the node only through its calls, and a panic of the node that ends it comes
from a call on a node so reached. -/
theorem run_through [DecidableEq B] : ∀ (envs : List (Env ID V B)) (self : ByzantineLedgerWorker N ID V B),
    Through node.Step node.Fails Panic.scpNode self.scpNode (·.scpNode) (self.run node envs)
  | [], _ => Through.pure .refl
  | env :: envs, self => by
    rw [run]
    refine tick_through.bind fun ⟨running, ticked⟩ _ => ?_
    dsimp only
    split
    · exact run_through envs ticked
    · exact Through.pure .refl

/-- From a consistent worker, a run panics only at the assert that there are values to propose,
or as the node. -/
theorem run_error_of_consistent [DecidableEq B] {p : Panic ε} :
    ∀ (envs : List (Env ID V B)) (self : ByzantineLedgerWorker N ID V B), self.Consistent →
      self.run node envs = .error p → p = .pendingValuesEmpty ∨ ∃ e, p = .scpNode e
  | [], _, _, failed => nomatch failed
  | env :: envs, self, consistent, failed => by
    rw [run] at failed
    rcases bind_error_iff.mp failed with failed | ⟨⟨running, ticked⟩, tickOk, failed⟩
    · exact (tick_error consistent failed).imp_right Panic.fromNode_iff.mp
    · dsimp only at failed
      split at failed
      · exact run_error_of_consistent envs ticked (tick_ok consistent tickOk) failed
      · cases failed

end Calls

end ByzantineLedgerWorker

/-! ### The `Node` of `mc_consensus_scp` -/

section Node

variable {NodeID V : Type} [DecidableEq NodeID] [LinearOrder V] {fns : Fns NodeID V}
  {n n' : Node NodeID V}

theorem ScpNode.ofNode_step_wellFormed (wf : n.WellFormed) (step : (ScpNode.ofNode fns).Step n n') :
    n'.WellFormed := by
  rcases step with ⟨now, values, msg, proposed⟩ | ⟨now, msgs, out, handled⟩ |
    ⟨now, out, processed⟩ | ⟨slotIndex, reset⟩
  · exact (Node.proposeValues_called wf proposed).wellFormed
  · exact (Node.handleMessages_called wf handled).wellFormed
  · exact (Node.processTimeouts_called wf processed).wellFormed
  · exact (Node.resetSlotIndex_called wf reset).wellFormed

theorem ScpNode.ofNode_fails_slot (wf : n.WellFormed) {e : NodePanic}
    (fails : (ScpNode.ofNode fns).Fails n e) : ∃ panic, e = .slot panic := by
  rcases fails with ⟨now, values, failed⟩ | ⟨now, msgs, failed⟩ | ⟨now, failed⟩ |
    ⟨slotIndex, failed⟩ | ⟨slotIndex, failed⟩
  · exact Node.proposeValues_error failed
  · exact Node.handleMessages_error failed
  · exact Node.processTimeouts_error failed
  · -- its externalized slots are decided, so `get_externalized_values` finds their `C`
    change n.getExternalizedValues _ = _ at failed
    rw [Node.getExternalizedValues_eq wf] at failed
    cases failed
  · exact Node.resetSlotIndex_error failed

/-- Whatever the sync service, the managers, the peers and the clock answer, the worker thread
over the node from `Node::new` panics only at the assert that there are values to propose, or
inside a slot: the node's own `expect` and `panic!` are never reached. -/
theorem run_panics_only_in_slots {B : Type} [DecidableEq B] {nodeId : NodeID}
    {quorumSet : QuorumSet NodeID} {slotIndex : UInt64} {n₀ : Node NodeID V} {ledger : List B}
    {envs : List (Env NodeID V B)} {p : Panic NodePanic}
    (created : Node.new fns nodeId quorumSet slotIndex = .ok n₀)
    (ran : (ByzantineLedgerWorker.new n₀ ledger).run (ScpNode.ofNode fns) envs = .error p) :
    p = .pendingValuesEmpty ∨ ∃ panic, p = .scpNode (.slot panic) := by
  rcases ByzantineLedgerWorker.run_error_of_consistent envs _
    (ByzantineLedgerWorker.consistent_new n₀ ledger) ran with pending | ⟨e, rfl⟩
  · exact .inl pending
  -- the node that panics is reached from `Node::new` by the node's calls
  obtain ⟨-, fromNode⟩ := (ByzantineLedgerWorker.run_through envs (.new n₀ ledger)).invariant
    (I := Node.WellFormed) ScpNode.ofNode_step_wellFormed (Node.new_wellFormed created)
  obtain ⟨n, wf, fails⟩ := fromNode e ran
  obtain ⟨panic, rfl⟩ := ScpNode.ofNode_fails_slot wf fails
  exact .inr ⟨panic, rfl⟩

theorem run_panics_only_in_slots_behind :
    ∃ (n₀ : Node ℕ ℕ) (p : Panic NodePanic),
      Node.new ⟨fun _ => .ok (), fun values => .ok values, fun _ _ _ _ => 0⟩ 1
          (QuorumSet.newWithNodeIds 1 [2]) 5 = .ok n₀ ∧
        (ByzantineLedgerWorker.new n₀ [0, 1, 2, 3, 4] :
            ByzantineLedgerWorker (Node ℕ ℕ) ℕ ℕ ℕ).run
          (ScpNode.ofNode ⟨fun _ => .ok (), fun values => .ok values, fun _ _ _ _ => 0⟩)
          [⟨[], 0, true, fun _ => none, fun _ => true, fun _ => true, fun _ => true, fun _ => true,
              fun _ _ => false, fun _ => 0⟩,
            ⟨[], 10001, true, fun _ => some [5], fun _ => true, fun _ => true, fun _ => true,
              fun _ => true, fun _ _ => false, fun _ => 0⟩,
            ⟨[.values [9]], 10002, false, fun _ => none, fun _ => true, fun _ => false,
              fun _ => true, fun _ => true, fun _ _ => false, fun _ => 0⟩] = .error p ∧
        (p = .pendingValuesEmpty ∨ ∃ panic, p = .scpNode (.slot panic)) := by
  have whole :
      ((Node.new ⟨fun _ => .ok (), fun values => .ok values, fun _ _ _ _ => 0⟩ 1
          (QuorumSet.newWithNodeIds 1 [2]) 5).mapError Panic.scpNode >>= fun scpNode =>
        (ByzantineLedgerWorker.new scpNode [0, 1, 2, 3, 4] :
            ByzantineLedgerWorker (Node ℕ ℕ) ℕ ℕ ℕ).run
          (ScpNode.ofNode ⟨fun _ => .ok (), fun values => .ok values, fun _ _ _ _ => 0⟩)
          [⟨[], 0, true, fun _ => none, fun _ => true, fun _ => true, fun _ => true, fun _ => true,
              fun _ _ => false, fun _ => 0⟩,
            ⟨[], 10001, true, fun _ => some [5], fun _ => true, fun _ => true, fun _ => true,
              fun _ => true, fun _ _ => false, fun _ => 0⟩,
            ⟨[.values [9]], 10002, false, fun _ => none, fun _ => true, fun _ => false,
              fun _ => true, fun _ => true, fun _ _ => false, fun _ => 0⟩]).map (fun _ => ()) =
        .error .pendingValuesEmpty := by
    decide +kernel
  rcases bind_error_iff.mp (map_eq_error.mp whole) with failed | ⟨n₀, created, ran⟩
  · obtain ⟨e, -, same⟩ := mapError_eq_error.mp failed
    cases same
  · have created := mapError_eq_ok.mp created
    exact ⟨n₀, _, created, ran, run_panics_only_in_slots created ran⟩

end Node

end MobileCoin.ConsensusService
