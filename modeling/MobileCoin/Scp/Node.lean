import MobileCoin.Scp.Handlers

/-!
# The SCP node

`mc_consensus_scp::node::Node` runs one slot at a time and keeps the last externalized slots,
which go on handling the messages of their index after the node has moved on. When the current
slot sends an `Externalize` message the node moves to a fresh slot of the next index and
queues the externalized one, keeping at most `max_externalized_slots` of them.

The logger, the `scp_timebase` (which no slot reads) and the check of the externalized values
in `externalize` (which only logs) are left out. `handle_messages` of a slot never returns
`Err`; the panics of a slot end the node's call with that panic.
-/

namespace MobileCoin.Scp

def MAX_EXTERNALIZED_SLOTS : ℕ := 1

/-- The panics of the node: those of its slots, and the `expect` and `panic!` of
`get_externalized_values`. -/
inductive NodePanic where
  | slot (panic : Panic)
  | previousSlotsMustHaveAMessage
  | previousSlotHasNotExternalized
  deriving DecidableEq, Repr

structure Node (NodeID V : Type) where
  ID : NodeID
  Q : QuorumSet NodeID
  currentSlot : Slot NodeID V
  maxExternalizedSlots : ℕ
  externalizedSlots : List (Slot NodeID V)
  deriving DecidableEq

namespace Node

variable {NodeID V : Type} [DecidableEq NodeID] [LinearOrder V] (fns : Fns NodeID V)

/-- `Node::new`: a fresh slot at `current_slot_index` and no externalized slots. -/
def new (nodeId : NodeID) (quorumSet : QuorumSet NodeID) (currentSlotIndex : UInt64) :
    Except NodePanic (Node NodeID V) := do
  let slot ← (Slot.new fns nodeId quorumSet currentSlotIndex).mapError .slot
  pure
    { ID := nodeId
      Q := quorumSet
      currentSlot := slot
      maxExternalizedSlots := MAX_EXTERNALIZED_SLOTS
      externalizedSlots := [] }

/-- `Node::push_externalized_slot`: queue the slot, then remove the oldest until at most
`max_externalized_slots` remain. -/
def pushExternalizedSlot (self : Node NodeID V) (slot : Slot NodeID V) : Node NodeID V :=
  let externalizedSlots := self.externalizedSlots ++ [slot]
  { self with
    externalizedSlots := externalizedSlots.drop (externalizedSlots.length - self.maxExternalizedSlots) }

/-- `Node::externalize`: advance to a fresh slot of the next index, queueing the current one. -/
def externalize (self : Node NodeID V) : Except NodePanic (Node NodeID V) := do
  let slotIndex := self.currentSlot.slotIndex
  let nextSlot ← (Slot.new fns self.ID self.Q (slotIndex + 1)).mapError .slot
  let externalizedSlot := self.currentSlot
  pure ({ self with currentSlot := nextSlot }.pushExternalizedSlot externalizedSlot)

/-- After the current slot sent `msg`, externalize when it is an `Externalize` message. -/
def externalizeOn (self : Node NodeID V) (msg : Msg NodeID V) : Except NodePanic (Node NodeID V) :=
  match msg.topic with
  | .externalize _ => self.externalize fns
  | _ => pure self

def getExternalizedSlot (self : Node NodeID V) (slotIndex : UInt64) : Option (Slot NodeID V) :=
  self.externalizedSlots.find? fun slot => slot.slotIndex = slotIndex

def proposeValues (now : ℕ) (values : List V) (self : Node NodeID V) :
    Except NodePanic (Node NodeID V × Option (Msg NodeID V)) := do
  if values.isEmpty then return (self, none)
  let (slot, msg) ← (self.currentSlot.proposeValues fns now values).mapError .slot
  let self := { self with currentSlot := slot }
  match msg with
  | none => pure (self, none)
  | some msg => pure (← self.externalizeOn fns msg, some msg)

/-- A slot handles the messages of its index, if there are any. -/
def handleSlotMessages (now : ℕ) (msgs : List (Msg NodeID V)) (slot : Slot NodeID V) :
    Except NodePanic (Slot NodeID V × Option (Msg NodeID V)) :=
  let slotMsgs := msgs.filter fun msg => msg.slotIndex = slot.slotIndex
  if slotMsgs.isEmpty then pure (slot, none)
  else (slot.handleMessages fns now slotMsgs).mapError .slot

/-- `ScpNode::handle_messages` of `Node`: the messages of other nodes up to the current slot go
to the externalized slot of their index, in order, and then to the current slot. -/
def handleMessages (now : ℕ) (msgs : List (Msg NodeID V)) (self : Node NodeID V) :
    Except NodePanic (Node NodeID V × List (Msg NodeID V)) := do
  let msgsFromPeers := msgs.filter fun msg => msg.senderId ≠ self.ID
  let msgsToProcess := msgsFromPeers.filter fun msg => msg.slotIndex ≤ self.currentSlot.slotIndex
  let handled : List (Slot NodeID V × Option (Msg NodeID V)) ←
    self.externalizedSlots.mapM (handleSlotMessages fns now msgsToProcess)
  let self := { self with externalizedSlots := handled.map Prod.fst }
  let outboundMsgs := handled.filterMap Prod.snd
  let (currentSlot, response) ← handleSlotMessages fns now msgsToProcess self.currentSlot
  let self := { self with currentSlot }
  match response with
  | none => pure (self, outboundMsgs)
  | some response => pure (← self.externalizeOn fns response, outboundMsgs ++ [response])

/-- `ScpNode::process_timeouts` of `Node`: the current slot's. -/
def processTimeouts (now : ℕ) (self : Node NodeID V) :
    Except NodePanic (Node NodeID V × List (Msg NodeID V)) := do
  let (slot, msgs) ← (self.currentSlot.processTimeouts fns now).mapError .slot
  pure ({ self with currentSlot := slot }, msgs)

/-- `ScpNode::get_externalized_values` of `Node`: the values of the last message an
externalized slot sent, which must be an `Externalize`. -/
def getExternalizedValues (slotIndex : UInt64) (self : Node NodeID V) :
    Except NodePanic (Option (List V)) :=
  match self.getExternalizedSlot slotIndex with
  | none => pure none
  | some slot =>
    match slot.lastSentMsg with
    | none => throw .previousSlotsMustHaveAMessage
    | some msg =>
      match msg.topic with
      | .externalize payload => pure (some payload.C.X)
      | _ => throw .previousSlotHasNotExternalized

/-- `ScpNode::reset_slot_index` of `Node`: a fresh slot at `slot_index`, and no externalized
slots. -/
def resetSlotIndex (slotIndex : UInt64) (self : Node NodeID V) : Except NodePanic (Node NodeID V) := do
  let currentSlot ← (Slot.new fns self.ID self.Q slotIndex).mapError .slot
  pure { self with currentSlot, externalizedSlots := [] }

/-- The calls of `ScpNode` that change a node. -/
inductive Input (NodeID V : Type) where
  | proposeValues (now : ℕ) (values : List V)
  | handleMessages (now : ℕ) (msgs : List (Msg NodeID V))
  | processTimeouts (now : ℕ)
  | resetSlotIndex (slotIndex : UInt64)

/-- One call, with the messages it returns. -/
def step (self : Node NodeID V) :
    Input NodeID V → Except NodePanic (Node NodeID V × List (Msg NodeID V))
  | .proposeValues now values => do
    let (self, msg) ← self.proposeValues fns now values
    pure (self, msg.toList)
  | .handleMessages now msgs => self.handleMessages fns now msgs
  | .processTimeouts now => self.processTimeouts fns now
  | .resetSlotIndex slotIndex => do pure (← self.resetSlotIndex fns slotIndex, [])

/-- A sequence of calls, with the messages the node returns along it. -/
def run (self : Node NodeID V) (inputs : List (Input NodeID V)) :
    Except NodePanic (Node NodeID V × List (Msg NodeID V)) :=
  runSteps (step fns) self inputs

end Node

end MobileCoin.Scp
