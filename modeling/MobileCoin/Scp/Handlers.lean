import MobileCoin.Lib.Run
import MobileCoin.Scp.Phases

/-!
# The calls a node makes on a slot

`Slot::new` and the `ScpSlot` methods that change the slot: `process_timeouts`,
`propose_values` and `handle_messages`, each of which ends with `out_msg`, the message the slot
then sends. A run of a slot is a sequence of these calls.
-/

namespace MobileCoin.Scp

namespace Slot

variable {ID V : Type} [DecidableEq ID] [LinearOrder V] (fns : Fns ID V)

/-- `P` as sent: no higher than `B`, and below it when its value is higher. -/
def clampedP (s : Slot ID V) : Option (Ballot V) :=
  s.P.map fun P =>
    if s.B < P then
      if compare P.X s.B.X = .gt then Ballot.new (s.B.N - 1) P.X else Ballot.new s.B.N P.X
    else P

/-- `PP` as sent: no higher than the sent `P`, and dropped when it would need a negative
counter. -/
def clampedPP (s : Slot ID V) : Option (Ballot V) :=
  match s.clampedP, s.PP with
  | some clampedP, some PP =>
    if clampedP < PP then
      if 0 < PP.N then
        if compare PP.X clampedP.X = .gt then some (Ballot.new (clampedP.N - 1) PP.X)
        else some (Ballot.new clampedP.N PP.X)
      else none
    else some PP
  | _, _ => none

/-- The prepare payload of the NominatePrepare and Prepare phases: `HN` is `H.N` when `H` has
the value of `B`, and `CN` is `C.N` when `HN` is not zero. -/
def preparePayload (s : Slot ID V) : PreparePayload V :=
  let HN := match s.H with
    | some h => if h.X = s.B.X then h.N else 0
    | none => 0
  let CN := match s.C with
    | some c => if HN ≠ 0 then c.N else 0
    | none => 0
  { B := s.B, P := s.clampedP, PP := s.clampedPP, HN, CN }

/-- The topic of the message the slot would send in its phase. -/
def outTopic (s : Slot ID V) : Except Panic (Option (Topic V)) :=
  match s.phase with
  | .nominatePrepare =>
    if s.B.isZero then
      if !s.X.isEmpty || !s.Y.isEmpty then pure (some (.nominate (NominatePayload.new s.X s.Y)))
      else pure none
    else pure (some (.nominatePrepare (NominatePayload.new s.X s.Y) s.preparePayload))
  | .prepare => pure (some (.prepare s.preparePayload))
  | .commit => pure (some (.commit
      { B := s.B, PN := (s.clampedP.map (·.N)).getD 0, HN := (s.H.map (·.N)).getD 0,
        CN := (s.C.map (·.N)).getD 0 }))
  | .externalize => do
    let C ← okOr s.C Panic.cUnwrap
    let H ← okOr s.H Panic.hUnwrap
    pure (some (.externalize { C, HN := H.N }))

/-- `Slot::out_msg`: the message to send, unless it repeats the last one sent. -/
def outMsg (s : Slot ID V) : Except Panic (Slot ID V × Option (Msg ID V)) := do
  match ← s.outTopic with
  | none => pure (s, none)
  | some topic =>
    let msg := Msg.new s.nodeId s.quorumSet s.slotIndex topic
    if msg.validate.toBool = false then throw .outMsgValid
    if s.lastSentMsg = some msg then pure (s, none)
    else pure ({ s with lastSentMsg := some msg }, some msg)

/-- `Slot::new`: a slot in the NominatePrepare phase with the leader of round 1. -/
def new (nodeId : ID) (quorumSet : QuorumSet ID) (slotIndex : UInt64) :
    Except Panic (Slot ID V) := do
  let slot : Slot ID V :=
    { slotIndex, nodeId, quorumSet, M := [], W := [], X := [], Y := [], Z := [],
      B := Ballot.new 0 [], P := none, PP := none, C := none, H := none,
      phase := .nominatePrepare, lastSentMsg := none, maxPriorityPeers := [], nominateRound := 1,
      nextNominateRoundAt := none, nextBallotAt := none, validValues := [],
      baseRoundInterval := 1000, baseBallotInterval := 1000 }
  let maxPriorityPeer ← slot.findMaxPriorityPeer fns slot.nominateRound
  pure { slot with maxPriorityPeers := slot.maxPriorityPeers.insert maxPriorityPeer }

/-- Whether a timer is set and has expired at `now`. -/
def expired (timer : Option ℕ) (now : ℕ) : Bool :=
  match timer with
  | some at_ => at_ < now
  | none => false

/-- A nomination round times out: the next round, with one more leader. -/
def nominationTimeout (now : ℕ) (s : Slot ID V) : Except Panic (Slot ID V) := do
  let s := { s.cancelNextNominationRound with nominateRound := s.nominateRound + 1 }
  let maxPriorityPeer ← s.findMaxPriorityPeer fns s.nominateRound
  let s := { s with maxPriorityPeers := s.maxPriorityPeers.insert maxPriorityPeer }
  s.doNominatePhase fns now

/-- A ballot times out: the next counter, with new values before the Commit phase and the same
value in it. -/
def ballotTimeout (now : ℕ) (s : Slot ID V) : Except Panic (Slot ID V) := do
  let s := s.cancelNextBallotTimer
  let nextCounter := s.B.N + 1
  let s ← match s.phase with
    | .nominatePrepare | .prepare => do
      match ← s.getNextBallotValues fns with
      | some x => pure { s with B := Ballot.new nextCounter x }
      | none => pure s
    | .commit => pure { s with B := { s.B with N := nextCounter } }
    | .externalize => pure s
  s.doBallotProtocol fns now

def processTimeouts (now : ℕ) (s : Slot ID V) : Except Panic (Slot ID V × List (Msg ID V)) := do
  let nominationTimedOut := expired s.nextNominateRoundAt now
  let s ← if nominationTimedOut then s.nominationTimeout fns now else pure s
  let ballotTimedOut := expired s.nextBallotAt now
  let s ← if ballotTimedOut then s.ballotTimeout fns now else pure s
  if nominationTimedOut || ballotTimedOut then
    let (s, emitted) ← s.outMsg
    pure (s, emitted.toList)
  else pure (s, [])

def proposeValues (now : ℕ) (values : List V) (s : Slot ID V) :
    Except Panic (Slot ID V × Option (Msg ID V)) := do
  if !(s.phase = .nominatePrepare && s.Z.isEmpty) then return ← s.outMsg
  let (validValues, s) := s.validValuesOf fns (toSet values)
  if validValues.isEmpty then return (s, none)
  let s := { s with W := s.W ∪ validValues }
  let s ← s.doNominatePhase fns now
  let s ← s.doBallotProtocol fns now
  s.outMsg

/-- One pass of the message loop of `handle_messages`: a message higher than the sender's
last, well formed and, before the Externalize phase, with only valid values, replaces it. -/
def receiveMsg (s : Slot ID V) (msg : Msg ID V) : Bool × Slot ID V :=
  let isHigher := match s.M.lookup msg.senderId with
    | some existingMsg => msg.topic.cmp existingMsg.topic = .gt
    | none => true
  if isHigher && msg.validate.toBool then
    let (valid, s) := if s.phase ≠ .externalize then s.allValid fns msg.values else (true, s)
    if valid then (true, { s with M := insertEntry s.M msg.senderId msg }) else (false, s)
  else (false, s)

/-- `ScpSlot::handle_messages`: the messages of other nodes for this slot, highest first. -/
def handleMessages (now : ℕ) (msgs : List (Msg ID V)) (s : Slot ID V) :
    Except Panic (Slot ID V × Option (Msg ID V)) := do
  let msgsForSlot := msgs.filter fun msg => msg.senderId ≠ s.nodeId && msg.slotIndex = s.slotIndex
  let sorted := msgsForSlot.insertionSort fun a b => a.topic.cmp b.topic ≠ .lt
  let (hasHigherMessages, s) := sorted.foldl (fun (hasHigher, s) msg =>
    let (higher, s) := s.receiveMsg fns msg
    (hasHigher || higher, s)) (false, s)
  if hasHigherMessages then
    let s ← if s.phase = .nominatePrepare then s.doNominatePhase fns now else pure s
    let s ← s.doBallotProtocol fns now
    s.outMsg
  else pure (s, none)

/-- A fresh slot of node 1 with quorum set {2 of 2, 3} handles one well-formed `Prepare` of node
2 with `B = P = ⟨0, [7]⟩`. Node 2 alone blocks the set, so the slot accepts `⟨0, [7]⟩` prepared
while its own ballot is still the zero ballot; `out_msg` then finds `P > B` with `P.X > B.X`
and computes `B.N - 1` with `B.N = 0`. -/
theorem handleMessages_clamps_zero_counter :
    let fns : Fns ℕ ℕ := ⟨fun _ => .ok (), fun values => .ok values, fun _ _ _ _ => 0⟩
    let prepare : Msg ℕ ℕ :=
      ⟨2, 0, QuorumSet.newWithNodeIds 1 [1], .prepare ⟨⟨0, [7]⟩, some ⟨0, [7]⟩, none, 0, 0⟩⟩
    ((Slot.new fns 1 (QuorumSet.newWithNodeIds 2 [2, 3]) 0 : Except Panic (Slot ℕ ℕ)) >>= fun s =>
      s.handleMessages fns 0 [prepare]).toOption.map (fun result => (result.1.B, result.1.P)) =
        some (⟨0, []⟩, some ⟨0, [7]⟩) ∧
      (⟨0, []⟩ : Ballot ℕ) < ⟨0, [7]⟩ ∧ compare [7] ([] : List ℕ) = .gt := by
  intro fns prepare
  exact ⟨by decide +kernel, by decide, by decide⟩

/-- Three well-formed `NominatePrepare`s of node 2, whose prepare payloads differ only in `CN`
(which `Ord for PreparePayload` does not compare) between the first two. The second compares
equal to both others, so it is a greatest message and the earliest of those equal to it; the
slot keeps the third, which is greater than the first only. -/
theorem handleMessages_keeps_later_equal :
    let fns : Fns ℕ ℕ := ⟨fun _ => .ok (), fun values => .ok values, fun _ _ _ _ => 0⟩
    let quorumSet : QuorumSet ℕ := QuorumSet.newWithNodeIds 1 [2]
    let first : Msg ℕ ℕ :=
      ⟨2, 0, quorumSet, .nominatePrepare ⟨[7], []⟩ ⟨⟨1, [7]⟩, none, none, 0, 1⟩⟩
    let second : Msg ℕ ℕ :=
      ⟨2, 0, quorumSet, .nominatePrepare ⟨[7], []⟩ ⟨⟨1, [7]⟩, none, none, 1, 1⟩⟩
    let third : Msg ℕ ℕ :=
      ⟨2, 0, quorumSet, .nominatePrepare ⟨[7], [8]⟩ ⟨⟨1, [7]⟩, none, none, 0, 1⟩⟩
    ((Slot.new fns 1 quorumSet 0 : Except Panic (Slot ℕ ℕ)) >>= fun s =>
      s.handleMessages fns 0 [first, second, third]).toOption.map
        (fun result => result.1.M.lookup 2) = some (some third) ∧
      second.topic.cmp first.topic = .eq ∧ second.topic.cmp third.topic = .eq ∧
      third.topic.cmp first.topic = .gt := by
  intro fns quorumSet first second third
  exact ⟨by decide +kernel, by decide, by decide, by decide⟩

/-! ### Runs -/

/-- The calls that change a slot, each at the time it is made. -/
inductive Input (ID V : Type) where
  | processTimeouts (now : ℕ)
  | proposeValues (now : ℕ) (values : List V)
  | handleMessages (now : ℕ) (msgs : List (Msg ID V))

/-- One call, with the messages it returns. -/
def step (s : Slot ID V) : Input ID V → Except Panic (Slot ID V × List (Msg ID V))
  | .processTimeouts now => s.processTimeouts fns now
  | .proposeValues now values => do
    let (s, emitted) ← s.proposeValues fns now values
    pure (s, emitted.toList)
  | .handleMessages now msgs => do
    let (s, emitted) ← s.handleMessages fns now msgs
    pure (s, emitted.toList)

/-- A sequence of calls, with the messages the slot sends along it. -/
def run (s : Slot ID V) (inputs : List (Input ID V)) :
    Except Panic (Slot ID V × List (Msg ID V)) :=
  runSteps (step fns) s inputs

end Slot

end MobileCoin.Scp
