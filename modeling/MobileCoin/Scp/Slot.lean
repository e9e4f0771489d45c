import MobileCoin.Lib.Except
import MobileCoin.Scp.Msg

/-!
# The slot

The state of `mc_consensus_scp::slot::Slot` and the queries it makes of the latest messages:
federated voting on nominated values, prepared ballots and committed ballot ranges, the ballot
counter that unblocks the node, and the values of its next ballot.

`HashMap`s are association lists and `HashSet`s lists without repeats; the order in which the
code iterates a `HashSet` is the order of the list. The clock is the time `now` in milliseconds
that each call is made at; a timer is the time it fires after.
-/

namespace MobileCoin.Scp

inductive Phase where
  | nominatePrepare
  | prepare
  | commit
  | externalize
  deriving DecidableEq, Repr

namespace Phase

def rank : Phase → ℕ
  | nominatePrepare => 0
  | prepare => 1
  | commit => 2
  | externalize => 3

instance : LE Phase := ⟨fun a b => a.rank ≤ b.rank⟩

instance : LT Phase := ⟨fun a b => a.rank < b.rank⟩

instance (a b : Phase) : Decidable (a ≤ b) := inferInstanceAs (Decidable (a.rank ≤ b.rank))

instance (a b : Phase) : Decidable (a < b) := inferInstanceAs (Decidable (a.rank < b.rank))

end Phase

/-- The application's functions a slot calls: `validity_fn`, `combine_fn`, and the salted hash
`utils::slot_round_salted_keccak` of a node's public key, as a `U256`. -/
structure Fns (ID V : Type) where
  validityFn : V → Except String Unit
  combineFn : List V → Except String (List V)
  slotRoundSaltedKeccak : UInt64 → UInt8 → UInt32 → ID → ℕ

structure Slot (ID V : Type) where
  slotIndex : UInt64
  nodeId : ID
  quorumSet : QuorumSet ID
  M : List (ID × Msg ID V)
  W : List V
  X : List V
  Y : List V
  Z : List V
  B : Ballot V
  P : Option (Ballot V)
  PP : Option (Ballot V)
  H : Option (Ballot V)
  C : Option (Ballot V)
  phase : Phase
  lastSentMsg : Option (Msg ID V)
  maxPriorityPeers : List ID
  nominateRound : UInt32
  nextNominateRoundAt : Option ℕ
  nextBallotAt : Option ℕ
  validValues : List V
  baseRoundInterval : ℕ
  baseBallotInterval : ℕ
  deriving DecidableEq

/-- `HashMap::insert` on an association list. -/
def insertEntry {K α : Type} [DecidableEq K] (map : List (K × α)) (key : K) (value : α) :
    List (K × α) :=
  if map.any (·.1 = key) then map.map fun entry => if entry.1 = key then (key, value) else entry
  else map ++ [(key, value)]

def saturatingAdd (a b : UInt32) : UInt32 :=
  if a.toNat + b.toNat < UInt32.size then a + b else 0xFFFFFFFF

namespace Slot

variable {ID V : Type} [DecidableEq ID] [LinearOrder V] (fns : Fns ID V)

/-! ### Validation, weights and leaders -/

/-- `Slot::validate`, which remembers the values found valid. -/
def validate (s : Slot ID V) (value : V) : Except String Unit × Slot ID V :=
  if s.validValues.contains value then (.ok (), s)
  else match fns.validityFn value with
    | .ok () => (.ok (), { s with validValues := s.validValues.insert value })
    | .error err => (.error err, s)

/-- The values that pass `validate`, checked in order. -/
def validValuesOf (s : Slot ID V) (values : List V) : List V × Slot ID V :=
  values.foldl (fun (kept, s) value =>
    match s.validate fns value with
    | (.ok (), s) => (kept ++ [value], s)
    | (.error _, s) => (kept, s)) ([], s)

/-- Whether every value passes `validate`, checking in order up to the first that fails. -/
def allValid (s : Slot ID V) : List V → Bool × Slot ID V
  | [] => (true, s)
  | value :: rest =>
    match s.validate fns value with
    | (.ok (), s) => allValid s rest
    | (.error _, s) => (false, s)

def weight (s : Slot ID V) (nodeId : ID) : UInt32 × UInt32 :=
  if nodeId = s.nodeId then (1, 1) else s.quorumSet.weight nodeId

/-- `Slot::neighbors`: the nodes whose hash is below their weight, scaled to `U256`. -/
def neighbors (s : Slot ID V) (slotIndex : UInt64) (nominationRound : UInt32) :
    Except Panic (List ID) :=
  (s.nodeId :: s.quorumSet.nodes).filterM fun nodeId => do
    let (num, denom) := s.weight nodeId
    let tmp := Min.min ((2 ^ 256 - 1) * num.toNat) (2 ^ 512 - 1)
    if denom = 0 then throw .divideByZero
    let weight256 := tmp / denom.toNat
    if 2 ^ 256 ≤ weight256 then throw .weightOverflow
    pure (decide (fns.slotRoundSaltedKeccak slotIndex 1 nominationRound nodeId < weight256))

/-- `Slot::find_max_priority_peer`: the neighbor of highest priority not yet a leader, or the
node itself. -/
def findMaxPriorityPeer (s : Slot ID V) (round : UInt32) : Except Panic ID := do
  let neighbors ← s.neighbors fns s.slotIndex round
  let (result, _) := neighbors.foldl (fun (result, maxPriority) nodeId =>
      if nodeId ∈ s.maxPriorityPeers then (result, maxPriority)
      else
        let nodePriority := fns.slotRoundSaltedKeccak s.slotIndex 2 round nodeId
        if maxPriority < nodePriority then (nodeId, nodePriority) else (result, maxPriority))
    (s.nodeId, 0)
  pure result

/-! ### Timers -/

def scheduleNextNominationRound (s : Slot ID V) (now : ℕ) : Slot ID V :=
  if s.nextNominateRoundAt.isNone then
    { s with nextNominateRoundAt := some (now + s.baseRoundInterval * s.nominateRound.toNat) }
  else s

def cancelNextNominationRound (s : Slot ID V) : Slot ID V := { s with nextNominateRoundAt := none }

def cancelNextBallotTimer (s : Slot ID V) : Slot ID V := { s with nextBallotAt := none }

/-! ### Predicates -/

/-- `Predicate::test` of `BallotSetPredicate`, `BallotRangePredicate` and `ValueSetPredicate`:
the candidates that the message narrows them to, if there were and are some. -/
def narrowingTest {α : Type} (testFn : Msg ID V → List α → Except Panic (List α))
    (candidates : List α) (msg : Msg ID V) : Except Panic (Option (List α)) := do
  if candidates.isEmpty then return none
  let next ← testFn msg candidates
  if next.isEmpty then return none
  return some next

def ballotSetTest (testFn : Msg ID V → List (Ballot V) → List (Ballot V)) :=
  narrowingTest fun msg ballots => pure (testFn msg ballots)

def valueSetTest (testFn : Msg ID V → List V → List V) :=
  narrowingTest fun msg values => pure (testFn msg values)

def ballotRangeTest
    (testFn : Msg ID V → List (List V × UInt32 × UInt32) →
      Except Panic (List (List V × UInt32 × UInt32))) :=
  narrowingTest testFn

/-- `Predicate::test` of `FuncPredicate`. -/
def funcTest (testFn : Msg ID V → Bool) (u : Unit) (msg : Msg ID V) : Except Panic (Option Unit) :=
  pure (if testFn msg then some u else none)

/-- The candidate ballots that share a value with a ballot the message states, at the lower of
the two counters. -/
def intersectBallots (stated : List (Ballot V)) (candidates : List (Ballot V)) : List (Ballot V) :=
  stated.foldl (fun acc a => candidates.foldl (fun acc b =>
    if a.X = b.X then acc.insert (Ballot.new (Min.min a.N b.N) a.X) else acc) acc) []

/-- The candidate values that the message states, none when it states no such set. -/
def intersectValues (stated : Option (List V)) (values : List V) : List V :=
  match stated with
  | some stated => values.filter stated.contains
  | none => []

/-- The candidate counter ranges narrowed to what the message states for their value. -/
def intersectRanges (stated : List V → UInt32 → UInt32 → Except Panic (Option (UInt32 × UInt32)))
    (ranges : List (List V × UInt32 × UInt32)) : Except Panic (List (List V × UInt32 × UInt32)) :=
  ranges.foldlM (fun intersection (values, min, max) => do
    match ← stated values min max with
    | some range => pure (insertEntry intersection values range)
    | none => pure intersection) []

/-- The closure that wraps `accepts_commits` in `ballots_accepted_committed` and
`ballots_confirmed_committed`, with its own checks of the ranges. -/
def acceptsCommitsChecked (msg : Msg ID V) (values : List V) (min max : UInt32) :
    Except Panic (Option (UInt32 × UInt32)) := do
  if ¬ min ≤ max then throw .minLeMax
  let range ← msg.acceptsCommits values min max
  if let some (a, b) := range then
    if ¬ a ≤ b then throw .aLeB
  pure range

def findBlockingSet {σ : Type} (s : Slot ID V) (test : σ → Msg ID V → Except Panic (Option σ))
    (pred : σ) : Except Panic (List ID × σ) :=
  s.quorumSet.findBlockingSet s.M test pred

def findQuorum {σ : Type} (s : Slot ID V) (test : σ → Msg ID V → Except Panic (Option σ))
    (pred : σ) : Except Panic (List ID × σ) :=
  s.quorumSet.findQuorum s.M test Msg.quorumSet s.nodeId pred

/-! ### Federated voting -/

/-- "Accepted nominated" values not yet in `Y`: those a blocking set accepts, and those of `X`
a quorum votes or accepts. -/
def additionalValuesAcceptedNominated (s : Slot ID V) : Except Panic (List V) := do
  let candidates := toSet (s.M.foldl (fun acc (nodeId, msg) =>
    if nodeId = s.nodeId then acc else acc ++ (msg.acceptsNominated.getD [])) [])
  let acceptedFromBlockingSet ← candidates.filterM fun value => do
    let (nodeIds, _) ← s.findBlockingSet
      (valueSetTest fun msg values => intersectValues msg.acceptsNominated values) [value]
    pure !nodeIds.isEmpty
  let (nodeIds, pred) ← s.findQuorum
    (valueSetTest fun msg values => intersectValues msg.votesOrAcceptsNominated values) (toSet s.X)
  let acceptedFromQuorum := if nodeIds.isEmpty then [] else pred
  pure (toSet (acceptedFromBlockingSet ++ acceptedFromQuorum))

/-- "Confirmed nominated" values not yet in `Z`: those of `Y` a quorum accepts. -/
def additionalValuesConfirmedNominated (s : Slot ID V) : Except Panic (List V) := do
  let (quorumIds, pred) ← s.findQuorum
    (valueSetTest fun msg values => intersectValues msg.acceptsNominated values)
    (toSet (s.Y.filter (!s.Z.contains ·)))
  pure (if quorumIds.isEmpty then [] else pred)

/-- The ballots the node itself votes or accepts prepared: `B` unless zero, `P`, and `PP` when
`P` is set. -/
def localPrepared (s : Slot ID V) : List (Ballot V) :=
  ((if s.B.isZero then [] else [s.B]) ++
    match s.P with
    | some P => P :: s.PP.toList
    | none => []).eraseDups

/-- All "accepted prepared" ballots: those a blocking set accepts, and those a quorum votes or
accepts among the node's own. -/
def ballotsAcceptedPrepared (s : Slot ID V) : Except Panic (List (Ballot V)) := do
  let candidates := (s.quorumSet.nodes.foldl (fun acc nodeId =>
    match s.M.lookup nodeId with
    | some msg => acc ++ msg.acceptsPrepared
    | none => acc) []).eraseDups
  let acceptedFromBlockingSet ← candidates.filterM fun ballot => do
    let (nodeIds, _) ← s.findBlockingSet
      (ballotSetTest fun msg ballots => intersectBallots msg.acceptsPrepared ballots) [ballot]
    pure !nodeIds.isEmpty
  let (nodeIds, pred) ← s.findQuorum
    (ballotSetTest fun msg ballots => intersectBallots msg.votesOrAcceptsPrepared ballots)
    s.localPrepared
  let acceptedByQuorum := if nodeIds.isEmpty then [] else pred
  pure (acceptedFromBlockingSet ++ acceptedByQuorum).eraseDups

/-- All "confirmed prepared" ballots: the accepted prepared ballots a quorum accepts. -/
def ballotsConfirmedPrepared (s : Slot ID V) : Except Panic (List (Ballot V)) := do
  let candidates ← s.ballotsAcceptedPrepared
  let (nodeIds, pred) ← s.findQuorum
    (ballotSetTest fun msg ballots => intersectBallots msg.acceptsPrepared ballots) candidates
  pure (if nodeIds.isEmpty then [] else pred)

/-- The counter ranges that the quorum-set members' `Commit` and `Externalize` messages accept
committed, the last member's range for each value. -/
def committedCandidates (s : Slot ID V) : Except Panic (List (List V × UInt32 × UInt32)) :=
  s.quorumSet.nodes.foldlM (fun candidates nodeId =>
    match s.M.lookup nodeId with
    | some msg =>
      match msg.topic with
      | .commit payload => do
        if ¬ payload.CN ≤ payload.HN then throw .commitPayloadCnLeHn
        pure (insertEntry candidates payload.B.X (payload.CN, payload.HN))
      | .externalize payload => pure (insertEntry candidates payload.C.X (payload.C.N, INFINITY))
      | _ => pure candidates
    | none => pure candidates) []

/-- The union of two results for one value: the lowest and the highest counter of the two. -/
def upsertRange (ranges : List (List V × UInt32 × UInt32)) :
    List V × UInt32 × UInt32 → List (List V × UInt32 × UInt32)
  | (values, a, b) =>
    match ranges.lookup values with
    | some (c, d) => insertEntry ranges values (Min.min a c, Max.max b d)
    | none => insertEntry ranges values (a, b)

/-- All "accepted committed" ballots, as a range of counters `[a, b]` for each value: the
ranges a blocking set accepts, and the node's own range `[C.N, H.N]` for `B.X` narrowed to what
a quorum votes or accepts. -/
def ballotsAcceptedCommitted (s : Slot ID V) : Except Panic (List (List V × UInt32 × UInt32)) := do
  let candidates ← s.committedCandidates
  let acceptedFromBlockingSet ← candidates.filterM fun candidate => do
    let (nodeIds, _) ← s.findBlockingSet
      (ballotRangeTest fun msg ranges => intersectRanges (acceptsCommitsChecked msg) ranges)
      [candidate]
    pure !nodeIds.isEmpty
  let localCandidates ← match s.C, s.H with
    | some C, some H => do
      if ¬ C.N ≤ H.N then throw .cNLeHN
      pure [(s.B.X, C.N, H.N)]
    | _, _ => pure []
  let (nodeIds, pred) ← s.findQuorum
    (ballotRangeTest fun msg ranges => intersectRanges msg.votesOrAcceptsCommits ranges)
    localCandidates
  let acceptedByQuorum := if nodeIds.isEmpty then [] else pred
  pure ((acceptedFromBlockingSet ++ acceptedByQuorum).foldl upsertRange [])

/-- All "confirmed committed" ballots with value `B.X`: the node's own accepted range narrowed
to what a quorum accepts. -/
def ballotsConfirmedCommitted (s : Slot ID V) : Except Panic (Option (UInt32 × UInt32)) := do
  if ¬ (s.phase = .commit ∨ s.phase = .externalize ∨ s.H.isNone) then return none
  let candidates ← if s.phase = .commit then
      pure [(s.B.X, (s.C.map (·.N)).getD 0, (s.H.map (·.N)).getD 0)]
    else if s.phase = .externalize then do
      match (← s.ballotsAcceptedCommitted).lookup s.B.X with
      | some range => pure [(s.B.X, range)]
      | none => pure []
    else pure []
  let (nodeIds, pred) ← s.findQuorum
    (ballotRangeTest fun msg ranges => intersectRanges (acceptsCommitsChecked msg) ranges) candidates
  pure (if nodeIds.isEmpty then none else pred.lookup s.B.X)

/-! ### Ballot counters and values -/

/-- The loop of `get_unblocking_ballot_counter`: while a blocking set is on a higher counter,
move to the lowest counter in the set. The counter rises to a counter of a message each time,
so there are at most as many rounds as messages. -/
def unblockingCounterFrom (s : Slot ID V) : ℕ → UInt32 → Except Panic UInt32
  | 0, counter => pure counter
  | rounds + 1, counter => do
    let (blockingSet, _) ← s.findBlockingSet (funcTest fun msg => counter < msg.bN) ()
    if blockingSet.isEmpty then return counter
    let counters ← blockingSet.mapM fun nodeId => okOr (s.M.lookup nodeId) Panic.mIndex
    match (counters.map Msg.bN).min? with
    | some minBallotCounter => s.unblockingCounterFrom rounds minBallotCounter
    | none => throw .minCounterMustExist

/-- `Slot::get_unblocking_ballot_counter`: the lowest counter from `B.N` on that no blocking set
of other nodes is above. -/
def getUnblockingBallotCounter (s : Slot ID V) : Except Panic UInt32 :=
  s.unblockingCounterFrom (s.M.length + 1) s.B.N

/-- `Slot::get_next_ballot_values`: the value of the highest confirmed prepared ballot, else the
combined confirmed nominated values, else the value of the highest accepted prepared ballot, else
the value of `B`. -/
def getNextBallotValues (s : Slot ID V) : Except Panic (Option (List V)) := do
  if let some h := (← s.ballotsConfirmedPrepared).max? then return some h.X
  if !s.Z.isEmpty then
    if let .ok values := fns.combineFn s.Z then return some values
  if let some p := (← s.ballotsAcceptedPrepared).max? then return some p.X
  if !s.B.isZero then return some s.B.X
  return none

/-- `Slot::maybe_set_ballot_timer`: arm the ballot timer when a quorum is at `B.N` or above. -/
def maybeSetBallotTimer (s : Slot ID V) (now : ℕ) : Except Panic (Slot ID V) := do
  if s.phase = .externalize then return s
  if s.nextBallotAt.isSome then return s
  let (quorumIds, _) ← s.findQuorum (funcTest fun msg => s.B.N ≤ msg.bN) ()
  if quorumIds.isEmpty then return s
  return { s with
    nextBallotAt := some (now + s.baseBallotInterval * (saturatingAdd s.B.N 1).toNat) }

end Slot

end MobileCoin.Scp
