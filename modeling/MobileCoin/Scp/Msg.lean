import Mathlib
import MobileCoin.Scp.Ballot
import MobileCoin.Scp.QuorumSet

/-!
# Messages

`mc_consensus_scp::msg`: the payload of each SCP statement, the order in which the messages of
one node follow each other, the shape checks of `Msg::validate`, and what a message says about
nominated values, prepared ballots and committed ballot ranges.

Sets of values are sorted lists without repeats, as a `BTreeSet` iterates them; sets of ballots
are lists without repeats.
-/

namespace MobileCoin.Scp

/-- The `assert!`, `unwrap` and `expect` calls of the crate, by the check they make, and the
overflow of the stack by the recursion of the ballot protocol. -/
inductive Panic where
  | minLeMax
  | intersectionOrdered
  | aLeB
  | commitPayloadCnLeHn
  | phaseNominatePrepare
  | xyDisjoint
  | preparePhase
  | ppLtP
  | ppXNeP
  | cNLeHN
  | cXEqHX
  | cWithoutH
  | bLeC
  | hMustExist
  | pIsSome
  | commitPhase
  | externalizePhase
  | bNonZero
  | pXEqBX
  | pNone
  | ppNone
  | hXEqBX
  | hNone
  | cXEqBX
  | cNone
  | pUnwrap
  | hUnwrap
  | cUnwrap
  | mIndex
  | minCounterMustExist
  | weightOverflow
  | divideByZero
  | outMsgValid
  | stackOverflow
  deriving DecidableEq, Repr

/-- `INFINITY`, the highest ballot counter. -/
def INFINITY : UInt32 := 0xFFFFFFFF

/-- A `BTreeSet` of the values of a list. -/
def toSet {V : Type} [LinearOrder V] (values : List V) : List V :=
  values.eraseDups.insertionSort (· ≤ ·)

structure NominatePayload (V : Type) where
  X : List V
  Y : List V
  deriving DecidableEq, Repr

structure PreparePayload (V : Type) where
  B : Ballot V
  P : Option (Ballot V)
  PP : Option (Ballot V)
  CN : UInt32
  HN : UInt32
  deriving DecidableEq, Repr

structure CommitPayload (V : Type) where
  B : Ballot V
  PN : UInt32
  CN : UInt32
  HN : UInt32
  deriving DecidableEq, Repr

structure ExternalizePayload (V : Type) where
  C : Ballot V
  HN : UInt32
  deriving DecidableEq, Repr

inductive Topic (V : Type) where
  | nominate (payload : NominatePayload V)
  | nominatePrepare (nominatePayload : NominatePayload V) (preparePayload : PreparePayload V)
  | prepare (payload : PreparePayload V)
  | commit (payload : CommitPayload V)
  | externalize (payload : ExternalizePayload V)
  deriving DecidableEq, Repr

structure Msg (ID V : Type) where
  senderId : ID
  slotIndex : UInt64
  quorumSet : QuorumSet ID
  topic : Topic V
  deriving DecidableEq

variable {ID V : Type} [LinearOrder V]

/-! ### The order of a node's messages -/

/-- `NominatePayload::new`, from the `HashSet`s of voted and accepted values. -/
def NominatePayload.new (x y : List V) : NominatePayload V := ⟨toSet x, toSet y⟩

/-- `Ord for NominatePayload`: more accepted values, then more voted values. -/
def NominatePayload.cmp (a b : NominatePayload V) : Ordering :=
  if a.Y.length ≠ b.Y.length then compare a.Y.length b.Y.length
  else if a.Y ≠ b.Y then compare a.Y b.Y
  else if a.X.length ≠ b.X.length then compare a.X.length b.X.length
  else if a.X ≠ b.X then compare a.X b.X
  else .eq

/-- `Ord for PreparePayload`: by `(B, P, PP, HN)`; `CN` is not compared. -/
def PreparePayload.cmp (a b : PreparePayload V) : Ordering :=
  if a.B ≠ b.B then compare a.B b.B
  else if a.P ≠ b.P then compare a.P b.P
  else if a.PP ≠ b.PP then compare a.PP b.PP
  else compare a.HN b.HN

def CommitPayload.cmp (a b : CommitPayload V) : Ordering :=
  if a.B ≠ b.B then compare a.B b.B
  else if a.PN ≠ b.PN then compare a.PN b.PN
  else compare a.HN b.HN

def ExternalizePayload.cmp (a b : ExternalizePayload V) : Ordering := compare a.HN b.HN

/-- `Ord for Topic`: by the phase of the statement, then by its payload. -/
def Topic.cmp : Topic V → Topic V → Ordering
  | .nominate a, .nominate b => a.cmp b
  | .nominate _, _ => .lt
  | .nominatePrepare _ _, .nominate _ => .gt
  | .nominatePrepare n p, .nominatePrepare n' p' => if p ≠ p' then p.cmp p' else n.cmp n'
  | .nominatePrepare _ _, _ => .lt
  | .prepare _, .nominate _ => .gt
  | .prepare _, .nominatePrepare _ _ => .gt
  | .prepare a, .prepare b => a.cmp b
  | .prepare _, _ => .lt
  | .commit _, .nominate _ => .gt
  | .commit _, .nominatePrepare _ _ => .gt
  | .commit _, .prepare _ => .gt
  | .commit a, .commit b => a.cmp b
  | .commit _, .externalize _ => .lt
  | .externalize a, .externalize b => a.cmp b
  | .externalize _, _ => .gt

/-- The prepared ballots a prepare payload accepts: `P`, and `PP` when `P` is set. -/
def PreparePayload.acceptedPrepared (payload : PreparePayload V) : List (Ballot V) :=
  match payload.P with
  | some P => ([P] ++ payload.PP.toList).eraseDups
  | none => []

def PreparePayload.values (payload : PreparePayload V) : List V :=
  payload.B.X ++ (payload.P.map (·.X)).getD [] ++ (payload.PP.map (·.X)).getD []

namespace Msg

def new (senderId : ID) (quorumSet : QuorumSet ID) (slotIndex : UInt64) (topic : Topic V) :
    Msg ID V :=
  ⟨senderId, slotIndex, quorumSet, topic⟩

/-! ### Shape checks -/

/-- The errors of `Msg::validate`. -/
inductive Error where
  | invalidQuorumSet
  | xIntersectsY
  | bLessThanP
  | ppNotLessThanP
  | cnGreaterThanHn
  | hnGreaterThanBn
  deriving DecidableEq, Repr

def validateNominate (payload : NominatePayload V) : Except Error Unit :=
  if payload.X.any (· ∈ payload.Y) then .error .xIntersectsY else pure ()

def validatePrepare (payload : PreparePayload V) : Except Error Unit := do
  if let some P := payload.P then
    if payload.B < P then throw .bLessThanP
    if let some PP := payload.PP then
      if P ≤ PP then throw .ppNotLessThanP
  if payload.HN < payload.CN then throw .cnGreaterThanHn
  if payload.B.N < payload.HN then throw .hnGreaterThanBn

def validate (msg : Msg ID V) : Except Error Unit := do
  if !msg.quorumSet.isValid then throw .invalidQuorumSet
  match msg.topic with
  | .nominate payload => validateNominate payload
  | .nominatePrepare nominatePayload preparePayload => do
    validateNominate nominatePayload
    validatePrepare preparePayload
  | .prepare payload => validatePrepare payload
  | .commit payload => if payload.HN < payload.CN then throw .cnGreaterThanHn
  | .externalize _ => pure ()

/-! ### What a message states -/

/-- `Msg::bN`: the ballot counter of the sender, infinite once it externalizes. -/
def bN (msg : Msg ID V) : UInt32 :=
  match msg.topic with
  | .nominate _ => 0
  | .nominatePrepare _ payload => payload.B.N
  | .prepare payload => payload.B.N
  | .commit payload => payload.B.N
  | .externalize _ => INFINITY

def votesOrAcceptsNominated (msg : Msg ID V) : Option (List V) :=
  match msg.topic with
  | .nominate payload | .nominatePrepare payload _ => some (toSet (payload.X ++ payload.Y))
  | _ => none

def acceptsNominated (msg : Msg ID V) : Option (List V) :=
  match msg.topic with
  | .nominate payload | .nominatePrepare payload _ => some payload.Y
  | _ => none

def votesOrAcceptsPrepared (msg : Msg ID V) : List (Ballot V) :=
  match msg.topic with
  | .nominatePrepare _ payload | .prepare payload => (payload.B :: payload.acceptedPrepared).eraseDups
  | .commit payload => [Ballot.new INFINITY payload.B.X]
  | .externalize payload => [Ballot.new INFINITY payload.C.X]
  | .nominate _ => []

def acceptsPrepared (msg : Msg ID V) : List (Ballot V) :=
  match msg.topic with
  | .nominatePrepare _ payload | .prepare payload => payload.acceptedPrepared
  | .commit payload => [Ballot.new payload.PN payload.B.X]
  | .externalize payload => [Ballot.new INFINITY payload.C.X]
  | .nominate _ => []

/-- The overlap of the counters `[a, b]` a message states for a value with `[min, max]`. -/
def overlap (min max : UInt32) : Option (UInt32 × UInt32) → Except Panic (Option (UInt32 × UInt32))
  | some (a, b) =>
    if a ≤ max ∧ min ≤ b then do
      let intersection := (Max.max a min, Min.min b max)
      if ¬ intersection.1 ≤ intersection.2 then throw .intersectionOrdered
      pure (some intersection)
    else pure none
  | none => pure none

/-- `Msg::votes_or_accepts_commits`: the counters in `[min, max]` of the ballots with value
`value` that the message votes or accepts to commit. -/
def votesOrAcceptsCommits (msg : Msg ID V) (value : List V) (min max : UInt32) :
    Except Panic (Option (UInt32 × UInt32)) := do
  if ¬ min ≤ max then throw .minLeMax
  let range := match msg.topic with
    | .nominatePrepare _ payload | .prepare payload =>
      if payload.B.X = value ∧ payload.CN ≠ 0 then some (payload.CN, payload.HN) else none
    | .commit payload => if payload.B.X = value then some (payload.CN, INFINITY) else none
    | .externalize payload => if payload.C.X = value then some (payload.C.N, INFINITY) else none
    | .nominate _ => none
  overlap min max range

/-- `Msg::accepts_commits`: the counters in `[min, max]` of the ballots with value `value` that
the message accepts to commit. -/
def acceptsCommits (msg : Msg ID V) (value : List V) (min max : UInt32) :
    Except Panic (Option (UInt32 × UInt32)) := do
  if ¬ min ≤ max then throw .minLeMax
  let range := match msg.topic with
    | .commit payload => if payload.B.X = value then some (payload.CN, payload.HN) else none
    | .externalize payload => if payload.C.X = value then some (payload.C.N, INFINITY) else none
    | _ => none
  overlap min max range

/-- `Msg::values`: every value the message mentions. -/
def values (msg : Msg ID V) : List V :=
  toSet <| match msg.topic with
    | .nominate payload => payload.X ++ payload.Y
    | .nominatePrepare nominatePayload preparePayload =>
      nominatePayload.X ++ nominatePayload.Y ++ preparePayload.values
    | .prepare payload => payload.values
    | .commit payload => payload.B.X
    | .externalize payload => payload.C.X

end Msg

end MobileCoin.Scp
