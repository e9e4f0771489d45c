import Mathlib

/-!
# Quorum sets

`mc_consensus_scp_types::QuorumSet`: a threshold and members, each a node or an inner quorum set
(the protobuf wrapper leaves each member optional), and the searches of `QuorumSetExt` over the
latest message of each node.

The searches take a predicate as in `mc_consensus_scp::predicates`: a state `σ` that a message
either narrows (`test` returns the narrowed state) or fails. They are greedy: a member that
passes is kept, and the search never goes back on it.
-/

namespace MobileCoin.Scp

mutual
inductive QuorumSetMember (ID : Type) where
  | node (id : ID)
  | innerSet (qs : QuorumSet ID)
inductive QuorumSet (ID : Type) where
  | mk (threshold : UInt32) (members : List (Option (QuorumSetMember ID)))
end

namespace QuorumSet

variable {ID : Type}

def threshold : QuorumSet ID → UInt32
  | mk threshold _ => threshold

def members : QuorumSet ID → List (Option (QuorumSetMember ID))
  | mk _ members => members

def new (threshold : UInt32) (members : List (QuorumSetMember ID)) : QuorumSet ID :=
  mk threshold (members.map some)

def newWithNodeIds (threshold : UInt32) (nodeIds : List ID) : QuorumSet ID :=
  new threshold (nodeIds.map .node)

section DecidableEq

variable [DecidableEq ID]

mutual
def decEqMember : (a b : QuorumSetMember ID) → Decidable (a = b)
  | .node a, .node b =>
    if same : a = b then isTrue (same ▸ rfl) else isFalse fun h => by cases h; exact same rfl
  | .innerSet a, .innerSet b =>
    match decEq a b with
    | isTrue same => isTrue (same ▸ rfl)
    | isFalse differ => isFalse fun h => by cases h; exact differ rfl
  | .node _, .innerSet _ => isFalse nofun
  | .innerSet _, .node _ => isFalse nofun
def decEqMembers : (a b : List (Option (QuorumSetMember ID))) → Decidable (a = b)
  | [], [] => isTrue rfl
  | none :: as, none :: bs =>
    match decEqMembers as bs with
    | isTrue same => isTrue (same ▸ rfl)
    | isFalse differ => isFalse fun h => by cases h; exact differ rfl
  | some a :: as, some b :: bs =>
    match decEqMember a b, decEqMembers as bs with
    | isTrue same, isTrue same' => isTrue (same ▸ same' ▸ rfl)
    | isFalse differ, _ => isFalse fun h => by cases h; exact differ rfl
    | _, isFalse differ => isFalse fun h => by cases h; exact differ rfl
  | [], _ :: _ => isFalse nofun
  | _ :: _, [] => isFalse nofun
  | none :: _, some _ :: _ => isFalse nofun
  | some _ :: _, none :: _ => isFalse nofun
def decEq : (a b : QuorumSet ID) → Decidable (a = b)
  | mk t ms, mk t' ms' =>
    match decEqMembers ms ms' with
    | isTrue same =>
      if same' : t = t' then isTrue (same ▸ same' ▸ rfl)
      else isFalse fun h => by cases h; exact same' rfl
    | isFalse differ => isFalse fun h => by cases h; exact differ rfl
end

instance : DecidableEq (QuorumSetMember ID) := decEqMember

instance : DecidableEq (QuorumSet ID) := decEq

end DecidableEq

mutual
def membersValid : List (Option (QuorumSetMember ID)) → Bool
  | [] => true
  | none :: _ => false
  | some (.node _) :: rest => membersValid rest
  | some (.innerSet qs) :: rest => isValid qs && membersValid rest
/-- `QuorumSet::is_valid`: at least `threshold` members, none missing, inner sets valid. -/
def isValid : QuorumSet ID → Bool
  | mk threshold members => threshold.toNat ≤ members.length && membersValid members
end

mutual
def membersNodes : List (Option (QuorumSetMember ID)) → List ID
  | [] => []
  | none :: rest => membersNodes rest
  | some (.node id) :: rest => id :: membersNodes rest
  | some (.innerSet qs) :: rest => nodesList qs ++ membersNodes rest
def nodesList : QuorumSet ID → List ID
  | mk _ members => membersNodes members
end

/-- `QuorumSet::nodes`: every node of the set and its inner sets, once each, in member order
(the order in which the `HashSet` is iterated is not modelled). -/
def nodes [DecidableEq ID] (qs : QuorumSet ID) : List ID := qs.nodesList.eraseDups

section Weight

variable [DecidableEq ID] (nodeId : ID)

mutual
def membersWeight (threshold length : UInt32) : List (Option (QuorumSetMember ID)) → UInt32 × UInt32
  | [] => (0, 1)
  | none :: rest => membersWeight threshold length rest
  | some (.node id) :: rest =>
    if id = nodeId then (threshold, length) else membersWeight threshold length rest
  | some (.innerSet qs) :: rest =>
    let (num2, denom2) := weight qs
    if 0 < num2 then (threshold * num2, length * denom2)
    else membersWeight threshold length rest
/-- `QuorumSetExt::weight`: the fraction of the quorum slices that contain `nodeId`, from the
first member that holds it; `u32` arithmetic wraps, as in release builds. -/
def weight : QuorumSet ID → UInt32 × UInt32
  | mk threshold members => membersWeight threshold (UInt32.ofNat members.length) members
end

end Weight

/-! ### The searches -/

section Search

variable {M σ ε : Type} [DecidableEq ID] (msgs : List (ID × M))
  (test : σ → M → Except ε (Option σ))

/-- `pred.test(msg)` for the node's latest message, if there is one. -/
def testNode (pred : σ) (n : ID) : Except ε (Option σ) :=
  match msgs.lookup n with
  | some msg => test pred msg
  | none => pure none

mutual
/-- `findBlockingSetHelper`: `needed` more members of `members` satisfy the predicate, taking
each member that does in turn. -/
def findBlockingSetHelper (needed : UInt32) (members : List (Option (QuorumSetMember ID)))
    (pred : σ) (nodesSoFar : List ID) : Except ε (List ID × σ) :=
  if needed = 0 then pure (nodesSoFar, pred)
  else if members.length < needed.toNat then pure ([], pred)
  else match members with
    | [] => pure ([], pred)
    | some (.node n) :: rest => do
      match ← testNode msgs test pred n with
      | some nextPred => findBlockingSetHelper (needed - 1) rest nextPred (nodesSoFar.insert n)
      | none => findBlockingSetHelper needed rest pred nodesSoFar
    | some (.innerSet qs) :: rest => do
      let (nodesSoFar2, pred2) ← findBlockingSetFrom qs pred nodesSoFar
      if nodesSoFar2.isEmpty then findBlockingSetHelper needed rest pred nodesSoFar
      else findBlockingSetHelper (needed - 1) rest pred2 nodesSoFar2
    | none :: rest => findBlockingSetHelper needed rest pred nodesSoFar
/-- A blocking set of `qs`: more than `members - threshold` of its members. -/
def findBlockingSetFrom : QuorumSet ID → σ → List ID → Except ε (List ID × σ)
  | mk threshold members, pred, nodesSoFar =>
    findBlockingSetHelper (UInt32.ofNat members.length - threshold + 1) members pred nodesSoFar
end

/-- `QuorumSetExt::findBlockingSet`: the nodes of a blocking set whose messages satisfy the
predicate, and the predicate narrowed by them; no nodes when there is no such set. -/
def findBlockingSet (qs : QuorumSet ID) (pred : σ) : Except ε (List ID × σ) :=
  findBlockingSetFrom msgs test qs pred []

variable (quorumSetOf : M → QuorumSet ID)
  (descend : QuorumSet ID → σ → List ID → Except ε (List ID × σ))

mutual
/-- `findQuorumHelper`, with the search in the quorum set of a node that passes the predicate
left to `descend`. -/
def findQuorumHelperWith (threshold : UInt32) (members : List (Option (QuorumSetMember ID)))
    (pred : σ) (nodesSoFar : List ID) : Except ε (List ID × σ) :=
  if threshold = 0 then pure (nodesSoFar, pred)
  else if members.length < threshold.toNat then pure ([], pred)
  else match members with
    | [] => pure ([], pred)
    | some (.node n) :: rest =>
      if n ∈ nodesSoFar then findQuorumHelperWith (threshold - 1) rest pred nodesSoFar
      else do
        -- the node's own slices must be satisfied, by the narrowed predicate
        let found ← match msgs.lookup n with
          | some msg => do
            match ← test pred msg with
            | some nextPred => some <$> descend (quorumSetOf msg) nextPred (nodesSoFar.insert n)
            | none => pure none
          | none => pure none
        match found with
        | some (nodesSoFar2, pred2) =>
          if nodesSoFar2.isEmpty then findQuorumHelperWith threshold rest pred nodesSoFar
          else findQuorumHelperWith (threshold - 1) rest pred2 nodesSoFar2
        | none => findQuorumHelperWith threshold rest pred nodesSoFar
    | some (.innerSet qs) :: rest => do
      let (nodesSoFar2, pred2) ← findQuorumFromWith qs pred nodesSoFar
      if nodesSoFar2.isEmpty then findQuorumHelperWith threshold rest pred nodesSoFar
      else findQuorumHelperWith (threshold - 1) rest pred2 nodesSoFar2
    | none :: rest => findQuorumHelperWith threshold rest pred nodesSoFar
def findQuorumFromWith : QuorumSet ID → σ → List ID → Except ε (List ID × σ)
  | mk threshold members, pred, nodesSoFar =>
    findQuorumHelperWith threshold members pred nodesSoFar
end

/-- The search for a quorum of `qs`, nesting at most `depth` searches in the quorum sets of
other nodes. Each nested search is for a node with a message that is not yet in the quorum, so
the number of messages bounds the nesting. -/
def findQuorumFrom : ℕ → QuorumSet ID → σ → List ID → Except ε (List ID × σ)
  | 0, _, pred, _ => pure ([], pred)
  | depth + 1, qs, pred, nodesSoFar =>
    findQuorumFromWith msgs test quorumSetOf (findQuorumFrom depth) qs pred nodesSoFar

/-- `QuorumSetExt::findQuorum`: the nodes of a quorum containing `nodeId`, every other member
of which satisfies the predicate, and the predicate narrowed by them; no nodes when there is no
such quorum. -/
def findQuorum (qs : QuorumSet ID) (nodeId : ID) (pred : σ) : Except ε (List ID × σ) :=
  findQuorumFrom msgs test quorumSetOf (msgs.length + 1) qs pred [nodeId]

end Search

end QuorumSet

end MobileCoin.Scp
