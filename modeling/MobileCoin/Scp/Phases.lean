import MobileCoin.Scp.Slot

/-!
# The phases of a slot

`do_nominate_phase` and `update_YZ`, and the ballot protocol: the numbered steps of
`do_prepare_phase` (1 to 4, 8 and 9), `do_commit_phase` (5 to 9) and `do_externalize_phase`,
with the invariant checks each phase makes on entry and on exit. Steps (9) of both phases call
the phase again; Rust bounds that recursion by nothing but the stack, the model by `stackDepth`
nested calls.
-/

namespace MobileCoin.Scp

/-- Nested calls of a phase before the stack overflows: more than there are ballot counters,
so a recursion that raises `B.N` at each call never reaches it. -/
def stackDepth : ℕ := 2 ^ 32

namespace Slot

variable {ID V : Type} [DecidableEq ID] [LinearOrder V] (fns : Fns ID V)

/-! ### Nomination -/

def disjoint (a b : List V) : Bool := a.all (!b.contains ·)

/-- The values a node votes to nominate, skipping those it already accepts. -/
def voteNominated (s : Slot ID V) (X : List V) (values : List V) : List V :=
  values.foldl (fun X value => if s.Y.contains value then X else X.insert value) X

/-- The nomination votes of `do_nominate_phase` while nothing is confirmed nominated: the
node's own proposals when it is a leader, and what the leaders vote or accept. -/
def voteNominate (s : Slot ID V) : Except Panic (Slot ID V) := do
  let nominatePayloads := s.M.filterMap fun (nodeId, msg) =>
    if nodeId = s.nodeId then none
    else match msg.topic with
      | .nominate payload | .nominatePrepare payload _ => some (nodeId, payload)
      | _ => none
  let X := if s.nodeId ∈ s.maxPriorityPeers then s.voteNominated s.X s.W else s.X
  let X := nominatePayloads.foldl (fun X (nodeId, payload) =>
    if nodeId ∈ s.maxPriorityPeers then s.voteNominated X (payload.X ++ payload.Y) else X) X
  if !disjoint X s.Y then throw .xyDisjoint
  pure { s with X }

/-- `Slot::update_YZ`: accepted nominated values move from `X` to `Y`, confirmed ones join `Z`. -/
def updateYZ (s : Slot ID V) : Except Panic (Slot ID V) := do
  let accepted ← s.additionalValuesAcceptedNominated
  let s := accepted.foldl (fun s value => { s with X := s.X.erase value, Y := s.Y.insert value }) s
  if !disjoint s.X s.Y then throw .xyDisjoint
  let confirmed ← s.additionalValuesConfirmedNominated
  pure { s with Z := s.Z ∪ confirmed }

def doNominatePhase (now : ℕ) (s : Slot ID V) : Except Panic (Slot ID V) := do
  if s.phase ≠ .nominatePrepare then throw .phaseNominatePrepare
  let s := s.scheduleNextNominationRound now
  let s ← if s.Z.isEmpty then s.voteNominate else pure s
  let s ← s.updateYZ
  if !s.Z.isEmpty && s.B.isZero then
    match fns.combineFn s.Z with
    | .ok values => pure { s with B := Ballot.new 1 values }
    | .error _ => pure s
  else pure s

/-! ### Prepare -/

/-- `p` is greater than and incompatible with `c`; never when there is no `p`. -/
def aborts (p : Option (Ballot V)) (c : Ballot V) : Bool :=
  match p with
  | some p => decide (c < p) && p.X != c.X
  | none => false

def checkPreparedPrime (s : Slot ID V) : Except Panic Unit :=
  match s.P, s.PP with
  | some P, some PP => do
    if ¬ PP < P then throw .ppLtP
    if PP.X = P.X then throw .ppXNeP
  | _, _ => pure ()

def checkCommitBelowHigh (s : Slot ID V) : Except Panic Unit :=
  match s.C, s.H with
  | some C, some H => if C.N ≤ H.N then pure () else throw .cNLeHN
  | _, _ => pure ()

def checkPreparePhaseInvariants (s : Slot ID V) : Except Panic Unit := do
  if ¬ (s.phase = .nominatePrepare ∨ s.phase = .prepare) then throw .preparePhase
  s.checkPreparedPrime
  match s.C with
  | some C =>
    match s.H with
    | some H => do
      if ¬ C.N ≤ H.N then throw .cNLeHN
      if C.X ≠ H.X then throw .cXEqHX
    | none => throw .cWithoutH
  | none => pure ()

/-- Step (1) once `P` is `newP`: `PP` is the highest accepted prepared ballot below `P` with
another value. -/
def withPrepared (acceptedPrepared : List (Ballot V)) (s : Slot ID V) (newP : Ballot V) :
    Slot ID V :=
  { s with
    P := some newP
    PP := (acceptedPrepared.filter fun ballot => decide (ballot < newP) && ballot.X != newP.X).max? }

/-- Step (1): `P` becomes the highest accepted prepared ballot; `none` when that would lower `P`,
on which `do_prepare_phase` returns. -/
def updatePrepared (acceptedPrepared : List (Ballot V)) (s : Slot ID V) : Option (Slot ID V) :=
  match acceptedPrepared.max? with
  | none => some s
  | some newP =>
    match s.P with
    | some currentP => if currentP ≤ newP then some (s.withPrepared acceptedPrepared newP) else none
    | none => some (s.withPrepared acceptedPrepared newP)

/-- `C` is cleared when `P` or `PP` aborts it. -/
def clearAbortedCommit (s : Slot ID V) : Slot ID V :=
  match s.C with
  | some c => if aborts s.P c || aborts s.PP c then { s with C := none } else s
  | none => s

/-- Step (2): with `h` the highest confirmed prepared ballot, the nomination ends and `H`
becomes `h` unless that would lower it. -/
def updateConfirmedPrepared (confirmedPrepared : Option (Ballot V)) (s : Slot ID V) : Slot ID V :=
  match confirmedPrepared with
  | none => s
  | some h =>
    let s := if s.phase = .nominatePrepare then { s.cancelNextNominationRound with phase := .prepare }
      else s
    match s.H with
    | some currentH => { s with H := some (Max.max h currentH) }
    | none => { s with H := some h }

/-- The counter of `c` raised so that `p` no longer aborts it. -/
def raiseAbove (p : Option (Ballot V)) (c : Ballot V) : Ballot V :=
  match p with
  | some p =>
    if aborts (some p) c then
      if compare c.X p.X = .gt then { c with N := p.N } else { c with N := p.N + 1 }
    else c
  | none => c

/-- Step (3): with no `C`, vote to commit the lowest ballot with the value of `H` from `B` on
that `P` and `PP` do not abort. -/
def voteCommit (s : Slot ID V) : Except Panic (Slot ID V) :=
  match s.C, s.H with
  | none, some h =>
    if s.B ≤ h && !aborts s.P h && !aborts s.PP h then do
      let c := if compare h.X s.B.X ≠ .lt then Ballot.new s.B.N h.X
        else Ballot.new (s.B.N + 1) h.X
      let c := raiseAbove s.PP (raiseAbove s.P c)
      if ¬ s.B ≤ c then throw .bLeC
      if c.X ≠ h.X then throw .cXEqHX
      if ¬ c.N ≤ h.N then throw .cNLeHN
      pure { s with C := some c }
    else pure s
  | _, _ => pure s

/-- The lowest accepted committed ballot. -/
def lowestAcceptedCommitted (acceptCommits : List (List V × UInt32 × UInt32)) : Option (Ballot V) :=
  (acceptCommits.map fun (values, a, _) => Ballot.new a values).min?

/-- `B` moved to the value of `h`, at least at `h`'s counter and above `B`'s when the value
changes (steps (4) and (8)). -/
def raiseBallotTo (B h : Ballot V) : Ballot V :=
  if B.X ≠ h.X then Ballot.new (Max.max (B.N + 1) h.N) h.X else Ballot.new (Max.max B.N h.N) h.X

/-- Step (4) with `c` the lowest accepted committed ballot: the node enters the Commit phase
with `C` and `H` the lowest and highest accepted committed ballots of that value, `B` moved to
it and `P` the highest accepted prepared ballot of it. -/
def acceptCommit (acceptCommits : List (List V × UInt32 × UInt32)) (c : Ballot V)
    (s : Slot ID V) : Except Panic (Slot ID V) := do
  let h ← okOr ((acceptCommits.filter (·.1 = c.X)).map fun (values, _, max) =>
    Ballot.new max values).max? Panic.hMustExist
  if ¬ c.N ≤ h.N then throw .cNLeHN
  let s : Slot ID V := { s.cancelNextNominationRound with
    C := some c, H := some h, B := raiseBallotTo s.B h, phase := .commit }
  let acceptedPrepared : List (Ballot V) ← s.ballotsAcceptedPrepared
  let s := { s with P := (acceptedPrepared.filter fun ballot : Ballot V => ballot.X = s.B.X).max? }
  if s.P.isNone then throw Panic.pIsSome
  pure { s with PP := none }

/-- Step (8): `B` moved to `H`. -/
def raiseBallotToHigh (s : Slot ID V) : Slot ID V :=
  match s.H with
  | some h => { s with B := raiseBallotTo s.B h }
  | none => s

def doPreparePhase (now : ℕ) : ℕ → Slot ID V → Except Panic (Slot ID V)
  | 0, _ => throw .stackOverflow
  | depth + 1, s => do
    s.checkPreparePhaseInvariants
    let acceptedPrepared ← s.ballotsAcceptedPrepared
    let some s := s.updatePrepared acceptedPrepared | pure s
    s.checkPreparedPrime
    let s := s.clearAbortedCommit
    let confirmedPrepared ← s.ballotsConfirmedPrepared
    let s := s.updateConfirmedPrepared confirmedPrepared.max?
    s.checkCommitBelowHigh
    let s ← s.voteCommit
    s.checkCommitBelowHigh
    let acceptCommits ← s.ballotsAcceptedCommitted
    if let some c := lowestAcceptedCommitted acceptCommits then
      return ← s.acceptCommit acceptCommits c
    let s := s.raiseBallotToHigh
    -- (9): move past a blocking set on a higher counter, and prepare again
    let unblockingCounter ← s.getUnblockingBallotCounter
    let s ← if s.B.N < unblockingCounter then do
        match ← s.getNextBallotValues fns with
        | some x => do
          let s ← { s.cancelNextBallotTimer with B := Ballot.new unblockingCounter x }.maybeSetBallotTimer now
          doPreparePhase now depth s
        | none => pure s
      else pure s
    s.checkPreparePhaseInvariants
    pure s

/-! ### Commit and externalize -/

def checkCommitPhaseInvariants (s : Slot ID V) : Except Panic Unit := do
  if s.phase ≠ .commit then throw .commitPhase
  if s.B.isZero then throw .bNonZero
  match s.P with
  | some P => if P.X ≠ s.B.X then throw .pXEqBX
  | none => throw .pNone
  if s.PP.isSome then throw .ppNone
  match s.H with
  | some H => if H.X ≠ s.B.X then throw .hXEqBX
  | none => throw .hNone
  match s.C with
  | some C => if C.X ≠ s.B.X then throw .cXEqBX
  | none => throw .cNone

/-- Step (5): `P` becomes the highest accepted prepared ballot with the value of `B`, unless
that would lower it. -/
def updatePreparedOfValue (acceptedPrepared : List (Ballot V)) (s : Slot ID V) :
    Except Panic (Slot ID V) :=
  match (acceptedPrepared.filter fun ballot : Ballot V => ballot.X = s.B.X).max? with
  | some newP => do
    let currentP ← okOr s.P Panic.pUnwrap
    pure (if newP < currentP then s else { s with P := some newP })
  | none => pure s

/-- `C` and `H` set to the ends of a counter range, with the value of `B`. -/
def withCommitRange (s : Slot ID V) : UInt32 × UInt32 → Slot ID V
  | (cn, hn) => { s with C := some (Ballot.new cn s.B.X), H := some (Ballot.new hn s.B.X) }

def doCommitPhase : ℕ → Slot ID V → Except Panic (Slot ID V)
  | 0, _ => throw .stackOverflow
  | depth + 1, s => do
    s.checkCommitPhaseInvariants
    let s ← s.updatePreparedOfValue (← s.ballotsAcceptedPrepared)
    -- (6)
    let s := match (← s.ballotsAcceptedCommitted).lookup s.B.X with
      | some range => s.withCommitRange range
      | none => s
    -- (7)
    if let some range ← s.ballotsConfirmedCommitted then
      return { (s.withCommitRange range).cancelNextNominationRound.cancelNextBallotTimer with
        phase := .externalize }
    -- (8)
    let s := match s.H with
      | some h => if s.B.N < h.N then { s with B := { s.B with N := h.N } } else s
      | none => s
    -- (9)
    let unblockingCounter ← s.getUnblockingBallotCounter
    let s ← if s.B.N < unblockingCounter then
        doCommitPhase depth { s.cancelNextBallotTimer with B := { s.B with N := unblockingCounter } }
      else pure s
    s.checkCommitPhaseInvariants
    pure s

def checkExternalizePhaseInvariants (s : Slot ID V) : Except Panic Unit := do
  if s.phase ≠ .externalize then throw .externalizePhase
  if s.B.isZero then throw .bNonZero
  match s.H with
  | some H => if H.X ≠ s.B.X then throw .hXEqBX
  | none => throw .hNone
  match s.C with
  | some C => if C.X ≠ s.B.X then throw .cXEqBX
  | none => throw .cNone
  if s.PP.isSome then throw .ppNone

/-- `Slot::do_externalize_phase`: `H.N` follows the highest confirmed committed counter up. -/
def doExternalizePhase (s : Slot ID V) : Except Panic (Slot ID V) := do
  s.checkExternalizePhaseInvariants
  let s ← match ← s.ballotsConfirmedCommitted with
    | some (_, hn) => do
      let H ← okOr s.H Panic.hUnwrap
      pure (if H.N ≤ hn then { s with H := some { H with N := hn } } else s)
    | none => pure s
  s.checkExternalizePhaseInvariants
  pure s

/-- `Slot::do_ballot_protocol`: each phase in turn, since each may move to the next. -/
def doBallotProtocol (now : ℕ) (s : Slot ID V) : Except Panic (Slot ID V) := do
  let s ← s.maybeSetBallotTimer now
  let s ← if s.phase = .nominatePrepare ∨ s.phase = .prepare then doPreparePhase fns now stackDepth s
    else pure s
  let s ← if s.phase = .commit then doCommitPhase stackDepth s else pure s
  if s.phase = .externalize then s.doExternalizePhase else pure s

end Slot

end MobileCoin.Scp
