import MobileCoin.Scp.SlotCalls

/-!
# Runs of a slot

Over any sequence of calls a node makes on a slot: the phase never goes back, the value of `B`
is fixed from the Commit phase on, and once the slot has externalized, `B` and `C` stay and `H`
only rises. What it then sends are Externalize messages for its `C`, each higher, in the order
`handle_messages` compares a node's messages by, than the one before, so that no other node
drops one as stale.
-/

namespace MobileCoin.Scp

namespace Slot

variable {ID V : Type} [DecidableEq ID] [LinearOrder V] {fns : Fns ID V}
variable {s s' : Slot ID V}

/-! ### The ballots advance -/

theorem step_advances {i : Input ID V} {out : List (Msg ID V)}
    (stepped : step fns s i = .ok (s', out)) : Advances s s' := by
  obtain ⟨t, internal, sends⟩ := step_sends stepped
  rcases sends.spec with ⟨rfl, -⟩ | ⟨topic, -, -, -, rfl⟩
  · exact internal.advances
  · -- `out_msg` records the message sent and changes nothing else
    exact internal.advances.trans (Advances.of_eq rfl rfl rfl rfl)

theorem run_advances {inputs : List (Input ID V)} {msgs : List (Msg ID V)}
    (ran : run fns s inputs = .ok (s', msgs)) :
    s.phase ≤ s'.phase ∧ (Phase.commit ≤ s.phase → s'.B.X = s.B.X) ∧
      (s.phase = .externalize → s'.B = s.B ∧ s'.C = s.C ∧ HGrows s.H s'.H) := by
  have advances : Advances s s' :=
    runSteps_keeps Advances.refl (fun first second => first.trans second) step_advances ran
  exact ⟨advances.phase_le, advances.value_eq, advances.decided⟩

/-- A fresh slot of node 1 proposes the value 7: it votes for it and sends a Nominate. -/
theorem run_advances_propose :
    let fns : Fns ℕ ℕ := ⟨fun _ => .ok (), fun values => .ok values, fun _ _ _ _ => 0⟩
    let quorumSet : QuorumSet ℕ := QuorumSet.newWithNodeIds 1 [2]
    let s₀ : Slot ℕ ℕ :=
      { slotIndex := 0, nodeId := 1, quorumSet, M := [], W := [], X := [], Y := [], Z := [],
        B := Ballot.new 0 [], P := none, PP := none, C := none, H := none,
        phase := .nominatePrepare, lastSentMsg := none, maxPriorityPeers := [1], nominateRound := 1,
        nextNominateRoundAt := none, nextBallotAt := none, validValues := [],
        baseRoundInterval := 1000, baseBallotInterval := 1000 }
    let m : Msg ℕ ℕ := Msg.new 1 quorumSet 0 (.nominate (NominatePayload.new [7] []))
    let s : Slot ℕ ℕ := { s₀ with
      W := [7], X := [7], nextNominateRoundAt := some 1000, validValues := [7], lastSentMsg := some m }
    run fns s₀ [.proposeValues 0 [7]] = .ok (s, [m]) ∧
      (s₀.phase ≤ s.phase ∧ (Phase.commit ≤ s₀.phase → s.B.X = s₀.B.X) ∧
        (s₀.phase = .externalize → s.B = s₀.B ∧ s.C = s₀.C ∧ HGrows s₀.H s.H)) := by
  intro fns quorumSet s₀ m s
  have ran : run fns s₀ [.proposeValues 0 [7]] = .ok (s, [m]) := by decide +kernel
  exact ⟨ran, run_advances ran⟩

/-! ### After externalizing -/

omit [DecidableEq ID] in
theorem outTopic_externalize (externalized : s.phase = .externalize) {topic : Topic V}
    (found : s.outTopic = .ok (some topic)) :
    ∃ c h, s.C = some c ∧ s.H = some h ∧ topic = .externalize ⟨c, h.N⟩ := by
  unfold outTopic at found
  simp only [externalized] at found
  obtain ⟨c, foundC, found⟩ := bind_ok found
  obtain ⟨h, foundH, found⟩ := bind_ok found
  cases found
  exact ⟨c, h, okOr_eq_ok.mp foundC, okOr_eq_ok.mp foundH, rfl⟩

/-- A call on a slot that has externalized keeps its node and advances its ballots, and sends
nothing or the Externalize for its `C` and `H` as they end, which it had not sent last. -/
theorem step_externalized (externalized : s.phase = .externalize) {i : Input ID V}
    {out : List (Msg ID V)} (stepped : step fns s i = .ok (s', out)) :
    Advances s s' ∧ s'.slotIndex = s.slotIndex ∧ s'.nodeId = s.nodeId ∧
      s'.quorumSet = s.quorumSet ∧
      ((out = [] ∧ s'.lastSentMsg = s.lastSentMsg) ∨
        ∃ c h, s'.C = some c ∧ s'.H = some h ∧
          out = [Msg.new s.nodeId s.quorumSet s.slotIndex (.externalize ⟨c, h.N⟩)] ∧
          s'.lastSentMsg = out.head? ∧ s.lastSentMsg ≠ out.head?) := by
  obtain ⟨t, internal, sends⟩ := step_sends stepped
  have inPhase : t.phase = .externalize :=
    Phase.eq_externalize_of_le (externalized ▸ internal.advances.phase_le)
  rcases sends.spec with ⟨rfl, rfl⟩ | ⟨topic, found, fresh, rfl, rfl⟩
  · exact ⟨internal.advances, internal.slotIndex_eq, internal.nodeId_eq, internal.quorumSet_eq,
      Or.inl ⟨rfl, internal.lastSentMsg_eq⟩⟩
  obtain ⟨c, h, foundC, foundH, rfl⟩ := outTopic_externalize inPhase found
  refine ⟨internal.advances.trans (Advances.of_eq rfl rfl rfl rfl), internal.slotIndex_eq,
    internal.nodeId_eq, internal.quorumSet_eq, Or.inr ⟨c, h, foundC, foundH, ?_, rfl, ?_⟩⟩
  · rw [internal.nodeId_eq, internal.quorumSet_eq, internal.slotIndex_eq]
  · rw [← internal.lastSentMsg_eq]
    exact fresh

/-- A message that may come before the next one of a slot that has externalized: a message of
an earlier phase, or an Externalize of this slot for its `C` at a counter no higher than its
`H`'s. -/
def Below (s : Slot ID V) (p : Msg ID V) : Prop :=
  (∀ e, p.topic ≠ .externalize e) ∨
    ∃ c h hn, s.C = some c ∧ s.H = some h ∧ hn ≤ h.N ∧
      p = Msg.new s.nodeId s.quorumSet s.slotIndex (.externalize ⟨c, hn⟩)

/-- The states a run from the externalized slot `s` passes: still externalized, with the same
`C` and node. -/
def ExternalizedFrom (s t : Slot ID V) : Prop :=
  t.phase = .externalize ∧ t.C = s.C ∧ t.slotIndex = s.slotIndex ∧ t.nodeId = s.nodeId ∧
    t.quorumSet = s.quorumSet

omit [DecidableEq ID] in
theorem Topic.cmp_externalize_of_earlier (e : ExternalizePayload V) {q : Topic V}
    (earlier : ∀ e', q ≠ .externalize e') : (Topic.externalize e).cmp q = .gt := by
  cases q with
  | externalize e' => exact absurd rfl (earlier e')
  | _ => rfl

omit [DecidableEq ID] in
theorem Topic.cmp_externalize_externalize {c c' : Ballot V} {hn hn' : UInt32} :
    (Topic.externalize ⟨c', hn'⟩).cmp (.externalize ⟨c, hn⟩) = .gt ↔ hn < hn' :=
  Std.compare_eq_gt

variable {t t' : Slot ID V}

theorem step_externalized_above (externalized : t.phase = .externalize) {i : Input ID V}
    {out : List (Msg ID V)} (stepped : step fns t i = .ok (t', out)) {p : Msg ID V}
    (last : t.lastSentMsg = some p) (below : Below t p) :
    ∀ o ∈ out.head?, o.topic.cmp p.topic = .gt := by
  obtain ⟨advances, -, -, -, ⟨rfl, -⟩ | ⟨c, h', foundC, foundH, rfl, -, fresh⟩⟩ :=
    step_externalized externalized stepped
  · exact nofun
  intro o sent
  cases Option.mem_def.mp sent
  rcases below with earlier | ⟨c₀, h, hn, foundC₀, foundH₀, le, rfl⟩
  · exact Topic.cmp_externalize_of_earlier _ earlier
  obtain ⟨-, sameC, grows⟩ := advances.decided externalized
  have sameValue : c = c₀ := Option.some.inj (foundC.symm.trans (sameC.trans foundC₀))
  subst sameValue
  rw [foundH₀, foundH] at grows
  -- the counter of `H` never falls, and the message is not the one sent last
  have higher : hn ≠ h'.N := by
    rintro rfl
    exact fresh last
  refine Topic.cmp_externalize_externalize.mpr (UInt32.lt_iff_toNat_lt.mpr ?_)
  have atMost := UInt32.le_iff_toNat_le.mp (UInt32.le_trans le grows.2)
  have differs : hn.toNat ≠ h'.N.toNat := fun same => higher (UInt32.toNat_inj.mp same)
  omega

theorem step_externalized_below (externalized : t.phase = .externalize) {i : Input ID V}
    {out : List (Msg ID V)} (stepped : step fns t i = .ok (t', out)) (p : Msg ID V)
    (last : out.getLast? = some p ∨ out = [] ∧ t.lastSentMsg = some p ∧ Below t p) :
    t'.lastSentMsg = some p ∧ Below t' p := by
  obtain ⟨advances, sameIndex, sameNode, sameQuorumSet, ⟨rfl, sameLast⟩ | ⟨c, h', foundC, foundH,
    rfl, recorded, -⟩⟩ := step_externalized externalized stepped
  · obtain ⟨-, sent, below⟩ := last.resolve_left nofun
    refine ⟨sameLast.trans sent, ?_⟩
    rcases below with earlier | ⟨c, h, hn, foundC, foundH, le, rfl⟩
    · exact Or.inl earlier
    -- `C` stays and `H` only rises
    obtain ⟨-, sameC, grows⟩ := advances.decided externalized
    rw [foundH] at grows
    obtain ⟨h', foundH', -, rises⟩ : ∃ h', t'.H = some h' ∧ h'.X = h.X ∧ h.N ≤ h'.N := by
      cases foundH' : t'.H with
      | none => rw [foundH'] at grows; exact grows.elim
      | some h' => rw [foundH'] at grows; exact ⟨h', rfl, grows⟩
    refine Or.inr ⟨c, h', hn, sameC.trans foundC, foundH', UInt32.le_trans le rises, ?_⟩
    rw [sameIndex, sameNode, sameQuorumSet]
  · have sent : p = Msg.new t.nodeId t.quorumSet t.slotIndex (.externalize ⟨c, h'.N⟩) := by
      rcases last with last | ⟨empty, -⟩
      · exact (Option.some.inj last).symm
      · cases empty
    subst sent
    refine ⟨recorded, Or.inr ⟨c, h', h'.N, foundC, foundH, UInt32.le_refl _, ?_⟩⟩
    rw [sameIndex, sameNode, sameQuorumSet]

theorem ExternalizedFrom.step (stays : ExternalizedFrom s t) {i : Input ID V}
    {out : List (Msg ID V)} (stepped : step fns t i = .ok (t', out)) : ExternalizedFrom s t' := by
  obtain ⟨externalized, sameC, sameIndex, sameNode, sameQuorumSet⟩ := stays
  obtain ⟨advances, sameIndex', sameNode', sameQuorumSet', -⟩ :=
    step_externalized externalized stepped
  exact ⟨Phase.eq_externalize_of_le (externalized ▸ advances.phase_le),
    (advances.decided externalized).2.1.trans sameC, sameIndex'.trans sameIndex,
    sameNode'.trans sameNode, sameQuorumSet'.trans sameQuorumSet⟩

/-- What a slot sends after externalizing: Externalize messages for its `C`, each higher than the
one before, and the first higher than the last one sent, when that is of an earlier phase or an
Externalize no higher than `H`. -/
theorem run_externalized_sends (externalized : s.phase = .externalize)
    {inputs : List (Input ID V)} {msgs : List (Msg ID V)}
    (ran : run fns s inputs = .ok (s', msgs)) :
    (∀ m ∈ msgs, ∃ c hn, s.C = some c ∧
      m = Msg.new s.nodeId s.quorumSet s.slotIndex (.externalize ⟨c, hn⟩)) ∧
    msgs.IsChain (fun m m' => m'.topic.cmp m.topic = .gt) ∧
    ∀ p, s.lastSentMsg = some p → Below s p → ∀ m ∈ msgs.head?, m.topic.cmp p.topic = .gt := by
  have start : ExternalizedFrom s s := ⟨externalized, rfl, rfl, rfl, rfl⟩
  have keeps : ∀ {t i t' out}, ExternalizedFrom s t → step fns t i = .ok (t', out) →
      ExternalizedFrom s t' := fun stays stepped => stays.step stepped
  -- each message is the Externalize of the state the call ends in
  have forms : ∀ {t i t' out}, ExternalizedFrom s t → step fns t i = .ok (t', out) →
      ∀ m ∈ out, ∃ c hn, s.C = some c ∧
        m = Msg.new s.nodeId s.quorumSet s.slotIndex (.externalize ⟨c, hn⟩) := by
    intro t i t' out stays stepped m sent
    obtain ⟨externalized, sameC, sameIndex, sameNode, sameQuorumSet⟩ := stays
    obtain ⟨advances, -, -, -, ⟨rfl, -⟩ | ⟨c, h', foundC, -, rfl, -, -⟩⟩ :=
      step_externalized externalized stepped
    · exact absurd sent List.not_mem_nil
    rw [List.mem_singleton.mp sent, sameIndex, sameNode, sameQuorumSet]
    exact ⟨c, h'.N, sameC ▸ (advances.decided externalized).2.1 ▸ foundC, rfl⟩
  have ascends : ∀ {t i t' out}, ExternalizedFrom s t → step fns t i = .ok (t', out) →
      out.IsChain (fun m m' => m'.topic.cmp m.topic = .gt) ∧
        ∀ p, (t.lastSentMsg = some p ∧ Below t p) → ∀ o ∈ out.head?, o.topic.cmp p.topic = .gt := by
    intro t i t' out stays stepped
    refine ⟨?_, fun p ⟨last, below⟩ => step_externalized_above stays.1 stepped last below⟩
    obtain ⟨-, -, -, -, ⟨rfl, -⟩ | ⟨c, h', -, -, rfl, -, -⟩⟩ := step_externalized stays.1 stepped
    · exact List.isChain_nil
    · exact List.isChain_singleton _
  obtain ⟨chain, first⟩ := runSteps_isChain keeps ascends
    (fun stays stepped => step_externalized_below stays.1 stepped) start ran
  exact ⟨runSteps_outputs_of_invariant keeps forms start ran, chain,
    fun p last below => first p ⟨last, below⟩⟩

/-- An externalized slot of node 1 that last sent a Commit: its ballot timer fires, and it sends
the Externalize of its `C`, above the Commit. -/
theorem run_externalized_sends_timeout :
    let fns : Fns ℕ ℕ := ⟨fun _ => .ok (), fun values => .ok values, fun _ _ _ _ => 0⟩
    let quorumSet : QuorumSet ℕ := QuorumSet.newWithNodeIds 1 [2]
    let p : Msg ℕ ℕ := Msg.new 1 quorumSet 0 (.commit ⟨⟨1, [7]⟩, 1, 1, 1⟩)
    let s : Slot ℕ ℕ :=
      { slotIndex := 0, nodeId := 1, quorumSet, M := [], W := [], X := [], Y := [], Z := [],
        B := ⟨1, [7]⟩, P := some ⟨1, [7]⟩, PP := none, H := some ⟨1, [7]⟩, C := some ⟨1, [7]⟩,
        phase := .externalize, lastSentMsg := some p, maxPriorityPeers := [], nominateRound := 1,
        nextNominateRoundAt := none, nextBallotAt := some 0, validValues := [],
        baseRoundInterval := 1000, baseBallotInterval := 1000 }
    let m : Msg ℕ ℕ := Msg.new 1 quorumSet 0 (.externalize ⟨⟨1, [7]⟩, 1⟩)
    s.phase = .externalize ∧
      run fns s [.processTimeouts 5] =
        .ok ({ s with nextBallotAt := none, lastSentMsg := some m }, [m]) ∧
      (∀ m' ∈ [m], ∃ c hn, s.C = some c ∧
        m' = Msg.new s.nodeId s.quorumSet s.slotIndex (.externalize ⟨c, hn⟩)) ∧
      [m].IsChain (fun m m' => m'.topic.cmp m.topic = .gt) ∧ m.topic.cmp p.topic = .gt := by
  intro fns quorumSet p s m
  have ran : run fns s [.processTimeouts 5] =
      .ok ({ s with nextBallotAt := none, lastSentMsg := some m }, [m]) := by rfl
  obtain ⟨forms, chain, first⟩ := run_externalized_sends rfl ran
  -- the Commit sent last is of an earlier phase
  exact ⟨rfl, ran, forms, chain, first p rfl (.inl fun _ same => by cases same) m rfl⟩

/-! ### The votes of the nomination -/

theorem step_consistent (consistent : VotesConsistent s) {i : Input ID V} {out : List (Msg ID V)}
    (stepped : step fns s i = .ok (s', out)) : VotesConsistent s' := by
  obtain ⟨t, internal, sends⟩ := step_sends stepped
  rcases sends.spec with ⟨rfl, -⟩ | ⟨topic, -, -, -, rfl⟩
  · exact internal.consistent consistent
  · exact (internal.consistent consistent).of_eq rfl rfl rfl

omit [LinearOrder V] in
theorem new_consistent {nodeId : ID} {quorumSet : QuorumSet ID} {slotIndex : UInt64}
    (created : Slot.new fns nodeId quorumSet slotIndex = .ok s) : VotesConsistent s := by
  unfold Slot.new at created
  obtain ⟨leader, -, created⟩ := bind_ok created
  cases created
  exact ⟨List.nodup_nil, nofun, List.Subset.refl _⟩

theorem reachable_consistent {nodeId : ID} {quorumSet : QuorumSet ID} {slotIndex : UInt64}
    {s₀ : Slot ID V} {inputs : List (Input ID V)} {msgs : List (Msg ID V)}
    (created : Slot.new fns nodeId quorumSet slotIndex = .ok s₀)
    (ran : run fns s₀ inputs = .ok (s, msgs)) : VotesConsistent s :=
  runSteps_invariant (fun consistent stepped => step_consistent consistent stepped)
    (new_consistent created) ran

/-- In every slot a run from `Slot::new` reaches, `X` has no repeated value and none that `Y`
accepts, and `Z` is within `Y`. -/
theorem run_votes_consistent {nodeId : ID} {quorumSet : QuorumSet ID} {slotIndex : UInt64}
    {s₀ : Slot ID V} {inputs : List (Input ID V)} {msgs : List (Msg ID V)}
    (created : Slot.new fns nodeId quorumSet slotIndex = .ok s₀)
    (ran : run fns s₀ inputs = .ok (s, msgs)) :
    s.X.Nodup ∧ (∀ v ∈ s.X, v ∉ s.Y) ∧ s.Z ⊆ s.Y := by
  obtain ⟨nodup, disjoint, confirmed⟩ := reachable_consistent created ran
  exact ⟨nodup, disjoint, confirmed⟩

/-- A fresh slot of node 1 proposes the value 7 and votes for it. -/
theorem run_votes_consistent_propose :
    let fns : Fns ℕ ℕ := ⟨fun _ => .ok (), fun values => .ok values, fun _ _ _ _ => 0⟩
    let quorumSet : QuorumSet ℕ := QuorumSet.newWithNodeIds 1 [2]
    let s₀ : Slot ℕ ℕ :=
      { slotIndex := 0, nodeId := 1, quorumSet, M := [], W := [], X := [], Y := [], Z := [],
        B := Ballot.new 0 [], P := none, PP := none, C := none, H := none,
        phase := .nominatePrepare, lastSentMsg := none, maxPriorityPeers := [1], nominateRound := 1,
        nextNominateRoundAt := none, nextBallotAt := none, validValues := [],
        baseRoundInterval := 1000, baseBallotInterval := 1000 }
    let m : Msg ℕ ℕ := Msg.new 1 quorumSet 0 (.nominate (NominatePayload.new [7] []))
    let s : Slot ℕ ℕ := { s₀ with
      W := [7], X := [7], nextNominateRoundAt := some 1000, validValues := [7], lastSentMsg := some m }
    Slot.new fns 1 quorumSet 0 = .ok s₀ ∧ run fns s₀ [.proposeValues 0 [7]] = .ok (s, [m]) ∧
      (s.X.Nodup ∧ (∀ v ∈ s.X, v ∉ s.Y) ∧ s.Z ⊆ s.Y) := by
  intro fns quorumSet s₀ m s
  have created : Slot.new fns 1 quorumSet 0 = .ok s₀ := by decide +kernel
  have ran : run fns s₀ [.proposeValues 0 [7]] = .ok (s, [m]) := by decide +kernel
  exact ⟨created, ran, run_votes_consistent created ran⟩

/-- In every slot a run from `Slot::new` reaches, `do_nominate_phase` does not panic while the
slot nominates: neither assertion that `X` and `Y` are disjoint fails, nor any federated vote. -/
theorem run_doNominatePhase_ok {nodeId : ID} {quorumSet : QuorumSet ID} {slotIndex : UInt64}
    {s₀ : Slot ID V} {inputs : List (Input ID V)} {msgs : List (Msg ID V)}
    (created : Slot.new fns nodeId quorumSet slotIndex = .ok s₀)
    (ran : run fns s₀ inputs = .ok (s, msgs)) (nominating : s.phase = .nominatePrepare)
    (now : ℕ) : ∃ s', s.doNominatePhase fns now = .ok s' := by
  obtain ⟨s', nominated, -⟩ : ∃ s', s.doNominatePhase fns now = .ok s' ∧ VotesConsistent s' :=
    doNominatePhase_total nominating (reachable_consistent created ran)
  exact ⟨s', nominated⟩

/-- The slot that has proposed 7 nominates again at time 2000. -/
theorem run_doNominatePhase_ok_propose :
    let fns : Fns ℕ ℕ := ⟨fun _ => .ok (), fun values => .ok values, fun _ _ _ _ => 0⟩
    let quorumSet : QuorumSet ℕ := QuorumSet.newWithNodeIds 1 [2]
    let s₀ : Slot ℕ ℕ :=
      { slotIndex := 0, nodeId := 1, quorumSet, M := [], W := [], X := [], Y := [], Z := [],
        B := Ballot.new 0 [], P := none, PP := none, C := none, H := none,
        phase := .nominatePrepare, lastSentMsg := none, maxPriorityPeers := [1], nominateRound := 1,
        nextNominateRoundAt := none, nextBallotAt := none, validValues := [],
        baseRoundInterval := 1000, baseBallotInterval := 1000 }
    let m : Msg ℕ ℕ := Msg.new 1 quorumSet 0 (.nominate (NominatePayload.new [7] []))
    let s : Slot ℕ ℕ := { s₀ with
      W := [7], X := [7], nextNominateRoundAt := some 1000, validValues := [7], lastSentMsg := some m }
    Slot.new fns 1 quorumSet 0 = .ok s₀ ∧ run fns s₀ [.proposeValues 0 [7]] = .ok (s, [m]) ∧
      s.phase = .nominatePrepare ∧ ∃ s', s.doNominatePhase fns 2000 = .ok s' := by
  intro fns quorumSet s₀ m s
  have created : Slot.new fns 1 quorumSet 0 = .ok s₀ := by decide +kernel
  have ran : run fns s₀ [.proposeValues 0 [7]] = .ok (s, [m]) := by decide +kernel
  exact ⟨created, ran, rfl, run_doNominatePhase_ok created ran rfl 2000⟩

end Slot

end MobileCoin.Scp
