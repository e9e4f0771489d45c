import MobileCoin.Scp.SlotNomination

/-!
# Every call of a slot: internal changes, then at most one message

`process_timeouts`, `propose_values` and `handle_messages` change the slot's nomination, ballot
and message state and then may call `out_msg`, the only code that sends a message or records
one as sent. `Internal` says what the changes before it keep: the node the slot belongs to and
the last message sent, while the ballots advance. `step_sends` says that every call is such a
change followed by at most one `out_msg`.
-/

namespace MobileCoin.Scp

namespace Slot

variable {ID V : Type}

/-- `s'` is `s` with only the messages received, the values proposed and the values found valid
changed. -/
def MessageStep (s s' : Slot ID V) : Prop :=
  s' = { s with M := s'.M, W := s'.W, validValues := s'.validValues }

/-- What a call does before `out_msg`: the ballots advance, the slot's node and the last message
sent stay, and consistent votes stay consistent. -/
structure Internal (s s' : Slot ID V) : Prop where
  advances : Advances s s'
  lastSentMsg_eq : s'.lastSentMsg = s.lastSentMsg
  slotIndex_eq : s'.slotIndex = s.slotIndex
  nodeId_eq : s'.nodeId = s.nodeId
  quorumSet_eq : s'.quorumSet = s.quorumSet
  consistent : VotesConsistent s → VotesConsistent s'

variable {s s' s'' : Slot ID V}

theorem MessageStep.refl (s : Slot ID V) : MessageStep s s := rfl

theorem MessageStep.trans (first : MessageStep s s') (second : MessageStep s' s'') :
    MessageStep s s'' := by
  unfold MessageStep at *
  rw [first] at second
  exact second

theorem Internal.refl (s : Slot ID V) : Internal s s :=
  ⟨Advances.refl s, rfl, rfl, rfl, rfl, id⟩

theorem Internal.trans (first : Internal s s') (second : Internal s' s'') : Internal s s'' :=
  ⟨first.advances.trans second.advances, second.lastSentMsg_eq.trans first.lastSentMsg_eq,
    second.slotIndex_eq.trans first.slotIndex_eq, second.nodeId_eq.trans first.nodeId_eq,
    second.quorumSet_eq.trans first.quorumSet_eq, second.consistent ∘ first.consistent⟩

theorem Internal.of_ballotStep (step : BallotStep s s') (advances : Advances s s') :
    Internal s s' := by
  unfold BallotStep at step
  rw [step]
  exact ⟨step ▸ advances, rfl, rfl, rfl, rfl, fun consistent => consistent.of_eq rfl rfl rfl⟩

theorem Internal.of_nominationStep (step : NominationStep s s')
    (nominating : s.phase = .nominatePrepare) (keeps : VotesConsistent s → VotesConsistent s') :
    Internal s s' := by
  unfold NominationStep at step
  rw [step] at keeps ⊢
  exact ⟨Advances.of_early (nominating ▸ (by decide : Phase.nominatePrepare ≤ .prepare))
    (Phase.le_refl _), rfl, rfl, rfl, rfl, keeps⟩

theorem Internal.of_messageStep (step : MessageStep s s') : Internal s s' := by
  unfold MessageStep at step
  rw [step]
  exact ⟨Advances.of_eq rfl rfl rfl rfl, rfl, rfl, rfl, rfl, fun consistent =>
    consistent.of_eq rfl rfl rfl⟩

/-! ### Messages and values -/

section Messages

variable [DecidableEq ID] [LinearOrder V] {fns : Fns ID V}

omit [DecidableEq ID] in
theorem validate_step (s : Slot ID V) (value : V) : MessageStep s (s.validate fns value).2 := by
  unfold validate
  split
  · exact MessageStep.refl s
  · split
    · rfl
    · exact MessageStep.refl s

omit [DecidableEq ID] in
theorem allValid_step : ∀ (values : List V) (s : Slot ID V), MessageStep s (s.allValid fns values).2
  | [], s => MessageStep.refl s
  | value :: rest, s => by
    have validated : MessageStep s (s.validate fns value).2 := validate_step s value
    unfold allValid
    split <;> rename_i result <;> rw [result] at validated
    · exact validated.trans (allValid_step rest _)
    · exact validated

omit [DecidableEq ID] in
theorem validValuesOf_step (s : Slot ID V) (values : List V) :
    MessageStep s (s.validValuesOf fns values).2 := by
  unfold validValuesOf
  refine List.foldlRecOn (motive := fun kept : List V × Slot ID V => MessageStep s kept.2) values _
    (MessageStep.refl s) fun ⟨kept, t⟩ step value _ => ?_
  have validated : MessageStep t (t.validate fns value).2 := validate_step t value
  dsimp only
  generalize t.validate fns value = result at validated ⊢
  obtain ⟨checked, t'⟩ := result
  cases checked
  · exact step.trans validated
  · exact step.trans validated

theorem receiveMsg_step (s : Slot ID V) (msg : Msg ID V) :
    MessageStep s (s.receiveMsg fns msg).2 := by
  unfold receiveMsg
  extract_lets isHigher
  split
  · -- the values are checked before the Externalize phase only
    have checked : MessageStep s
        (if s.phase ≠ .externalize then s.allValid fns msg.values else (true, s)).2 := by
      split
      · exact allValid_step msg.values s
      · exact MessageStep.refl s
    generalize (if s.phase ≠ .externalize then s.allValid fns msg.values else (true, s)) = result
      at checked ⊢
    obtain ⟨valid, t⟩ := result
    cases valid
    · exact checked
    · exact checked.trans rfl
  · exact MessageStep.refl s

end Messages

/-! ### The calls -/

section Calls

variable [DecidableEq ID] [LinearOrder V] {fns : Fns ID V}

/-- `out_msg` sends nothing and changes nothing, or sends the message of the slot's phase, which
is not the last one sent, and records it. -/
theorem outMsg_spec {emitted : Option (Msg ID V)} (sent : s.outMsg = .ok (s', emitted)) :
    (emitted = none ∧ s' = s) ∨
      ∃ topic, s.outTopic = .ok (some topic) ∧
        s.lastSentMsg ≠ some (Msg.new s.nodeId s.quorumSet s.slotIndex topic) ∧
        emitted = some (Msg.new s.nodeId s.quorumSet s.slotIndex topic) ∧
        s' = { s with lastSentMsg := emitted } := by
  unfold outMsg at sent
  obtain ⟨topic?, found, sent⟩ := bind_ok sent
  split at sent
  · cases sent
    exact Or.inl ⟨rfl, rfl⟩
  · rename_i topic
    extract_lets msg checkedMsg at sent
    split at sent
    · cases sent
    · simp only [checkedMsg] at sent
      split at sent
      · cases sent
        exact Or.inl ⟨rfl, rfl⟩
      · cases sent
        exact Or.inr ⟨topic, found, ‹_›, rfl, rfl⟩

theorem ballotTimeout_internal {now : ℕ} (timedOut : s.ballotTimeout fns now = .ok s') :
    Internal s s' := by
  unfold ballotTimeout at timedOut
  extract_lets t nextCounter balloted at timedOut
  -- each branch moves to a new ballot `B` and runs the ballot protocol
  have bump : ∀ B : Ballot V, (Phase.commit ≤ s.phase → B.X = s.B.X) →
      s.phase ≠ .externalize → doBallotProtocol fns now { t with B } = .ok s' → Internal s s' := by
    intro B sameX early ran
    obtain ⟨step, advances⟩ := doBallotProtocol_step ran
    refine Internal.trans ?_ (Internal.of_ballotStep step advances)
    exact ⟨⟨Phase.le_refl _, sameX, fun externalized => absurd externalized early⟩, rfl, rfl, rfl,
      rfl, fun consistent => consistent.of_eq rfl rfl rfl⟩
  split at timedOut
  case h_1 | h_2 =>
    -- before the Commit phase, new values if a blocking set has some, else the same ballot
    rename_i inPhase
    have early : s.phase ≤ .prepare := by
      rw [show s.phase = t.phase from rfl, inPhase]
      decide
    have unfixed : Phase.commit ≤ s.phase → False := fun committed =>
      absurd (Phase.le_trans committed early) (by decide)
    have notExternalized : s.phase ≠ .externalize := fun externalized =>
      absurd (externalized ▸ early) (by decide)
    obtain ⟨values, -, timedOut⟩ := bind_ok timedOut
    split at timedOut
    · rw [pure_eq_ok, ok_bind] at timedOut
      exact bump _ (fun committed => (unfixed committed).elim) notExternalized timedOut
    · rw [pure_eq_ok, ok_bind] at timedOut
      exact bump s.B (fun _ => rfl) notExternalized timedOut
  case h_3 =>
    rename_i inCommit
    rw [pure_eq_ok, ok_bind] at timedOut
    -- in the Commit phase the counter goes up and the value stays
    refine bump _ (fun _ => ?_) ?_ timedOut
    · rfl
    · rw [show s.phase = t.phase from rfl, inCommit]
      decide
  case h_4 =>
    rw [pure_eq_ok, ok_bind] at timedOut
    obtain ⟨step, advances⟩ := doBallotProtocol_step timedOut
    refine Internal.trans ?_ (Internal.of_ballotStep step advances)
    exact ⟨Advances.of_eq rfl rfl rfl rfl, rfl, rfl, rfl, rfl, fun consistent =>
      consistent.of_eq rfl rfl rfl⟩

/-- How a call ends from the state `t` its internal changes reach: with nothing sent, or with
what `out_msg` sends from `t`. -/
def Sends (t s' : Slot ID V) (out : List (Msg ID V)) : Prop :=
  (s' = t ∧ out = []) ∨ ∃ emitted, t.outMsg = .ok (s', emitted) ∧ out = emitted.toList

/-- The end of a call: nothing sent, or the message of the phase of `t`, which `t` had not sent
last, sent and recorded. -/
theorem Sends.spec {t : Slot ID V} {out : List (Msg ID V)} (sends : Sends t s' out) :
    (s' = t ∧ out = []) ∨
      ∃ topic, t.outTopic = .ok (some topic) ∧
        t.lastSentMsg ≠ some (Msg.new t.nodeId t.quorumSet t.slotIndex topic) ∧
        out = [Msg.new t.nodeId t.quorumSet t.slotIndex topic] ∧
        s' = { t with lastSentMsg := some (Msg.new t.nodeId t.quorumSet t.slotIndex topic) } := by
  rcases sends with nothing | ⟨emitted, sent, rfl⟩
  · exact Or.inl nothing
  · rcases outMsg_spec sent with ⟨rfl, rfl⟩ | ⟨topic, found, fresh, rfl, rfl⟩
    · exact Or.inl ⟨rfl, rfl⟩
    · exact Or.inr ⟨topic, found, fresh, rfl, rfl⟩

theorem processTimeouts_sends {now : ℕ} {out : List (Msg ID V)}
    (timedOut : s.processTimeouts fns now = .ok (s', out)) : ∃ t, Internal s t ∧ Sends t s' out := by
  unfold processTimeouts at timedOut
  extract_lets nominationTimedOut afterNomination at timedOut
  obtain ⟨s₁, nominated, timedOut⟩ := ite_bind_ok timedOut
  have first : Internal s s₁ := by
    split at nominated
    · obtain ⟨step, nominating⟩ := nominationTimeout_step nominated
      exact Internal.of_nominationStep step nominating (nominationTimeout_consistent · nominated)
    · cases nominated
      exact Internal.refl s
  simp only [afterNomination] at timedOut
  obtain ⟨s₂, balloted, timedOut⟩ := ite_bind_ok timedOut
  have second : Internal s₁ s₂ := by
    split at balloted
    · exact ballotTimeout_internal balloted
    · cases balloted
      exact Internal.refl s₁
  refine ⟨s₂, first.trans second, ?_⟩
  split at timedOut
  · obtain ⟨⟨t, emitted⟩, sent, timedOut⟩ := bind_ok timedOut
    cases timedOut
    exact Or.inr ⟨emitted, sent, rfl⟩
  · cases timedOut
    exact Or.inl ⟨rfl, rfl⟩

theorem proposeValues_sends {now : ℕ} {values : List V} {emitted : Option (Msg ID V)}
    (proposed : s.proposeValues fns now values = .ok (s', emitted)) :
    ∃ t, Internal s t ∧ Sends t s' emitted.toList := by
  unfold proposeValues at proposed
  split at proposed
  · -- outside the nomination, or with a value confirmed nominated, only `out_msg`
    exact ⟨s, Internal.refl s, Or.inr ⟨emitted, proposed, rfl⟩⟩
  split at proposed
  rename_i validValues s₁ validated
  have checked : MessageStep s (s.validValuesOf fns (toSet values)).2 :=
    validValuesOf_step s (toSet values)
  rw [validated] at checked
  split at proposed
  · cases proposed
    exact ⟨_, Internal.of_messageStep checked, Or.inl ⟨rfl, rfl⟩⟩
  · simp only at proposed
    obtain ⟨s₂, nominated, proposed⟩ := bind_ok proposed
    obtain ⟨s₃, balloted, proposed⟩ := bind_ok proposed
    obtain ⟨nominationStep, nominating⟩ := doNominatePhase_step nominated
    obtain ⟨ballotStep, advances⟩ := doBallotProtocol_step balloted
    have proposing : Internal s₁ { s₁ with W := s₁.W ∪ validValues } :=
      Internal.of_messageStep rfl
    refine ⟨s₃, (Internal.of_messageStep checked).trans (proposing.trans
      ((Internal.of_nominationStep nominationStep nominating
        (doNominatePhase_consistent · nominated)).trans
        (Internal.of_ballotStep ballotStep advances))), Or.inr ⟨emitted, proposed, rfl⟩⟩

theorem handleMessages_sends {now : ℕ} {msgs : List (Msg ID V)} {emitted : Option (Msg ID V)}
    (handled : s.handleMessages fns now msgs = .ok (s', emitted)) :
    ∃ t, Internal s t ∧ Sends t s' emitted.toList := by
  unfold handleMessages at handled
  extract_lets msgsForSlot sorted at handled
  split at handled
  rename_i hasHigherMessages s₁ received
  -- receiving the messages one by one changes only `M` and the values found valid
  have checked : MessageStep s (hasHigherMessages, s₁).2 := by
    rw [← received]
    refine List.foldlRecOn (motive := fun kept : Bool × Slot ID V => MessageStep s kept.2) sorted _
      (MessageStep.refl s) fun ⟨hasHigher, t⟩ step msg _ => ?_
    exact step.trans (receiveMsg_step t msg)
  split at handled
  · obtain ⟨s₂, nominated, handled⟩ := ite_bind_ok handled
    have first : Internal s₁ s₂ := by
      split at nominated
      · obtain ⟨step, nominating⟩ := doNominatePhase_step nominated
        exact Internal.of_nominationStep step nominating (doNominatePhase_consistent · nominated)
      · cases nominated
        exact Internal.refl s₁
    obtain ⟨s₃, balloted, handled⟩ := bind_ok handled
    obtain ⟨ballotStep, advances⟩ := doBallotProtocol_step balloted
    exact ⟨s₃, (Internal.of_messageStep checked).trans
      (first.trans (Internal.of_ballotStep ballotStep advances)), Or.inr ⟨emitted, handled, rfl⟩⟩
  · cases handled
    exact ⟨_, Internal.of_messageStep checked, Or.inl ⟨rfl, rfl⟩⟩

theorem step_sends {i : Input ID V} {out : List (Msg ID V)} (stepped : step fns s i = .ok (s', out)) :
    ∃ t, Internal s t ∧ Sends t s' out := by
  cases i with
  | processTimeouts now => exact processTimeouts_sends stepped
  | proposeValues now values =>
    obtain ⟨⟨t, emitted⟩, proposed, stepped⟩ := bind_ok stepped
    cases stepped
    exact proposeValues_sends proposed
  | handleMessages now msgs =>
    obtain ⟨⟨t, emitted⟩, handled, stepped⟩ := bind_ok stepped
    cases stepped
    exact handleMessages_sends handled

end Calls

end Slot

end MobileCoin.Scp
