import MobileCoin.Scp.Handlers

/-!
# What each call of a slot changes

The ballot protocol (`do_prepare_phase`, `do_commit_phase`, `do_externalize_phase` and what they
call) changes only the ballot state `B`, `P`, `PP`, `H`, `C`, the phase and the two timers: a
`BallotStep`. Within that, the phase only moves on; from the Commit phase the value of `B` stays;
and the Externalize phase changes only the counter of `H`, upwards. `Advances` says the last three
together, and holds of every call a node makes on a slot.
-/

namespace MobileCoin.Scp

namespace Phase

theorem le_def {a b : Phase} : a ≤ b ↔ a.rank ≤ b.rank := Iff.rfl

theorem le_refl (a : Phase) : a ≤ a := Nat.le_refl _

theorem le_trans {a b c : Phase} (first : a ≤ b) (second : b ≤ c) : a ≤ c :=
  Nat.le_trans first second

theorem eq_externalize_of_le {a : Phase} (le : Phase.externalize ≤ a) : a = .externalize := by
  cases a <;> first | rfl | exact absurd le (by decide)

end Phase

namespace Slot

variable {ID V : Type}

/-- `s'` is `s` with only its ballot state, phase and timers changed. -/
def BallotStep (s s' : Slot ID V) : Prop :=
  s' = { s with
    B := s'.B, P := s'.P, PP := s'.PP, H := s'.H, C := s'.C, phase := s'.phase
    nextNominateRoundAt := s'.nextNominateRoundAt, nextBallotAt := s'.nextBallotAt }

/-- `H` as the Externalize phase moves it: the same value, the counter never lower. -/
def HGrows : Option (Ballot V) → Option (Ballot V) → Prop
  | none, none => True
  | some h, some h' => h'.X = h.X ∧ h.N ≤ h'.N
  | _, _ => False

/-- What a call of a slot may do to its phase and ballots: the phase only moves on, the value of
`B` stays from the Commit phase on, and once the slot has externalized `B` and `C` stay and `H`
only rises. -/
structure Advances (s s' : Slot ID V) : Prop where
  phase_le : s.phase ≤ s'.phase
  value_eq : Phase.commit ≤ s.phase → s'.B.X = s.B.X
  decided : s.phase = .externalize → s'.B = s.B ∧ s'.C = s.C ∧ HGrows s.H s'.H

variable {s s' s'' : Slot ID V}

/-! ### Ballot steps -/

theorem BallotStep.refl (s : Slot ID V) : BallotStep s s := rfl

theorem BallotStep.trans (first : BallotStep s s') (second : BallotStep s' s'') :
    BallotStep s s'' := by
  unfold BallotStep at *
  rw [first] at second
  exact second

theorem BallotStep.X_eq (step : BallotStep s s') : s'.X = s.X := by
  unfold BallotStep at step
  rw [step]

theorem BallotStep.Y_eq (step : BallotStep s s') : s'.Y = s.Y := by
  unfold BallotStep at step
  rw [step]

theorem BallotStep.Z_eq (step : BallotStep s s') : s'.Z = s.Z := by
  unfold BallotStep at step
  rw [step]

theorem BallotStep.bump (s : Slot ID V) (B : Ballot V) :
    BallotStep s { s.cancelNextBallotTimer with B := B } := rfl

theorem BallotStep.lastSentMsg_eq (step : BallotStep s s') : s'.lastSentMsg = s.lastSentMsg := by
  unfold BallotStep at step
  rw [step]

/-! ### Advancing -/

theorem HGrows.refl : ∀ H : Option (Ballot V), HGrows H H
  | none => trivial
  | some _ => ⟨rfl, Nat.le_refl _⟩

theorem HGrows.trans : ∀ {H H' H'' : Option (Ballot V)}, HGrows H H' → HGrows H' H'' → HGrows H H''
  | none, none, none, _, _ => trivial
  | some _, some _, some _, ⟨sameX, le⟩, ⟨sameX', le'⟩ =>
    ⟨sameX'.trans sameX, Nat.le_trans le le'⟩

theorem Advances.refl (s : Slot ID V) : Advances s s :=
  ⟨Phase.le_refl _, fun _ => rfl, fun _ => ⟨rfl, rfl, HGrows.refl _⟩⟩

theorem Advances.trans (first : Advances s s') (second : Advances s' s'') : Advances s s'' where
  phase_le := Phase.le_trans first.phase_le second.phase_le
  value_eq committed :=
    (second.value_eq (Phase.le_trans committed first.phase_le)).trans (first.value_eq committed)
  decided externalized := by
    obtain ⟨sameB, sameC, grows⟩ := first.decided externalized
    have stays : s'.phase = .externalize :=
      Phase.eq_externalize_of_le (externalized ▸ first.phase_le)
    obtain ⟨sameB', sameC', grows'⟩ := second.decided stays
    exact ⟨sameB'.trans sameB, sameC'.trans sameC, grows.trans grows'⟩

theorem Advances.of_eq (phase : s'.phase = s.phase) (B : s'.B = s.B) (C : s'.C = s.C)
    (H : s'.H = s.H) : Advances s s' :=
  ⟨phase ▸ Phase.le_refl _, fun _ => congrArg Ballot.X B, fun _ => ⟨B, C, H ▸ HGrows.refl _⟩⟩

/-- Before the Commit phase a call may change the ballots as it likes, as long as the phase
does not go back. -/
theorem Advances.of_early (early : s.phase ≤ .prepare) (phase_le : s.phase ≤ s'.phase) :
    Advances s s' where
  phase_le := phase_le
  value_eq committed := absurd (Phase.le_trans committed early) (by decide)
  decided externalized := absurd (externalized ▸ early) (by decide)

theorem Advances.of_commit (inCommit : s.phase = .commit) (phase_le : Phase.commit ≤ s'.phase)
    (sameX : s'.B.X = s.B.X) : Advances s s' where
  phase_le := inCommit ▸ phase_le
  value_eq _ := sameX
  decided externalized := absurd (inCommit.symm.trans externalized) (by decide)

theorem Advances.of_externalize (inExternalize : s.phase = .externalize)
    (phase : s'.phase = .externalize) (sameB : s'.B = s.B) (sameC : s'.C = s.C)
    (grows : HGrows s.H s'.H) : Advances s s' where
  phase_le := inExternalize ▸ phase ▸ Phase.le_refl _
  value_eq _ := congrArg Ballot.X sameB
  decided _ := ⟨sameB, sameC, grows⟩

/-! ### The pieces of the ballot protocol -/

section Pieces

variable [DecidableEq ID] [LinearOrder V]

omit [LinearOrder V] in
theorem maybeSetBallotTimer_eq {now : ℕ} (set : s.maybeSetBallotTimer now = .ok s') :
    ∃ t, s' = { s with nextBallotAt := t } := by
  unfold maybeSetBallotTimer at set
  split at set
  · exact ⟨s.nextBallotAt, (Except.ok.inj set).symm⟩
  split at set
  · exact ⟨s.nextBallotAt, (Except.ok.inj set).symm⟩
  obtain ⟨⟨quorumIds, _⟩, -, set⟩ := bind_ok set
  dsimp only at set
  split at set
  · exact ⟨s.nextBallotAt, (Except.ok.inj set).symm⟩
  · exact ⟨_, (Except.ok.inj set).symm⟩

omit [DecidableEq ID] in
theorem checkPreparePhaseInvariants_phase {u : Unit} (checked : s.checkPreparePhaseInvariants = .ok u) :
    s.phase ≤ .prepare := by
  by_contra later
  have outside : ¬ (s.phase = .nominatePrepare ∨ s.phase = .prepare) := by
    rintro (nominating | preparing)
    · exact later (by rw [nominating]; decide)
    · exact later (by rw [preparing]; decide)
  unfold checkPreparePhaseInvariants at checked
  rw [if_pos outside] at checked
  cases checked

omit [DecidableEq ID] in
theorem checkCommitPhaseInvariants_phase {u : Unit} (checked : s.checkCommitPhaseInvariants = .ok u) :
    s.phase = .commit := by
  by_contra other
  unfold checkCommitPhaseInvariants at checked
  rw [if_pos other] at checked
  cases checked

omit [DecidableEq ID] in
theorem checkExternalizePhaseInvariants_phase {u : Unit}
    (checked : s.checkExternalizePhaseInvariants = .ok u) : s.phase = .externalize := by
  by_contra other
  unfold checkExternalizePhaseInvariants at checked
  rw [if_pos other] at checked
  cases checked

omit [DecidableEq ID] in
theorem updatePrepared_step {acceptedPrepared : List (Ballot V)}
    (updated : s.updatePrepared acceptedPrepared = some s') : BallotStep s s' ∧ s'.phase = s.phase := by
  unfold updatePrepared at updated
  split at updated
  · cases updated
    exact ⟨BallotStep.refl s, rfl⟩
  · split at updated
    · split at updated
      · cases updated
        exact ⟨rfl, rfl⟩
      · cases updated
    · cases updated
      exact ⟨rfl, rfl⟩

omit [DecidableEq ID] in
theorem clearAbortedCommit_step (s : Slot ID V) :
    BallotStep s s.clearAbortedCommit ∧ s.clearAbortedCommit.phase = s.phase := by
  unfold clearAbortedCommit
  split
  · split
    · exact ⟨rfl, rfl⟩
    · exact ⟨BallotStep.refl s, rfl⟩
  · exact ⟨BallotStep.refl s, rfl⟩

omit [DecidableEq ID] in
theorem updateConfirmedPrepared_step (s : Slot ID V) (confirmedPrepared : Option (Ballot V)) :
    BallotStep s (s.updateConfirmedPrepared confirmedPrepared) ∧
      s.phase ≤ (s.updateConfirmedPrepared confirmedPrepared).phase := by
  cases confirmedPrepared with
  | none => exact ⟨BallotStep.refl s, Phase.le_refl _⟩
  | some h =>
    unfold updateConfirmedPrepared
    by_cases nominating : s.phase = .nominatePrepare
    · -- the nomination ends at the first ballot confirmed prepared
      simp only [nominating, if_true]
      split <;> exact ⟨rfl, nominating ▸ (by decide : Phase.nominatePrepare ≤ .prepare)⟩
    · simp only [nominating, if_false]
      split <;> exact ⟨rfl, Phase.le_refl _⟩

omit [DecidableEq ID] in
theorem voteCommit_step (voted : s.voteCommit = .ok s') : BallotStep s s' ∧ s'.phase = s.phase := by
  unfold voteCommit at voted
  split at voted
  · split at voted
    · -- the three asserts on the vote either throw or let it through
      simp only at voted
      split_ifs at voted <;> cases voted
      all_goals exact ⟨rfl, rfl⟩
    · cases voted
      exact ⟨BallotStep.refl s, rfl⟩
  · cases voted
    exact ⟨BallotStep.refl s, rfl⟩

theorem acceptCommit_step {acceptCommits : List (List V × UInt32 × UInt32)} {c : Ballot V}
    (accepted : s.acceptCommit acceptCommits c = .ok s') :
    BallotStep s s' ∧ s'.phase = .commit ∧ s'.PP = none := by
  unfold acceptCommit at accepted
  obtain ⟨h, -, accepted⟩ := bind_ok accepted
  simp only at accepted
  split at accepted
  · cases accepted
  obtain ⟨acceptedPrepared, -, accepted⟩ := bind_ok accepted
  split at accepted
  · cases accepted
  · cases accepted
    exact ⟨rfl, rfl, rfl⟩

omit [DecidableEq ID] in
theorem raiseBallotToHigh_step (s : Slot ID V) :
    BallotStep s s.raiseBallotToHigh ∧ s.raiseBallotToHigh.phase = s.phase := by
  unfold raiseBallotToHigh
  split
  · exact ⟨rfl, rfl⟩
  · exact ⟨BallotStep.refl s, rfl⟩

omit [LinearOrder V] in
theorem maybeSetBallotTimer_step {now : ℕ} (set : s.maybeSetBallotTimer now = .ok s') :
    BallotStep s s' ∧ s'.phase = s.phase ∧ s'.B = s.B ∧ s'.C = s.C ∧ s'.H = s.H := by
  obtain ⟨t, rfl⟩ := maybeSetBallotTimer_eq set
  exact ⟨rfl, rfl, rfl, rfl, rfl⟩

omit [DecidableEq ID] in
theorem updatePreparedOfValue_step {acceptedPrepared : List (Ballot V)}
    (updated : s.updatePreparedOfValue acceptedPrepared = .ok s') :
    BallotStep s s' ∧ s'.phase = s.phase ∧ s'.B = s.B := by
  unfold updatePreparedOfValue at updated
  split at updated
  · obtain ⟨currentP, -, updated⟩ := bind_ok updated
    cases updated
    split <;> exact ⟨rfl, rfl, rfl⟩
  · cases updated
    exact ⟨BallotStep.refl s, rfl, rfl⟩

end Pieces

/-! ### The phases -/

section Phases

variable [DecidableEq ID] [LinearOrder V] {fns : Fns ID V}

/-- `do_prepare_phase` runs in the NominatePrepare or Prepare phase, changes only the ballot state,
and moves the phase on at most to Commit. -/
theorem doPreparePhase_step {now : ℕ} : ∀ {depth : ℕ} {s s' : Slot ID V},
    doPreparePhase fns now depth s = .ok s' → BallotStep s s' ∧ s.phase ≤ .prepare ∧ s.phase ≤ s'.phase
  | 0, _, _, prepared => by cases prepared
  | depth + 1, s, s', prepared => by
    unfold doPreparePhase at prepared
    obtain ⟨⟨⟩, checked, prepared⟩ := bind_ok prepared
    obtain ⟨acceptedPrepared, -, prepared⟩ := bind_ok prepared
    have early := checkPreparePhaseInvariants_phase checked
    split at prepared
    · rename_i s₁ updated
      obtain ⟨step₁, phase₁⟩ := updatePrepared_step updated
      obtain ⟨⟨⟩, -, prepared⟩ := bind_ok prepared
      obtain ⟨confirmedPrepared, -, prepared⟩ := bind_ok prepared
      obtain ⟨⟨⟩, -, prepared⟩ := bind_ok prepared
      obtain ⟨s₂, voted, prepared⟩ := bind_ok prepared
      obtain ⟨⟨⟩, -, prepared⟩ := bind_ok prepared
      obtain ⟨acceptCommits, -, prepared⟩ := bind_ok prepared
      -- steps (1) to (3)
      have step₂ : BallotStep s s₂ ∧ s.phase ≤ s₂.phase := by
        obtain ⟨cleared, clearedPhase⟩ := clearAbortedCommit_step s₁
        obtain ⟨confirmed, confirmedPhase⟩ :=
          updateConfirmedPrepared_step s₁.clearAbortedCommit confirmedPrepared.max?
        obtain ⟨committed, committedPhase⟩ := voteCommit_step voted
        refine ⟨step₁.trans (cleared.trans (confirmed.trans committed)), ?_⟩
        rw [committedPhase]
        exact phase₁ ▸ clearedPhase ▸ confirmedPhase
      split at prepared
      · -- (4): some ballot is accepted committed, and the Commit phase begins
        obtain ⟨step₃, phase₃, -⟩ := acceptCommit_step prepared
        refine ⟨step₂.1.trans step₃, early, ?_⟩
        rw [phase₃]
        exact Phase.le_trans early (by decide)
      · obtain ⟨unblockingCounter, -, prepared⟩ := bind_ok prepared
        obtain ⟨raised, raisedPhase⟩ := raiseBallotToHigh_step s₂
        have step₃ := step₂.1.trans raised
        have phase₃ : s.phase ≤ s₂.raiseBallotToHigh.phase := raisedPhase ▸ step₂.2
        split at prepared
        · obtain ⟨values, -, prepared⟩ := bind_ok prepared
          split at prepared
          · -- (9): a blocking set is ahead, and the phase runs again on the unblocking counter
            obtain ⟨s₃, set, prepared⟩ := bind_ok prepared
            obtain ⟨s₄, again, prepared⟩ := bind_ok prepared
            beta_reduce at prepared
            obtain ⟨⟨⟩, -, prepared⟩ := bind_ok prepared
            cases prepared
            obtain ⟨setStep, setPhase, -⟩ := maybeSetBallotTimer_step set
            obtain ⟨againStep, -, againPhase⟩ := doPreparePhase_step again
            refine ⟨step₃.trans (((BallotStep.bump _ _).trans setStep).trans againStep), early, ?_⟩
            exact Phase.le_trans phase₃ (setPhase ▸ againPhase)
          · rw [pure_eq_ok, ok_bind] at prepared
            beta_reduce at prepared
            obtain ⟨⟨⟩, -, prepared⟩ := bind_ok prepared
            cases prepared
            exact ⟨step₃, early, phase₃⟩
        · rw [pure_eq_ok, ok_bind] at prepared
          beta_reduce at prepared
          obtain ⟨⟨⟩, -, prepared⟩ := bind_ok prepared
          cases prepared
          exact ⟨step₃, early, phase₃⟩
    · -- a lower `P`: the phase returns at once
      cases prepared
      exact ⟨BallotStep.refl s, early, Phase.le_refl _⟩

/-- `do_commit_phase` runs in the Commit phase, changes only the ballot state, keeps the value of
`B`, and either stays in the Commit phase or externalizes. -/
theorem doCommitPhase_step : ∀ {depth : ℕ} {s s' : Slot ID V}, doCommitPhase depth s = .ok s' →
    BallotStep s s' ∧ s.phase = .commit ∧ Phase.commit ≤ s'.phase ∧ s'.B.X = s.B.X
  | 0, _, _, committed => by cases committed
  | depth + 1, s, s', committed => by
    unfold doCommitPhase at committed
    obtain ⟨⟨⟩, checked, committed⟩ := bind_ok committed
    have inCommit := checkCommitPhaseInvariants_phase checked
    obtain ⟨acceptedPrepared, -, committed⟩ := bind_ok committed
    obtain ⟨s₁, updated, committed⟩ := bind_ok committed
    obtain ⟨step₁, phase₁, sameB₁⟩ := updatePreparedOfValue_step updated
    obtain ⟨acceptCommits, -, committed⟩ := bind_ok committed
    -- (6): `C` and `H` from the range accepted committed for the value of `B`, if any
    extract_lets +onlyGivenNames s₂ at committed
    obtain ⟨step₂, phase₂, sameB₂⟩ : BallotStep s₁ s₂ ∧ s₂.phase = s₁.phase ∧ s₂.B = s₁.B := by
      simp only [s₂]
      split <;> exact ⟨rfl, rfl, rfl⟩
    obtain ⟨confirmed, -, committed⟩ := bind_ok committed
    split at committed
    · -- (7): a range is confirmed committed, and the slot externalizes
      cases committed
      exact ⟨(step₁.trans step₂).trans rfl, inCommit, (by decide : Phase.commit ≤ .externalize),
        congrArg Ballot.X (sameB₂.trans sameB₁)⟩
    · -- (8): `B` raised to the counter of `H`
      beta_reduce at committed
      extract_lets +onlyGivenNames -underBinder s₃ at committed
      obtain ⟨step₃, phase₃, sameX₃⟩ : BallotStep s₂ s₃ ∧ s₃.phase = s₂.phase ∧ s₃.B.X = s₂.B.X := by
        simp only [s₃]
        split
        · split <;> exact ⟨rfl, rfl, rfl⟩
        · exact ⟨rfl, rfl, rfl⟩
      have toS₃ : BallotStep s s₃ := (step₁.trans step₂).trans step₃
      have inCommit₃ : s₃.phase = .commit := phase₃.trans (phase₂.trans (phase₁.trans inCommit))
      have sameX : s₃.B.X = s.B.X := sameX₃.trans (congrArg Ballot.X (sameB₂.trans sameB₁))
      obtain ⟨unblockingCounter, -, committed⟩ := bind_ok committed
      split at committed
      · -- (9): a blocking set is ahead, and the phase runs again on the unblocking counter
        obtain ⟨s₄, again, committed⟩ := bind_ok committed
        obtain ⟨⟨⟩, -, committed⟩ := bind_ok committed
        cases committed
        obtain ⟨againStep, -, againPhase, againX⟩ := doCommitPhase_step again
        exact ⟨toS₃.trans ((BallotStep.bump _ _).trans againStep), inCommit, againPhase,
          againX.trans sameX⟩
      · rw [pure_eq_ok, ok_bind] at committed
        obtain ⟨⟨⟩, -, committed⟩ := bind_ok committed
        rw [← Except.ok.inj committed]
        exact ⟨toS₃, inCommit, inCommit₃ ▸ Phase.le_refl _, sameX⟩

theorem doExternalizePhase_step (externalized : s.doExternalizePhase = .ok s') :
    BallotStep s s' ∧ s.phase = .externalize ∧ s'.phase = .externalize ∧ s'.B = s.B ∧ s'.C = s.C ∧
      HGrows s.H s'.H := by
  unfold doExternalizePhase at externalized
  obtain ⟨⟨⟩, checked, externalized⟩ := bind_ok externalized
  have inExternalize := checkExternalizePhaseInvariants_phase checked
  obtain ⟨confirmed, -, externalized⟩ := bind_ok externalized
  split at externalized
  · -- a range is confirmed committed: `H.N` follows its upper end up
    obtain ⟨H, found, externalized⟩ := bind_ok externalized
    rw [pure_eq_ok, ok_bind] at externalized
    obtain ⟨⟨⟩, -, externalized⟩ := bind_ok externalized
    cases externalized
    split
    · rw [okOr_eq_ok.mp found]
      exact ⟨rfl, inExternalize, inExternalize, rfl, rfl, rfl, ‹_›⟩
    · exact ⟨BallotStep.refl s, inExternalize, inExternalize, rfl, rfl, HGrows.refl _⟩
  · rw [pure_eq_ok, ok_bind] at externalized
    obtain ⟨⟨⟩, -, externalized⟩ := bind_ok externalized
    cases externalized
    exact ⟨BallotStep.refl s, inExternalize, inExternalize, rfl, rfl, HGrows.refl _⟩

theorem doBallotProtocol_step {now : ℕ} (ran : doBallotProtocol fns now s = .ok s') :
    BallotStep s s' ∧ Advances s s' := by
  unfold doBallotProtocol at ran
  obtain ⟨s₁, set, ran⟩ := bind_ok ran
  have first : BallotStep s s₁ ∧ Advances s s₁ := by
    obtain ⟨step, phase, sameB, sameC, sameH⟩ := maybeSetBallotTimer_step set
    exact ⟨step, Advances.of_eq phase sameB sameC sameH⟩
  obtain ⟨s₂, prepared, ran⟩ := ite_bind_ok ran
  have second : BallotStep s₁ s₂ ∧ Advances s₁ s₂ := by
    split at prepared
    · obtain ⟨step, early, phase_le⟩ := doPreparePhase_step prepared
      exact ⟨step, Advances.of_early early phase_le⟩
    · cases prepared
      exact ⟨BallotStep.refl _, Advances.refl _⟩
  beta_reduce at ran
  obtain ⟨s₃, committed, ran⟩ := ite_bind_ok ran
  have third : BallotStep s₂ s₃ ∧ Advances s₂ s₃ := by
    split at committed
    · obtain ⟨step, inCommit, phase_le, sameX⟩ := doCommitPhase_step committed
      exact ⟨step, Advances.of_commit inCommit phase_le sameX⟩
    · cases committed
      exact ⟨BallotStep.refl _, Advances.refl _⟩
  have fourth : BallotStep s₃ s' ∧ Advances s₃ s' := by
    beta_reduce at ran
    split at ran
    · obtain ⟨step, inExternalize, phase, sameB, sameC, grows⟩ := doExternalizePhase_step ran
      exact ⟨step, Advances.of_externalize inExternalize phase sameB sameC grows⟩
    · cases ran
      exact ⟨BallotStep.refl _, Advances.refl _⟩
  exact ⟨first.1.trans (second.1.trans (third.1.trans fourth.1)),
    first.2.trans (second.2.trans (third.2.trans fourth.2))⟩

end Phases

end Slot

end MobileCoin.Scp
