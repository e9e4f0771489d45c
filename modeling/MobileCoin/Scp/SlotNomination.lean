import MobileCoin.Scp.SearchSpec
import MobileCoin.Scp.SlotFrame

/-!
# The nomination of a slot

`do_nominate_phase`, `vote_nominate` and `update_YZ` change only the nomination state: a
`NominationStep`. On the votes they keep `VotesConsistent`: `X` has no repeated value and none
that `Y` accepts, and every value `Z` confirms is in `Y`. From such a slot the two assertions
that `X` and `Y` are disjoint always hold, and the federated votes on values always succeed, so
that `do_nominate_phase` never panics in the NominatePrepare phase.
-/

namespace MobileCoin.Scp

namespace Slot

variable {ID V : Type}

/-- `s'` is `s` with only its nomination state changed: the votes `X`, `Y` and `Z`, the first
ballot, and the nomination round with its leaders and its timer. -/
def NominationStep (s s' : Slot ID V) : Prop :=
  s' = { s with
    X := s'.X, Y := s'.Y, Z := s'.Z, B := s'.B, nominateRound := s'.nominateRound
    maxPriorityPeers := s'.maxPriorityPeers, nextNominateRoundAt := s'.nextNominateRoundAt }

/-- The votes of a slot as the nomination keeps them: `X` without repeats and apart from `Y`,
and `Z` within `Y`. -/
structure VotesConsistent (s : Slot ID V) : Prop where
  nodup : s.X.Nodup
  disjoint : ∀ v ∈ s.X, v ∉ s.Y
  confirmed_accepted : s.Z ⊆ s.Y

variable {s s' s'' : Slot ID V}

theorem NominationStep.refl (s : Slot ID V) : NominationStep s s := rfl

theorem NominationStep.trans (first : NominationStep s s') (second : NominationStep s' s'') :
    NominationStep s s'' := by
  unfold NominationStep at *
  rw [first] at second
  exact second

theorem VotesConsistent.of_eq (consistent : VotesConsistent s) (sameX : s'.X = s.X)
    (sameY : s'.Y = s.Y) (sameZ : s'.Z = s.Z) : VotesConsistent s' := by
  obtain ⟨nodup, disjoint, confirmed⟩ := consistent
  rw [← sameX, ← sameY, ← sameZ] at *
  exact ⟨nodup, disjoint, confirmed⟩

section Votes

variable [LinearOrder V]

theorem mem_toSet {values : List V} {v : V} : v ∈ toSet values ↔ v ∈ values :=
  (List.perm_insertionSort _ _).mem_iff.trans List.mem_eraseDups

theorem disjoint_eq_true {a b : List V} : disjoint a b = true ↔ ∀ v ∈ a, v ∉ b := by
  simp [disjoint]

theorem VotesConsistent.accept (consistent : VotesConsistent s) (value : V) :
    VotesConsistent { s with X := s.X.erase value, Y := s.Y.insert value } := by
  obtain ⟨nodup, disjoint, confirmed⟩ := consistent
  refine ⟨nodup.erase value, fun v kept accepted => ?_,
    fun v member => List.mem_insert_of_mem (confirmed member)⟩
  -- `X` has no repeats, so the value leaves it altogether
  obtain ⟨other, inX⟩ := (nodup.mem_erase_iff).mp kept
  rcases List.mem_insert_iff.mp accepted with same | inY
  · exact other same
  · exact disjoint v inX inY

theorem voteNominated_apart (s : Slot ID V) {X : List V} (values : List V) (nodup : X.Nodup)
    (apart : ∀ v ∈ X, v ∉ s.Y) :
    (s.voteNominated X values).Nodup ∧ ∀ v ∈ s.voteNominated X values, v ∉ s.Y := by
  unfold voteNominated
  refine List.foldlRecOn (motive := fun X : List V => X.Nodup ∧ ∀ v ∈ X, v ∉ s.Y) values _
    ⟨nodup, apart⟩ fun X ⟨nodup, apart⟩ value _ => ?_
  by_cases accepted : s.Y.contains value
  · rw [if_pos accepted]
    exact ⟨nodup, apart⟩
  · rw [if_neg accepted]
    refine ⟨nodup.insert, fun v member => ?_⟩
    rcases List.mem_insert_iff.mp member with rfl | inX
    · simpa using accepted
    · exact apart v inX

end Votes

/-! ### Federated votes on values -/

section Federated

variable [DecidableEq ID] [LinearOrder V]

theorem findBlockingSet_values_ok (s : Slot ID V) (stated : Msg ID V → Option (List V))
    (candidates : List V) : ∃ found, s.findBlockingSet
      (valueSetTest fun msg values => intersectValues (stated msg) values) candidates = .ok found := by
  unfold findBlockingSet
  rw [QuorumSet.valueSetTest_eq_narrowingTest]
  obtain ⟨blocking, result, found, -⟩ := QuorumSet.findBlockingSet_narrowed s.M s.quorumSet candidates
  exact ⟨_, found⟩

/-- A search for a quorum on values always succeeds, with some of the candidates once it has
found a quorum. -/
theorem findQuorum_values (s : Slot ID V) (stated : Msg ID V → Option (List V))
    (candidates : List V) : ∃ quorum result, s.findQuorum
      (valueSetTest fun msg values => intersectValues (stated msg) values) candidates =
        .ok (quorum, result) ∧ (quorum ≠ [] → result ⊆ candidates) := by
  unfold findQuorum
  rw [QuorumSet.valueSetTest_eq_narrowingTest]
  obtain ⟨quorum, result, found, narrowed⟩ :=
    QuorumSet.findQuorum_narrowed s.M s.quorumSet s.nodeId candidates
  exact ⟨quorum, result, found, fun nonempty => (narrowed nonempty).subset⟩

theorem additionalValuesAcceptedNominated_ok (s : Slot ID V) :
    ∃ accepted, s.additionalValuesAcceptedNominated = .ok accepted := by
  unfold additionalValuesAcceptedNominated
  simp only
  refine exists_bind_ok (filterM_ok fun value _ => ?_) fun _ _ => ?_
  · obtain ⟨found, searched⟩ := findBlockingSet_values_ok s Msg.acceptsNominated [value]
    rw [searched]
    exact ⟨_, rfl⟩
  · obtain ⟨quorum, result, searched, -⟩ :=
      findQuorum_values s Msg.votesOrAcceptsNominated (toSet s.X)
    rw [searched]
    exact ⟨_, rfl⟩

theorem additionalValuesConfirmedNominated_accepted (s : Slot ID V) :
    ∃ confirmed, s.additionalValuesConfirmedNominated = .ok confirmed ∧ confirmed ⊆ s.Y := by
  unfold additionalValuesConfirmedNominated
  obtain ⟨quorum, result, searched, narrowed⟩ :=
    findQuorum_values s Msg.acceptsNominated (toSet (s.Y.filter (!s.Z.contains ·)))
  rw [searched, ok_bind]
  refine ⟨_, rfl, fun v member => ?_⟩
  split at member
  · exact absurd member List.not_mem_nil
  · rename_i nonempty
    have candidate := mem_toSet.mp (narrowed (by simpa using nonempty) member)
    exact (List.mem_filter.mp candidate).1

end Federated

/-! ### Nomination -/

section Nomination

variable [DecidableEq ID] [LinearOrder V] {fns : Fns ID V}

omit [DecidableEq ID] [LinearOrder V] in
theorem scheduleNextNominationRound_step (s : Slot ID V) (now : ℕ) :
    NominationStep s (s.scheduleNextNominationRound now) := by
  unfold scheduleNextNominationRound
  split
  · rfl
  · exact NominationStep.refl s

theorem voteNominate_step (voted : s.voteNominate = .ok s') : NominationStep s s' := by
  unfold voteNominate at voted
  extract_lets payloads X₀ X₁ at voted
  split at voted
  · cases voted
  · rw [← Except.ok.inj voted]
    rfl

theorem updateYZ_step (updated : s.updateYZ = .ok s') : NominationStep s s' := by
  unfold updateYZ at updated
  obtain ⟨accepted, -, updated⟩ := bind_ok updated
  simp only at updated
  split at updated
  · cases updated
  obtain ⟨confirmed, -, updated⟩ := bind_ok updated
  cases updated
  -- each accepted value moves from `X` to `Y`
  have moved : NominationStep s (accepted.foldl
      (fun s value => { s with X := s.X.erase value, Y := s.Y.insert value }) s) :=
    List.foldlRecOn (motive := NominationStep s) accepted _ (NominationStep.refl s)
      fun _ step _ _ => step.trans rfl
  exact moved.trans rfl

/-- `do_nominate_phase` runs in the NominatePrepare phase and changes only the nomination
state. -/
theorem doNominatePhase_step {now : ℕ} (nominated : s.doNominatePhase fns now = .ok s') :
    NominationStep s s' ∧ s.phase = .nominatePrepare := by
  unfold doNominatePhase at nominated
  split at nominated
  · cases nominated
  rename_i nominating
  obtain ⟨s₁, voted, nominated⟩ := ite_bind_ok nominated
  have step₁ : NominationStep s s₁ := by
    split at voted
    · exact (scheduleNextNominationRound_step s now).trans (voteNominate_step voted)
    · cases voted
      exact scheduleNextNominationRound_step s now
  obtain ⟨s₂, updated, nominated⟩ := bind_ok nominated
  have step₂ := step₁.trans (updateYZ_step updated)
  refine ⟨?_, not_not.mp nominating⟩
  split at nominated
  · split at nominated <;> cases nominated
    · exact step₂.trans rfl
    · exact step₂
  · cases nominated
    exact step₂

theorem nominationTimeout_step {now : ℕ} (timedOut : s.nominationTimeout fns now = .ok s') :
    NominationStep s s' ∧ s.phase = .nominatePrepare := by
  unfold nominationTimeout at timedOut
  obtain ⟨leader, -, timedOut⟩ := bind_ok timedOut
  obtain ⟨step, nominating⟩ := doNominatePhase_step timedOut
  -- the next round, its leader and no timer yet, before the phase runs
  refine ⟨NominationStep.trans ?_ step, nominating⟩
  rfl

end Nomination

/-! ### The votes stay consistent, and the nomination never panics -/

section Total

variable [DecidableEq ID] [LinearOrder V] {fns : Fns ID V}

theorem voteNominate_total (consistent : VotesConsistent s) :
    ∃ s', s.voteNominate = .ok s' ∧ VotesConsistent s' := by
  unfold voteNominate
  extract_lets payloads X₀ X₁ checked
  -- the leaders' votes join `X` only when `Y` does not accept them yet
  have apart₀ : X₀.Nodup ∧ ∀ v ∈ X₀, v ∉ s.Y := by
    simp only [X₀]
    split
    · exact voteNominated_apart s s.W consistent.nodup consistent.disjoint
    · exact ⟨consistent.nodup, consistent.disjoint⟩
  have apart₁ : X₁.Nodup ∧ ∀ v ∈ X₁, v ∉ s.Y := by
    simp only [X₁]
    refine List.foldlRecOn (motive := fun X : List V => X.Nodup ∧ ∀ v ∈ X, v ∉ s.Y) payloads _
      apart₀ fun X apart vote _ => ?_
    split
    · exact voteNominated_apart s _ apart.1 apart.2
    · exact apart
  have passes : (!disjoint X₁ s.Y) = false := by
    rw [Bool.not_eq_false', disjoint_eq_true]
    exact apart₁.2
  rw [if_neg (by rw [passes]; decide)]
  exact ⟨_, rfl, apart₁.1, apart₁.2, consistent.confirmed_accepted⟩

theorem updateYZ_total (consistent : VotesConsistent s) :
    ∃ s', s.updateYZ = .ok s' ∧ VotesConsistent s' := by
  unfold updateYZ
  obtain ⟨accepted, acceptedOk⟩ := additionalValuesAcceptedNominated_ok s
  rw [acceptedOk, ok_bind]
  extract_lets s₁ confirm
  -- the accepted values move from `X` to `Y` one at a time
  have consistent₁ : VotesConsistent s₁ :=
    List.foldlRecOn (motive := VotesConsistent) accepted _ consistent
      fun _ consistent value _ => consistent.accept value
  have passes : (!disjoint s₁.X s₁.Y) = false := by
    rw [Bool.not_eq_false', disjoint_eq_true]
    exact consistent₁.disjoint
  rw [if_neg (by rw [passes]; decide)]
  simp only [confirm]
  obtain ⟨confirmed, confirmedOk, accepted₁⟩ := additionalValuesConfirmedNominated_accepted s₁
  rw [confirmedOk, ok_bind]
  refine ⟨_, rfl, consistent₁.nodup, consistent₁.disjoint, fun v member => ?_⟩
  rcases List.mem_union_iff.mp member with earlier | now
  · exact consistent₁.confirmed_accepted earlier
  · exact accepted₁ now

/-- `do_nominate_phase` never panics in the NominatePrepare phase on consistent votes, and keeps
them consistent. -/
theorem doNominatePhase_total {now : ℕ} (nominating : s.phase = .nominatePrepare)
    (consistent : VotesConsistent s) :
    ∃ s', s.doNominatePhase fns now = .ok s' ∧ VotesConsistent s' := by
  unfold doNominatePhase
  extract_lets t afterVote afterCheck
  rw [if_neg (not_not.mpr nominating)]
  simp only [afterCheck]
  have consistentT : VotesConsistent t := by
    simp only [t]
    unfold scheduleNextNominationRound
    split
    · exact consistent.of_eq rfl rfl rfl
    · exact consistent
  -- the votes, unless a value is confirmed nominated already
  obtain ⟨s₁, voted, consistent₁⟩ : ∃ s₁, (if t.Z.isEmpty then t.voteNominate else pure t) =
      .ok s₁ ∧ VotesConsistent s₁ := by
    split
    · exact voteNominate_total consistentT
    · exact ⟨t, rfl, consistentT⟩
  rw [ite_bind_eq, voted, ok_bind]
  simp only [afterVote]
  obtain ⟨s₂, updated, consistent₂⟩ := updateYZ_total consistent₁
  rw [updated, ok_bind]
  -- the first ballot, from the combined confirmed values, changes no vote
  split
  · split
    · exact ⟨_, rfl, consistent₂.of_eq rfl rfl rfl⟩
    · exact ⟨_, rfl, consistent₂⟩
  · exact ⟨_, rfl, consistent₂⟩

theorem doNominatePhase_consistent {now : ℕ} (consistent : VotesConsistent s)
    (nominated : s.doNominatePhase fns now = .ok s') : VotesConsistent s' := by
  obtain ⟨-, nominating⟩ := doNominatePhase_step nominated
  obtain ⟨s'', ran, consistent'⟩ : ∃ s'', s.doNominatePhase fns now = .ok s'' ∧ VotesConsistent s'' :=
    doNominatePhase_total nominating consistent
  rw [ran] at nominated
  cases nominated
  exact consistent'

theorem nominationTimeout_consistent {now : ℕ} (consistent : VotesConsistent s)
    (timedOut : s.nominationTimeout fns now = .ok s') : VotesConsistent s' := by
  unfold nominationTimeout at timedOut
  obtain ⟨leader, -, timedOut⟩ := bind_ok timedOut
  refine doNominatePhase_consistent ?_ timedOut
  exact consistent.of_eq rfl rfl rfl

end Total

end Slot

end MobileCoin.Scp
