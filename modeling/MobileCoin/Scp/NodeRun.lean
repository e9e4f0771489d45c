import MobileCoin.Lib.FirstMatch
import MobileCoin.Scp.Node
import MobileCoin.Scp.SlotRun

/-!
# Runs of a node

The calls the application makes on a `Node`, as a run. The node keeps as externalized only slots
that have externalized and last sent the Externalize for their `C`, at the index before the
current slot's. So `get_externalized_values` never reaches its `expect` or its `panic!`, and no
call changes the values it reports for an index: a call keeps them or forgets the slot.
-/

namespace MobileCoin.Scp

namespace Slot

variable {ID V : Type} [DecidableEq ID] [LinearOrder V] {fns : Fns ID V}
variable {s s' t : Slot ID V}

/-- A slot that has externalized and last sent the Externalize for its `C`. -/
def Decided (s : Slot ID V) : Prop :=
  s.phase = .externalize ∧ ∃ c hn, s.C = some c ∧
    s.lastSentMsg = some (Msg.new s.nodeId s.quorumSet s.slotIndex (.externalize ⟨c, hn⟩))

omit [DecidableEq ID] in
theorem outTopic_externalize_phase {payload : ExternalizePayload V}
    (found : s.outTopic = .ok (some (.externalize payload))) : s.phase = .externalize := by
  unfold outTopic at found
  cases phase : s.phase <;> simp only [phase] at found
  case nominatePrepare =>
    split at found
    · split at found <;> cases found
    · cases found
  all_goals first | rfl | cases found

theorem Sends.decided {out : List (Msg ID V)} (sends : Sends t s' out) {m : Msg ID V}
    (sent : m ∈ out) {payload : ExternalizePayload V} (externalizes : m.topic = .externalize payload) :
    Decided s' := by
  rcases sends.spec with ⟨rfl, rfl⟩ | ⟨topic, found, -, rfl, rfl⟩
  · cases sent
  rw [List.mem_singleton] at sent
  subst sent
  have inPhase : t.phase = .externalize := by
    rw [show topic = .externalize payload from externalizes] at found
    exact outTopic_externalize_phase found
  obtain ⟨c, h, foundC, -, rfl⟩ := outTopic_externalize inPhase found
  exact ⟨inPhase, c, h.N, foundC, rfl⟩

theorem step_frame {i : Input ID V} {out : List (Msg ID V)}
    (stepped : step fns s i = .ok (s', out)) :
    s'.slotIndex = s.slotIndex ∧ s'.nodeId = s.nodeId ∧ s'.quorumSet = s.quorumSet := by
  obtain ⟨t, internal, sends⟩ := step_sends stepped
  rcases sends.spec with ⟨rfl, -⟩ | ⟨topic, -, -, -, rfl⟩
  all_goals exact ⟨internal.slotIndex_eq, internal.nodeId_eq, internal.quorumSet_eq⟩

theorem step_sent {i : Input ID V} {out : List (Msg ID V)}
    (stepped : step fns s i = .ok (s', out)) :
    ∀ m ∈ out, m.senderId = s.nodeId ∧ m.quorumSet = s.quorumSet ∧ m.slotIndex = s.slotIndex := by
  obtain ⟨t, internal, sends⟩ := step_sends stepped
  rcases sends.spec with ⟨-, rfl⟩ | ⟨topic, -, -, rfl, -⟩
  · nofun
  · intro m sent
    rw [List.mem_singleton.mp sent]
    exact ⟨internal.nodeId_eq, internal.quorumSet_eq, internal.slotIndex_eq⟩

theorem step_decided {i : Input ID V} {out : List (Msg ID V)}
    (stepped : step fns s i = .ok (s', out)) {m : Msg ID V} (sent : m ∈ out)
    {payload : ExternalizePayload V} (externalizes : m.topic = .externalize payload) :
    Decided s' := by
  obtain ⟨t, -, sends⟩ := step_sends stepped
  exact sends.decided sent externalizes

theorem Decided.step (decided : Decided s) {i : Input ID V} {out : List (Msg ID V)}
    (stepped : step fns s i = .ok (s', out)) : Decided s' ∧ s'.C = s.C := by
  obtain ⟨inPhase, c, hn, foundC, last⟩ := decided
  obtain ⟨advances, sameIndex, sameNode, sameQuorum, sends⟩ := step_externalized inPhase stepped
  have phase' : s'.phase = .externalize :=
    Phase.eq_externalize_of_le (inPhase ▸ advances.phase_le)
  have sameC : s'.C = s.C := (advances.decided inPhase).2.1
  rcases sends with quiet | ⟨c', h', foundC', -, rfl, sent, -⟩
  · refine ⟨⟨phase', c, hn, sameC ▸ foundC, ?_⟩, sameC⟩
    rw [quiet.2, last, sameIndex, sameNode, sameQuorum]
  · refine ⟨⟨phase', c', h'.N, foundC', ?_⟩, sameC⟩
    rw [sent, sameIndex, sameNode, sameQuorum]
    rfl

omit [LinearOrder V] in
theorem new_frame {nodeId : ID} {quorumSet : QuorumSet ID} {slotIndex : UInt64}
    (created : Slot.new fns nodeId quorumSet slotIndex = .ok s) :
    s.slotIndex = slotIndex ∧ s.nodeId = nodeId ∧ s.quorumSet = quorumSet := by
  unfold Slot.new at created
  obtain ⟨leader, -, created⟩ := bind_ok created
  cases created
  exact ⟨rfl, rfl, rfl⟩

theorem step_proposeValues {now : ℕ} {values : List V} {msg : Option (Msg ID V)}
    (proposed : s.proposeValues fns now values = .ok (s', msg)) :
    step fns s (.proposeValues now values) = .ok (s', msg.toList) := by
  rw [step, proposed]
  rfl

theorem step_handleMessages {now : ℕ} {msgs : List (Msg ID V)} {msg : Option (Msg ID V)}
    (handled : s.handleMessages fns now msgs = .ok (s', msg)) :
    step fns s (.handleMessages now msgs) = .ok (s', msg.toList) := by
  rw [step, handled]
  rfl

variable (fns) in
/-- What the node makes of its slots: a call, or none when no message is for the slot. -/
def Call (s s' : Slot ID V) (out : List (Msg ID V)) : Prop :=
  (s' = s ∧ out = []) ∨ ∃ i, step fns s i = .ok (s', out)

variable {out : List (Msg ID V)}

theorem Call.frame (call : Call fns s s' out) :
    s'.slotIndex = s.slotIndex ∧ s'.nodeId = s.nodeId ∧ s'.quorumSet = s.quorumSet := by
  rcases call with ⟨rfl, -⟩ | ⟨i, stepped⟩
  · exact ⟨rfl, rfl, rfl⟩
  · exact step_frame stepped

theorem Call.sent (call : Call fns s s' out) :
    ∀ m ∈ out, m.senderId = s.nodeId ∧ m.quorumSet = s.quorumSet ∧ m.slotIndex = s.slotIndex := by
  rcases call with ⟨-, rfl⟩ | ⟨i, stepped⟩
  · nofun
  · exact step_sent stepped

theorem Call.decided (call : Call fns s s' out) (decided : Decided s) : Decided s' ∧ s'.C = s.C := by
  rcases call with ⟨rfl, -⟩ | ⟨i, stepped⟩
  · exact ⟨decided, rfl⟩
  · exact decided.step stepped

theorem Call.externalizes (call : Call fns s s' out) {m : Msg ID V} (sent : m ∈ out)
    {payload : ExternalizePayload V} (externalizes : m.topic = .externalize payload) : Decided s' := by
  rcases call with ⟨-, rfl⟩ | ⟨i, stepped⟩
  · cases sent
  · exact step_decided stepped sent externalizes

end Slot

namespace Node

variable {NodeID V : Type} [DecidableEq NodeID] [LinearOrder V] {fns : Fns NodeID V}
variable {n n' n₁ : Node NodeID V}

/-- The slots of a node are its own, and it keeps at most `MAX_EXTERNALIZED_SLOTS` externalized
slots, each decided, at the index before the current slot's. -/
structure WellFormed (n : Node NodeID V) : Prop where
  maxExternalizedSlots_eq : n.maxExternalizedSlots = MAX_EXTERNALIZED_SLOTS
  current_owned : n.currentSlot.nodeId = n.ID ∧ n.currentSlot.quorumSet = n.Q
  owned : ∀ slot ∈ n.externalizedSlots, slot.nodeId = n.ID ∧ slot.quorumSet = n.Q
  decided : ∀ slot ∈ n.externalizedSlots, slot.Decided
  slotIndex_succ : ∀ slot ∈ n.externalizedSlots, slot.slotIndex + 1 = n.currentSlot.slotIndex

/-- An externalized slot and what a call made of it: the same index and `C`. -/
def Same (slot slot' : Slot NodeID V) : Prop :=
  slot'.slotIndex = slot.slotIndex ∧ slot'.C = slot.C

/-- What a call does to the externalized slots: it keeps the index and `C` of each, or it
replaces them by slots at indices for which the node had none. -/
def Retains (n n' : Node NodeID V) : Prop :=
  List.Forall₂ Same n.externalizedSlots n'.externalizedSlots ∨
    ∀ slot' ∈ n'.externalizedSlots, n.getExternalizedSlot slot'.slotIndex = none

omit [DecidableEq NodeID] [LinearOrder V] in
theorem getExternalizedSlot_current (wf : n.WellFormed) :
    n.getExternalizedSlot n.currentSlot.slotIndex = none := by
  refine List.find?_eq_none.mpr fun slot present same => ?_
  have succ := wf.slotIndex_succ slot present
  rw [of_decide_eq_true same] at succ
  simp at succ

omit [DecidableEq NodeID] [LinearOrder V] in
theorem Retains.of_externalizedSlots (wf : n.WellFormed)
    (kept : List.Forall₂ Same n.externalizedSlots n₁.externalizedSlots)
    {slot : Slot NodeID V} (current : slot.slotIndex = n.currentSlot.slotIndex)
    (queued : n'.externalizedSlots = n₁.externalizedSlots ∨ n'.externalizedSlots = [slot]) :
    Retains n n' := by
  rcases queued with same | queued
  · exact Or.inl (same ▸ kept)
  · right
    intro slot' present
    rw [queued, List.mem_singleton] at present
    rw [present, current]
    exact getExternalizedSlot_current wf

/-! ### The calls -/

omit [DecidableEq NodeID] [LinearOrder V] in
theorem WellFormed.of_fresh (maxOne : n.maxExternalizedSlots = MAX_EXTERNALIZED_SLOTS)
    (owned : n.currentSlot.nodeId = n.ID ∧ n.currentSlot.quorumSet = n.Q)
    (empty : n.externalizedSlots = []) : n.WellFormed :=
  ⟨maxOne, owned, by simp [empty], by simp [empty], by simp [empty]⟩

omit [LinearOrder V] in
theorem externalizeOn_spec (maxOne : n.maxExternalizedSlots = MAX_EXTERNALIZED_SLOTS)
    {msg : Msg NodeID V} (externalized : n.externalizeOn fns msg = .ok n') :
    n' = n ∨ ∃ payload next, msg.topic = .externalize payload ∧
      Slot.new fns n.ID n.Q (n.currentSlot.slotIndex + 1) = .ok next ∧
      n' = { n with currentSlot := next, externalizedSlots := [n.currentSlot] } := by
  unfold externalizeOn at externalized
  split at externalized
  case h_1 payload externalizes =>
    right
    unfold externalize at externalized
    obtain ⟨next, created, externalized⟩ := bind_ok externalized
    cases externalized
    refine ⟨payload, next, externalizes, mapError_eq_ok.mp created, ?_⟩
    simp [pushExternalizedSlot, maxOne, MAX_EXTERNALIZED_SLOTS]
  case h_2 => exact Or.inl (Except.ok.inj externalized).symm

/-- The current slot made a call; the node takes the slot it left, and externalizes on an
Externalize that the call sent. -/
theorem WellFormed.afterCall (wf : n.WellFormed) {slot : Slot NodeID V} {out : List (Msg NodeID V)}
    (call : Slot.Call fns n.currentSlot slot out)
    (after : n' = { n with currentSlot := slot } ∨
      ∃ m ∈ out, { n with currentSlot := slot }.externalizeOn fns m = .ok n') :
    n'.WellFormed ∧ (n'.externalizedSlots = n.externalizedSlots ∨ n'.externalizedSlots = [slot]) ∧
      n'.ID = n.ID ∧ n'.Q = n.Q := by
  obtain ⟨sameIndex, sameNode, sameQuorum⟩ := call.frame
  have current : WellFormed { n with currentSlot := slot } :=
    ⟨wf.maxExternalizedSlots_eq, ⟨sameNode.trans wf.current_owned.1,
      sameQuorum.trans wf.current_owned.2⟩, wf.owned, wf.decided,
      fun queued present => (wf.slotIndex_succ queued present).trans sameIndex.symm⟩
  rcases after with rfl | ⟨m, sent, externalized⟩
  · exact ⟨current, Or.inl rfl, rfl, rfl⟩
  rcases externalizeOn_spec current.maxExternalizedSlots_eq externalized with
    rfl | ⟨payload, next, externalizes, created, rfl⟩
  · exact ⟨current, Or.inl rfl, rfl, rfl⟩
  obtain ⟨nextIndex, nextNode, nextQuorum⟩ := Slot.new_frame created
  refine ⟨⟨current.maxExternalizedSlots_eq, ⟨nextNode, nextQuorum⟩, ?_, ?_, ?_⟩, Or.inr rfl, rfl, rfl⟩
  all_goals
    intro queued present
    rw [List.mem_singleton.mp present]
  · exact current.current_owned
  · exact call.externalizes sent externalizes
  · exact nextIndex.symm

theorem sent_of_owned {slot slot' : Slot NodeID V} {out : List (Msg NodeID V)}
    (owned : slot.nodeId = n.ID ∧ slot.quorumSet = n.Q) (call : Slot.Call fns slot slot' out) :
    ∀ m ∈ out, m.senderId = n.ID ∧ m.quorumSet = n.Q := by
  intro m sent
  obtain ⟨sender, quorum, -⟩ := call.sent m sent
  exact ⟨sender.trans owned.1, quorum.trans owned.2⟩

/-- What a call does to a well-formed node: it stays well formed, with its node and quorum set,
keeps or forgets its externalized slots, and returns only messages it sends as itself. -/
structure Called (n n' : Node NodeID V) (out : List (Msg NodeID V)) : Prop where
  wellFormed : n'.WellFormed
  retains : Retains n n'
  ID_eq : n'.ID = n.ID
  Q_eq : n'.Q = n.Q
  sent : ∀ m ∈ out, m.senderId = n.ID ∧ m.quorumSet = n.Q

omit [DecidableEq NodeID] [LinearOrder V] in
theorem forall₂_same (l : List (Slot NodeID V)) : List.Forall₂ Same l l :=
  List.forall₂_same.mpr fun _ _ => ⟨rfl, rfl⟩

theorem handleSlotMessages_call {now : ℕ} {msgs : List (Msg NodeID V)}
    {slot slot' : Slot NodeID V} {msg : Option (Msg NodeID V)}
    (handled : handleSlotMessages fns now msgs slot = .ok (slot', msg)) :
    Slot.Call fns slot slot' msg.toList := by
  unfold handleSlotMessages at handled
  dsimp only at handled
  split at handled
  · cases handled
    exact Or.inl ⟨rfl, rfl⟩
  · exact Or.inr ⟨_, Slot.step_handleMessages (mapError_eq_ok.mp handled)⟩

/-- The externalized slots handle their messages: each stays decided, at its index and with
its `C`, and sends as the node. -/
theorem WellFormed.of_calls (wf : n.WellFormed) {handled : List (Slot NodeID V × Option (Msg NodeID V))}
    (calls : List.Forall₂ (fun slot h => Slot.Call fns slot h.1 h.2.toList) n.externalizedSlots handled) :
    WellFormed { n with externalizedSlots := handled.map Prod.fst } ∧
      List.Forall₂ Same n.externalizedSlots (handled.map Prod.fst) ∧
      ∀ m ∈ handled.filterMap Prod.snd, m.senderId = n.ID ∧ m.quorumSet = n.Q := by
  have each : ∀ h ∈ handled, ∃ slot ∈ n.externalizedSlots, Slot.Call fns slot h.1 h.2.toList :=
    Forall₂.exists_of_mem_right calls
  have kept : List.Forall₂ Same n.externalizedSlots (handled.map Prod.fst) :=
    List.forall₂_map_right_iff.mpr (((List.forall₂_and_left _ _).mpr ⟨wf.decided, calls⟩).imp
      fun _ _ ⟨decided, call⟩ => ⟨call.frame.1, (call.decided decided).2⟩)
  refine ⟨⟨wf.maxExternalizedSlots_eq, wf.current_owned, ?_, ?_, ?_⟩, kept, ?_⟩
  all_goals try
    intro slot' present
    obtain ⟨h, member, rfl⟩ := List.mem_map.mp present
    obtain ⟨slot, queued, call⟩ := each h member
    obtain ⟨sameIndex, sameNode, sameQuorum⟩ := call.frame
  · exact ⟨sameNode.trans (wf.owned slot queued).1, sameQuorum.trans (wf.owned slot queued).2⟩
  · exact (call.decided (wf.decided slot queued)).1
  · rw [sameIndex]
    exact wf.slotIndex_succ slot queued
  · intro m present
    obtain ⟨h, member, found⟩ := List.mem_filterMap.mp present
    obtain ⟨slot, queued, call⟩ := each h member
    exact sent_of_owned (wf.owned slot queued) call m (by simp [found])

theorem proposeValues_called (wf : n.WellFormed) {now : ℕ} {values : List V}
    {msg : Option (Msg NodeID V)} (proposed : n.proposeValues fns now values = .ok (n', msg)) :
    Called n n' msg.toList := by
  unfold proposeValues at proposed
  split at proposed
  · cases proposed
    exact ⟨wf, Or.inl (forall₂_same _), rfl, rfl, nofun⟩
  obtain ⟨⟨slot, sent⟩, called, proposed⟩ := bind_ok proposed
  have call : Slot.Call fns n.currentSlot slot sent.toList :=
    Or.inr ⟨_, Slot.step_proposeValues (mapError_eq_ok.mp called)⟩
  -- the node takes the slot, and externalizes on the message it sent
  obtain ⟨after, rfl⟩ : (n' = { n with currentSlot := slot } ∨
      ∃ m ∈ sent.toList, { n with currentSlot := slot }.externalizeOn fns m = .ok n') ∧
      msg = sent := by
    cases sent with
    | none =>
      cases proposed
      exact ⟨Or.inl rfl, rfl⟩
    | some m =>
      obtain ⟨externalized, advanced, proposed⟩ := bind_ok proposed
      cases proposed
      exact ⟨Or.inr ⟨m, List.mem_singleton_self m, advanced⟩, rfl⟩
  obtain ⟨wf', queued, sameID, sameQ⟩ := wf.afterCall call after
  exact ⟨wf', Retains.of_externalizedSlots wf (forall₂_same _) call.frame.1 queued, sameID, sameQ,
    sent_of_owned wf.current_owned call⟩

theorem handleMessages_called (wf : n.WellFormed) {now : ℕ} {msgs out : List (Msg NodeID V)}
    (handled : n.handleMessages fns now msgs = .ok (n', out)) : Called n n' out := by
  unfold handleMessages at handled
  obtain ⟨mapped, mappedOk, handled⟩ := bind_ok handled
  obtain ⟨wf₁, kept, outbound⟩ :=
    wf.of_calls ((mapM_ok_forall₂ mappedOk).imp fun _ _ => handleSlotMessages_call)
  obtain ⟨⟨slot, response⟩, called, handled⟩ := bind_ok handled
  have call := handleSlotMessages_call called
  -- the node takes the current slot, and externalizes on its response
  obtain ⟨after, rfl⟩ : (n' = { n with externalizedSlots := mapped.map Prod.fst, currentSlot := slot } ∨
      ∃ m ∈ response.toList,
        { n with externalizedSlots := mapped.map Prod.fst, currentSlot := slot }.externalizeOn fns m =
          .ok n') ∧
      out = mapped.filterMap Prod.snd ++ response.toList := by
    cases response with
    | none =>
      cases handled
      exact ⟨Or.inl rfl, (List.append_nil _).symm⟩
    | some m =>
      obtain ⟨externalized, advanced, handled⟩ := bind_ok handled
      cases handled
      exact ⟨Or.inr ⟨m, List.mem_singleton_self m, advanced⟩, rfl⟩
  obtain ⟨wf', queued, sameID, sameQ⟩ := wf₁.afterCall call after
  refine ⟨wf', Retains.of_externalizedSlots wf kept call.frame.1 queued, sameID, sameQ, ?_⟩
  intro m sent
  rcases List.mem_append.mp sent with sent | sent
  · exact outbound m sent
  · exact sent_of_owned wf.current_owned call m sent

theorem processTimeouts_called (wf : n.WellFormed) {now : ℕ} {out : List (Msg NodeID V)}
    (processed : n.processTimeouts fns now = .ok (n', out)) : Called n n' out := by
  unfold processTimeouts at processed
  obtain ⟨⟨slot, sent⟩, called, processed⟩ := bind_ok processed
  cases processed
  have call : Slot.Call fns n.currentSlot slot out :=
    Or.inr ⟨.processTimeouts now, mapError_eq_ok.mp called⟩
  obtain ⟨wf', queued, sameID, sameQ⟩ := wf.afterCall call (Or.inl rfl)
  exact ⟨wf', Retains.of_externalizedSlots wf (forall₂_same _) call.frame.1 queued, sameID, sameQ,
    sent_of_owned wf.current_owned call⟩

omit [LinearOrder V] in
theorem resetSlotIndex_called (wf : n.WellFormed) {slotIndex : UInt64}
    (reset : n.resetSlotIndex fns slotIndex = .ok n') : Called n n' [] := by
  unfold resetSlotIndex at reset
  obtain ⟨slot, created, reset⟩ := bind_ok reset
  cases reset
  obtain ⟨-, sameNode, sameQuorum⟩ := Slot.new_frame (mapError_eq_ok.mp created)
  refine ⟨WellFormed.of_fresh wf.maxExternalizedSlots_eq ⟨sameNode, sameQuorum⟩ rfl, Or.inr ?_,
    rfl, rfl, nofun⟩
  simp

theorem WellFormed.step (wf : n.WellFormed) {i : Input NodeID V} {out : List (Msg NodeID V)}
    (stepped : n.step fns i = .ok (n', out)) : Called n n' out := by
  cases i with
  | proposeValues now values =>
    obtain ⟨⟨proposed, msg⟩, called, stepped⟩ := bind_ok stepped
    cases stepped
    exact proposeValues_called wf called
  | handleMessages now msgs => exact handleMessages_called wf stepped
  | processTimeouts now => exact processTimeouts_called wf stepped
  | resetSlotIndex slotIndex =>
    obtain ⟨reset, called, stepped⟩ := bind_ok stepped
    cases stepped
    exact resetSlotIndex_called wf called

omit [LinearOrder V] in
theorem new_wellFormed {nodeId : NodeID} {quorumSet : QuorumSet NodeID} {slotIndex : UInt64}
    (created : Node.new fns nodeId quorumSet slotIndex = .ok n) : n.WellFormed := by
  unfold Node.new at created
  obtain ⟨slot, createdSlot, created⟩ := bind_ok created
  cases created
  obtain ⟨-, sameNode, sameQuorum⟩ := Slot.new_frame (mapError_eq_ok.mp createdSlot)
  exact WellFormed.of_fresh rfl ⟨sameNode, sameQuorum⟩ rfl

/-! ### Panics

A call of the node panics only in a slot: the node's own panics are those of
`get_externalized_values`. -/

omit [LinearOrder V] in
theorem externalizeOn_error {msg : Msg NodeID V} {e : NodePanic}
    (failed : n.externalizeOn fns msg = .error e) : ∃ panic, e = .slot panic := by
  unfold externalizeOn at failed
  split at failed
  · unfold externalize at failed
    rcases bind_error_iff.mp failed with created | ⟨next, -, pushed⟩
    · obtain ⟨panic, -, rfl⟩ := mapError_eq_error.mp created
      exact ⟨panic, rfl⟩
    · cases pushed
  · cases failed

theorem proposeValues_error {now : ℕ} {values : List V} {e : NodePanic}
    (failed : n.proposeValues fns now values = .error e) : ∃ panic, e = .slot panic := by
  unfold proposeValues at failed
  split at failed
  · cases failed
  rcases bind_error_iff.mp failed with called | ⟨⟨slot, sent⟩, -, failed⟩
  · obtain ⟨panic, -, rfl⟩ := mapError_eq_error.mp called
    exact ⟨panic, rfl⟩
  cases sent with
  | none => cases failed
  | some m =>
    rcases bind_error_iff.mp failed with externalized | ⟨_, -, done⟩
    · exact externalizeOn_error externalized
    · cases done

theorem handleSlotMessages_error {now : ℕ} {msgs : List (Msg NodeID V)} {slot : Slot NodeID V}
    {e : NodePanic} (failed : handleSlotMessages fns now msgs slot = .error e) :
    ∃ panic, e = .slot panic := by
  unfold handleSlotMessages at failed
  dsimp only at failed
  split at failed
  · cases failed
  · obtain ⟨panic, -, rfl⟩ := mapError_eq_error.mp failed
    exact ⟨panic, rfl⟩

theorem handleMessages_error {now : ℕ} {msgs : List (Msg NodeID V)} {e : NodePanic}
    (failed : n.handleMessages fns now msgs = .error e) : ∃ panic, e = .slot panic := by
  unfold handleMessages at failed
  rcases bind_error_iff.mp failed with mapped | ⟨handled, -, failed⟩
  · exact mapM_error (fun _ _ => handleSlotMessages_error) mapped
  rcases bind_error_iff.mp failed with called | ⟨⟨slot, response⟩, -, failed⟩
  · exact handleSlotMessages_error called
  cases response with
  | none => cases failed
  | some m =>
    rcases bind_error_iff.mp failed with externalized | ⟨_, -, done⟩
    · exact externalizeOn_error externalized
    · cases done

theorem processTimeouts_error {now : ℕ} {e : NodePanic}
    (failed : n.processTimeouts fns now = .error e) : ∃ panic, e = .slot panic := by
  unfold processTimeouts at failed
  rcases bind_error_iff.mp failed with called | ⟨_, -, done⟩
  · obtain ⟨panic, -, rfl⟩ := mapError_eq_error.mp called
    exact ⟨panic, rfl⟩
  · cases done

omit [LinearOrder V] in
theorem resetSlotIndex_error {slotIndex : UInt64} {e : NodePanic}
    (failed : n.resetSlotIndex fns slotIndex = .error e) : ∃ panic, e = .slot panic := by
  unfold resetSlotIndex at failed
  rcases bind_error_iff.mp failed with created | ⟨_, -, done⟩
  · obtain ⟨panic, -, rfl⟩ := mapError_eq_error.mp created
    exact ⟨panic, rfl⟩
  · cases done

/-! ### The externalized values -/

omit [DecidableEq NodeID] [LinearOrder V] in
/-- On a well-formed node `get_externalized_values` returns the values of the `C` of the
externalized slot of the index, and never reaches its `expect` or its `panic!`. -/
theorem getExternalizedValues_eq (wf : n.WellFormed) (slotIndex : UInt64) :
    n.getExternalizedValues slotIndex =
      .ok ((n.getExternalizedSlot slotIndex).bind fun slot => slot.C.map (·.X)) := by
  unfold getExternalizedValues
  cases found : n.getExternalizedSlot slotIndex with
  | none => rfl
  | some slot =>
    obtain ⟨-, c, hn, foundC, last⟩ := wf.decided slot (List.mem_of_find?_eq_some found)
    simp [last, foundC, Msg.new]

omit [DecidableEq NodeID] [LinearOrder V] in
theorem Retains.values (wf : n.WellFormed) (wf' : n'.WellFormed) (retains : Retains n n')
    {slotIndex : UInt64} {values : List V}
    (reported : n.getExternalizedValues slotIndex = .ok (some values)) :
    n'.getExternalizedValues slotIndex = .ok (some values) ∨
      n'.getExternalizedValues slotIndex = .ok none := by
  rw [getExternalizedValues_eq wf, Except.ok.injEq] at reported
  rw [getExternalizedValues_eq wf', Except.ok.injEq, Except.ok.injEq]
  rcases retains with kept | fresh
  · -- the search finds the slot the call made of the one found before
    have related : Option.Rel Same (n.getExternalizedSlot slotIndex) (n'.getExternalizedSlot slotIndex) :=
      find?_forall₂ (fun _ _ same => by rw [same.1]) kept
    generalize n.getExternalizedSlot slotIndex = before at related reported
    generalize n'.getExternalizedSlot slotIndex = after at related
    cases related with
    | none => cases reported
    | some same =>
      left
      rw [← reported, Option.bind_some, Option.bind_some, same.2]
  · -- a slot the call queued is at an index the node had no slot for
    right
    cases found : n'.getExternalizedSlot slotIndex with
    | none => rfl
    | some slot' =>
      unfold getExternalizedSlot at found
      have atIndex := List.find?_some found
      simp only [decide_eq_true_eq] at atIndex
      have missing := fresh slot' (List.mem_of_find?_eq_some found)
      rw [atIndex] at missing
      rw [missing] at reported
      cases reported

/-! ### Runs -/

theorem reachable_wellFormed {nodeId : NodeID} {quorumSet : QuorumSet NodeID} {slotIndex : UInt64}
    {n₀ : Node NodeID V} {inputs : List (Input NodeID V)} {msgs : List (Msg NodeID V)}
    (created : Node.new fns nodeId quorumSet slotIndex = .ok n₀)
    (ran : n₀.run fns inputs = .ok (n, msgs)) : n.WellFormed :=
  runSteps_invariant (fun wf stepped => (wf.step stepped).wellFormed) (new_wellFormed created) ran

/-- On every node a run from `Node::new` reaches, `get_externalized_values` returns the values of
the `C` of the externalized slot of the index, and never panics. -/
theorem run_getExternalizedValues {nodeId : NodeID} {quorumSet : QuorumSet NodeID}
    {slotIndex : UInt64} {n₀ : Node NodeID V} {inputs : List (Input NodeID V)}
    {msgs : List (Msg NodeID V)} (created : Node.new fns nodeId quorumSet slotIndex = .ok n₀)
    (ran : n₀.run fns inputs = .ok (n, msgs)) (index : UInt64) :
    n.getExternalizedValues index =
      .ok ((n.getExternalizedSlot index).bind fun slot => slot.C.map (·.X)) :=
  getExternalizedValues_eq (reachable_wellFormed created ran) index

/-- A node whose quorum set is empty is a quorum alone: it externalizes the values it proposes in
one call, and a timeout with no timer set changes nothing. -/
theorem proposeValues_alone :
    let fns : Fns ℕ ℕ := ⟨fun _ => .ok (), fun values => .ok values, fun _ _ _ _ => 0⟩
    let quorumSet : QuorumSet ℕ := QuorumSet.newWithNodeIds 0 []
    let fresh (slotIndex : UInt64) : Slot ℕ ℕ :=
      { slotIndex, nodeId := 1, quorumSet, M := [], W := [], X := [], Y := [], Z := [],
        B := Ballot.new 0 [], P := none, PP := none, C := none, H := none,
        phase := .nominatePrepare, lastSentMsg := none, maxPriorityPeers := [1], nominateRound := 1,
        nextNominateRoundAt := none, nextBallotAt := none, validValues := [],
        baseRoundInterval := 1000, baseBallotInterval := 1000 }
    let m : Msg ℕ ℕ := Msg.new 1 quorumSet 0 (.externalize ⟨Ballot.new 1 [7], 1⟩)
    let n₀ : Node ℕ ℕ := ⟨1, quorumSet, fresh 0, 1, []⟩
    let n : Node ℕ ℕ := ⟨1, quorumSet, fresh 1, 1, [{ fresh 0 with
      W := [7], Y := [7], Z := [7], B := Ballot.new 1 [7], P := some (Ballot.new 1 [7]),
      H := some (Ballot.new 1 [7]), C := some (Ballot.new 1 [7]), phase := .externalize,
      lastSentMsg := some m, validValues := [7] }]⟩
    Node.new fns 1 quorumSet 0 = .ok n₀ ∧ n₀.run fns [.proposeValues 0 [7]] = .ok (n, [m]) ∧
      n.getExternalizedValues 0 = .ok (some [7]) ∧ n.step fns (.processTimeouts 2000) = .ok (n, []) := by
  intro fns quorumSet fresh m n₀ n
  refine ⟨?_, ?_, ?_, ?_⟩ <;> decide +kernel

theorem run_getExternalizedValues_alone :
    let fns : Fns ℕ ℕ := ⟨fun _ => .ok (), fun values => .ok values, fun _ _ _ _ => 0⟩
    let quorumSet : QuorumSet ℕ := QuorumSet.newWithNodeIds 0 []
    ∃ (n₀ n : Node ℕ ℕ) (msgs : List (Msg ℕ ℕ)),
      Node.new fns 1 quorumSet 0 = .ok n₀ ∧ n₀.run fns [.proposeValues 0 [7]] = .ok (n, msgs) ∧
      n.getExternalizedValues 0 = .ok ((n.getExternalizedSlot 0).bind fun slot => slot.C.map (·.X)) := by
  obtain ⟨created, ran, -, -⟩ := proposeValues_alone
  exact ⟨_, _, _, created, ran, run_getExternalizedValues created ran 0⟩

/-- On every node a run from `Node::new` reaches, a call keeps the values reported for an
index, or forgets them: it never reports others. -/
theorem run_step_externalized_values {nodeId : NodeID} {quorumSet : QuorumSet NodeID}
    {slotIndex : UInt64} {n₀ : Node NodeID V} {inputs : List (Input NodeID V)}
    {msgs out : List (Msg NodeID V)} {i : Input NodeID V} {index : UInt64} {values : List V}
    (created : Node.new fns nodeId quorumSet slotIndex = .ok n₀)
    (ran : n₀.run fns inputs = .ok (n, msgs)) (stepped : n.step fns i = .ok (n', out))
    (reported : n.getExternalizedValues index = .ok (some values)) :
    n'.getExternalizedValues index = .ok (some values) ∨
      n'.getExternalizedValues index = .ok none := by
  have wf := reachable_wellFormed created ran
  have called := wf.step stepped
  exact called.retains.values wf called.wellFormed reported

theorem run_step_externalized_values_alone :
    let fns : Fns ℕ ℕ := ⟨fun _ => .ok (), fun values => .ok values, fun _ _ _ _ => 0⟩
    let quorumSet : QuorumSet ℕ := QuorumSet.newWithNodeIds 0 []
    ∃ (n₀ n : Node ℕ ℕ) (msgs : List (Msg ℕ ℕ)),
      Node.new fns 1 quorumSet 0 = .ok n₀ ∧ n₀.run fns [.proposeValues 0 [7]] = .ok (n, msgs) ∧
      n.step fns (.processTimeouts 2000) = .ok (n, []) ∧ n.getExternalizedValues 0 = .ok (some [7]) ∧
      (n.getExternalizedValues 0 = .ok (some [7]) ∨ n.getExternalizedValues 0 = .ok none) := by
  obtain ⟨created, ran, reported, stepped⟩ := proposeValues_alone
  exact ⟨_, _, _, created, ran, stepped, reported,
    run_step_externalized_values created ran stepped reported⟩

/-- Every message a run from `Node::new` returns is sent as the node, with its quorum set. -/
theorem run_sent_as_node {nodeId : NodeID} {quorumSet : QuorumSet NodeID} {slotIndex : UInt64}
    {n₀ : Node NodeID V} {inputs : List (Input NodeID V)} {msgs : List (Msg NodeID V)}
    (created : Node.new fns nodeId quorumSet slotIndex = .ok n₀)
    (ran : n₀.run fns inputs = .ok (n, msgs)) :
    ∀ m ∈ msgs, m.senderId = nodeId ∧ m.quorumSet = quorumSet := by
  have fresh : n₀.WellFormed ∧ n₀.ID = nodeId ∧ n₀.Q = quorumSet := by
    refine ⟨new_wellFormed created, ?_⟩
    unfold Node.new at created
    obtain ⟨slot, -, created⟩ := bind_ok created
    cases created
    exact ⟨rfl, rfl⟩
  refine runSteps_outputs_of_invariant (I := fun n => n.WellFormed ∧ n.ID = nodeId ∧ n.Q = quorumSet)
    ?_ ?_ fresh ran
  · rintro n i n' out ⟨wf, sameID, sameQ⟩ stepped
    have called := wf.step stepped
    exact ⟨called.wellFormed, called.ID_eq.trans sameID, called.Q_eq.trans sameQ⟩
  · rintro n i n' out ⟨wf, rfl, rfl⟩ stepped
    exact (wf.step stepped).sent

theorem run_sent_as_node_alone :
    let fns : Fns ℕ ℕ := ⟨fun _ => .ok (), fun values => .ok values, fun _ _ _ _ => 0⟩
    let quorumSet : QuorumSet ℕ := QuorumSet.newWithNodeIds 0 []
    ∃ (n₀ n : Node ℕ ℕ) (msgs : List (Msg ℕ ℕ)),
      Node.new fns 1 quorumSet 0 = .ok n₀ ∧ n₀.run fns [.proposeValues 0 [7]] = .ok (n, msgs) ∧
      msgs ≠ [] ∧ ∀ m ∈ msgs, m.senderId = 1 ∧ m.quorumSet = quorumSet := by
  obtain ⟨created, ran, -, -⟩ := proposeValues_alone
  exact ⟨_, _, _, created, ran, List.cons_ne_nil _ _, run_sent_as_node created ran⟩

end Node

end MobileCoin.Scp
