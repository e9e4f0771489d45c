import MobileCoin.Scp.SearchSpec

/-!
# The unblocking ballot counter

`get_unblocking_ballot_counter` moves the counter up to the lowest counter in the blocking set
it finds above it, until it finds none. The blocking set found above a counter is still found,
nodes and all, above any counter below the lowest of its own; so no counter it skips is
unblocked, and it stops at the least counter that is.
-/

namespace MobileCoin.Scp

namespace QuorumSet

variable {ID : Type} [DecidableEq ID] {visit visit' : Unit → ID → Option Unit}

mutual
/-- A blocking search whose predicate holds of more of the nodes it returned still returns
nodes: the members it counted still count, and anything else it now counts only brings it
sooner to the number it needs. -/
theorem blockingMembers_ne_nil_of_accepts : ∀ (needed needed' : UInt32)
    (members : List (Option (QuorumSetMember ID))) (found found' result : List ID),
    (blockingMembers visit needed members () found).1 = result → result ≠ [] →
    (∀ n ∈ result, (visit () n).isSome = true → (visit' () n).isSome = true) →
    needed'.toNat ≤ needed.toNat → (found ≠ [] → found' ≠ []) →
    (needed'.toNat < needed.toNat → found' ≠ []) →
      (blockingMembers visit' needed' members () found').1 ≠ [] := by
  intro needed needed' members found found' result searched nonempty accepts fewer started sooner
  rw [blockingMembers.eq_def] at searched
  rw [blockingMembers.eq_def]
  by_cases zero' : needed' = 0
  · rw [if_pos zero']
    by_cases zero : needed = 0
    · rw [if_pos zero] at searched
      exact started fun none_ => nonempty (searched.symm.trans none_)
    · apply sooner
      have : needed.toNat ≠ 0 := fun none_ => zero (UInt32.toNat_inj.mp (by simpa using none_))
      simp only [zero', UInt32.toNat_zero]
      omega
  have zero : needed ≠ 0 := by
    rintro rfl
    exact zero' (UInt32.toNat_inj.mp (by simp only [UInt32.toNat_zero] at fewer ⊢; omega))
  rw [if_neg zero] at searched
  rw [if_neg zero']
  split at searched
  · exact absurd searched.symm nonempty
  rw [if_neg (by omega)]
  match members, searched with
  | [], searched => exact absurd searched.symm nonempty
  | none :: rest, searched =>
    exact blockingMembers_ne_nil_of_accepts needed needed' rest found found' result searched
      nonempty accepts fewer started sooner
  | some (.node n) :: rest, searched =>
    dsimp only
    cases visited : visit () n with
    | some u =>
      simp only [visited] at searched
      have counted : n ∈ result := searched ▸
        blockingMembers_found_subset (searched ▸ nonempty) List.mem_insert_self
      obtain ⟨u', visited'⟩ := Option.isSome_iff_exists.mp (accepts n counted (by simp [visited]))
      simp only [visited']
      apply blockingMembers_ne_nil_of_accepts _ _ rest _ _ result searched nonempty accepts
        (by rw [toNat_sub_one zero, toNat_sub_one zero']; omega)
        (fun _ => List.ne_nil_of_mem List.mem_insert_self)
        (fun _ => List.ne_nil_of_mem List.mem_insert_self)
    | none =>
      simp only [visited] at searched
      cases visited' : visit' () n with
      | some u' =>
        apply blockingMembers_ne_nil_of_accepts _ _ rest _ _ result searched nonempty accepts
          (by rw [toNat_sub_one zero']; omega)
          (fun _ => List.ne_nil_of_mem List.mem_insert_self)
          (fun _ => List.ne_nil_of_mem List.mem_insert_self)
      | none =>
        exact blockingMembers_ne_nil_of_accepts needed needed' rest found found' result searched
          nonempty accepts fewer started sooner
  | some (.innerSet qs) :: rest, searched =>
    dsimp only
    rcases inner : blockingFrom visit qs () found with ⟨found2, pred2⟩
    rcases inner' : blockingFrom visit' qs () found' with ⟨found2', pred2'⟩
    simp only [inner] at searched
    by_cases empty : found2.isEmpty = true
    · simp only [empty, if_true] at searched
      by_cases empty' : found2'.isEmpty = true
      · simp only [empty', if_true]
        exact blockingMembers_ne_nil_of_accepts needed needed' rest found found' result searched
          nonempty accepts fewer started sooner
      · simp only [empty']
        apply blockingMembers_ne_nil_of_accepts _ _ rest _ _ result searched nonempty accepts
          (by rw [toNat_sub_one zero']; omega) (fun _ => by simpa using empty')
          (fun _ => by simpa using empty')
    · simp only [empty] at searched
      have innerNonempty : found2 ≠ [] := by simpa using empty
      have within : found2 ⊆ result := searched ▸
        blockingMembers_found_subset (searched ▸ nonempty)
      -- the inner set the first search counted is found blocked by the second as well
      have innerFound := blockingFrom_ne_nil_of_accepts qs found found' found2 (by rw [inner])
        innerNonempty (fun n member => accepts n (within member)) started
      rw [inner'] at innerFound
      have notEmpty' : found2'.isEmpty = false := by simpa using innerFound
      simp only [notEmpty']
      apply blockingMembers_ne_nil_of_accepts _ _ rest _ _ result searched nonempty accepts
        (by rw [toNat_sub_one zero, toNat_sub_one zero']; omega) (fun _ => innerFound)
        (fun _ => innerFound)
theorem blockingFrom_ne_nil_of_accepts : ∀ (qs : QuorumSet ID) (found found' result : List ID),
    (blockingFrom visit qs () found).1 = result → result ≠ [] →
    (∀ n ∈ result, (visit () n).isSome = true → (visit' () n).isSome = true) →
    (found ≠ [] → found' ≠ []) → (blockingFrom visit' qs () found').1 ≠ []
  | mk _ members, found, found', result, searched, nonempty, accepts, started =>
    blockingMembers_ne_nil_of_accepts _ _ members found found' result searched nonempty accepts
      le_rfl started (fun less => absurd less (lt_irrefl _))
end

end QuorumSet

theorem mem_of_lookup_eq_some {ID M : Type} [DecidableEq ID] {msgs : List (ID × M)} {n : ID}
    {msg : M} (found : msgs.lookup n = some msg) : (n, msg) ∈ msgs := by
  obtain ⟨before, after, split, _⟩ := List.lookup_eq_some_iff.mp found
  rw [split]
  exact List.mem_append_right _ List.mem_cons_self

theorem countP_lt_countP {α : Type} {p q : α → Bool} {l : List α}
    (weaker : ∀ a ∈ l, p a = true → q a = true) (extra : ∃ a ∈ l, q a = true ∧ p a = false) :
    l.countP p < l.countP q := by
  induction l with
  | nil => simp at extra
  | cons a rest ih =>
    rw [List.countP_cons, List.countP_cons]
    have later := List.countP_mono_left fun b member => weaker b (List.mem_cons_of_mem a member)
    obtain ⟨b, member, holds, fails⟩ := extra
    rcases List.mem_cons.mp member with rfl | inRest
    · simp only [holds, fails, Bool.false_eq_true, if_false, if_true]
      omega
    · have strict := ih (fun c member => weaker c (List.mem_cons_of_mem a member))
        ⟨b, inRest, holds, fails⟩
      by_cases head : p a = true
      · simp only [head, weaker a List.mem_cons_self head, if_true]
        omega
      · simp only [head, Bool.false_eq_true, if_false]
        split <;> omega

namespace Slot

open QuorumSet

variable {ID V : Type} [DecidableEq ID]

/-- The nodes of the blocking set the slot finds among the nodes above counter `counter`. -/
def blockingAbove (s : Slot ID V) (counter : UInt32) : List ID :=
  (blockingFrom (nodeVisit s.M (funcNext fun msg => decide (counter < msg.bN))) s.quorumSet ()
    []).1

/-- The latest messages above counter `counter`. -/
def messagesAbove (s : Slot ID V) (counter : UInt32) : ℕ :=
  s.M.countP fun entry => decide (counter < entry.2.bN)

theorem findBlockingSet_above (s : Slot ID V) (counter : UInt32) :
    s.findBlockingSet (funcTest fun msg => decide (counter < msg.bN)) () =
      .ok (s.blockingAbove counter, ()) :=
  findBlockingSet_eq s.quorumSet

theorem above_of_mem_blockingAbove {s : Slot ID V} {counter : UInt32} {n : ID}
    (member : n ∈ s.blockingAbove counter) : ∃ msg, s.M.lookup n = some msg ∧ counter < msg.bN := by
  have passes := blockingFrom_passes (List.ne_nil_of_mem member) n member List.not_mem_nil
  simpa using nodeVisit_funcNext_isSome.mp passes

theorem blockingAbove_ne_nil_of_lt {s : Slot ID V} {counter lower : UInt32}
    (nonempty : s.blockingAbove counter ≠ [])
    (below : ∀ n ∈ s.blockingAbove counter, ∀ msg, s.M.lookup n = some msg → lower < msg.bN) :
    s.blockingAbove lower ≠ [] :=
  blockingFrom_ne_nil_of_accepts s.quorumSet [] [] _ rfl nonempty
    (fun n member _ => by
      obtain ⟨msg, found, _⟩ := above_of_mem_blockingAbove member
      exact nodeVisit_funcNext_isSome.mpr ⟨msg, found, by simpa using below n member msg found⟩)
    id

/-- The loop ends at the least counter from `counter` on with no blocking set above it, within
one round more than there are messages above `counter`. -/
theorem unblockingCounterFrom_least (s : Slot ID V) : ∀ (rounds : ℕ) (counter : UInt32),
    s.messagesAbove counter < rounds →
      ∃ unblocked, s.unblockingCounterFrom rounds counter = .ok unblocked ∧
        counter ≤ unblocked ∧ s.blockingAbove unblocked = [] ∧
        ∀ skipped, counter ≤ skipped → skipped < unblocked → s.blockingAbove skipped ≠ []
  | 0, _, enough => absurd enough (Nat.not_lt_zero _)
  | rounds + 1, counter, enough => by
    rw [unblockingCounterFrom, findBlockingSet_above, ok_bind]
    dsimp only
    by_cases empty : (s.blockingAbove counter).isEmpty = true
    · rw [if_pos empty]
      refine ⟨counter, rfl, UInt32.le_refl counter, by simpa using empty, fun skipped low high => ?_⟩
      simp only [UInt32.le_iff_toNat_le, UInt32.lt_iff_toNat_lt] at low high
      omega
    rw [if_neg empty]
    have nonempty : s.blockingAbove counter ≠ [] := by simpa using empty
    have sent : ∀ n ∈ s.blockingAbove counter, (s.M.lookup n).isSome = true := fun n member => by
      obtain ⟨msg, found, _⟩ := above_of_mem_blockingAbove member
      simp [found]
    rw [mapM_okOr_eq sent, ok_bind]
    -- the lowest counter of the blocking set
    obtain ⟨n, member⟩ := List.exists_mem_of_ne_nil _ nonempty
    obtain ⟨msg, found, above⟩ := above_of_mem_blockingAbove member
    have counted : msg.bN ∈ ((s.blockingAbove counter).filterMap fun n => s.M.lookup n).map Msg.bN :=
      List.mem_map_of_mem (List.mem_filterMap.mpr ⟨n, member, found⟩)
    obtain ⟨lowest, isLowest⟩ := Option.isSome_iff_exists.mp
      (List.isSome_min?_of_mem counted)
    rw [isLowest]
    dsimp only
    obtain ⟨lowestIn, lowestLe⟩ := List.min?_eq_some_iff.mp isLowest
    obtain ⟨lowestMsg, lowestFrom, lowestBN⟩ := List.mem_map.mp lowestIn
    obtain ⟨m, lowestMember, lowestFound⟩ := List.mem_filterMap.mp lowestFrom
    have raised : counter < lowest := by
      obtain ⟨msg', found', above'⟩ := above_of_mem_blockingAbove lowestMember
      rw [lowestFound] at found'
      cases found'
      exact lowestBN ▸ above'
    -- fewer messages are above the lowest counter: its own message no longer is
    have fewer : s.messagesAbove lowest < s.messagesAbove counter := by
      apply countP_lt_countP
      · intro entry _ higher
        simpa using UInt32.lt_trans raised (by simpa using higher)
      · exact ⟨(m, lowestMsg), mem_of_lookup_eq_some lowestFound, by simpa [lowestBN] using raised,
          by simp [lowestBN]⟩
    obtain ⟨unblocked, loop, low, free, least⟩ :=
      unblockingCounterFrom_least s rounds lowest (by omega)
    refine ⟨unblocked, loop, UInt32.le_of_lt (UInt32.lt_of_lt_of_le raised low), free, ?_⟩
    intro skipped fromCounter belowUnblocked
    by_cases atLowest : lowest ≤ skipped
    · exact least skipped atLowest belowUnblocked
    · apply blockingAbove_ne_nil_of_lt nonempty
      intro n' member' msg' found'
      have atLeast := lowestLe msg'.bN (List.mem_map_of_mem
        (List.mem_filterMap.mpr ⟨n', member', found'⟩))
      exact UInt32.lt_of_lt_of_le (UInt32.not_le.mp atLowest) atLeast

theorem getUnblockingBallotCounter_least (s : Slot ID V) :
    ∃ counter, s.getUnblockingBallotCounter = .ok counter ∧ s.B.N ≤ counter ∧
      s.findBlockingSet (funcTest fun msg => counter < msg.bN) () = .ok ([], ()) ∧
      ∀ lower, s.B.N ≤ lower → lower < counter →
        ∃ blocking, s.findBlockingSet (funcTest fun msg => lower < msg.bN) () =
          .ok (blocking, ()) ∧ blocking ≠ [] := by
  obtain ⟨counter, loop, low, free, least⟩ := unblockingCounterFrom_least s (s.M.length + 1) s.B.N
    (Nat.lt_succ_of_le (List.countP_le_length))
  refine ⟨counter, loop, low, ?_, fun lower fromB below => ?_⟩
  · rw [findBlockingSet_above, free]
  · exact ⟨_, findBlockingSet_above s lower, least lower fromB below⟩

end Slot

end MobileCoin.Scp
