import Mathlib
import MobileCoin.Scp.QuorumSlices
import MobileCoin.Scp.QuorumSearch
import MobileCoin.Scp.Slot

/-!
# What the searches find

With a predicate that holds of a fixed set of nodes (a `FuncPredicate`), `findQuorum` finds a
quorum exactly when there is one and `findBlockingSet` a blocking set exactly when there is one,
and what they return is such a set. With a predicate that keeps the candidates each message
states, every node of the set found states every candidate returned.
-/

namespace MobileCoin.Scp.QuorumSet

variable {ID : Type} [DecidableEq ID]

/-! ### `u32` counters -/

mutual
def membersFit : List (Option (QuorumSetMember ID)) → Bool
  | [] => true
  | none :: rest => membersFit rest
  | some (.node _) :: rest => membersFit rest
  | some (.innerSet qs) :: rest => fits qs && membersFit rest
/-- Every member list of the set and of its inner sets has fewer than `2^32 - 1` members, so
that `members.len() as u32 - threshold + 1` is `n - k + 1`. -/
def fits : QuorumSet ID → Bool
  | mk _ members => members.length + 1 < 2 ^ 32 && membersFit members
end

theorem toNat_sub_one {n : UInt32} (nonzero : n ≠ 0) : (n - 1).toNat = n.toNat - 1 := by
  have positive : n.toNat ≠ 0 := fun zero => nonzero (UInt32.toNat_inj.mp (by simpa using zero))
  rw [UInt32.toNat_sub_of_le]
  · simp
  · rw [UInt32.le_iff_toNat_le]
    simp only [UInt32.reduceToNat]
    omega

/-- Past a member that counts `1` when it is present, the rest must supply one fewer of a
nonzero threshold. -/
theorem toNat_sub_one_le {threshold : UInt32} {present : Bool} {rest : ℕ} (nonzero : threshold ≠ 0)
    (enough : threshold.toNat ≤ (if present then 1 else 0) + rest) : (threshold - 1).toNat ≤ rest := by
  rw [toNat_sub_one nonzero]
  split at enough <;> omega

theorem toNat_le_of_sub_one_le {threshold : UInt32} {present : Bool} {rest : ℕ}
    (nonzero : threshold ≠ 0) (counted : present = true) (later : (threshold - 1).toNat ≤ rest) :
    threshold.toNat ≤ (if present then 1 else 0) + rest := by
  rw [toNat_sub_one nonzero] at later
  rw [if_pos counted]
  omega

theorem toNat_blockingNeeded {threshold : UInt32} {length : ℕ} (valid : threshold.toNat ≤ length)
    (fit : length + 1 < 2 ^ 32) :
    (UInt32.ofNat length - threshold + 1).toNat = blockingNeed length threshold.toNat := by
  have exact : (UInt32.ofNat length).toNat = length := by
    rw [UInt32.toNat_ofNat']
    omega
  rw [UInt32.toNat_add, UInt32.toNat_sub_of_le]
  · simp only [exact, UInt32.reduceToNat, blockingNeed]
    omega
  · rw [UInt32.le_iff_toNat_le, exact]
    exact valid

/-! ### Blocking sets -/

section Blocking

variable {σ : Type} {visit : σ → ID → Option σ}

theorem blockingMembers_found_subset {needed : UInt32}
    {members : List (Option (QuorumSetMember ID))} {pred : σ} {found : List ID}
    (nonempty : (blockingMembers visit needed members pred found).1 ≠ []) :
    found ⊆ (blockingMembers visit needed members pred found).1 :=
  blockingMembers_keeps (R := fun a b => a.1 ⊆ b.1) (fun _ => List.Subset.refl _)
    (fun first second => List.Subset.trans first second)
    (fun _ _ member => List.mem_insert_of_mem member) needed members
    pred found nonempty

mutual
/-- Each member that a blocking search counts is in its result: a node it accepted, or an inner
set it found blocked. -/
theorem blockingMembers_needed_le : ∀ (needed : UInt32)
    (members : List (Option (QuorumSetMember ID))) (pred : σ) (found result : List ID),
    membersValid members = true → membersFit members = true →
    (blockingMembers visit needed members pred found).1 = result → result ≠ [] →
      needed.toNat ≤ presentMembers blockingNeed (· ∈ result) members
  | needed, [], pred, found, result, _, _, searched, nonempty => by
    rw [blockingMembers] at searched
    split at searched
    · simp_all
    · split at searched <;> simp_all
  | needed, none :: rest, _, _, _, valid, _, _, _ => by
    simp [membersValid] at valid
  | needed, some (.node n) :: rest, pred, found, result, valid, fit, searched, nonempty => by
    rw [membersValid] at valid
    rw [membersFit] at fit
    rw [blockingMembers] at searched
    split at searched
    · simp_all
    · rename_i nonzero
      split at searched
      · exact absurd searched.symm nonempty
      · simp only [presentMembers_node]
        cases visited : visit pred n with
        | some nextPred =>
          simp only [visited] at searched
          have later :=
            blockingMembers_needed_le _ rest nextPred _ result valid fit searched nonempty
          have accepted : n ∈ result := searched ▸
            blockingMembers_found_subset (searched ▸ nonempty) List.mem_insert_self
          exact toNat_le_of_sub_one_le nonzero (decide_eq_true accepted) later
        | none =>
          simp only [visited] at searched
          have later := blockingMembers_needed_le needed rest pred found result valid fit
            searched nonempty
          omega
  | needed, some (.innerSet qs) :: rest, pred, found, result, valid, fit, searched,
      nonempty => by
    rw [membersValid, Bool.and_eq_true] at valid
    rw [membersFit, Bool.and_eq_true] at fit
    rw [blockingMembers] at searched
    split at searched
    · simp_all
    · rename_i nonzero
      split at searched
      · exact absurd searched.symm nonempty
      · simp only [presentMembers_innerSet]
        rcases inner : blockingFrom visit qs pred found with ⟨found2, pred2⟩
        simp only [inner] at searched
        by_cases empty : found2.isEmpty = true
        · simp only [empty, if_true] at searched
          have later := blockingMembers_needed_le needed rest pred found result valid.2 fit.2
            searched nonempty
          omega
        · simp only [empty] at searched
          have later := blockingMembers_needed_le _ rest pred2 found2 result valid.2 fit.2
            searched nonempty
          have innerNonempty : found2 ≠ [] := by simpa using empty
          have blocked := blockingFrom_blocked qs pred found found2 valid.1 fit.1
            (by rw [inner]) innerNonempty
          have within : found2 ⊆ result := searched ▸
            blockingMembers_found_subset (searched ▸ nonempty)
          have stillBlocked : blockedBy (· ∈ result) qs = true :=
            blockedBy_mono (fun m here => by simpa using within (by simpa using here)) blocked
          rw [blockedBy] at stillBlocked
          exact toNat_le_of_sub_one_le nonzero stillBlocked later
theorem blockingFrom_blocked : ∀ (qs : QuorumSet ID) (pred : σ) (found result : List ID),
    isValid qs = true → fits qs = true → (blockingFrom visit qs pred found).1 = result →
      result ≠ [] → blockedBy (· ∈ result) qs = true
  | mk threshold members, pred, found, result, valid, fit, searched, nonempty => by
    rw [isValid, Bool.and_eq_true, decide_eq_true_iff] at valid
    rw [fits, Bool.and_eq_true, decide_eq_true_iff] at fit
    have counted := blockingMembers_needed_le _ members pred found result valid.2 fit.2
      searched nonempty
    rw [toNat_blockingNeeded valid.1 fit.1] at counted
    rw [blockedBy, metBy_mk]
    exact counted
end

section Stateless

variable {visit : Unit → ID → Option Unit}

mutual
/-- A blocking search with a predicate that holds of a fixed set of nodes takes each member it
can count, so it finds `needed` of them when they are there. -/
theorem blockingMembers_ne_nil : ∀ (needed : UInt32)
    (members : List (Option (QuorumSetMember ID))) (found : List ID),
    membersValid members = true → membersFit members = true → (needed = 0 → found ≠ []) →
    needed.toNat ≤ presentMembers blockingNeed (fun n => (visit () n).isSome) members →
      (blockingMembers visit needed members () found).1 ≠ []
  | needed, [], found, _, _, started, enough => by
    have zero : needed = 0 := UInt32.toNat_inj.mp (by simpa using enough)
    rw [blockingMembers, if_pos zero]
    exact started zero
  | needed, none :: rest, _, valid, _, _, _ => by
    simp [membersValid] at valid
  | needed, some (.node n) :: rest, found, valid, fit, started, enough => by
    rw [membersValid] at valid
    rw [membersFit] at fit
    have bounded : presentMembers blockingNeed (fun n => (visit () n).isSome)
        (some (.node n) :: rest) ≤ (some (.node n) :: rest).length :=
      presentMembers_le_length _
    rw [presentMembers_node] at enough bounded
    rw [blockingMembers]
    split
    · exact started ‹_›
    · rename_i nonzero
      rw [if_neg (by omega)]
      cases visited : visit () n with
      | some nextPred =>
        simp only [visited, Option.isSome_some, if_true] at enough ⊢
        apply blockingMembers_ne_nil _ rest _ valid fit (fun _ => List.ne_nil_of_mem List.mem_insert_self)
        rw [toNat_sub_one nonzero]
        omega
      | none =>
        simp only [visited, Option.isSome_none] at enough ⊢
        exact blockingMembers_ne_nil needed rest found valid fit started (by simpa using enough)
  | needed, some (.innerSet qs) :: rest, found, valid, fit, started, enough => by
    rw [membersValid, Bool.and_eq_true] at valid
    rw [membersFit, Bool.and_eq_true] at fit
    have bounded : presentMembers blockingNeed (fun n => (visit () n).isSome)
        (some (.innerSet qs) :: rest) ≤ (some (.innerSet qs) :: rest).length :=
      presentMembers_le_length _
    rw [presentMembers_innerSet] at enough bounded
    rw [blockingMembers]
    split
    · exact started ‹_›
    · rename_i nonzero
      rw [if_neg (by omega)]
      rcases inner : blockingFrom visit qs () found with ⟨found2, pred2⟩
      dsimp only
      by_cases empty : found2.isEmpty = true
      · -- the inner set is not blocked, so the rest must supply every member needed
        have notBlocked : metBy blockingNeed (fun n => (visit () n).isSome) qs = false := by
          by_contra blocked
          have innerFound := blockingFrom_ne_nil qs found valid.1 fit.1
            (by simpa [blockedBy] using blocked)
          rw [inner] at innerFound
          exact innerFound (by simpa using empty)
        simp only [empty, if_true]
        simp only [notBlocked] at enough
        exact blockingMembers_ne_nil needed rest found valid.2 fit.2 started (by simpa using enough)
      · simp only [empty]
        exact blockingMembers_ne_nil _ rest found2 valid.2 fit.2 (fun _ => by simpa using empty)
          (toNat_sub_one_le nonzero enough)
/-- A blocking search of a valid set with a predicate that holds of a fixed set of nodes
returns nodes when the nodes that pass block the set. -/
theorem blockingFrom_ne_nil : ∀ (qs : QuorumSet ID) (found : List ID),
    isValid qs = true → fits qs = true → blockedBy (fun n => (visit () n).isSome) qs = true →
      (blockingFrom visit qs () found).1 ≠ []
  | mk threshold members, found, valid, fit, blocked => by
    rw [isValid, Bool.and_eq_true, decide_eq_true_iff] at valid
    rw [fits, Bool.and_eq_true, decide_eq_true_iff] at fit
    rw [blockedBy, metBy_mk] at blocked
    have needed := toNat_blockingNeeded valid.1 fit.1
    rw [blockingFrom]
    apply blockingMembers_ne_nil _ members found valid.2 fit.2
    · intro zero
      rw [zero, blockingNeed] at needed
      simp at needed
    · rw [needed]
      exact blocked
end

theorem blockingFrom_passes {qs : QuorumSet ID} {found : List ID}
    (nonempty : (blockingFrom visit qs () found).1 ≠ []) :
    ∀ n ∈ (blockingFrom visit qs () found).1, n ∉ found → (visit () n).isSome = true := by
  have kept := blockingFrom_keeps
    (R := fun a b => a.1 ⊆ b.1 ∧ ∀ n ∈ b.1, n ∉ a.1 → (visit () n).isSome = true)
    (fun _ => ⟨List.Subset.refl _, fun _ member fresh => absurd member fresh⟩)
    (fun {_ b _} first second => ⟨List.Subset.trans first.1 second.1, fun n member fresh => by
      by_cases earlier : n ∈ b.1
      · exact first.2 n earlier fresh
      · exact second.2 n member earlier⟩)
    (fun {found pred n nextPred} visited => ⟨fun _ member => List.mem_insert_of_mem member,
      fun m member fresh => by
        have same : m = n := by simpa [List.mem_insert_iff, fresh] using member
        subst same
        simp [visited]⟩)
    qs () found nonempty
  exact kept.2

end Stateless

end Blocking

/-! ### Quorums -/

section Quorum

variable {σ : Type} {visit : σ → ID → Option (σ × QuorumSet ID)}
  {descend : QuorumSet ID → σ → List ID → List ID × σ}

theorem quorumMembers_found_subset
    (grows : ∀ qs pred found, (descend qs pred found).1 ≠ [] → found ⊆ (descend qs pred found).1)
    {threshold : UInt32} {members : List (Option (QuorumSetMember ID))} {pred : σ}
    {found : List ID} (nonempty : (quorumMembers visit descend threshold members pred found).1 ≠ []) :
    found ⊆ (quorumMembers visit descend threshold members pred found).1 :=
  quorumMembers_keeps (R := fun a b => a.1 ⊆ b.1) (fun _ => List.Subset.refl _)
    (fun first second => List.Subset.trans first second)
    (fun _ descended _ member => grows _ _ _ descended (List.mem_insert_of_mem member))
    threshold members pred found nonempty

theorem quorumFromWith_found_subset
    (grows : ∀ qs pred found, (descend qs pred found).1 ≠ [] → found ⊆ (descend qs pred found).1)
    {qs : QuorumSet ID} {pred : σ} {found : List ID}
    (nonempty : (quorumFromWith visit descend qs pred found).1 ≠ []) :
    found ⊆ (quorumFromWith visit descend qs pred found).1 :=
  quorumFromWith_keeps (R := fun a b => a.1 ⊆ b.1) (fun _ => List.Subset.refl _)
    (fun first second => List.Subset.trans first second)
    (fun _ descended _ member => grows _ _ _ descended (List.mem_insert_of_mem member))
    qs pred found nonempty

theorem quorumFrom_found_subset {depth : ℕ} {qs : QuorumSet ID} {pred : σ} {found : List ID}
    (nonempty : (quorumFrom visit depth qs pred found).1 ≠ []) :
    found ⊆ (quorumFrom visit depth qs pred found).1 :=
  quorumFrom_keeps (R := fun a b => a.1 ⊆ b.1) (fun _ => List.Subset.refl _)
    (fun first second => List.Subset.trans first second)
    (fun _ _ member => List.mem_insert_of_mem member) depth qs pred found nonempty

mutual
/-- Each member that a quorum search counts is in its result: a node already there, a node
whose own search succeeded, or an inner set it found satisfied. -/
theorem quorumMembers_threshold_le
    (grows : ∀ qs pred found, (descend qs pred found).1 ≠ [] → found ⊆ (descend qs pred found).1) :
    ∀ (threshold : UInt32) (members : List (Option (QuorumSetMember ID))) (pred : σ)
      (found result : List ID), (quorumMembers visit descend threshold members pred found).1 = result →
        result ≠ [] → threshold.toNat ≤ presentMembers sliceNeed (· ∈ result) members
  | threshold, [], pred, found, result, searched, nonempty => by
    rw [quorumMembers] at searched
    split at searched
    · simp_all
    · split at searched <;> simp_all
  | threshold, none :: rest, pred, found, result, searched, nonempty => by
    rw [quorumMembers] at searched
    split at searched
    · simp_all
    · split at searched
      · exact absurd searched.symm nonempty
      · rw [presentMembers_none]
        exact quorumMembers_threshold_le grows threshold rest pred found result searched nonempty
  | threshold, some (.node n) :: rest, pred, found, result, searched, nonempty => by
    rw [quorumMembers] at searched
    split at searched
    · simp_all
    · rename_i nonzero
      split at searched
      · exact absurd searched.symm nonempty
      · rw [presentMembers_node]
        split at searched
        · -- a node already in the quorum counts without a test
          rename_i already
          have later := quorumMembers_threshold_le grows _ rest pred found result searched nonempty
          have kept : n ∈ result := searched ▸
            quorumMembers_found_subset grows (searched ▸ nonempty) already
          exact toNat_le_of_sub_one_le nonzero (decide_eq_true kept) later
        · cases visited : visit pred n with
          | none =>
            simp only [visited] at searched
            have later := quorumMembers_threshold_le grows threshold rest pred found result
              searched nonempty
            omega
          | some visitedAs =>
            obtain ⟨nextPred, qs⟩ := visitedAs
            simp only [visited] at searched
            rcases descended : descend qs nextPred (found.insert n) with ⟨found2, pred2⟩
            simp only [descended] at searched
            by_cases empty : found2.isEmpty = true
            · simp only [empty, if_true] at searched
              have later := quorumMembers_threshold_le grows threshold rest pred found result
                searched nonempty
              omega
            · simp only [empty] at searched
              have later := quorumMembers_threshold_le grows _ rest pred2 found2 result searched
                nonempty
              have reached : n ∈ found2 := by
                have grown := grows qs nextPred (found.insert n) (by simpa [descended] using empty)
                rw [descended] at grown
                exact grown List.mem_insert_self
              have kept : n ∈ result := searched ▸
                quorumMembers_found_subset grows (searched ▸ nonempty) reached
              exact toNat_le_of_sub_one_le nonzero (decide_eq_true kept) later
  | threshold, some (.innerSet qs) :: rest, pred, found, result, searched, nonempty => by
    rw [quorumMembers] at searched
    split at searched
    · simp_all
    · rename_i nonzero
      split at searched
      · exact absurd searched.symm nonempty
      · rw [presentMembers_innerSet]
        rcases inner : quorumFromWith visit descend qs pred found with ⟨found2, pred2⟩
        simp only [inner] at searched
        by_cases empty : found2.isEmpty = true
        · simp only [empty, if_true] at searched
          have later := quorumMembers_threshold_le grows threshold rest pred found result searched
            nonempty
          omega
        · simp only [empty] at searched
          have later := quorumMembers_threshold_le grows _ rest pred2 found2 result searched
            nonempty
          have satisfied := quorumFromWith_satisfied grows qs pred found found2 (by rw [inner])
            (by simpa using empty)
          have within : found2 ⊆ result := searched ▸
            quorumMembers_found_subset grows (searched ▸ nonempty)
          have stillSatisfied : satisfiedBy (· ∈ result) qs = true :=
            satisfiedBy_mono (fun m here => by simpa using within (by simpa using here)) satisfied
          rw [satisfiedBy] at stillSatisfied
          exact toNat_le_of_sub_one_le nonzero stillSatisfied later
theorem quorumFromWith_satisfied
    (grows : ∀ qs pred found, (descend qs pred found).1 ≠ [] → found ⊆ (descend qs pred found).1) :
    ∀ (qs : QuorumSet ID) (pred : σ) (found result : List ID),
      (quorumFromWith visit descend qs pred found).1 = result → result ≠ [] →
        satisfiedBy (· ∈ result) qs = true
  | mk threshold members, pred, found, result, searched, nonempty => by
    rw [satisfiedBy, metBy_mk]
    exact quorumMembers_threshold_le grows threshold members pred found result searched nonempty
end

section Stateless

variable {visit : Unit → ID → Option (Unit × QuorumSet ID)}

/-- Every node of `result` not already in `found` passes the predicate with a quorum set that
`result` satisfies. -/
def Backed (visit : Unit → ID → Option (Unit × QuorumSet ID)) (found result : List ID) : Prop :=
  ∀ n ∈ result, n ∉ found → ∃ qs, visit () n = some ((), qs) ∧ satisfiedBy (· ∈ result) qs = true

theorem Backed.trans {a b c : List ID} (first : Backed visit a b) (grown : b ⊆ c)
    (second : Backed visit b c) : Backed visit a c := by
  intro n member fresh
  by_cases earlier : n ∈ b
  · obtain ⟨qs, visited, satisfied⟩ := first n earlier fresh
    exact ⟨qs, visited, satisfiedBy_mono (fun m here => by simpa using grown (by simpa using here))
      satisfied⟩
  · exact second n member earlier

theorem quorumFrom_satisfied {depth : ℕ} {qs : QuorumSet ID} {found : List ID}
    (nonempty : (quorumFrom visit depth qs () found).1 ≠ []) :
    satisfiedBy (· ∈ (quorumFrom visit depth qs () found).1) qs = true := by
  cases depth with
  | zero => exact absurd rfl nonempty
  | succ depth =>
    exact quorumFromWith_satisfied (fun _ _ _ descended => quorumFrom_found_subset descended)
      qs () found _ rfl nonempty

theorem quorumFrom_backed : ∀ (depth : ℕ) (qs : QuorumSet ID) (found : List ID),
    (quorumFrom visit depth qs () found).1 ≠ [] →
      Backed visit found (quorumFrom visit depth qs () found).1
  | 0, _, _, nonempty => absurd rfl nonempty
  | depth + 1, qs, found, nonempty => by
    have kept := quorumFromWith_keeps
      (R := fun a b => a.1 ⊆ b.1 ∧ Backed visit a.1 b.1)
      (fun _ => ⟨List.Subset.refl _, fun _ member fresh => absurd member fresh⟩)
      (fun first second => ⟨List.Subset.trans first.1 second.1,
        first.2.trans second.1 second.2⟩)
      (fun {found pred n nextPred qs} visited descended => by
        obtain ⟨⟩ := pred
        obtain ⟨⟩ := nextPred
        have grown := quorumFrom_found_subset descended
        refine ⟨fun _ member => grown (List.mem_insert_of_mem member), ?_⟩
        intro m member fresh
        by_cases same : m = n
        · subst same
          exact ⟨qs, visited, quorumFrom_satisfied descended⟩
        · exact quorumFrom_backed depth qs (found.insert n) descended m member
            (by simpa [List.mem_insert_iff, same] using fresh))
      qs () found nonempty
    exact kept.2

/-- The nodes of `quorum` that are not yet in `found`. -/
def missing (quorum found : List ID) : ℕ := quorum.countP (· ∉ found)

theorem missing_le_of_subset {quorum found found' : List ID} (grown : found ⊆ found') :
    missing quorum found' ≤ missing quorum found :=
  List.countP_mono_left fun n _ outside => by
    simpa using fun inside => (by simpa using outside : n ∉ found') (grown inside)

theorem missing_insert_lt {quorum found : List ID} {n : ID} (member : n ∈ quorum)
    (fresh : n ∉ found) : missing quorum (found.insert n) < missing quorum found := by
  induction quorum with
  | nil => simp at member
  | cons m rest ih =>
    unfold missing at ih ⊢
    rw [List.countP_cons, List.countP_cons]
    by_cases same : m = n
    · subst same
      have shrinks : missing rest (found.insert m) ≤ missing rest found :=
        missing_le_of_subset fun _ inside => List.mem_insert_of_mem inside
      unfold missing at shrinks
      simp only [List.mem_insert_self, not_true_eq_false, decide_false, fresh, not_false_eq_true,
        decide_true, Bool.false_eq_true, if_false, if_true]
      omega
    · have later := ih (by simpa [Ne.symm same] using member)
      have sameHead : (m ∉ found.insert n) ↔ m ∉ found := by simp [List.mem_insert_iff, same]
      simp only [sameHead]
      omega

section Complete

variable {descend : QuorumSet ID → Unit → List ID → List ID × Unit} {quorum : List ID} {nodeId : ID}
  {bound : ℕ}

/-- A search that grew the nodes found with one more keeps the local node and has no more of
`quorum` left to add. -/
theorem keeps_of_insert_subset {found found' : List ID} {n : ID}
    (grown : found.insert n ⊆ found') (local_ : nodeId ∈ found) (fewer : missing quorum found ≤ bound) :
    nodeId ∈ found' ∧ missing quorum found' ≤ bound :=
  ⟨grown (List.mem_insert_of_mem local_),
    (missing_le_of_subset fun _ inside => grown (List.mem_insert_of_mem inside)).trans fewer⟩

mutual
/-- A quorum search with a predicate that holds of a fixed set of nodes finds a quorum when
`quorum` is one: each member of `quorum` it meets either is there already or has its own search
succeed, with fewer nodes of `quorum` left to add. -/
theorem quorumMembers_ne_nil
    (passes : ∀ n ∈ quorum, n ≠ nodeId →
      ∃ qs, visit () n = some ((), qs) ∧ satisfiedBy (· ∈ quorum) qs = true)
    (grows : ∀ qs found, (descend qs () found).1 ≠ [] → found ⊆ (descend qs () found).1)
    (reaches : ∀ qs found, nodeId ∈ found → missing quorum found < bound →
      satisfiedBy (· ∈ quorum) qs = true → (descend qs () found).1 ≠ []) :
    ∀ (threshold : UInt32) (members : List (Option (QuorumSetMember ID))) (found : List ID),
      nodeId ∈ found → missing quorum found ≤ bound →
      threshold.toNat ≤ presentMembers sliceNeed (· ∈ quorum) members →
        (quorumMembers visit descend threshold members () found).1 ≠ []
  | threshold, [], found, local_, _, enough => by
    have zero : threshold = 0 := UInt32.toNat_inj.mp (by simpa using enough)
    rw [quorumMembers, if_pos zero]
    exact List.ne_nil_of_mem local_
  | threshold, none :: rest, found, local_, fewer, enough => by
    have bounded : presentMembers sliceNeed (fun n => decide (n ∈ quorum))
        (none :: rest) ≤ (none :: rest).length :=
      presentMembers_le_length _
    rw [presentMembers_none] at enough bounded
    rw [quorumMembers]
    split
    · exact List.ne_nil_of_mem local_
    · rw [if_neg (by simp only [List.length_cons] at bounded ⊢; omega)]
      exact quorumMembers_ne_nil passes grows reaches threshold rest found local_ fewer enough
  | threshold, some (.node n) :: rest, found, local_, fewer, enough => by
    have bounded : presentMembers sliceNeed (fun n => decide (n ∈ quorum))
        (some (.node n) :: rest) ≤ (some (.node n) :: rest).length :=
      presentMembers_le_length _
    rw [presentMembers_node] at enough bounded
    rw [quorumMembers]
    split
    · exact List.ne_nil_of_mem local_
    · rename_i nonzero
      rw [if_neg (by simp only [List.length_cons] at bounded ⊢; omega)]
      have fewerNeeded : (threshold - 1).toNat ≤ presentMembers sliceNeed (· ∈ quorum) rest :=
        toNat_sub_one_le nonzero enough
      split
      · exact quorumMembers_ne_nil passes grows reaches _ rest found local_ fewer fewerNeeded
      · rename_i fresh
        -- a node of the quorum has its own search succeed; any other node costs nothing
        by_cases inQuorum : n ∈ quorum
        · have other : n ≠ nodeId := fun same => fresh (same ▸ local_)
          obtain ⟨qs, visited, satisfied⟩ := passes n inQuorum other
          simp only [visited]
          have descended := reaches qs (found.insert n) (List.mem_insert_of_mem local_)
            (lt_of_lt_of_le (missing_insert_lt inQuorum fresh) fewer) satisfied
          have grown := grows qs (found.insert n) descended
          rcases result : descend qs () (found.insert n) with ⟨found2, pred2⟩
          rw [result] at descended grown
          have notEmpty : found2.isEmpty = false := by simpa using descended
          simp only [notEmpty]
          obtain ⟨local2, fewer2⟩ := keeps_of_insert_subset grown local_ fewer
          exact quorumMembers_ne_nil passes grows reaches _ rest found2 local2 fewer2 fewerNeeded
        · have restEnough : threshold.toNat ≤ presentMembers sliceNeed (· ∈ quorum) rest := by
            simpa [inQuorum] using enough
          cases visit () n with
          | none => exact quorumMembers_ne_nil passes grows reaches _ rest found local_ fewer restEnough
          | some visitedAs =>
            obtain ⟨⟨⟩, qs⟩ := visitedAs
            dsimp only
            rcases result : descend qs () (found.insert n) with ⟨found2, pred2⟩
            have grown := grows qs (found.insert n)
            rw [result] at grown
            by_cases empty : found2.isEmpty = true
            · simp only [empty, if_true]
              exact quorumMembers_ne_nil passes grows reaches _ rest found local_ fewer restEnough
            · simp only [empty]
              have grown := grown (by simpa using empty)
              obtain ⟨local2, fewer2⟩ := keeps_of_insert_subset grown local_ fewer
              exact quorumMembers_ne_nil passes grows reaches _ rest found2 local2 fewer2 fewerNeeded
  | threshold, some (.innerSet qs) :: rest, found, local_, fewer, enough => by
    have bounded : presentMembers sliceNeed (fun n => decide (n ∈ quorum))
        (some (.innerSet qs) :: rest) ≤ (some (.innerSet qs) :: rest).length :=
      presentMembers_le_length _
    rw [presentMembers_innerSet] at enough bounded
    rw [quorumMembers]
    split
    · exact List.ne_nil_of_mem local_
    · rename_i nonzero
      rw [if_neg (by simp only [List.length_cons] at bounded ⊢; omega)]
      have fewerNeeded : (threshold - 1).toNat ≤ presentMembers sliceNeed (· ∈ quorum) rest :=
        toNat_sub_one_le nonzero enough
      have grownInner : (quorumFromWith visit descend qs () found).1 ≠ [] →
          found ⊆ (quorumFromWith visit descend qs () found).1 :=
        quorumFromWith_found_subset fun qs _ found => grows qs found
      rcases inner : quorumFromWith visit descend qs () found with ⟨found2, pred2⟩
      rw [inner] at grownInner
      dsimp only
      by_cases empty : found2.isEmpty = true
      · -- the inner set is not satisfied by the quorum, so the rest must supply the threshold
        have notSatisfied : metBy sliceNeed (· ∈ quorum) qs = false := by
          by_contra satisfied
          have innerFound := quorumFromWith_ne_nil passes grows reaches qs found local_ fewer
            (by simpa [satisfiedBy] using satisfied)
          rw [inner] at innerFound
          exact innerFound (by simpa using empty)
        simp only [empty, if_true]
        simp only [notSatisfied] at enough
        exact quorumMembers_ne_nil passes grows reaches _ rest found local_ fewer
          (by simpa using enough)
      · simp only [empty]
        have grown := grownInner (by simpa using empty)
        exact quorumMembers_ne_nil passes grows reaches _ rest found2 (grown local_)
          ((missing_le_of_subset grown).trans fewer) fewerNeeded
theorem quorumFromWith_ne_nil
    (passes : ∀ n ∈ quorum, n ≠ nodeId →
      ∃ qs, visit () n = some ((), qs) ∧ satisfiedBy (· ∈ quorum) qs = true)
    (grows : ∀ qs found, (descend qs () found).1 ≠ [] → found ⊆ (descend qs () found).1)
    (reaches : ∀ qs found, nodeId ∈ found → missing quorum found < bound →
      satisfiedBy (· ∈ quorum) qs = true → (descend qs () found).1 ≠ []) :
    ∀ (qs : QuorumSet ID) (found : List ID), nodeId ∈ found → missing quorum found ≤ bound →
      satisfiedBy (· ∈ quorum) qs = true → (quorumFromWith visit descend qs () found).1 ≠ []
  | mk threshold members, found, local_, fewer, satisfied => by
    rw [satisfiedBy, metBy_mk] at satisfied
    exact quorumMembers_ne_nil passes grows reaches threshold members found local_ fewer satisfied
end

end Complete

/-- With more nested searches allowed than nodes of `quorum` left to add, the quorum search finds
a quorum when `quorum` is one. -/
theorem quorumFrom_ne_nil {quorum : List ID} {nodeId : ID}
    (passes : ∀ n ∈ quorum, n ≠ nodeId →
      ∃ qs, visit () n = some ((), qs) ∧ satisfiedBy (· ∈ quorum) qs = true) :
    ∀ (depth : ℕ) (qs : QuorumSet ID) (found : List ID), nodeId ∈ found →
      missing quorum found < depth → satisfiedBy (· ∈ quorum) qs = true →
        (quorumFrom visit depth qs () found).1 ≠ []
  | 0, _, _, _, fewer, _ => absurd fewer (Nat.not_lt_zero _)
  | depth + 1, qs, found, local_, fewer, satisfied =>
    quorumFromWith_ne_nil passes (fun _ _ descended => quorumFrom_found_subset descended)
      (quorumFrom_ne_nil passes depth) qs found local_ (Nat.lt_succ_iff.mp fewer) satisfied

end Stateless

end Quorum

theorem mem_keys_of_lookup_eq_some {M : Type} {msgs : List (ID × M)} {n : ID} {msg : M}
    (found : msgs.lookup n = some msg) : n ∈ msgs.map Prod.fst := by
  induction msgs with
  | nil => simp at found
  | cons entry rest ih =>
    by_cases same : n = entry.1
    · simp [same]
    · have later : rest.lookup n = some msg := by
        simpa [List.lookup, show (n == entry.1) = false from beq_false_of_ne same] using found
      exact List.mem_cons_of_mem _ (ih later)

/-! ### `FuncPredicate` -/

section Func

variable {V : Type} {msgs : List (ID × Msg ID V)} {p : Msg ID V → Bool}

/-- The test of `FuncPredicate` as a function. -/
def funcNext (p : Msg ID V → Bool) (u : Unit) (msg : Msg ID V) : Option Unit :=
  if p msg then some u else none

omit [DecidableEq ID] in
theorem funcTest_eq (u : Unit) (msg : Msg ID V) : Slot.funcTest p u msg = .ok (funcNext p u msg) :=
  rfl

theorem nodeVisit_funcNext_isSome {n : ID} :
    (nodeVisit msgs (funcNext p) () n).isSome = true ↔
      ∃ msg, msgs.lookup n = some msg ∧ p msg = true := by
  unfold nodeVisit funcNext
  cases msgs.lookup n with
  | none => simp
  | some msg => by_cases passes : p msg <;> simp [passes]

theorem sliceVisit_funcNext_eq_some {n : ID} {qs : QuorumSet ID} :
    sliceVisit msgs (funcNext p) Msg.quorumSet () n = some ((), qs) ↔
      ∃ msg, msgs.lookup n = some msg ∧ p msg = true ∧ msg.quorumSet = qs := by
  unfold sliceVisit funcNext
  cases msgs.lookup n with
  | none => simp
  | some msg => by_cases passes : p msg <;> simp [passes]

/-- `quorum` holds `nodeId` and a slice of `qs`, and each of its other nodes has a latest message
that passes `p` and whose quorum set `quorum` satisfies. -/
def IsQuorum (msgs : List (ID × Msg ID V)) (p : Msg ID V → Bool) (qs : QuorumSet ID) (nodeId : ID)
    (quorum : List ID) : Prop :=
  nodeId ∈ quorum ∧ satisfiedBy (· ∈ quorum) qs = true ∧
    ∀ n ∈ quorum, n ≠ nodeId →
      ∃ msg, msgs.lookup n = some msg ∧ p msg = true ∧ satisfiedBy (· ∈ quorum) msg.quorumSet = true

/-- Each node of `blocking` has a latest message that passes `p`, and `blocking` meets every slice
of `qs`. -/
def IsBlocking (msgs : List (ID × Msg ID V)) (p : Msg ID V → Bool) (qs : QuorumSet ID)
    (blocking : List ID) : Prop :=
  (∀ n ∈ blocking, ∃ msg, msgs.lookup n = some msg ∧ p msg = true) ∧
    blockedBy (· ∈ blocking) qs = true

theorem findQuorum_eq (qs : QuorumSet ID) (nodeId : ID) :
    qs.findQuorum msgs (Slot.funcTest p) Msg.quorumSet nodeId () =
      .ok ((quorumFrom (sliceVisit msgs (funcNext p) Msg.quorumSet) (msgs.length + 1) qs ()
        [nodeId]).1, ()) :=
  findQuorumFrom_eq funcTest_eq _ qs () [nodeId]

theorem findBlockingSet_eq (qs : QuorumSet ID) :
    qs.findBlockingSet msgs (Slot.funcTest p) () =
      .ok ((blockingFrom (nodeVisit msgs (funcNext p)) qs () []).1, ()) :=
  findBlockingSetFrom_eq funcTest_eq qs () []

/-- A quorum is one with its repeats removed; without repeats, its nodes other than `nodeId` are
no more than the messages. -/
theorem missing_dedup_le {quorum : List ID} {nodeId : ID}
    (sent : ∀ n ∈ quorum, n ≠ nodeId → ∃ msg, msgs.lookup n = some msg) :
    missing quorum.dedup [nodeId] ≤ msgs.length := by
  unfold missing
  rw [List.countP_eq_length_filter]
  have distinct : (quorum.dedup.filter fun n => decide (n ∉ [nodeId])).Nodup :=
    (List.nodup_dedup quorum).filter _
  have keys : (quorum.dedup.filter fun n => decide (n ∉ [nodeId])) ⊆ msgs.map Prod.fst := by
    intro n member
    rw [List.mem_filter, List.mem_dedup] at member
    obtain ⟨msg, found⟩ := sent n member.1 (by simpa using member.2)
    exact mem_keys_of_lookup_eq_some found
  simpa using distinct.length_le_of_subset keys

theorem isQuorum_of_ne_nil {qs : QuorumSet ID} {nodeId : ID}
    (nonempty : (quorumFrom (sliceVisit msgs (funcNext p) Msg.quorumSet) (msgs.length + 1) qs ()
      [nodeId]).1 ≠ []) :
    IsQuorum msgs p qs nodeId
      (quorumFrom (sliceVisit msgs (funcNext p) Msg.quorumSet) (msgs.length + 1) qs () [nodeId]).1 := by
  refine ⟨quorumFrom_found_subset nonempty (List.mem_singleton_self nodeId),
    quorumFrom_satisfied nonempty, ?_⟩
  intro n member other
  obtain ⟨qs', visited, satisfied⟩ := quorumFrom_backed _ qs [nodeId] nonempty n member
    (by simpa using other)
  obtain ⟨msg, found, passes, same⟩ := sliceVisit_funcNext_eq_some.mp visited
  exact ⟨msg, found, passes, same ▸ satisfied⟩

theorem quorumFrom_ne_nil_of_isQuorum {qs : QuorumSet ID} {nodeId : ID} {quorum : List ID}
    (isQuorum : IsQuorum msgs p qs nodeId quorum) :
    (quorumFrom (sliceVisit msgs (funcNext p) Msg.quorumSet) (msgs.length + 1) qs ()
      [nodeId]).1 ≠ [] := by
  obtain ⟨local_, satisfied, others⟩ := isQuorum
  have sameMembers : (fun n => decide (n ∈ quorum.dedup)) = fun n => decide (n ∈ quorum) := by
    funext n
    simp [List.mem_dedup]
  have passes : ∀ n ∈ quorum.dedup, n ≠ nodeId → ∃ qs', sliceVisit msgs (funcNext p)
      Msg.quorumSet () n = some ((), qs') ∧ satisfiedBy (· ∈ quorum.dedup) qs' = true := by
    intro n member other
    obtain ⟨msg, found, passing, satisfiedThere⟩ := others n (List.mem_dedup.mp member) other
    refine ⟨msg.quorumSet, sliceVisit_funcNext_eq_some.mpr ⟨msg, found, passing, rfl⟩, ?_⟩
    rw [sameMembers]
    exact satisfiedThere
  have sent : ∀ n ∈ quorum, n ≠ nodeId → ∃ msg, msgs.lookup n = some msg := fun n member other =>
    (others n member other).imp fun _ found => found.1
  apply quorumFrom_ne_nil passes _ qs [nodeId] (List.mem_singleton_self nodeId)
  · exact Nat.lt_succ_of_le (missing_dedup_le sent)
  · rw [sameMembers]
    exact satisfied

theorem findQuorum_decides (qs : QuorumSet ID) (nodeId : ID) (msgs : List (ID × Msg ID V))
    (p : Msg ID V → Bool) :
    ∃ quorum, qs.findQuorum msgs (Slot.funcTest p) Msg.quorumSet nodeId () = .ok (quorum, ()) ∧
      (quorum ≠ [] ↔ ∃ quorum', IsQuorum msgs p qs nodeId quorum') ∧
      (quorum ≠ [] → IsQuorum msgs p qs nodeId quorum) := by
  refine ⟨_, findQuorum_eq qs nodeId, ⟨fun nonempty => ⟨_, isQuorum_of_ne_nil nonempty⟩, ?_⟩,
    isQuorum_of_ne_nil⟩
  rintro ⟨quorum', isQuorum⟩
  exact quorumFrom_ne_nil_of_isQuorum isQuorum

theorem isBlocking_of_ne_nil {qs : QuorumSet ID} (valid : qs.isValid = true)
    (fit : qs.fits = true) (nonempty : (blockingFrom (nodeVisit msgs (funcNext p)) qs () []).1 ≠ []) :
    IsBlocking msgs p qs (blockingFrom (nodeVisit msgs (funcNext p)) qs () []).1 :=
  ⟨fun n member => nodeVisit_funcNext_isSome.mp
      (blockingFrom_passes nonempty n member List.not_mem_nil),
    blockingFrom_blocked qs () [] _ valid fit rfl nonempty⟩

theorem blockingFrom_ne_nil_of_isBlocking {qs : QuorumSet ID} {blocking : List ID}
    (valid : qs.isValid = true) (fit : qs.fits = true) (isBlocking : IsBlocking msgs p qs blocking) :
    (blockingFrom (nodeVisit msgs (funcNext p)) qs () []).1 ≠ [] := by
  obtain ⟨passing, blocked⟩ := isBlocking
  apply blockingFrom_ne_nil qs [] valid fit
  exact blockedBy_mono (fun n here => nodeVisit_funcNext_isSome.mpr (passing n (by simpa using here)))
    blocked

omit [DecidableEq ID] in
theorem blockingNeeded_exact {qs : QuorumSet ID} (valid : qs.isValid = true) (fit : qs.fits = true) :
    (UInt32.ofNat qs.members.length - qs.threshold + 1).toNat =
      qs.members.length - qs.threshold.toNat + 1 := by
  obtain ⟨threshold, members⟩ := qs
  rw [isValid, Bool.and_eq_true, decide_eq_true_iff] at valid
  rw [fits, Bool.and_eq_true, decide_eq_true_iff] at fit
  exact toNat_blockingNeeded valid.1 fit.1

theorem findBlockingSet_decides (qs : QuorumSet ID) (msgs : List (ID × Msg ID V))
    (p : Msg ID V → Bool) (valid : qs.isValid = true) (fit : qs.fits = true) :
    ∃ blocking, qs.findBlockingSet msgs (Slot.funcTest p) () = .ok (blocking, ()) ∧
      (blocking ≠ [] ↔ ∃ blocking', IsBlocking msgs p qs blocking') ∧
      (blocking ≠ [] → IsBlocking msgs p qs blocking) ∧
      (UInt32.ofNat qs.members.length - qs.threshold + 1).toNat =
        qs.members.length - qs.threshold.toNat + 1 := by
  refine ⟨_, findBlockingSet_eq qs, ⟨fun nonempty => ⟨_, isBlocking_of_ne_nil valid fit nonempty⟩,
    ?_⟩, isBlocking_of_ne_nil valid fit, blockingNeeded_exact valid fit⟩
  rintro ⟨blocking', isBlocking⟩
  exact blockingFrom_ne_nil_of_isBlocking valid fit isBlocking

/-- Nodes `1` and `2` both sent a message, so they block the set {1 of 1, 2}: the search finds
them. -/
theorem findBlockingSet_decides_pair :
    (newWithNodeIds 1 [1, 2] : QuorumSet ℕ).isValid = true ∧
      (newWithNodeIds 1 [1, 2] : QuorumSet ℕ).fits = true ∧
      (newWithNodeIds 1 [1, 2] : QuorumSet ℕ).findBlockingSet
          [(1, (⟨1, 0, newWithNodeIds 0 [], .nominate ⟨[], []⟩⟩ : Msg ℕ ℕ)),
            (2, ⟨2, 0, newWithNodeIds 0 [], .nominate ⟨[], []⟩⟩)]
          (Slot.funcTest fun _ => true) () = .ok ([2, 1], ()) ∧
      IsBlocking [(1, (⟨1, 0, newWithNodeIds 0 [], .nominate ⟨[], []⟩⟩ : Msg ℕ ℕ)),
          (2, ⟨2, 0, newWithNodeIds 0 [], .nominate ⟨[], []⟩⟩)]
        (fun _ => true) (newWithNodeIds 1 [1, 2]) [2, 1] := by
  obtain ⟨blocking, found, -, blocked, -⟩ := findBlockingSet_decides (newWithNodeIds 1 [1, 2])
    [(1, (⟨1, 0, newWithNodeIds 0 [], .nominate ⟨[], []⟩⟩ : Msg ℕ ℕ)),
      (2, ⟨2, 0, newWithNodeIds 0 [], .nominate ⟨[], []⟩⟩)] (fun _ => true) (by decide) (by decide)
  have computed : (newWithNodeIds 1 [1, 2] : QuorumSet ℕ).findBlockingSet
      [(1, (⟨1, 0, newWithNodeIds 0 [], .nominate ⟨[], []⟩⟩ : Msg ℕ ℕ)),
        (2, ⟨2, 0, newWithNodeIds 0 [], .nominate ⟨[], []⟩⟩)]
      (Slot.funcTest fun _ => true) () = .ok ([2, 1], ()) := by decide
  rw [computed, Except.ok.injEq, Prod.mk.injEq] at found
  cases found.1
  exact ⟨by decide, by decide, computed, blocked (List.cons_ne_nil _ _)⟩

omit [DecidableEq ID] in
theorem membersValid_replicate_node (n : ID) (count : ℕ) :
    membersValid (List.replicate count (some (.node n))) = true := by
  induction count with
  | zero => simp [membersValid]
  | succ count ih => simpa [List.replicate_succ, membersValid] using ih

omit [DecidableEq ID] in
theorem presentMembers_replicate_node {need : ℕ → ℕ → ℕ} {present : ID → Bool} {n : ID}
    (here : present n = true) (count : ℕ) :
    presentMembers need present (List.replicate count (some (.node n))) = count := by
  induction count with
  | zero => simp
  | succ count ih =>
    rw [List.replicate_succ, presentMembers_node, ih, if_pos here]
    omega

/-- A valid set of `2^32` members: `members.len() as u32` is 0, so the search needs no member
and returns no nodes, though one node meets every slice. -/
theorem findBlockingSet_misses_wide_set :
    (mk 1 (List.replicate (2 ^ 32) (some (.node 0))) : QuorumSet ℕ).isValid = true ∧
      IsBlocking [(0, (⟨0, 0, newWithNodeIds 0 [], .nominate ⟨[], []⟩⟩ : Msg ℕ ℕ))]
        (fun _ => true) (mk 1 (List.replicate (2 ^ 32) (some (.node 0)))) [0] ∧
      (mk 1 (List.replicate (2 ^ 32) (some (.node 0))) : QuorumSet ℕ).findBlockingSet
        [(0, (⟨0, 0, newWithNodeIds 0 [], .nominate ⟨[], []⟩⟩ : Msg ℕ ℕ))]
        (Slot.funcTest fun _ => true) () = .ok ([], ()) := by
  refine ⟨?_, ⟨by simp, ?_⟩, ?_⟩
  · rw [isValid, membersValid_replicate_node, List.length_replicate]
    decide
  · rw [blockedBy, metBy_mk, presentMembers_replicate_node (by simp), List.length_replicate]
    decide
  · have wraps : UInt32.ofNat (2 ^ 32) - 1 + 1 = 0 := by decide
    rw [findBlockingSet, findBlockingSetFrom, List.length_replicate, wraps,
      findBlockingSetHelper.eq_def, if_pos rfl]
    rfl

end Func

/-! ### Narrowing predicates -/

section Narrowing

variable {V α : Type} {msgs : List (ID × Msg ID V)} {accepts : Msg ID V → α → Bool}

/-- The test of a predicate that keeps the candidates the message accepts, and fails when there
were or are none. -/
def narrowNext (accepts : Msg ID V → α → Bool) (candidates : List α) (msg : Msg ID V) :
    Option (List α) :=
  if candidates.isEmpty then none
  else if (candidates.filter (accepts msg)).isEmpty then none
  else some (candidates.filter (accepts msg))

omit [DecidableEq ID] in
theorem narrowingTest_eq (candidates : List α) (msg : Msg ID V) :
    Slot.narrowingTest (fun msg xs => pure (xs.filter (accepts msg))) candidates msg =
      .ok (narrowNext accepts candidates msg) := by
  unfold Slot.narrowingTest narrowNext
  by_cases none_ : candidates.isEmpty = true
  · simp only [none_, if_true]
    rfl
  · by_cases narrowedAway : (candidates.filter (accepts msg)).isEmpty = true
    · rw [if_neg none_, if_neg none_, pure_bind, if_pos narrowedAway, if_pos narrowedAway]
      rfl
    · rw [if_neg none_, if_neg none_, pure_bind, if_neg narrowedAway, if_neg narrowedAway]
      rfl

omit [DecidableEq ID] in
theorem narrowNext_eq_some {candidates next : List α} {msg : Msg ID V}
    (narrowed : narrowNext accepts candidates msg = some next) :
    next = candidates.filter (accepts msg) ∧ next ≠ [] := by
  unfold narrowNext at narrowed
  split at narrowed
  · cases narrowed
  · split at narrowed
    · cases narrowed
    · rename_i kept
      cases narrowed
      exact ⟨rfl, by simpa using kept⟩

/-- From `(found, candidates)` to `(found', candidates')`: the candidates only narrow, each node
added has a message that accepts every candidate left, and some are left once a node is added. -/
structure Narrowed (msgs : List (ID × Msg ID V)) (accepts : Msg ID V → α → Bool)
    (before after : List ID × List α) : Prop where
  subset : after.2 ⊆ before.2
  stated : ∀ n ∈ after.1, n ∉ before.1 →
    ∃ msg, msgs.lookup n = some msg ∧ ∀ v ∈ after.2, accepts msg v = true
  kept : after.2 = before.2 ∨ after.2 ≠ []
  nonempty : (∃ n ∈ after.1, n ∉ before.1) → after.2 ≠ []

theorem Narrowed.refl (a : List ID × List α) : Narrowed msgs accepts a a :=
  ⟨List.Subset.refl _, fun _ member fresh => absurd member fresh, .inl rfl,
    fun ⟨_, member, fresh⟩ => absurd member fresh⟩

theorem Narrowed.trans {a b c : List ID × List α} (first : Narrowed msgs accepts a b)
    (second : Narrowed msgs accepts b c) : Narrowed msgs accepts a c where
  subset := List.Subset.trans second.subset first.subset
  stated n member fresh := by
    by_cases earlier : n ∈ b.1
    · obtain ⟨msg, found, all⟩ := first.stated n earlier fresh
      exact ⟨msg, found, fun v left => all v (second.subset left)⟩
    · exact second.stated n member earlier
  kept := by
    rcases second.kept with same | nonempty
    · rw [same]
      exact first.kept
    · exact .inr nonempty
  nonempty := by
    rintro ⟨n, member, fresh⟩
    by_cases earlier : n ∈ b.1
    · rcases second.kept with same | nonempty
      · rw [same]
        exact first.nonempty ⟨n, earlier, fresh⟩
      · exact nonempty
    · exact second.nonempty ⟨n, member, earlier⟩

theorem narrowed_insert {found : List ID} {candidates next : List α} {n : ID} {msg : Msg ID V}
    (found_ : msgs.lookup n = some msg) (narrowed : narrowNext accepts candidates msg = some next) :
    Narrowed msgs accepts (found, candidates) (found.insert n, next) := by
  obtain ⟨rfl, nonempty⟩ := narrowNext_eq_some narrowed
  refine ⟨List.filter_sublist.subset, ?_, .inr nonempty, fun _ => nonempty⟩
  intro m member fresh
  have same : m = n := by simpa [List.mem_insert_iff, fresh] using member
  subst same
  exact ⟨msg, found_, fun v left => (List.mem_filter.mp left).2⟩

theorem nodeVisit_narrowed {found : List ID} {candidates next : List α} {n : ID}
    (visited : nodeVisit msgs (narrowNext accepts) candidates n = some next) :
    Narrowed msgs accepts (found, candidates) (found.insert n, next) := by
  unfold nodeVisit at visited
  obtain ⟨msg, found_, narrowed⟩ := Option.bind_eq_some_iff.mp visited
  exact narrowed_insert found_ narrowed

theorem sliceVisit_narrowed {quorumSetOf : Msg ID V → QuorumSet ID} {found : List ID}
    {candidates next : List α} {n : ID} {qs : QuorumSet ID}
    (visited : sliceVisit msgs (narrowNext accepts) quorumSetOf candidates n = some (next, qs)) :
    Narrowed msgs accepts (found, candidates) (found.insert n, next) := by
  unfold sliceVisit at visited
  obtain ⟨msg, found_, mapped⟩ := Option.bind_eq_some_iff.mp visited
  obtain ⟨next', narrowed, same⟩ := Option.map_eq_some_iff.mp mapped
  cases same
  exact narrowed_insert found_ narrowed

/-- With a predicate that keeps the candidates each message accepts, every node a search adds
accepts every candidate returned; the candidates returned are some of those it started with,
and there are some once the search has added a node. -/
theorem findQuorum_narrowed (msgs : List (ID × Msg ID V)) (qs : QuorumSet ID) (nodeId : ID) (candidates : List α) :
    ∃ quorum result, qs.findQuorum msgs (Slot.narrowingTest fun msg xs => pure (xs.filter
        (accepts msg))) Msg.quorumSet nodeId candidates = .ok (quorum, result) ∧
      (quorum ≠ [] → Narrowed msgs accepts ([nodeId], candidates) (quorum, result)) := by
  refine ⟨_, _, findQuorumFrom_eq narrowingTest_eq _ qs candidates [nodeId], fun nonempty => ?_⟩
  exact quorumFrom_keeps Narrowed.refl Narrowed.trans (fun visited => sliceVisit_narrowed visited)
    (msgs.length + 1) qs candidates [nodeId] nonempty

theorem findBlockingSet_narrowed (msgs : List (ID × Msg ID V)) (qs : QuorumSet ID) (candidates : List α) :
    ∃ blocking result, qs.findBlockingSet msgs (Slot.narrowingTest fun msg xs => pure (xs.filter
        (accepts msg))) candidates = .ok (blocking, result) ∧
      (blocking ≠ [] → Narrowed msgs accepts ([], candidates) (blocking, result)) := by
  refine ⟨_, _, findBlockingSetFrom_eq narrowingTest_eq qs candidates [], fun nonempty => ?_⟩
  exact blockingFrom_keeps Narrowed.refl Narrowed.trans (fun visited => nodeVisit_narrowed visited)
    qs candidates [] nonempty

section Values

variable [LinearOrder V]

theorem intersectValues_eq_filter (stated : Option (List V)) (values : List V) :
    Slot.intersectValues stated values =
      values.filter fun v => decide (v ∈ Slot.intersectValues stated [v]) := by
  cases stated with
  | none => simp [Slot.intersectValues]
  | some stated =>
    unfold Slot.intersectValues
    apply List.filter_congr
    intro v _
    by_cases here : v ∈ stated <;> simp [here]

omit [DecidableEq ID] in
theorem valueSetTest_eq_narrowingTest (stated : Msg ID V → Option (List V)) :
    (Slot.valueSetTest fun msg values => Slot.intersectValues (stated msg) values) =
      Slot.narrowingTest fun msg values =>
        pure (values.filter fun v => decide (v ∈ Slot.intersectValues (stated msg) [v])) := by
  unfold Slot.valueSetTest
  simp only [← intersectValues_eq_filter]

theorem narrowed_values_stated (qs : QuorumSet ID) (nodeId : ID) (msgs : List (ID × Msg ID V))
    (stated : Msg ID V → Option (List V)) (candidates : List V) :
    (∃ quorum result, qs.findQuorum msgs
        (Slot.valueSetTest fun msg values => Slot.intersectValues (stated msg) values)
        Msg.quorumSet nodeId candidates = .ok (quorum, result) ∧
      (quorum ≠ [] → result ⊆ candidates ∧
        (∀ n ∈ quorum, n ≠ nodeId → ∃ msg, msgs.lookup n = some msg ∧
          ∀ v ∈ result, v ∈ Slot.intersectValues (stated msg) [v]) ∧
        ((∃ n ∈ quorum, n ≠ nodeId) → result ≠ []))) ∧
    (∃ blocking result, qs.findBlockingSet msgs
        (Slot.valueSetTest fun msg values => Slot.intersectValues (stated msg) values)
        candidates = .ok (blocking, result) ∧
      (blocking ≠ [] → result ⊆ candidates ∧
        (∀ n ∈ blocking, ∃ msg, msgs.lookup n = some msg ∧
          ∀ v ∈ result, v ∈ Slot.intersectValues (stated msg) [v]) ∧
        result ≠ [])) := by
  rw [valueSetTest_eq_narrowingTest]
  constructor
  · obtain ⟨quorum, result, found, narrowed⟩ := findQuorum_narrowed msgs qs nodeId
      candidates
    refine ⟨quorum, result, found, fun nonempty => ?_⟩
    have narrowed := narrowed nonempty
    refine ⟨narrowed.subset, fun n member other => ?_, fun ⟨n, member, other⟩ =>
      narrowed.nonempty ⟨n, member, by simpa using other⟩⟩
    obtain ⟨msg, found_, all⟩ := narrowed.stated n member (by simpa using other)
    exact ⟨msg, found_, fun v left => by simpa using all v left⟩
  · obtain ⟨blocking, result, found, narrowed⟩ := findBlockingSet_narrowed msgs qs
      candidates
    refine ⟨blocking, result, found, fun nonempty => ?_⟩
    have narrowed := narrowed nonempty
    obtain ⟨n, member⟩ := List.exists_mem_of_ne_nil _ nonempty
    refine ⟨narrowed.subset, fun n member => ?_, narrowed.nonempty ⟨n, member, List.not_mem_nil⟩⟩
    obtain ⟨msg, found_, all⟩ := narrowed.stated n member List.not_mem_nil
    exact ⟨msg, found_, fun v left => by simpa using all v left⟩

/-- The ballot predicates do not narrow: `intersectBallots` lowers a candidate's counter to the
one the message states. And a quorum set that holds the local node is met with no other node,
leaving the candidates as they were, here none. -/
theorem findQuorum_lowers_ballots :
    (newWithNodeIds 1 [2] : QuorumSet ℕ).findQuorum
        [(2, ⟨2, 0, newWithNodeIds 1 [1], .prepare ⟨⟨3, [7]⟩, some ⟨3, [7]⟩, none, 0, 0⟩⟩)]
        (Slot.ballotSetTest fun msg ballots => Slot.intersectBallots msg.acceptsPrepared ballots)
        Msg.quorumSet 1 [⟨5, [7]⟩] = .ok ([2, 1], [⟨3, [7]⟩]) ∧
      ¬ ([⟨3, [7]⟩] : List (Ballot ℕ)) ⊆ [⟨5, [7]⟩] ∧
      (newWithNodeIds 1 [1] : QuorumSet ℕ).findQuorum ([] : List (ℕ × Msg ℕ ℕ))
        (Slot.valueSetTest fun msg values => Slot.intersectValues msg.acceptsNominated values)
        Msg.quorumSet 1 [] = .ok ([1], []) :=
  ⟨rfl, by simp, rfl⟩

end Values

end Narrowing

end MobileCoin.Scp.QuorumSet
