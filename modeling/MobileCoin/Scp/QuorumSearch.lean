import MobileCoin.Lib.Except
import MobileCoin.Scp.QuorumSet

/-!
# Searches with a predicate that cannot fail

When the test of the predicate always returns, the searches of `QuorumSetExt` are pure functions
of what the test accepts at each node: `blockingFrom` and `quorumFrom` below, which
`findBlockingSetFrom_eq` and `findQuorumFrom_eq` show the searches of the model compute.
What every accepted node keeps between the search's state before and after it, a search that
succeeds keeps between its start and its result.
-/

namespace MobileCoin.Scp.QuorumSet

variable {ID σ : Type} [DecidableEq ID]

/-! ### Blocking sets -/

section Blocking

variable (visit : σ → ID → Option σ)

mutual
/-- `findBlockingSetHelper`, with `visit pred n` for the test of node `n`'s message. -/
def blockingMembers (needed : UInt32) (members : List (Option (QuorumSetMember ID)))
    (pred : σ) (found : List ID) : List ID × σ :=
  if needed = 0 then (found, pred)
  else if members.length < needed.toNat then ([], pred)
  else match members with
    | [] => ([], pred)
    | some (.node n) :: rest =>
      match visit pred n with
      | some nextPred => blockingMembers (needed - 1) rest nextPred (found.insert n)
      | none => blockingMembers needed rest pred found
    | some (.innerSet qs) :: rest =>
      match blockingFrom qs pred found with
      | (found2, pred2) =>
        if found2.isEmpty then blockingMembers needed rest pred found
        else blockingMembers (needed - 1) rest pred2 found2
    | none :: rest => blockingMembers needed rest pred found
def blockingFrom : QuorumSet ID → σ → List ID → List ID × σ
  | mk threshold members, pred, found =>
    blockingMembers (UInt32.ofNat members.length - threshold + 1) members pred found
end

section Keeps

variable {visit} {R : List ID × σ → List ID × σ → Prop}

mutual
/-- A relation that each accepted node keeps holds between the start of a blocking search and
its result, when the result has nodes. -/
theorem blockingMembers_keeps (refl : ∀ a, R a a) (trans : ∀ {a b c}, R a b → R b c → R a c)
    (accept : ∀ {found pred n nextPred}, visit pred n = some nextPred →
      R (found, pred) (found.insert n, nextPred)) : ∀ (needed : UInt32) (members : List (Option (QuorumSetMember ID)))
    (pred : σ) (found : List ID), (blockingMembers visit needed members pred found).1 ≠ [] →
      R (found, pred) (blockingMembers visit needed members pred found)
  | needed, [], pred, found, nonempty => by
    rw [blockingMembers] at nonempty ⊢
    split
    · exact refl _
    · split at nonempty <;> simp_all
  | needed, none :: rest, pred, found, nonempty => by
    rw [blockingMembers] at nonempty ⊢
    split
    · exact refl _
    · split
      · simp_all
      · simp only [*, if_false] at nonempty
        exact blockingMembers_keeps refl trans accept needed rest pred found nonempty
  | needed, some (.node n) :: rest, pred, found, nonempty => by
    rw [blockingMembers] at nonempty ⊢
    split
    · exact refl _
    · split
      · simp_all
      · simp only [*, if_false] at nonempty
        cases visited : visit pred n with
        | some nextPred =>
          simp only [visited] at nonempty ⊢
          exact trans (accept visited)
            (blockingMembers_keeps refl trans accept _ rest nextPred _ nonempty)
        | none =>
          simp only [visited] at nonempty ⊢
          exact blockingMembers_keeps refl trans accept needed rest pred found nonempty
  | needed, some (.innerSet qs) :: rest, pred, found, nonempty => by
    rw [blockingMembers] at nonempty ⊢
    split
    · exact refl _
    · split
      · simp_all
      · simp only [*, if_false] at nonempty
        rcases inner : blockingFrom visit qs pred found with ⟨found2, pred2⟩
        simp only [inner] at nonempty ⊢
        split
        · simp only [*, if_true] at nonempty
          exact blockingMembers_keeps refl trans accept needed rest pred found nonempty
        · rename_i notEmpty
          have innerKeeps := blockingFrom_keeps refl trans accept qs pred found
            (by simpa [inner] using notEmpty)
          rw [inner] at innerKeeps
          simp only [*] at nonempty
          exact trans innerKeeps (blockingMembers_keeps refl trans accept _ rest pred2 found2 nonempty)
theorem blockingFrom_keeps (refl : ∀ a, R a a) (trans : ∀ {a b c}, R a b → R b c → R a c)
    (accept : ∀ {found pred n nextPred}, visit pred n = some nextPred →
      R (found, pred) (found.insert n, nextPred)) : ∀ (qs : QuorumSet ID) (pred : σ) (found : List ID),
    (blockingFrom visit qs pred found).1 ≠ [] → R (found, pred) (blockingFrom visit qs pred found)
  | mk _ members, pred, found, nonempty =>
    blockingMembers_keeps refl trans accept _ members pred found nonempty
end

end Keeps

end Blocking

/-! ### Quorums -/

section Quorum

variable (visit : σ → ID → Option (σ × QuorumSet ID))
  (descend : QuorumSet ID → σ → List ID → List ID × σ)

mutual
/-- `findQuorumHelperWith`, with `visit pred n` for the test of node `n`'s message together with
the node's quorum set. -/
def quorumMembers (threshold : UInt32) (members : List (Option (QuorumSetMember ID)))
    (pred : σ) (found : List ID) : List ID × σ :=
  if threshold = 0 then (found, pred)
  else if members.length < threshold.toNat then ([], pred)
  else match members with
    | [] => ([], pred)
    | some (.node n) :: rest =>
      if n ∈ found then quorumMembers (threshold - 1) rest pred found
      else match visit pred n with
        | some (nextPred, qs) =>
          match descend qs nextPred (found.insert n) with
          | (found2, pred2) =>
            if found2.isEmpty then quorumMembers threshold rest pred found
            else quorumMembers (threshold - 1) rest pred2 found2
        | none => quorumMembers threshold rest pred found
    | some (.innerSet qs) :: rest =>
      match quorumFromWith qs pred found with
      | (found2, pred2) =>
        if found2.isEmpty then quorumMembers threshold rest pred found
        else quorumMembers (threshold - 1) rest pred2 found2
    | none :: rest => quorumMembers threshold rest pred found
def quorumFromWith : QuorumSet ID → σ → List ID → List ID × σ
  | mk threshold members, pred, found => quorumMembers threshold members pred found
end

def quorumFrom : ℕ → QuorumSet ID → σ → List ID → List ID × σ
  | 0, _, pred, _ => ([], pred)
  | depth + 1, qs, pred, found => quorumFromWith visit (quorumFrom depth) qs pred found

section Keeps

variable {visit descend} {R : List ID × σ → List ID × σ → Prop}

mutual
/-- A relation that holds from the state before each node whose search succeeds to the result
of that search holds between the start of a quorum search and its result, when the result has
nodes. -/
theorem quorumMembers_keeps (refl : ∀ a, R a a) (trans : ∀ {a b c}, R a b → R b c → R a c)
    (accept : ∀ {found pred n nextPred qs}, visit pred n = some (nextPred, qs) →
      (descend qs nextPred (found.insert n)).1 ≠ [] →
        R (found, pred) (descend qs nextPred (found.insert n))) :
    ∀ (threshold : UInt32) (members : List (Option (QuorumSetMember ID))) (pred : σ)
      (found : List ID), (quorumMembers visit descend threshold members pred found).1 ≠ [] →
        R (found, pred) (quorumMembers visit descend threshold members pred found)
  | threshold, [], pred, found, nonempty => by
    rw [quorumMembers] at nonempty ⊢
    split
    · exact refl _
    · split at nonempty <;> simp_all
  | threshold, none :: rest, pred, found, nonempty => by
    rw [quorumMembers] at nonempty ⊢
    split
    · exact refl _
    · split
      · simp_all
      · simp only [*, if_false] at nonempty
        exact quorumMembers_keeps refl trans accept threshold rest pred found nonempty
  | threshold, some (.node n) :: rest, pred, found, nonempty => by
    rw [quorumMembers] at nonempty ⊢
    split
    · exact refl _
    · split
      · simp_all
      · simp only [*, if_false] at nonempty
        split
        · simp only [*, if_true] at nonempty
          exact quorumMembers_keeps refl trans accept _ rest pred found nonempty
        · simp only [*, if_false] at nonempty
          cases visited : visit pred n with
          | none =>
            simp only [visited] at nonempty ⊢
            exact quorumMembers_keeps refl trans accept threshold rest pred found nonempty
          | some visitedAs =>
            obtain ⟨nextPred, qs⟩ := visitedAs
            simp only [visited] at nonempty ⊢
            rcases descended : descend qs nextPred (found.insert n) with ⟨found2, pred2⟩
            have descendKeeps := @accept found pred n nextPred qs visited
            rw [descended] at descendKeeps
            simp only [descended] at nonempty ⊢
            by_cases empty : found2.isEmpty = true
            · simp only [empty, if_true] at nonempty ⊢
              exact quorumMembers_keeps refl trans accept threshold rest pred found nonempty
            · simp only [empty] at nonempty ⊢
              have grown := descendKeeps (by simpa using empty)
              exact trans grown (quorumMembers_keeps refl trans accept _ rest pred2 found2 nonempty)
  | threshold, some (.innerSet qs) :: rest, pred, found, nonempty => by
    rw [quorumMembers] at nonempty ⊢
    split
    · exact refl _
    · split
      · simp_all
      · simp only [*, if_false] at nonempty
        rcases inner : quorumFromWith visit descend qs pred found with ⟨found2, pred2⟩
        simp only [inner] at nonempty ⊢
        by_cases empty : found2.isEmpty = true
        · simp only [empty, if_true] at nonempty ⊢
          exact quorumMembers_keeps refl trans accept threshold rest pred found nonempty
        · simp only [empty] at nonempty ⊢
          have innerKeeps := quorumFromWith_keeps refl trans accept qs pred found
            (by simpa [inner] using empty)
          rw [inner] at innerKeeps
          exact trans innerKeeps (quorumMembers_keeps refl trans accept _ rest pred2 found2 nonempty)
theorem quorumFromWith_keeps (refl : ∀ a, R a a) (trans : ∀ {a b c}, R a b → R b c → R a c)
    (accept : ∀ {found pred n nextPred qs}, visit pred n = some (nextPred, qs) →
      (descend qs nextPred (found.insert n)).1 ≠ [] →
        R (found, pred) (descend qs nextPred (found.insert n))) :
    ∀ (qs : QuorumSet ID) (pred : σ) (found : List ID),
      (quorumFromWith visit descend qs pred found).1 ≠ [] →
        R (found, pred) (quorumFromWith visit descend qs pred found)
  | mk threshold members, pred, found, nonempty =>
    quorumMembers_keeps refl trans accept threshold members pred found nonempty
end

/-- A relation that each accepted node keeps holds between the start of a quorum search and
its result, when the result has nodes. -/
theorem quorumFrom_keeps (refl : ∀ a, R a a) (trans : ∀ {a b c}, R a b → R b c → R a c)
    (accept : ∀ {found pred n nextPred qs}, visit pred n = some (nextPred, qs) →
      R (found, pred) (found.insert n, nextPred)) :
    ∀ (depth : ℕ) (qs : QuorumSet ID) (pred : σ) (found : List ID),
      (quorumFrom visit depth qs pred found).1 ≠ [] →
        R (found, pred) (quorumFrom visit depth qs pred found)
  | 0, _, _, _, nonempty => absurd rfl nonempty
  | depth + 1, qs, pred, found, nonempty => by
    apply quorumFromWith_keeps refl trans _ qs pred found nonempty
    intro found pred n nextPred qs visited descended
    exact trans (accept visited)
      (quorumFrom_keeps refl trans accept depth qs nextPred (found.insert n) descended)

end Keeps

end Quorum

/-! ### The searches of the model -/

section Model

variable {M ε : Type} {msgs : List (ID × M)} {test : σ → M → Except ε (Option σ)}
  {next : σ → M → Option σ}

/-- The test of a node's latest message. -/
def nodeVisit (msgs : List (ID × M)) (next : σ → M → Option σ) (pred : σ) (n : ID) : Option σ :=
  (msgs.lookup n).bind (next pred)

/-- The test of a node's latest message, with the quorum set the message carries. -/
def sliceVisit (msgs : List (ID × M)) (next : σ → M → Option σ) (quorumSetOf : M → QuorumSet ID)
    (pred : σ) (n : ID) : Option (σ × QuorumSet ID) :=
  (msgs.lookup n).bind fun msg => (next pred msg).map fun nextPred => (nextPred, quorumSetOf msg)

theorem testNode_eq (pure : ∀ pred msg, test pred msg = .ok (next pred msg)) (pred : σ) (n : ID) :
    testNode msgs test pred n = .ok (nodeVisit msgs next pred n) := by
  unfold testNode nodeVisit
  cases msgs.lookup n with
  | some msg => exact pure pred msg
  | none => rfl

mutual
theorem findBlockingSetHelper_eq (pure : ∀ pred msg, test pred msg = .ok (next pred msg)) :
    ∀ (needed : UInt32) (members : List (Option (QuorumSetMember ID))) (pred : σ)
      (found : List ID), findBlockingSetHelper msgs test needed members pred found =
        .ok (blockingMembers (nodeVisit msgs next) needed members pred found)
  | needed, [], pred, found => by
    rw [findBlockingSetHelper, blockingMembers]
    split <;> simp
  | needed, none :: rest, pred, found => by
    rw [findBlockingSetHelper, blockingMembers]
    split
    · rfl
    · split
      · rfl
      · exact findBlockingSetHelper_eq pure needed rest pred found
  | needed, some (.node n) :: rest, pred, found => by
    rw [findBlockingSetHelper, blockingMembers]
    split
    · rfl
    · split
      · rfl
      · rw [testNode_eq pure pred n, ok_bind]
        cases nodeVisit msgs next pred n with
        | some nextPred => exact findBlockingSetHelper_eq pure _ rest nextPred _
        | none => exact findBlockingSetHelper_eq pure needed rest pred found
  | needed, some (.innerSet qs) :: rest, pred, found => by
    rw [findBlockingSetHelper, blockingMembers]
    split
    · rfl
    · split
      · rfl
      · rw [findBlockingSetFrom_eq pure qs pred found, ok_bind]
        rcases blockingFrom (nodeVisit msgs next) qs pred found with ⟨found2, pred2⟩
        by_cases empty : found2.isEmpty = true
        · simp only [empty, if_true]
          exact findBlockingSetHelper_eq pure needed rest pred found
        · simp only [empty]
          exact findBlockingSetHelper_eq pure _ rest pred2 found2
/-- With a test that always returns, the blocking search of the model is `blockingFrom`. -/
theorem findBlockingSetFrom_eq (pure : ∀ pred msg, test pred msg = .ok (next pred msg)) :
    ∀ (qs : QuorumSet ID) (pred : σ) (found : List ID),
      findBlockingSetFrom msgs test qs pred found =
        .ok (blockingFrom (nodeVisit msgs next) qs pred found)
  | mk _ members, pred, found => findBlockingSetHelper_eq pure _ members pred found
end

variable {quorumSetOf : M → QuorumSet ID}
  {descendE : QuorumSet ID → σ → List ID → Except ε (List ID × σ)}
  {descend : QuorumSet ID → σ → List ID → List ID × σ}

mutual
theorem findQuorumHelperWith_eq (pure : ∀ pred msg, test pred msg = .ok (next pred msg))
    (descends : ∀ qs pred found, descendE qs pred found = .ok (descend qs pred found)) :
    ∀ (threshold : UInt32) (members : List (Option (QuorumSetMember ID))) (pred : σ)
      (found : List ID),
      findQuorumHelperWith msgs test quorumSetOf descendE threshold members pred found =
        .ok (quorumMembers (sliceVisit msgs next quorumSetOf) descend threshold members pred found)
  | threshold, [], pred, found => by
    rw [findQuorumHelperWith, quorumMembers]
    split <;> simp
  | threshold, none :: rest, pred, found => by
    rw [findQuorumHelperWith, quorumMembers]
    split
    · rfl
    · split
      · rfl
      · exact findQuorumHelperWith_eq pure descends threshold rest pred found
  | threshold, some (.node n) :: rest, pred, found => by
    rw [findQuorumHelperWith, quorumMembers]
    split
    · rfl
    · split
      · rfl
      · split
        · exact findQuorumHelperWith_eq pure descends _ rest pred found
        · unfold sliceVisit
          cases msgs.lookup n with
          | none => exact findQuorumHelperWith_eq pure descends threshold rest pred found
          | some msg =>
            simp only [pure, descends, ok_bind, Option.bind_some]
            cases next pred msg with
            | none => exact findQuorumHelperWith_eq pure descends threshold rest pred found
            | some nextPred =>
              simp only [Option.map_some, map_ok, ok_bind]
              rcases descend (quorumSetOf msg) nextPred (found.insert n) with ⟨found2, pred2⟩
              by_cases empty : found2.isEmpty = true
              · simp only [empty, if_true]
                exact findQuorumHelperWith_eq pure descends threshold rest pred found
              · simp only [empty]
                exact findQuorumHelperWith_eq pure descends _ rest pred2 found2
  | threshold, some (.innerSet qs) :: rest, pred, found => by
    rw [findQuorumHelperWith, quorumMembers]
    split
    · rfl
    · split
      · rfl
      · rw [findQuorumFromWith_eq pure descends qs pred found, ok_bind]
        rcases quorumFromWith (sliceVisit msgs next quorumSetOf) descend qs pred found with
          ⟨found2, pred2⟩
        by_cases empty : found2.isEmpty = true
        · simp only [empty, if_true]
          exact findQuorumHelperWith_eq pure descends threshold rest pred found
        · simp only [empty]
          exact findQuorumHelperWith_eq pure descends _ rest pred2 found2
theorem findQuorumFromWith_eq (pure : ∀ pred msg, test pred msg = .ok (next pred msg))
    (descends : ∀ qs pred found, descendE qs pred found = .ok (descend qs pred found)) :
    ∀ (qs : QuorumSet ID) (pred : σ) (found : List ID),
      findQuorumFromWith msgs test quorumSetOf descendE qs pred found =
        .ok (quorumFromWith (sliceVisit msgs next quorumSetOf) descend qs pred found)
  | mk threshold members, pred, found =>
    findQuorumHelperWith_eq pure descends threshold members pred found
end

/-- With a test that always returns, the quorum search of the model is `quorumFrom`. -/
theorem findQuorumFrom_eq (pure : ∀ pred msg, test pred msg = .ok (next pred msg)) :
    ∀ (depth : ℕ) (qs : QuorumSet ID) (pred : σ) (found : List ID),
      findQuorumFrom msgs test quorumSetOf depth qs pred found =
        .ok (quorumFrom (sliceVisit msgs next quorumSetOf) depth qs pred found)
  | 0, _, _, _ => rfl
  | depth + 1, qs, pred, found =>
    findQuorumFromWith_eq pure (findQuorumFrom_eq pure depth) qs pred found

end Model

end MobileCoin.Scp.QuorumSet
