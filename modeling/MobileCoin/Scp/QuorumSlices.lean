import MobileCoin.Scp.QuorumSet

/-!
# Quorum slices

What the searches of `QuorumSetExt` look for, over the set of nodes that are present. A quorum
set is met when at least `need n k` of its `n` members are present, `k` being its threshold and
an inner set counting as present when it is met itself. With `need n k = k` the nodes satisfy
the set (they hold one of its slices); with `need n k = n - k + 1` they block it (they meet each
of its slices).
-/

namespace MobileCoin.Scp.QuorumSet

variable {ID : Type}

section Met

variable (need : ℕ → ℕ → ℕ) (present : ID → Bool)

mutual
def presentMembers : List (Option (QuorumSetMember ID)) → ℕ
  | [] => 0
  | none :: rest => presentMembers rest
  | some (.node n) :: rest => (if present n then 1 else 0) + presentMembers rest
  | some (.innerSet qs) :: rest => (if metBy qs then 1 else 0) + presentMembers rest
def metBy : QuorumSet ID → Bool
  | mk threshold members => need members.length threshold.toNat ≤ presentMembers members
end

end Met

/-- A slice has `threshold` members. -/
def sliceNeed (_length threshold : ℕ) : ℕ := threshold

/-- A set of members meets every slice when only `threshold - 1` members are left out. -/
def blockingNeed (length threshold : ℕ) : ℕ := length - threshold + 1

/-- The nodes hold a slice of the set. -/
def satisfiedBy (present : ID → Bool) (qs : QuorumSet ID) : Bool := metBy sliceNeed present qs

/-- The nodes meet every slice of the set. -/
def blockedBy (present : ID → Bool) (qs : QuorumSet ID) : Bool := metBy blockingNeed present qs

variable {need : ℕ → ℕ → ℕ} {present present' : ID → Bool}

@[simp] theorem metBy_mk (threshold : UInt32) (members : List (Option (QuorumSetMember ID))) :
    metBy need present (mk threshold members) = true ↔
      need members.length threshold.toNat ≤ presentMembers need present members := by
  simp [metBy]

@[simp] theorem presentMembers_nil : presentMembers need present [] = 0 := by
  simp [presentMembers]

@[simp] theorem presentMembers_none (rest : List (Option (QuorumSetMember ID))) :
    presentMembers need present (none :: rest) = presentMembers need present rest := by
  simp [presentMembers]

@[simp] theorem presentMembers_node (n : ID) (rest : List (Option (QuorumSetMember ID))) :
    presentMembers need present (some (.node n) :: rest) =
      (if present n then 1 else 0) + presentMembers need present rest := by
  simp [presentMembers]

@[simp] theorem presentMembers_innerSet (qs : QuorumSet ID)
    (rest : List (Option (QuorumSetMember ID))) :
    presentMembers need present (some (.innerSet qs) :: rest) =
      (if metBy need present qs then 1 else 0) + presentMembers need present rest := by
  simp [presentMembers]

theorem presentMembers_le_length (members : List (Option (QuorumSetMember ID))) :
    presentMembers need present members ≤ members.length := by
  induction members with
  | nil => simp
  | cons member rest ih =>
    rcases member with _ | _ | _
    · simp only [presentMembers_none, List.length_cons]
      omega
    · simp only [presentMembers_node, List.length_cons]
      split <;> omega
    · simp only [presentMembers_innerSet, List.length_cons]
      split <;> omega

mutual
theorem presentMembers_mono (more : ∀ n, present n = true → present' n = true) :
    ∀ members : List (Option (QuorumSetMember ID)),
      presentMembers need present members ≤ presentMembers need present' members
  | [] => le_rfl
  | none :: rest => by
    simpa only [presentMembers_none] using presentMembers_mono more rest
  | some (.node n) :: rest => by
    have counted : (if present n then 1 else 0) ≤ if present' n then 1 else 0 := by
      by_cases here : present n
      · simp [here, more n here]
      · simp [here]
    simp only [presentMembers_node]
    exact Nat.add_le_add counted (presentMembers_mono more rest)
  | some (.innerSet qs) :: rest => by
    have counted : (if metBy need present qs then 1 else 0) ≤
        if metBy need present' qs then 1 else 0 := by
      by_cases met : metBy need present qs
      · simp [met, metBy_mono more qs met]
      · simp [met]
    simp only [presentMembers_innerSet]
    exact Nat.add_le_add counted (presentMembers_mono more rest)
theorem metBy_mono (more : ∀ n, present n = true → present' n = true) :
    ∀ qs : QuorumSet ID, metBy need present qs = true → metBy need present' qs = true
  | mk threshold members, met => by
    rw [metBy_mk] at met ⊢
    exact met.trans (presentMembers_mono more members)
end

theorem satisfiedBy_mono {qs : QuorumSet ID} (more : ∀ n, present n = true → present' n = true)
    (satisfied : satisfiedBy present qs = true) : satisfiedBy present' qs = true :=
  metBy_mono more qs satisfied

theorem blockedBy_mono {qs : QuorumSet ID} (more : ∀ n, present n = true → present' n = true)
    (blocked : blockedBy present qs = true) : blockedBy present' qs = true :=
  metBy_mono more qs blocked

end MobileCoin.Scp.QuorumSet
