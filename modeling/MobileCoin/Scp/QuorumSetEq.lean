import MobileCoin.Scp.QuorumSetOrd

/-!
# Equality and hashing of quorum sets

`PartialEq for QuorumSet` compares the thresholds and member counts, then the members of
sorted clones; `Hash for QuorumSet` hashes a sorted clone. Both call themselves on the inner
sets of the clone, which they sort again, so the recursion descends through `sort`, by the size
of the set, which sorting keeps. Both see a set only through its sorted form: two sets are
equal exactly when one is the other with members reordered at any depth, and equal sets hash
alike.
-/

namespace MobileCoin.Scp.QuorumSet

open Compare

variable {ID : Type}

mutual
def memberSize : QuorumSetMember ID → ℕ
  | .node _ => 1
  | .innerSet qs => size qs + 1
def wrapperSize : Option (QuorumSetMember ID) → ℕ
  | none => 1
  | some member => memberSize member + 1
def membersSize : List (Option (QuorumSetMember ID)) → ℕ
  | [] => 1
  | member :: rest => wrapperSize member + membersSize rest
/-- The number of constructors in a quorum set. -/
def size : QuorumSet ID → ℕ
  | mk _ members => membersSize members + 1
end

theorem membersSize_eq (members : List (Option (QuorumSetMember ID))) :
    membersSize members = (members.map wrapperSize).sum + 1 := by
  induction members with
  | nil => rw [membersSize, List.map_nil, List.sum_nil]
  | cons member rest ih =>
    rw [membersSize, ih, List.map_cons, List.sum_cons]
    omega

theorem membersSize_perm {members members' : List (Option (QuorumSetMember ID))}
    (p : members.Perm members') : membersSize members = membersSize members' := by
  rw [membersSize_eq, membersSize_eq, (p.map wrapperSize).sum_eq]

/-- `b` is `a` with members reordered, in the set or in an inner set at any depth. -/
inductive Permuted : QuorumSet ID → QuorumSet ID → Prop
  | refl (qs : QuorumSet ID) : Permuted qs qs
  | symm {a b : QuorumSet ID} : Permuted a b → Permuted b a
  | trans {a b c : QuorumSet ID} : Permuted a b → Permuted b c → Permuted a c
  | perm (threshold : UInt32) {members members' : List (Option (QuorumSetMember ID))} :
      members.Perm members' → Permuted (mk threshold members) (mk threshold members')
  | inner (threshold : UInt32) (before after : List (Option (QuorumSetMember ID)))
      {a b : QuorumSet ID} : Permuted a b →
      Permuted (mk threshold (before ++ some (.innerSet a) :: after))
        (mk threshold (before ++ some (.innerSet b) :: after))

variable [LinearOrder ID]

mutual
theorem memberSize_sortMember : ∀ member : QuorumSetMember ID,
    memberSize (sortMember member) = memberSize member
  | .node _ => by rw [sortMember]
  | .innerSet qs => by rw [sortMember, memberSize, memberSize, size_sort qs]
theorem wrapperSize_sortWrapper : ∀ member : Option (QuorumSetMember ID),
    wrapperSize (sortWrapper member) = wrapperSize member
  | none => by rw [sortWrapper]
  | some member => by rw [sortWrapper, wrapperSize, wrapperSize, memberSize_sortMember member]
theorem membersSize_sortEach : ∀ members : List (Option (QuorumSetMember ID)),
    membersSize (sortEach members) = membersSize members
  | [] => by rw [sortEach]
  | member :: rest => by
    rw [sortEach, membersSize, membersSize, wrapperSize_sortWrapper member,
      membersSize_sortEach rest]
theorem size_sort : ∀ qs : QuorumSet ID, size (sort qs) = size qs
  | mk threshold members => by
    rw [sort, size, size, membersSize_perm (List.mergeSort_perm _ _), membersSize_sortEach]
end

theorem membersSize_members_sort (threshold : UInt32)
    (members : List (Option (QuorumSetMember ID))) :
    membersSize (sort (mk threshold members)).members = membersSize members := by
  have kept := size_sort (mk threshold members)
  rw [sort, size, size] at kept
  rw [sort, QuorumSet.members]
  omega

mutual
def eqMember : QuorumSetMember ID → QuorumSetMember ID → Bool
  | .node a, .node b => a == b
  | .innerSet a, .innerSet b => eq a b
  | _, _ => false
termination_by member _ => memberSize member
decreasing_by rw [memberSize]; omega
def eqWrapper : Option (QuorumSetMember ID) → Option (QuorumSetMember ID) → Bool
  | none, none => true
  | some a, some b => eqMember a b
  | _, _ => false
termination_by member _ => wrapperSize member
decreasing_by rw [wrapperSize]; omega
def eqMembers : List (Option (QuorumSetMember ID)) → List (Option (QuorumSetMember ID)) → Bool
  | [], [] => true
  | a :: as, b :: bs => eqWrapper a b && eqMembers as bs
  | _, _ => false
termination_by members _ => membersSize members
decreasing_by
  all_goals rw [membersSize]
  · have := membersSize_eq as
    omega
  · cases a <;> rw [wrapperSize] <;> omega
/-- `PartialEq for QuorumSet`: equal thresholds and member counts, then equal members once both
sets are sorted, inner sets comparing by this same `eq`. -/
def eq : QuorumSet ID → QuorumSet ID → Bool
  | mk threshold members, mk threshold' members' =>
    if threshold = threshold' ∧ members.length = members'.length then
      eqMembers (sort (mk threshold members)).members (sort (mk threshold' members')).members
    else false
termination_by qs _ => size qs
decreasing_by
  rw [membersSize_members_sort, size]
  omega
end

/-- What `Hash` feeds the hasher: `u32` and `usize` writes, variant discriminants, and node ids
(hashed by their own `Hash`). -/
inductive HashWrite (ID : Type) where
  | u32 (value : UInt32)
  | usize (value : ℕ)
  | discriminant (value : ℕ)
  | id (value : ID)
  deriving DecidableEq, Repr

mutual
def hashMember : QuorumSetMember ID → List (HashWrite ID)
  | .node id => [.discriminant 0, .id id]
  | .innerSet qs => .discriminant 1 :: hash qs
termination_by member => memberSize member
decreasing_by rw [memberSize]; omega
def hashWrapper : Option (QuorumSetMember ID) → List (HashWrite ID)
  | none => [.discriminant 0]
  | some member => .discriminant 1 :: hashMember member
termination_by member => wrapperSize member
decreasing_by rw [wrapperSize]; omega
def hashMembers : List (Option (QuorumSetMember ID)) → List (HashWrite ID)
  | [] => []
  | member :: rest => hashWrapper member ++ hashMembers rest
termination_by members => membersSize members
decreasing_by
  all_goals rw [membersSize]
  · have := membersSize_eq rest
    omega
  · cases member <;> rw [wrapperSize] <;> omega
/-- `Hash for QuorumSet`: the threshold, then the member count and each member, of a sorted
clone. -/
def hash : QuorumSet ID → List (HashWrite ID)
  | mk threshold members =>
    let sorted := sort (mk threshold members)
    .u32 sorted.threshold :: .usize sorted.members.length :: hashMembers sorted.members
termination_by qs => size qs
decreasing_by
  rw [membersSize_members_sort, size]
  omega
end

/-! ### Equality and hashing read the sorted form -/

omit [LinearOrder ID] in
theorem wrapperSize_lt_membersSize {member : Option (QuorumSetMember ID)} :
    ∀ {members : List (Option (QuorumSetMember ID))}, member ∈ members →
      wrapperSize member < membersSize members
  | [], mem => by cases mem
  | first :: rest, mem => by
    rw [membersSize]
    rcases List.mem_cons.mp mem with rfl | mem
    · have := membersSize_eq rest
      omega
    · have := wrapperSize_lt_membersSize mem
      omega

theorem size_lt_of_mem_sort {qs inner : QuorumSet ID}
    (mem : some (.innerSet inner) ∈ (sort qs).members) : size inner < size qs := by
  cases qs with
  | mk threshold members =>
    have below := wrapperSize_lt_membersSize mem
    rw [membersSize_members_sort, wrapperSize, memberSize] at below
    rw [size]
    omega

section Sorted

variable {l l' : List (Option (QuorumSetMember ID))}

theorem eqWrapper_iff {a b : Option (QuorumSetMember ID)}
    (inner : ∀ x, a = some (.innerSet x) → ∀ y, eq x y = true ↔ sort x = sort y)
    (sortedA : ∀ x, a = some (.innerSet x) → sort x = x)
    (sortedB : ∀ y, b = some (.innerSet y) → sort y = y) : eqWrapper a b = true ↔ a = b := by
  rcases a with _ | _ | x <;> rcases b with _ | _ | y
  all_goals simp only [eqWrapper, eqMember, reduceCtorEq, Option.some.injEq,
    QuorumSetMember.node.injEq, QuorumSetMember.innerSet.injEq, beq_iff_eq]
  -- only two inner sets are left
  rw [inner x rfl y, sortedA x rfl, sortedB y rfl]

theorem eqMembers_iff
    (inner : ∀ x, some (.innerSet x) ∈ l → ∀ y, eq x y = true ↔ sort x = sort y)
    (sorted : ∀ x, some (.innerSet x) ∈ l → sort x = x)
    (sorted' : ∀ y, some (.innerSet y) ∈ l' → sort y = y) : eqMembers l l' = true ↔ l = l' := by
  induction l generalizing l' with
  | nil => cases l' <;> simp [eqMembers]
  | cons a as ih =>
    cases l' with
    | nil => simp [eqMembers]
    | cons b bs =>
      have head := eqWrapper_iff (a := a) (b := b)
        (fun x same => inner x (by rw [← same]; exact List.mem_cons_self))
        (fun x same => sorted x (by rw [← same]; exact List.mem_cons_self))
        (fun y same => sorted' y (by rw [← same]; exact List.mem_cons_self))
      have tail : eqMembers as bs = true ↔ as = bs := ih (fun x mem => inner x (List.mem_cons_of_mem a mem))
        (fun x mem => sorted x (List.mem_cons_of_mem a mem))
        (fun y mem => sorted' y (List.mem_cons_of_mem b mem))
      rw [eqMembers, Bool.and_eq_true, head, tail, List.cons.injEq]

end Sorted

theorem eq_iff_sort_eq_of_size_lt : ∀ (n : ℕ) (a : QuorumSet ID), size a < n →
    ∀ b, eq a b = true ↔ sort a = sort b
  | 0, _, small, _ => absurd small (Nat.not_lt_zero _)
  | n + 1, mk threshold members, small, mk threshold' members' => by
    -- the inner sets of the sorted clone are smaller, and sorted already
    have members_iff : eqMembers (sort (mk threshold members)).members
        (sort (mk threshold' members')).members = true ↔ _ := eqMembers_iff
      (fun x mem => eq_iff_sort_eq_of_size_lt n x (by have := size_lt_of_mem_sort mem; omega))
      (fun x mem => sort_of_mem_sort mem) (fun y mem => sort_of_mem_sort mem)
    have sorted (t : UInt32) (ms : List (Option (QuorumSetMember ID))) :
        sort (mk t ms) = mk t (sort (mk t ms)).members := by
      rw [sort, QuorumSet.members]
    rw [eq, sorted threshold members, sorted threshold' members', mk.injEq]
    constructor
    · intro equal
      split_ifs at equal with same
      exact ⟨same.1, members_iff.mp equal⟩
    · rintro ⟨rfl, same⟩
      have lengths := congrArg List.length same
      rw [length_members_sort, length_members_sort, QuorumSet.members,
        QuorumSet.members] at lengths
      rw [if_pos ⟨rfl, lengths⟩]
      exact members_iff.mpr same

theorem eq_iff_sort_eq (a b : QuorumSet ID) : eq a b = true ↔ sort a = sort b :=
  eq_iff_sort_eq_of_size_lt (size a + 1) a (Nat.lt_succ_self _) b

theorem hash_eq_of_sort_eq {a b : QuorumSet ID} (same : sort a = sort b) : hash a = hash b := by
  cases a
  cases b
  rw [hash, hash, same]

/-! ### Sorting reorders and nothing else -/

theorem sort_eq_of_permuted {a b : QuorumSet ID} (permuted : Permuted a b) : sort a = sort b := by
  induction permuted with
  | refl => rfl
  | symm _ ih => exact ih.symm
  | trans _ _ ih ih' => exact ih.trans ih'
  | perm threshold p => rw [sort_mk, sort_mk, mergeSort_eq_of_perm (p.map sortWrapper)]
  | inner threshold before after _ ih =>
    rw [sort_mk, sort_mk, List.map_append, List.map_append, List.map_cons, List.map_cons,
      sortWrapper_innerSet, sortWrapper_innerSet, ih]

mutual
theorem permuted_sortEach : ∀ (threshold : UInt32) (before members : List (Option (QuorumSetMember ID))),
    Permuted (mk threshold (before ++ members)) (mk threshold (before ++ sortEach members))
  | threshold, before, [] => by
    rw [sortEach]
    exact .refl _
  | threshold, before, none :: rest => by
    have step := permuted_sortEach threshold (before ++ [none]) rest
    rw [sortEach, sortWrapper]
    simpa using step
  | threshold, before, some (.node id) :: rest => by
    have step := permuted_sortEach threshold (before ++ [some (.node id)]) rest
    rw [sortEach, sortWrapper, sortMember]
    simpa using step
  | threshold, before, some (.innerSet qs) :: rest => by
    have step := permuted_sortEach threshold (before ++ [some (.innerSet (sort qs))]) rest
    rw [sortEach, sortWrapper_innerSet]
    simp only [List.append_assoc, List.singleton_append] at step
    exact .trans (.inner threshold before rest (permuted_sort qs)) step
theorem permuted_sort : ∀ qs : QuorumSet ID, Permuted qs (sort qs)
  | mk threshold members => by
    have step := permuted_sortEach threshold [] members
    rw [List.nil_append, List.nil_append] at step
    rw [sort]
    exact .trans step (.perm threshold (List.mergeSort_perm _ _).symm)
end

theorem permuted_iff_sort_eq (a b : QuorumSet ID) : Permuted a b ↔ sort a = sort b :=
  ⟨sort_eq_of_permuted, fun same =>
    (permuted_sort a).trans (by rw [same]; exact (permuted_sort b).symm)⟩

/-- `PartialEq for QuorumSet` is equality up to reordering members at any depth, `Hash` agrees
with it, and `sort` is idempotent and keeps `==`. -/
theorem eq_iff_permuted (a b : QuorumSet ID) :
    (eq a b = true ↔ Permuted a b) ∧ (eq a b = true → hash a = hash b) ∧
      sort (sort a) = sort a ∧ eq (sort a) a = true ∧ eq (sort a) (sort b) = eq a b := by
  refine ⟨(eq_iff_sort_eq a b).trans (permuted_iff_sort_eq a b).symm,
    fun equal => hash_eq_of_sort_eq ((eq_iff_sort_eq a b).mp equal), sort_sort a,
    (eq_iff_sort_eq (sort a) a).mpr (sort_sort a), ?_⟩
  rw [Bool.eq_iff_iff, eq_iff_sort_eq, eq_iff_sort_eq, sort_sort, sort_sort]

end MobileCoin.Scp.QuorumSet
