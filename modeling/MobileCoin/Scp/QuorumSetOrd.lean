import MobileCoin.Lib.Compare
import MobileCoin.Scp.QuorumSet

/-!
# The derived order of quorum sets, and `sort`

`QuorumSetMember`, `QuorumSetMemberWrapper` and `QuorumSet` derive `Ord`: members compare by
variant, nodes first, and then by payload, an absent member comes first, member lists compare
lexicographically, and sets by threshold and then members. The order is structural, so it is
a total order on quorum sets as written, sorted or not, `eq` exactly on equal sets.
`QuorumSet::sort` sorts every inner set and then the members; it returns the one sorted
permutation of its input, and sorting twice changes nothing.
-/

namespace MobileCoin.Scp.QuorumSet

open Compare

variable {ID : Type} [LinearOrder ID]

mutual
def cmpMember : QuorumSetMember ID → QuorumSetMember ID → Ordering
  | .node a, .node b => compare a b
  | .node _, .innerSet _ => .lt
  | .innerSet _, .node _ => .gt
  | .innerSet a, .innerSet b => cmp a b
def cmpWrapper : Option (QuorumSetMember ID) → Option (QuorumSetMember ID) → Ordering
  | none, none => .eq
  | none, some _ => .lt
  | some _, none => .gt
  | some a, some b => cmpMember a b
def cmpMembers : List (Option (QuorumSetMember ID)) → List (Option (QuorumSetMember ID)) →
    Ordering
  | [], [] => .eq
  | [], _ :: _ => .lt
  | _ :: _, [] => .gt
  | a :: as, b :: bs => (cmpWrapper a b).then (cmpMembers as bs)
/-- The derived `Ord for QuorumSet`: the threshold, then the members. -/
def cmp : QuorumSet ID → QuorumSet ID → Ordering
  | mk threshold members, mk threshold' members' =>
    (compare threshold threshold').then (cmpMembers members members')
end

mutual
def sortMember : QuorumSetMember ID → QuorumSetMember ID
  | .node id => .node id
  | .innerSet qs => .innerSet (sort qs)
def sortWrapper : Option (QuorumSetMember ID) → Option (QuorumSetMember ID)
  | none => none
  | some member => some (sortMember member)
def sortEach : List (Option (QuorumSetMember ID)) → List (Option (QuorumSetMember ID))
  | [] => []
  | member :: rest => sortWrapper member :: sortEach rest
/-- `QuorumSet::sort`: sort each inner set, then the members by the derived order
(`slice::sort`, a stable merge sort). -/
def sort : QuorumSet ID → QuorumSet ID
  | mk threshold members => mk threshold ((sortEach members).mergeSort (leOf cmpWrapper))
end

/-! ### The derived order is a total order -/

mutual
theorem cmpMember_self : ∀ a : QuorumSetMember ID, cmpMember a a = .eq
  | .node a => by
    rw [cmpMember]
    exact Std.ReflCmp.compare_self
  | .innerSet a => by rw [cmpMember, cmp_self a]
theorem cmpWrapper_self : ∀ a : Option (QuorumSetMember ID), cmpWrapper a a = .eq
  | none => by rw [cmpWrapper]
  | some a => by rw [cmpWrapper, cmpMember_self a]
theorem cmpMembers_self : ∀ as : List (Option (QuorumSetMember ID)), cmpMembers as as = .eq
  | [] => by rw [cmpMembers]
  | a :: as => by rw [cmpMembers, cmpWrapper_self a, cmpMembers_self as, Ordering.eq_then]
theorem cmp_self : ∀ a : QuorumSet ID, cmp a a = .eq
  | mk threshold members => by
    rw [cmp, show compare threshold threshold = .eq from Std.ReflCmp.compare_self,
      cmpMembers_self members, Ordering.eq_then]
end

mutual
theorem eq_of_cmpMember : ∀ a b : QuorumSetMember ID, cmpMember a b = .eq → a = b
  | .node a, .node b, same => by
    rw [cmpMember] at same
    rw [Std.LawfulEqCmp.eq_of_compare same]
  | .node _, .innerSet _, same => by simp [cmpMember] at same
  | .innerSet _, .node _, same => by simp [cmpMember] at same
  | .innerSet a, .innerSet b, same => by
    rw [cmpMember] at same
    rw [eq_of_cmp a b same]
theorem eq_of_cmpWrapper : ∀ a b : Option (QuorumSetMember ID), cmpWrapper a b = .eq → a = b
  | none, none, _ => rfl
  | none, some _, same => by simp [cmpWrapper] at same
  | some _, none, same => by simp [cmpWrapper] at same
  | some a, some b, same => by
    rw [cmpWrapper] at same
    rw [eq_of_cmpMember a b same]
theorem eq_of_cmpMembers :
    ∀ as bs : List (Option (QuorumSetMember ID)), cmpMembers as bs = .eq → as = bs
  | [], [], _ => rfl
  | [], _ :: _, same => by simp [cmpMembers] at same
  | _ :: _, [], same => by simp [cmpMembers] at same
  | a :: as, b :: bs, same => by
    rw [cmpMembers, Ordering.then_eq_eq] at same
    rw [eq_of_cmpWrapper a b same.1, eq_of_cmpMembers as bs same.2]
theorem eq_of_cmp : ∀ a b : QuorumSet ID, cmp a b = .eq → a = b
  | mk threshold members, mk threshold' members', same => by
    rw [cmp, Ordering.then_eq_eq] at same
    rw [Std.LawfulEqCmp.eq_of_compare same.1, eq_of_cmpMembers members members' same.2]
end

mutual
theorem cmpMember_swap : ∀ a b : QuorumSetMember ID, cmpMember b a = (cmpMember a b).swap
  | .node a, .node b => by
    rw [cmpMember, cmpMember]
    exact Std.OrientedCmp.eq_swap
  | .node _, .innerSet _ => by rw [cmpMember, cmpMember]; rfl
  | .innerSet _, .node _ => by rw [cmpMember, cmpMember]; rfl
  | .innerSet a, .innerSet b => by rw [cmpMember, cmpMember, cmp_swap a b]
theorem cmpWrapper_swap :
    ∀ a b : Option (QuorumSetMember ID), cmpWrapper b a = (cmpWrapper a b).swap
  | none, none => by rw [cmpWrapper]; rfl
  | none, some _ => by rw [cmpWrapper, cmpWrapper]; rfl
  | some _, none => by rw [cmpWrapper, cmpWrapper]; rfl
  | some a, some b => by rw [cmpWrapper, cmpWrapper, cmpMember_swap a b]
theorem cmpMembers_swap :
    ∀ as bs : List (Option (QuorumSetMember ID)), cmpMembers bs as = (cmpMembers as bs).swap
  | [], [] => by rw [cmpMembers]; rfl
  | [], _ :: _ => by rw [cmpMembers, cmpMembers]; rfl
  | _ :: _, [] => by rw [cmpMembers, cmpMembers]; rfl
  | a :: as, b :: bs => by
    rw [cmpMembers, cmpMembers, Ordering.swap_then, cmpWrapper_swap a b, cmpMembers_swap as bs]
theorem cmp_swap : ∀ a b : QuorumSet ID, cmp b a = (cmp a b).swap
  | mk threshold members, mk threshold' members' => by
    rw [cmp, cmp, Ordering.swap_then, cmpMembers_swap members members',
      show compare threshold' threshold = (compare threshold threshold').swap from
        Std.OrientedCmp.eq_swap]
end

mutual
theorem cmpMember_lt_trans : ∀ a b c : QuorumSetMember ID,
    cmpMember a b = .lt → cmpMember b c = .lt → cmpMember a c = .lt
  | .node a, .node b, .node c, ab, bc => by
    rw [cmpMember] at ab bc ⊢
    exact Std.TransCmp.lt_trans ab bc
  | .node _, _, .innerSet _, _, _ => by rw [cmpMember]
  | .node _, .innerSet _, .node _, _, bc => by simp [cmpMember] at bc
  | .innerSet _, .node _, _, ab, _ => by simp [cmpMember] at ab
  | .innerSet _, .innerSet _, .node _, _, bc => by simp [cmpMember] at bc
  | .innerSet a, .innerSet b, .innerSet c, ab, bc => by
    rw [cmpMember] at ab bc ⊢
    exact cmp_lt_trans a b c ab bc
theorem cmpWrapper_lt_trans : ∀ a b c : Option (QuorumSetMember ID),
    cmpWrapper a b = .lt → cmpWrapper b c = .lt → cmpWrapper a c = .lt
  | none, _, some _, _, _ => by rw [cmpWrapper]
  | none, none, none, ab, _ => by simp [cmpWrapper] at ab
  | none, some _, none, _, bc => by simp [cmpWrapper] at bc
  | some _, none, _, ab, _ => by simp [cmpWrapper] at ab
  | some _, some _, none, _, bc => by simp [cmpWrapper] at bc
  | some a, some b, some c, ab, bc => by
    rw [cmpWrapper] at ab bc ⊢
    exact cmpMember_lt_trans a b c ab bc
theorem cmpMembers_lt_trans : ∀ as bs cs : List (Option (QuorumSetMember ID)),
    cmpMembers as bs = .lt → cmpMembers bs cs = .lt → cmpMembers as cs = .lt
  | [], _, _ :: _, _, _ => by rw [cmpMembers]
  | [], [], [], ab, _ => by simp [cmpMembers] at ab
  | [], _ :: _, [], _, bc => by simp [cmpMembers] at bc
  | _ :: _, [], _, ab, _ => by simp [cmpMembers] at ab
  | _ :: _, _ :: _, [], _, bc => by simp [cmpMembers] at bc
  | a :: as, b :: bs, c :: cs, ab, bc => by
    rw [cmpMembers] at ab bc ⊢
    exact then_lt_trans eq_of_cmpWrapper cmpWrapper_self (cmpWrapper_lt_trans a b c)
      (cmpMembers_lt_trans as bs cs) ab bc
theorem cmp_lt_trans : ∀ a b c : QuorumSet ID, cmp a b = .lt → cmp b c = .lt → cmp a c = .lt
  | mk threshold members, mk threshold' members', mk threshold'' members'', ab, bc => by
    rw [cmp] at ab bc ⊢
    exact then_lt_trans (fun _ _ => Std.LawfulEqCmp.eq_of_compare)
      (fun _ => Std.ReflCmp.compare_self) Std.TransCmp.lt_trans
      (cmpMembers_lt_trans members members' members'') ab bc
end

instance : Std.OrientedCmp (@cmpWrapper ID _) where
  eq_swap {a b} := cmpWrapper_swap b a

instance : Std.TransCmp (@cmpWrapper ID _) where
  isLE_trans := isLE_trans_of_lt_trans eq_of_cmpWrapper cmpWrapper_lt_trans

instance : Std.LawfulEqCmp (@cmpWrapper ID _) where
  compare_self {a} := cmpWrapper_self a
  eq_of_compare {a b} := eq_of_cmpWrapper a b

/-! ### `sort` -/

theorem sortEach_eq_map :
    ∀ members : List (Option (QuorumSetMember ID)), sortEach members = members.map sortWrapper
  | [] => by rw [sortEach, List.map_nil]
  | member :: rest => by rw [sortEach, sortEach_eq_map rest, List.map_cons]

theorem sort_mk (threshold : UInt32) (members : List (Option (QuorumSetMember ID))) :
    sort (mk threshold members) =
      mk threshold ((members.map sortWrapper).mergeSort (leOf cmpWrapper)) := by
  rw [sort, sortEach_eq_map]

theorem sortWrapper_innerSet (qs : QuorumSet ID) :
    sortWrapper (some (.innerSet qs)) = some (.innerSet (sort qs)) := by
  rw [sortWrapper, sortMember]

theorem threshold_sort (qs : QuorumSet ID) : (sort qs).threshold = qs.threshold := by
  cases qs
  rw [sort, threshold, threshold]

theorem length_members_sort (qs : QuorumSet ID) : (sort qs).members.length = qs.members.length := by
  cases qs
  rw [sort_mk, members, members, List.length_mergeSort, List.length_map]

mutual
theorem sortMember_sortMember : ∀ member : QuorumSetMember ID,
    sortMember (sortMember member) = sortMember member
  | .node id => by rw [sortMember, sortMember]
  | .innerSet qs => by rw [sortMember, sortMember, sort_sort qs]
theorem sortWrapper_sortWrapper : ∀ member : Option (QuorumSetMember ID),
    sortWrapper (sortWrapper member) = sortWrapper member
  | none => by rw [sortWrapper, sortWrapper]
  | some member => by rw [sortWrapper, sortWrapper, sortMember_sortMember member]
theorem sortWrapper_of_mem_sortEach : ∀ members : List (Option (QuorumSetMember ID)),
    ∀ member ∈ sortEach members, sortWrapper member = member
  | [] => by simp [sortEach]
  | first :: rest => by
    intro member mem
    rw [sortEach, List.mem_cons] at mem
    rcases mem with rfl | mem
    · exact sortWrapper_sortWrapper first
    · exact sortWrapper_of_mem_sortEach rest member mem
theorem sort_sort : ∀ qs : QuorumSet ID, sort (sort qs) = sort qs
  | mk threshold members => by
    have sorted : ∀ member ∈ (sortEach members).mergeSort (leOf cmpWrapper),
        sortWrapper member = member := fun member mem =>
      sortWrapper_of_mem_sortEach members member (List.mem_mergeSort.mp mem)
    rw [sort, sort, sortEach_eq_map ((sortEach members).mergeSort _), List.map_congr_left sorted,
      List.map_id', mergeSort_mergeSort]
end

theorem sort_of_mem_sort {qs inner : QuorumSet ID}
    (mem : some (.innerSet inner) ∈ (sort qs).members) : sort inner = inner := by
  cases qs with
  | mk threshold members =>
    rw [sort, QuorumSet.members, List.mem_mergeSort] at mem
    have sorted := sortWrapper_of_mem_sortEach members _ mem
    rw [sortWrapper_innerSet] at sorted
    simpa using sorted

end MobileCoin.Scp.QuorumSet
