import MobileCoin.Lib.Compare
import MobileCoin.Lib.Except
import MobileCoin.Lib.GreedySelect

/-!
# Combining candidate transactions into a block

SCP's nominate phase combines the values it has seen with `combine`, fed from a `HashSet`, so
its input comes in no fixed order. `DefaultTxManagerUntrustedInterfaces::combine` sorts the
candidates by the hand-written `Ord for WellFormedTxContext` (priority, high to low, then the
remaining fields) and walks them, taking each transaction that uses no key image and no output
public key of one taken before, until `max_elements` are taken. `TxManagerImpl::combine`
deduplicates hash lists through a `HashSet` and looks the contexts up in its cache.

The order is a total order, `eq` exactly on equal contexts, so the sort forgets the order of
its input and the whole combine is a function of the multiset of candidates. The walk is
`GreedySelect.select` with the loop's two `HashSet`s of used keys as the keys of the
transactions taken.
-/

namespace MobileCoin.ConsensusService

open Compare GreedySelect

def MAX_TRANSACTIONS_PER_BLOCK : Nat := 5000

/-- `WellFormedTxContext`: what untrusted code sees of a well-formed transaction. Hashes, key
images and output public keys are compared as the byte strings they are. -/
structure WellFormedTxContext (H K P : Type) where
  priority : UInt64
  txHash : H
  tombstoneBlock : UInt64
  keyImages : List K
  highestIndices : List UInt64
  outputPublicKeys : List P
  deriving DecidableEq, Repr

variable {H K P : Type} [LinearOrder H] [LinearOrder K] [LinearOrder P]

namespace WellFormedTxContext

def cmp (a b : WellFormedTxContext H K P) : Ordering :=
  if a.priority ≠ b.priority then
    -- sort by priority, descending
    compare b.priority a.priority
  else
    (compare a.txHash b.txHash).then <| (compare a.tombstoneBlock b.tombstoneBlock).then <|
      (compare a.keyImages b.keyImages).then <|
        (compare a.highestIndices b.highestIndices).then
          (compare a.outputPublicKeys b.outputPublicKeys)

/-- The order is the lexicographic product of the fields' orders, the priority's reversed: the
`if` only skips the priorities' comparison where it is `eq`. -/
theorem cmp_eq_compareLex :
    (cmp : WellFormedTxContext H K P → WellFormedTxContext H K P → Ordering) =
      compareLex (fun a b => compareOn priority b a) (compareLex (compareOn txHash) <|
        compareLex (compareOn tombstoneBlock) <| compareLex (compareOn keyImages) <|
          compareLex (compareOn highestIndices) (compareOn outputPublicKeys)) := by
  funext a b
  unfold cmp
  by_cases same : a.priority = b.priority
  · rw [if_neg (not_not.mpr same)]
    simp only [compareLex, compareOn, same, Std.ReflCmp.compare_self, Ordering.eq_then]
  · rw [if_pos same]
    have differ : compare b.priority a.priority ≠ .eq := fun eq =>
      same (Std.LawfulEqCmp.eq_of_compare eq).symm
    simp only [compareLex, compareOn]
    cases order : compare b.priority a.priority
    · rfl
    · exact absurd order differ
    · rfl

instance : Std.TransCmp (cmp : WellFormedTxContext H K P → WellFormedTxContext H K P → Ordering) := by
  rw [cmp_eq_compareLex]
  infer_instance

instance : Std.LawfulEqCmp (cmp : WellFormedTxContext H K P → WellFormedTxContext H K P → Ordering) where
  eq_of_compare {a b} same := by
    rw [cmp_eq_compareLex] at same
    simp only [compareLex_eq_eq, compareOn] at same
    obtain ⟨priority, txHash, tombstoneBlock, keyImages, highestIndices, outputPublicKeys⟩ := same
    cases a
    cases b
    congr
    · exact (Std.LawfulEqCmp.eq_of_compare priority).symm
    · exact Std.LawfulEqCmp.eq_of_compare txHash
    · exact Std.LawfulEqCmp.eq_of_compare tombstoneBlock
    · exact Std.LawfulEqCmp.eq_of_compare keyImages
    · exact Std.LawfulEqCmp.eq_of_compare highestIndices
    · exact Std.LawfulEqCmp.eq_of_compare outputPublicKeys

/-- `candidate` uses a key image or an output public key of `taken`. -/
def conflicts (taken candidate : WellFormedTxContext H K P) : Bool :=
  candidate.keyImages.any taken.keyImages.contains ||
    candidate.outputPublicKeys.any taken.outputPublicKeys.contains

omit [LinearOrder H] in
theorem conflicts_eq_false_iff {taken candidate : WellFormedTxContext H K P} :
    conflicts taken candidate = false ↔
      taken.keyImages.Disjoint candidate.keyImages ∧
        taken.outputPublicKeys.Disjoint candidate.outputPublicKeys := by
  simp only [conflicts, Bool.or_eq_false_iff, List.any_eq_false, List.contains_iff_mem]
  exact and_congr ⟨fun h _ inTaken inCandidate => h _ inCandidate inTaken,
      fun h _ inCandidate inTaken => h inTaken inCandidate⟩
    ⟨fun h _ inTaken inCandidate => h _ inCandidate inTaken,
      fun h _ inCandidate inTaken => h inTaken inCandidate⟩

end WellFormedTxContext

open WellFormedTxContext

namespace DefaultTxManagerUntrustedInterfaces

/-- The loop of `combine` over the sorted candidates, with the hashes allowed so far and the
key images and output public keys they use. -/
def combineLoop (maxElements : Nat) :
    List (WellFormedTxContext H K P) → List H → List K → List P → List H
  | [], allowedHashes, _, _ => allowedHashes
  | candidate :: candidates, allowedHashes, usedKeyImages, usedOutputPublicKeys =>
    -- enforce the maximum size
    if allowedHashes.length ≥ maxElements then allowedHashes
    -- reject a previously used key image, then a previously used output public key
    else if candidate.keyImages.any usedKeyImages.contains then
      combineLoop maxElements candidates allowedHashes usedKeyImages usedOutputPublicKeys
    else if candidate.outputPublicKeys.any usedOutputPublicKeys.contains then
      combineLoop maxElements candidates allowedHashes usedKeyImages usedOutputPublicKeys
    else
      combineLoop maxElements candidates (allowedHashes ++ [candidate.txHash])
        (usedKeyImages ++ candidate.keyImages) (usedOutputPublicKeys ++ candidate.outputPublicKeys)

/-- `DefaultTxManagerUntrustedInterfaces::combine`. `sort` is stable, and `mergeSort` is too. -/
def combine (txContexts : List (WellFormedTxContext H K P)) (maxElements : Nat) : List H :=
  combineLoop maxElements (txContexts.mergeSort (leOf cmp)) [] [] []

omit [LinearOrder H] in
/-- The loop's two tests, against the keys of the transactions taken, are the walk's conflict
test. -/
theorem usedKeys_any (taken : List (WellFormedTxContext H K P)) (candidate : WellFormedTxContext H K P) :
    (candidate.keyImages.any (taken.flatMap keyImages).contains ||
      candidate.outputPublicKeys.any (taken.flatMap outputPublicKeys).contains) =
      taken.any (conflicts · candidate) := by
  rw [Bool.eq_iff_iff]
  simp only [Bool.or_eq_true, List.any_eq_true, List.contains_iff_mem, List.mem_flatMap, conflicts]
  constructor
  · rintro (⟨keyImage, used, t, taken, inT⟩ | ⟨key, used, t, taken, inT⟩)
    · exact ⟨t, taken, .inl ⟨keyImage, used, inT⟩⟩
    · exact ⟨t, taken, .inr ⟨key, used, inT⟩⟩
  · rintro ⟨t, taken, ⟨keyImage, used, inT⟩ | ⟨key, used, inT⟩⟩
    · exact .inl ⟨keyImage, used, t, taken, inT⟩
    · exact .inr ⟨key, used, t, taken, inT⟩

omit [LinearOrder H] in
/-- The loop refines the walk: the hashes it allows are those of the transactions the walk
takes, and its used keys are theirs. -/
theorem combineLoop_eq_select (maxElements : Nat) (candidates taken : List (WellFormedTxContext H K P)) :
    combineLoop maxElements candidates (taken.map txHash) (taken.flatMap keyImages)
        (taken.flatMap outputPublicKeys) =
      (select maxElements (fun _ => true) conflicts candidates taken).map txHash := by
  induction candidates generalizing taken with
  | nil => rw [combineLoop, select_nil]
  | cons candidate candidates ih =>
    have tests := usedKeys_any taken candidate
    by_cases full : maxElements ≤ taken.length
    · rw [combineLoop, if_pos (by simpa using full), select_of_full _ full]
    rw [combineLoop, if_neg (by simpa using full)]
    by_cases takes : Takes maxElements (fun _ => true) conflicts taken candidate
    · -- both tests fail, and the walk takes it
      have free : taken.any (conflicts · candidate) = false :=
        List.any_eq_false.mpr fun t member => by simp [takes.2.2 t member]
      rw [free, Bool.or_eq_false_iff] at tests
      rw [if_neg (ne_true_of_eq_false tests.1), if_neg (ne_true_of_eq_false tests.2),
        select_cons_of_takes takes, ← ih]
      simp only [List.map_append, List.map_singleton, List.flatMap_append, List.flatMap_singleton]
    · -- one test holds, and the walk passes over it
      have used : taken.any (conflicts · candidate) = true := by
        by_contra free
        exact takes ⟨Nat.not_le.mp full, rfl, fun t member => by
          simpa using List.any_eq_false.mp (Bool.eq_false_iff.mpr free) t member⟩
      rw [select_cons_of_not_takes takes, ← ih]
      rw [used, Bool.or_eq_true] at tests
      by_cases keyImage : candidate.keyImages.any (taken.flatMap keyImages).contains = true
      · rw [if_pos keyImage]
      · rw [if_neg keyImage, if_pos (tests.resolve_left keyImage)]

theorem combine_eq_select (txContexts : List (WellFormedTxContext H K P)) (maxElements : Nat) :
    combine txContexts maxElements =
      (select maxElements (fun _ => true) conflicts (txContexts.mergeSort (leOf cmp)) []).map txHash :=
  combineLoop_eq_select maxElements _ []

theorem combine_perm {txContexts permuted : List (WellFormedTxContext H K P)}
    (p : permuted.Perm txContexts) (maxElements : Nat) :
    combine permuted maxElements = combine txContexts maxElements := by
  unfold combine
  rw [mergeSort_eq_of_perm p]

/-- A candidate combine passes over conflicts with a transaction it took earlier in the order,
unless as many as `maxElements` came earlier. -/
theorem select_passed_over {txContexts : List (WellFormedTxContext H K P)} {maxElements : Nat}
    {candidate : WellFormedTxContext H K P} (member : candidate ∈ txContexts)
    (passed : candidate ∉ select maxElements (fun _ => true) conflicts (txContexts.mergeSort (leOf cmp)) []) :
    maxElements ≤ (select maxElements (fun _ => true) conflicts (txContexts.mergeSort (leOf cmp)) []).countP
        (WellFormedTxContext.cmp · candidate == .lt) ∨
      ∃ earlier ∈ select maxElements (fun _ => true) conflicts (txContexts.mergeSort (leOf cmp)) [],
        WellFormedTxContext.cmp earlier candidate = .lt ∧ conflicts earlier candidate = true := by
  have sorted : (txContexts.mergeSort (leOf WellFormedTxContext.cmp)).Pairwise
      fun a b => leOf WellFormedTxContext.cmp a b = true := pairwise_mergeSort txContexts
  rcases passed_over_sorted sorted ((List.mergeSort_perm txContexts _).mem_iff.mpr member) passed
    with full | inadmissible | ⟨t, picked, before, differ, conflicting⟩
  · -- strictly before in the sorted order is `lt`
    left
    refine full.trans (Nat.le_of_eq (List.countP_congr fun t _ => ?_))
    rw [decide_eq_true_iff, beq_iff_eq, leOf_and_ne_iff]
  · exact Bool.noConfusion inadmissible
  · exact .inr ⟨t, picked, leOf_and_ne_iff.mp ⟨before, differ⟩, conflicting⟩

end DefaultTxManagerUntrustedInterfaces

/-- The order in which a `HashSet` collected from `items` yields them: each distinct item once,
in an order the code does not fix. -/
def HashSetOrder {α : Type} [DecidableEq α] (items : List α) : Type :=
  { order : List α // order.Perm items.dedup }

theorem dedup_perm_of_mem_iff {α : Type} [DecidableEq α] {items items' : List α}
    (same : ∀ a, a ∈ items ↔ a ∈ items') : items.dedup.Perm items'.dedup :=
  (List.perm_ext_iff_of_nodup (List.nodup_dedup items) (List.nodup_dedup items')).mpr fun a => by
    rw [List.mem_dedup, List.mem_dedup]
    exact same a

inductive TxManagerError (H : Type)
  | notInCache (txHashes : List H)
  deriving DecidableEq, Repr

/-- `TxManagerImpl::get_cache_entries`: the entries of the hashes, in their order, or the
hashes missing from the cache. -/
def getCacheEntries {C : Type} (cache : H → Option C) (txHashes : List H) :
    Except (TxManagerError H) (List C) :=
  let notFound := txHashes.filter fun txHash => (cache txHash).isNone
  if !notFound.isEmpty then .error (.notInCache notFound)
  else .ok (txHashes.filterMap cache)

/-- `TxManagerImpl::combine`, with `cache` giving each cached hash's context. -/
def TxManagerImpl.combine (cache : H → Option (WellFormedTxContext H K P)) (txHashes : List H)
    (hashSet : HashSetOrder txHashes) : Except (TxManagerError H) (List H) := do
  let cacheEntries ← getCacheEntries cache hashSet.val
  pure (DefaultTxManagerUntrustedInterfaces.combine cacheEntries MAX_TRANSACTIONS_PER_BLOCK)

omit [LinearOrder H] [LinearOrder K] [LinearOrder P] in
theorem getCacheEntries_of_cached {C : Type} {cache : H → Option C} {txHashes : List H}
    (cached : ∀ txHash ∈ txHashes, (cache txHash).isSome) :
    getCacheEntries cache txHashes = .ok (txHashes.filterMap cache) := by
  have found : txHashes.filter (fun txHash => (cache txHash).isNone) = [] :=
    List.filter_eq_nil_iff.mpr fun txHash member => by simp [Option.isNone_iff_eq_none,
      Option.ne_none_iff_isSome.mpr (cached txHash member)]
  simp only [getCacheEntries, found, List.isEmpty_nil, Bool.not_true, Bool.false_eq_true, if_false]

/-- On cached hashes, `TxManagerImpl::combine` combines the contexts of the distinct hashes,
whatever order the `HashSet` yields them in. -/
theorem TxManagerImpl.combine_eq {cache : H → Option (WellFormedTxContext H K P)}
    {txHashes : List H} (cached : ∀ txHash ∈ txHashes, (cache txHash).isSome)
    (hashSet : HashSetOrder txHashes) :
    TxManagerImpl.combine cache txHashes hashSet =
      .ok (DefaultTxManagerUntrustedInterfaces.combine (txHashes.dedup.filterMap cache)
        MAX_TRANSACTIONS_PER_BLOCK) := by
  have cachedSet : ∀ txHash ∈ hashSet.val, (cache txHash).isSome := fun txHash member =>
    cached txHash (List.mem_dedup.mp (hashSet.property.subset member))
  rw [TxManagerImpl.combine, getCacheEntries_of_cached cachedSet, ok_bind,
    DefaultTxManagerUntrustedInterfaces.combine_perm (hashSet.property.filterMap cache)]
  rfl

open DefaultTxManagerUntrustedInterfaces in
/-- Combine takes at most `max_elements` candidates, in ascending order, no two sharing a key
image or an output public key; a candidate it passes over conflicts with one it took earlier in
the order, unless `max_elements` were taken before it; and what it returns depends only on the
multiset of candidates. Over cached hashes, `TxManagerImpl::combine` combines the contexts of
the distinct hashes, the same for any repetition and order of the hashes and any order the
`HashSet` yields them in. -/
theorem combine_deterministic_conflict_free (txContexts : List (WellFormedTxContext H K P))
    (maxElements : Nat) :
    (∃ selected : List (WellFormedTxContext H K P),
      combine txContexts maxElements = selected.map txHash ∧
      selected.Subperm txContexts ∧ selected.length ≤ maxElements ∧
      selected.Pairwise (fun a b => (WellFormedTxContext.cmp a b).isLE) ∧
      selected.Pairwise (fun a b => a.keyImages.Disjoint b.keyImages ∧
        a.outputPublicKeys.Disjoint b.outputPublicKeys) ∧
      ∀ candidate ∈ txContexts, candidate ∉ selected →
        maxElements ≤ selected.countP (WellFormedTxContext.cmp · candidate == .lt) ∨
        ∃ earlier ∈ selected, WellFormedTxContext.cmp earlier candidate = .lt ∧
          conflicts earlier candidate = true) ∧
    (∀ permuted : List (WellFormedTxContext H K P), permuted.Perm txContexts →
      combine permuted maxElements = combine txContexts maxElements) ∧
    ∀ (cache : H → Option (WellFormedTxContext H K P)) (txHashes txHashes' : List H)
      (hashSet : HashSetOrder txHashes) (hashSet' : HashSetOrder txHashes'),
      (∀ txHash ∈ txHashes, (cache txHash).isSome) →
      (∀ txHash, txHash ∈ txHashes ↔ txHash ∈ txHashes') →
      TxManagerImpl.combine cache txHashes hashSet =
          .ok (combine (txHashes.dedup.filterMap cache) MAX_TRANSACTIONS_PER_BLOCK) ∧
        TxManagerImpl.combine cache txHashes' hashSet' = TxManagerImpl.combine cache txHashes hashSet := by
  obtain ⟨added, walked, sub⟩ := @select_eq_append _ maxElements (fun _ => true) conflicts
    (txContexts.mergeSort (leOf WellFormedTxContext.cmp)) []
  rw [List.nil_append] at walked
  refine ⟨⟨select maxElements (fun _ => true) conflicts
      (txContexts.mergeSort (leOf WellFormedTxContext.cmp)) [], combine_eq_select _ _, ?_,
      length_select_le _ (Nat.zero_le _), ?_, ?_, fun _ member passed => select_passed_over member passed⟩,
    fun _ p => combine_perm p maxElements, ?_⟩
  · -- taken from the sorted candidates, a permutation of the input
    rw [walked]
    exact sub.subperm.trans (List.mergeSort_perm _ _).subperm
  · -- a sublist of the sorted candidates
    rw [walked]
    exact (pairwise_mergeSort txContexts).sublist sub
  · -- no pick conflicts with an earlier one, and the conflict test is symmetric in the keys
    exact (select_pairwise _ List.Pairwise.nil).imp conflicts_eq_false_iff.mp
  · intro cache txHashes txHashes' hashSet hashSet' cached same
    have cached' : ∀ txHash ∈ txHashes', (cache txHash).isSome := fun txHash member =>
      cached txHash ((same txHash).mpr member)
    refine ⟨TxManagerImpl.combine_eq cached hashSet, ?_⟩
    rw [TxManagerImpl.combine_eq cached' hashSet', TxManagerImpl.combine_eq cached hashSet,
      combine_perm ((dedup_perm_of_mem_iff same).symm.filterMap cache)]

end MobileCoin.ConsensusService
