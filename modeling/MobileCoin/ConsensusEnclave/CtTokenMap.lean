import MobileCoin.Lib.Swap

/-!
# The constant-time token map

`mc_consensus_enclave_impl::constant_time_token_map`: a list of `(TokenId, T)` pairs scanned
in full by every operation. A constant-time selection `conditional_assign(v, choice)` is an
`if` on the choice here; which branch runs is all the model needs.

`sort_zeroes_to_end` moves the zero values to the back: for each split position from the last
down to `1`, each entry to its left is swapped with the entry at the split position when the
left one is zero and the one at the split position is not. After a swap the split position
holds a zero, so at most one swap happens per split position.
-/

namespace MobileCoin.ConsensusEnclave

abbrev TokenId := UInt64

structure CtTokenMap (T : Type) where
  storage : List (TokenId × T)

namespace CtTokenMap

variable {T : Type}

/-- One entry of the scan of `CtTokenMap::get`. -/
def getStep (tokenId : TokenId) : Bool × T → TokenId × T → Bool × T
  | (success, result), (key, val) =>
    let found := key == tokenId
    (success || found, if found then val else result)

/-- `CtTokenMap::get`: the value of the last entry with the key, if there is one. -/
def get [Inhabited T] (m : CtTokenMap T) (tokenId : TokenId) : Option T :=
  let (success, result) := m.storage.foldl (getStep tokenId) (false, default)
  if success then some result else none

/-- `CtTokenMap::add`: every entry with the key gets `addend + val`; the flag says whether there
was one. -/
def add [Add T] (m : CtTokenMap T) (tokenId : TokenId) (addend : T) : CtTokenMap T × Bool :=
  (⟨m.storage.map fun (key, val) => (key, if key == tokenId then addend + val else val)⟩,
    m.storage.any fun (key, _) => key == tokenId)

def len (m : CtTokenMap T) : Nat := m.storage.length

def keys (m : CtTokenMap T) : List TokenId := m.storage.map (·.1)

/-- `FromIterator<TokenId>`: the keys with default values. -/
def ofKeys [Inhabited T] (keys : List TokenId) : CtTokenMap T :=
  ⟨keys.map fun key => (key, default)⟩

/-! ### `sort_zeroes_to_end` -/

section SortZeroes

variable [DecidableEq T]

/-- One candidate of the inner loop: swap the candidate at `c` with the entry at `splitPos` when
the candidate is zero and the entry at `splitPos` is not. -/
def conditionalSwap (zero : T) (splitPos : Nat) (storage : List (TokenId × T)) (c : Nat) :
    List (TokenId × T) :=
  match storage[c]?, storage[splitPos]? with
  | some candidate, some next =>
    if candidate.2 = zero ∧ next.2 ≠ zero then (storage.set c next).set splitPos candidate
    else storage
  | _, _ => storage

/-- The inner loop over the entries left of `splitPos`. -/
def sortPass (zero : T) (storage : List (TokenId × T)) (splitPos : Nat) : List (TokenId × T) :=
  (List.range splitPos).foldl (conditionalSwap zero splitPos) storage

def sortZeroesToEnd [Inhabited T] (m : CtTokenMap T) : CtTokenMap T :=
  if m.storage.length < 2 then m
  else
    let zero : T := default
    ⟨((List.range (m.storage.length - 1)).map (· + 1)).reverse.foldl (sortPass zero) m.storage⟩

end SortZeroes

theorem foldl_getStep_fst (tokenId : TokenId) (l : List (TokenId × T)) (start : Bool × T) :
    (l.foldl (getStep tokenId) start).1 = (start.1 || l.any fun e => e.1 == tokenId) := by
  induction l generalizing start with
  | nil => simp
  | cons e rest ih =>
    rw [List.foldl_cons, ih, List.any_cons, getStep, Bool.or_assoc]

theorem get_eq_none_iff [Inhabited T] (m : CtTokenMap T) (tokenId : TokenId) :
    m.get tokenId = none ↔ tokenId ∉ m.keys := by
  have scan := foldl_getStep_fst tokenId m.storage (false, default)
  unfold get
  split
  rename_i success result found
  rw [found] at scan
  subst scan
  simp [keys]

@[simp] theorem add_storage [Add T] (m : CtTokenMap T) (tokenId : TokenId) (addend : T) :
    (m.add tokenId addend).1.storage =
      m.storage.map fun (key, val) => (key, if key == tokenId then addend + val else val) := rfl

@[simp] theorem add_keys [Add T] (m : CtTokenMap T) (tokenId : TokenId) (addend : T) :
    (m.add tokenId addend).1.keys = m.keys := by
  simp [keys, add_storage, Function.comp_def]

@[simp] theorem ofKeys_keys [Inhabited T] (keys : List TokenId) :
    (ofKeys keys : CtTokenMap T).keys = keys := by
  simp [ofKeys, CtTokenMap.keys, Function.comp_def]

/-! ### Correctness of `sort_zeroes_to_end` -/

/-- The invariant of the inner loop after the candidates left of `k`; `st` is the list the pass
started from. -/
structure PassInvariant (zero : T) (st r : List (TokenId × T)) (splitPos k : Nat) : Prop where
  perm : r.Perm st
  right : ∀ j, splitPos < j → r[j]? = st[j]?
  settled : (∃ e, r[splitPos]? = some e ∧ e.2 = zero) ∨ ∀ e ∈ r.take k, e.2 ≠ zero
  unchanged : (∀ e ∈ st.take k, e.2 ≠ zero) → r = st

theorem passInvariant_zero (zero : T) (st : List (TokenId × T)) (splitPos : Nat) :
    PassInvariant zero st st splitPos 0 where
  perm := List.Perm.refl st
  right _ _ := rfl
  settled := .inr (by simp)
  unchanged _ := rfl

section SortProofs

variable [DecidableEq T]

theorem conditionalSwap_of_some {zero : T} {splitPos c : Nat} {r : List (TokenId × T)}
    {candidate next : TokenId × T} (atC : r[c]? = some candidate)
    (atSplit : r[splitPos]? = some next) :
    conditionalSwap zero splitPos r c =
      if candidate.2 = zero ∧ next.2 ≠ zero then (r.set c next).set splitPos candidate else r := by
  rw [conditionalSwap, atC, atSplit]

/-- One candidate keeps the inner invariant. After a swap the split position holds the zero
candidate; without one, either the split position already holds a zero or the candidate is
nonzero. -/
theorem passInvariant_step {zero : T} {st r : List (TokenId × T)} {splitPos k : Nat}
    (inv : PassInvariant zero st r splitPos k) (lt : k < splitPos) (inside : splitPos < st.length) :
    PassInvariant zero st (conditionalSwap zero splitPos r k) splitPos (k + 1) := by
  have len : r.length = st.length := inv.perm.length_eq
  obtain ⟨candidate, atC⟩ : ∃ candidate, r[k]? = some candidate :=
    ⟨_, List.getElem?_eq_some_iff.mpr ⟨by omega, rfl⟩⟩
  obtain ⟨next, atSplit⟩ : ∃ next, r[splitPos]? = some next :=
    ⟨_, List.getElem?_eq_some_iff.mpr ⟨by omega, rfl⟩⟩
  have takeSucc : r.take (k + 1) = r.take k ++ [candidate] := by
    rw [List.take_add_one, atC]; rfl
  have unchangedLeft : (∀ e ∈ st.take (k + 1), e.2 ≠ zero) → ∀ e ∈ st.take k, e.2 ≠ zero :=
    fun nonzero e mem => nonzero e (List.take_subset_take_left st (by omega) mem)
  rw [conditionalSwap_of_some atC atSplit]
  split_ifs with swap
  · refine ⟨(perm_set_set (Nat.ne_of_lt lt) atC atSplit).trans inv.perm, ?_, ?_, ?_⟩
    · intro j after
      rw [getElem?_set_set_of_ne (by omega) (by omega), inv.right j after]
    · exact .inl ⟨candidate, by simp [len, inside], swap.1⟩
    · intro nonzero
      have same := inv.unchanged (unchangedLeft nonzero)
      subst same
      exact absurd swap.1 (nonzero candidate (by rw [takeSucc]; simp))
  · refine ⟨inv.perm, inv.right, ?_, fun nonzero => inv.unchanged (unchangedLeft nonzero)⟩
    rcases inv.settled with zeroAtSplit | nonzeroLeft
    · exact .inl zeroAtSplit
    · by_cases zeroCandidate : candidate.2 = zero
      · exact .inl ⟨next, atSplit, by_contra fun nonzero => swap ⟨zeroCandidate, nonzero⟩⟩
      · right
        rw [takeSucc]
        intro e mem
        rcases List.mem_append.mp mem with left | last
        · exact nonzeroLeft e left
        · rw [List.mem_singleton.mp last]; exact zeroCandidate

theorem sortPass_upTo (zero : T) (st : List (TokenId × T)) {splitPos : Nat}
    (inside : splitPos < st.length) :
    ∀ k ≤ splitPos,
      PassInvariant zero st ((List.range k).foldl (conditionalSwap zero splitPos) st) splitPos k
  | 0, _ => passInvariant_zero zero st splitPos
  | k + 1, le => by
    rw [List.range_succ, List.foldl_append, List.foldl_cons, List.foldl_nil]
    exact passInvariant_step (sortPass_upTo zero st inside k (by omega)) (by omega) inside

theorem sortPass_invariant (zero : T) (st : List (TokenId × T)) {splitPos : Nat}
    (inside : splitPos < st.length) :
    PassInvariant zero st (sortPass zero st splitPos) splitPos splitPos :=
  sortPass_upTo zero st inside splitPos (Nat.le_refl splitPos)

end SortProofs

/-- Zero values only after zero values: the order `sort_zeroes_to_end` establishes. -/
def ZeroesLast (zero : T) (l : List (TokenId × T)) : Prop :=
  l.Pairwise fun a b => a.2 = zero → b.2 = zero

/-- The invariant of the outer loop before the pass at `splitPos - 1`: the suffix from `splitPos`
is in order, and a nonzero entry in it means that no entry left of it is zero. -/
structure SuffixSorted (zero : T) (r : List (TokenId × T)) (splitPos : Nat) : Prop where
  suffix : ZeroesLast zero (r.drop splitPos)
  prefixNonzero : (∃ e ∈ r.drop splitPos, e.2 ≠ zero) → ∀ e ∈ r.take splitPos, e.2 ≠ zero

theorem suffixSorted_length (zero : T) (r : List (TokenId × T)) :
    SuffixSorted zero r r.length where
  suffix := by simp [ZeroesLast]
  prefixNonzero := by simp

theorem zeroesLast_of_suffixSorted_one {zero : T} {r : List (TokenId × T)}
    (sorted : SuffixSorted zero r 1) : ZeroesLast zero r := by
  cases r with
  | nil => exact List.Pairwise.nil
  | cons first rest =>
    refine List.pairwise_cons.mpr ⟨fun e mem zeroFirst => ?_, sorted.suffix⟩
    by_contra nonzero
    exact sorted.prefixNonzero ⟨e, mem, nonzero⟩ first (by simp) zeroFirst

section SortProofs

variable [DecidableEq T]

/-- In that order the nonzero entries come first, so dropping at least as many entries as there
are nonzero ones drops only zeroes. -/
theorem ZeroesLast.zero_of_mem_drop {zero : T} {l : List (TokenId × T)} {n : Nat}
    (sorted : ZeroesLast zero l) (few : (l.filter fun e => e.2 ≠ zero).length ≤ n) :
    ∀ e ∈ l.drop n, e.2 = zero := by
  induction l generalizing n with
  | nil => simp
  | cons first rest ih =>
    obtain ⟨firstBefore, restSorted⟩ := List.pairwise_cons.mp sorted
    by_cases zeroFirst : first.2 = zero
    · -- a zero first entry: everything after it is zero too
      intro e mem
      rcases List.mem_cons.mp (List.drop_subset n _ mem) with rfl | later
      · exact zeroFirst
      · exact firstBefore e later zeroFirst
    · have count : (rest.filter fun e => e.2 ≠ zero).length + 1 ≤ n := by
        simpa [List.filter_cons, zeroFirst] using few
      obtain ⟨m, rfl⟩ : ∃ m, n = m + 1 := ⟨n - 1, by omega⟩
      rw [List.drop_succ_cons]
      exact ih restSorted (by omega)

theorem suffixSorted_sortPass {zero : T} {r : List (TokenId × T)} {splitPos : Nat}
    (sorted : SuffixSorted zero r (splitPos + 1)) (inside : splitPos < r.length) :
    SuffixSorted zero (sortPass zero r splitPos) splitPos := by
  have pass := sortPass_invariant zero r inside
  set r' := sortPass zero r splitPos
  have len : r'.length = r.length := pass.perm.length_eq
  have rightSame : r'.drop (splitPos + 1) = r.drop (splitPos + 1) := by
    apply List.ext_getElem?
    intro i
    rw [List.getElem?_drop, List.getElem?_drop, pass.right _ (by omega)]
  have split' : r'.drop splitPos = r'[splitPos] :: r.drop (splitPos + 1) := by
    rw [List.drop_eq_getElem_cons (by omega), rightSame]
  by_cases rightNonzero : ∃ e ∈ r.drop (splitPos + 1), e.2 ≠ zero
  · -- a nonzero entry on the right: nothing on the left is zero and the pass changes nothing
    have leftNonzero := sorted.prefixNonzero rightNonzero
    have same : r' = r := pass.unchanged fun e mem =>
      leftNonzero e (List.take_subset_take_left r (by omega) mem)
    have splitNonzero : r[splitPos].2 ≠ zero :=
      leftNonzero _ (List.mem_iff_getElem.mpr ⟨splitPos, by simp; omega, by simp⟩)
    refine ⟨?_, fun _ e mem =>
      leftNonzero e (List.take_subset_take_left r (by omega) (same ▸ mem))⟩
    rw [same, ZeroesLast, List.drop_eq_getElem_cons inside]
    exact List.pairwise_cons.mpr ⟨fun _ _ zeroSplit => absurd zeroSplit splitNonzero, sorted.suffix⟩
  · -- only zeroes on the right
    have rightZero : ∀ e ∈ r.drop (splitPos + 1), e.2 = zero := by
      intro e mem; by_contra nonzero; exact rightNonzero ⟨e, mem, nonzero⟩
    refine ⟨?_, ?_⟩
    · rw [ZeroesLast, split']
      exact List.pairwise_cons.mpr ⟨fun e mem _ => rightZero e mem, sorted.suffix⟩
    · rintro ⟨e, mem, nonzero⟩
      rw [split'] at mem
      rcases List.mem_cons.mp mem with rfl | right
      · rcases pass.settled with ⟨e', atSplit, zeroSplit⟩ | done
        · rw [List.getElem?_eq_getElem (by omega), Option.some.injEq] at atSplit
          exact absurd (atSplit ▸ zeroSplit) nonzero
        · exact done
      · exact absurd (rightZero e right) nonzero

theorem foldl_sortPass (zero : T) :
    ∀ (k : Nat) (r : List (TokenId × T)), k < r.length → SuffixSorted zero r (k + 1) →
      let sorted := ((List.range k).map (· + 1)).reverse.foldl (sortPass zero) r
      sorted.Perm r ∧ SuffixSorted zero sorted 1
  | 0, _, _, sorted => ⟨List.Perm.refl _, sorted⟩
  | k + 1, r, inside, sorted => by
    rw [List.range_succ, List.map_append, List.reverse_append, List.map_singleton,
      List.reverse_singleton, List.singleton_append, List.foldl_cons]
    have perm := (sortPass_invariant zero r inside).perm
    obtain ⟨permRest, sortedRest⟩ :=
      foldl_sortPass zero k _ (by rw [perm.length_eq]; omega) (suffixSorted_sortPass sorted inside)
    exact ⟨permRest.trans perm, sortedRest⟩

/-- `sort_zeroes_to_end` permutes the entries and puts every zero value after every nonzero
one. -/
theorem sortZeroesToEnd_spec [Inhabited T] (m : CtTokenMap T) :
    m.sortZeroesToEnd.storage.Perm m.storage ∧ ZeroesLast default m.sortZeroesToEnd.storage := by
  unfold sortZeroesToEnd
  split_ifs with short
  · refine ⟨List.Perm.refl _, ?_⟩
    match m.storage, short with
    | [], _ => exact List.Pairwise.nil
    | [_], _ => exact List.pairwise_singleton _ _
  · have start : SuffixSorted default m.storage (m.storage.length - 1 + 1) := by
      rw [Nat.sub_add_cancel (by omega)]
      exact suffixSorted_length default m.storage
    obtain ⟨perm, sorted⟩ := foldl_sortPass default _ m.storage (by omega) start
    exact ⟨perm, zeroesLast_of_suffixSorted_one sorted⟩

end SortProofs

end CtTokenMap

end MobileCoin.ConsensusEnclave
