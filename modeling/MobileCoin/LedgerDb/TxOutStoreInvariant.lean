import MobileCoin.LedgerDb.TxOutStore
import MobileCoin.MembershipProofs.Verify

/-!
# The TxOut store holds its ledger

What a store reached by pushes holds, as one invariant: the count, the TxOuts by index, the
indices by hash and by public key (each a first-occurrence lookup in a list without
duplicates), and the hash of every tree node that starts at a TxOut and is no taller than the
root. `push` keeps it and succeeds exactly when the TxOut's hash and public key are new and the
ledger has room. The Merkle part rests on the loop of `update_merkle_hashes`: after it has
rewritten the nodes of heights below `k` above the new leaf, every node of those heights, and
every node of any height that lies wholly before the new leaf, holds its hash in the new tree.
-/

namespace MobileCoin.LedgerDb.TxOutStore

open MembershipProofs U64 Table HashTree

variable {α K P H : Type}

/-! ### Ranges -/

/-- The key of node `(d, q)`: the range of leaves it spans. -/
def nodeKey (d q : Nat) : Nat × Nat := (q * 2 ^ d, q * 2 ^ d + 2 ^ d - 1)

theorem nodeKey_injective {d q d' q' : Nat} (same : nodeKey d q = nodeKey d' q') :
    d = d' ∧ q = q' := by
  simp only [nodeKey, Prod.mk.injEq] at same
  obtain ⟨start, stop⟩ := same
  have width : 2 ^ d = 2 ^ d' := by
    have := Nat.two_pow_pos d; have := Nat.two_pow_pos d'; omega
  have height : d = d' := Nat.pow_right_injective (le_refl 2) width
  subst height
  exact ⟨rfl, Nat.eq_of_mul_eq_mul_right (Nat.two_pow_pos d) start⟩

theorem containingRange_eq {index depth : Nat} (fits : index < 2 ^ 64) (small : depth ≤ 64) :
    containingRange index depth = nodeKey depth (index / 2 ^ depth) := by
  have := Nat.two_pow_pos depth
  rw [containingRange, nodeKey, and_not_mask fits small, or_mask]
  congr 1
  omega

/-- For a leaf of a ledger with room, `containing_ranges` lists the nodes above the leaf from
height `0` to the height of the full tree. -/
theorem containingRanges_eq {index numLeaves : Nat} (lt : index < numLeaves)
    (fits : numLeaves ≤ 2 ^ 63) :
    containingRanges index numLeaves =
      .ok ((List.range (Nat.clog 2 numLeaves + 1)).map fun d => nodeKey d (index / 2 ^ d)) := by
  have height : Nat.clog 2 numLeaves ≤ 63 := (Nat.clog_le_iff_le_pow (by decide)).mpr fits
  have depth : 64 - leadingZeros (2 ^ Nat.clog 2 numLeaves) - 1 = Nat.clog 2 numLeaves := by
    rw [leadingZeros_two_pow]; omega
  rw [containingRanges, if_neg (by omega), checkedNextPowerOfTwo_eq_some fits]
  dsimp only
  rw [depth]
  congr 1
  apply List.map_congr_left
  intro d member
  have : 2 ^ 63 < 2 ^ 64 := by decide
  exact containingRange_eq (by omega) (by simp at member; omega)

theorem containingRanges_capacity {index numLeaves : Nat} (lt : index < numLeaves)
    (big : 2 ^ 63 < numLeaves) : containingRanges index numLeaves = .error .capacityExceeded := by
  rw [containingRanges, if_neg (by omega), checkedNextPowerOfTwo_eq_none big]

/-! ### The invariant -/

/-- Node `(d, q)` of the tree over `n` leaves is stored: it starts at a leaf and is no taller
than the root of the full tree. -/
def Stored (n d q : Nat) : Prop := q * 2 ^ d < n ∧ 2 ^ d < 2 * n

section Invariant

variable [DecidableEq K] [DecidableEq P]
variable (txOutHash : α → K) (publicKey : α → P) (h : MerkleHasher α H)

/-- The store holds the ledger `txOuts`, in order. -/
structure Holds (s : TxOutStore α K P H) (txOuts : List α) : Prop where
  numTxOuts_eq : s.numTxOuts = txOuts.length
  capacity : txOuts.length ≤ 2 ^ 63
  txOutByIndex_eq : ∀ i, s.txOutByIndex i = txOuts[i]?
  hashes_nodup : (txOuts.map txOutHash).Nodup
  publicKeys_nodup : (txOuts.map publicKey).Nodup
  txOutIndexByHash_eq : ∀ k, s.txOutIndexByHash k = (txOuts.map txOutHash).idxOf? k
  txOutIndexByPublicKey_eq : ∀ p, s.txOutIndexByPublicKey p = (txOuts.map publicKey).idxOf? p
  merkleHashes_eq : ∀ d q, Stored txOuts.length d q →
    s.merkleHashes (nodeKey d q) = some (h.nodeHash txOuts d q)

theorem create_holds : Holds txOutHash publicKey h create [] where
  numTxOuts_eq := rfl
  capacity := Nat.zero_le _
  txOutByIndex_eq _ := rfl
  hashes_nodup := List.nodup_nil
  publicKeys_nodup := List.nodup_nil
  txOutIndexByHash_eq _ := rfl
  txOutIndexByPublicKey_eq _ := rfl
  merkleHashes_eq _ _ stored := absurd stored.1 (Nat.not_lt_zero _)

end Invariant

/-! ### The loop of `update_merkle_hashes` -/

section Update

variable (h : MerkleHasher α H)

/-- The loop has rewritten the nodes of heights below `k` above leaf `n`, the last leaf of
`txOuts`: every stored node that has height below `k`, or lies wholly before leaf `n`, holds
its hash in the tree over `txOuts`. -/
def Rewritten (hashes : Nat × Nat → Option H) (txOuts : List α) (n k : Nat) : Prop :=
  ∀ d q, Stored txOuts.length d q → d < k ∨ (q + 1) * 2 ^ d ≤ n →
    hashes (nodeKey d q) = some (h.nodeHash txOuts d q)

/-- Writing the node of height `k` above leaf `n` extends the rewritten heights by one: any
other node of height `k` that starts at a leaf lies wholly before leaf `n`. -/
theorem rewritten_put {hashes : Nat × Nat → Option H} {txOuts : List α} {n k : Nat}
    (last : txOuts.length = n + 1) (done : Rewritten h hashes txOuts n k) :
    Rewritten h (put hashes (nodeKey k (n / 2 ^ k)) (h.nodeHash txOuts k (n / 2 ^ k))) txOuts n
      (k + 1) := by
  intro d q stored cover
  by_cases same : nodeKey d q = nodeKey k (n / 2 ^ k)
  · obtain ⟨rfl, rfl⟩ := nodeKey_injective same
    rw [put_same]
  · rw [put_other _ _ same]
    apply done d q stored
    rcases cover with lower | before
    · rcases Nat.lt_succ_iff_lt_or_eq.mp lower with lower | rfl
      · exact .inl lower
      · -- a node of height `d` that starts at or before `n` and is not the one above `n`
        right
        have pos := Nat.two_pow_pos d
        have starts : q ≤ n / 2 ^ d := by
          rw [Nat.le_div_iff_mul_le pos]
          rw [last] at stored
          exact Nat.lt_succ_iff.mp stored.1
        have other : q ≠ n / 2 ^ d := fun equal => same (by rw [equal])
        calc (q + 1) * 2 ^ d ≤ n / 2 ^ d * 2 ^ d := Nat.mul_le_mul_right _ (by omega)
          _ ≤ n := Nat.div_mul_le_self n _
    · exact .inr before

theorem updateRange_nodeKey {s : TxOutStore α K P H} {txOuts : List α} {n k : Nat}
    (last : txOuts.length = n + 1) (leaf : s.txOutByIndex n = txOuts[n]?)
    (done : Rewritten h s.merkleHashes txOuts n k) (tall : 2 ^ k < 2 * (n + 1)) :
    updateRange h n (n + 1) s (nodeKey k (n / 2 ^ k)) =
      .ok { s with
        merkleHashes := put s.merkleHashes (nodeKey k (n / 2 ^ k)) (h.nodeHash txOuts k (n / 2 ^ k)) } := by
  cases k with
  | zero =>
    -- the leaf: hash the new TxOut
    have present : n < txOuts.length := by omega
    have hashed : h.nodeHash txOuts 0 n = h.hashLeaf txOuts[n] := by
      rw [nodeHash_zero, List.getElem?_eq_getElem present]
    rw [List.getElem?_eq_getElem present] at leaf
    simp only [nodeKey, Nat.pow_zero, Nat.div_one, Nat.mul_one, Nat.add_sub_cancel, updateRange,
      if_pos, getTxOutByIndex_of_eq leaf, rangeNew_of_le (Nat.le_refl n), ok_bind, pure_eq_ok,
      hashed]
    rfl
  | succ j =>
    -- an inner node: hash the stored left child with the stored right child, or with nil
    have pos : 0 < 2 ^ j := Nat.two_pow_pos j
    have before : n / 2 ^ (j + 1) * 2 ^ (j + 1) ≤ n := Nat.div_mul_le_self n _
    generalize n / 2 ^ (j + 1) = q at before ⊢
    rw [mul_two_pow_succ] at before
    have parentKey : nodeKey (j + 1) q = (2 * (q * 2 ^ j), 2 * (q * 2 ^ j) + 2 * 2 ^ j - 1) := by
      rw [nodeKey, mul_two_pow_succ, Nat.pow_succ, Nat.mul_comm (2 ^ j) 2]
    have leftKey : nodeKey j (2 * q) = (2 * (q * 2 ^ j), 2 * (q * 2 ^ j) + 2 ^ j - 1) := by
      rw [nodeKey, two_mul_mul_two_pow]
    have rightKey : nodeKey j (2 * q + 1) =
        (2 * (q * 2 ^ j) + 2 ^ j, 2 * (q * 2 ^ j) + 2 * 2 ^ j - 1) := by
      rw [nodeKey, two_mul_add_one_mul_two_pow]
      congr 1
      omega
    have tall' : 2 * 2 ^ j < 2 * (n + 1) := by rwa [Nat.pow_succ, Nat.mul_comm] at tall
    have stored : ∀ r, r * 2 ^ j < n + 1 → Stored txOuts.length j r := fun r starts =>
      ⟨by omega, by rw [last]; omega⟩
    have left := done j (2 * q) (stored _ (by rw [two_mul_mul_two_pow]; omega)) (.inl (by omega))
    rw [leftKey] at left
    have parent := nodeHash_succ_of_lt h txOuts (d := j) (q := q)
      (by rw [last, mul_two_pow_succ]; omega)
    have middle : (2 * (q * 2 ^ j) + (2 * (q * 2 ^ j) + 2 * 2 ^ j - 1)) / 2 =
        2 * (q * 2 ^ j) + 2 ^ j - 1 := by omega
    rw [parentKey]
    simp only [updateRange]
    rw [if_neg (by omega), middle, rangeNew_of_le (by omega), ok_bind, getMerkleHash_of_eq left,
      ok_bind]
    by_cases empty : n + 1 ≤ 2 * (q * 2 ^ j) + 2 ^ j - 1 + 1
    · -- the right half holds no TxOut
      have nilHash := nodeHash_of_length_le h txOuts (d := j) (q := 2 * q + 1)
        (by rw [last, two_mul_add_one_mul_two_pow]; omega)
      rw [if_pos empty, pure_eq_ok, ok_bind, rangeNew_of_le (by omega), ok_bind, parent, nilHash]
      rfl
    · have found := done j (2 * q + 1)
        (stored _ (by rw [two_mul_add_one_mul_two_pow]; omega)) (.inl (by omega))
      rw [rightKey] at found
      rw [if_neg empty, show 2 * (q * 2 ^ j) + 2 ^ j - 1 + 1 = 2 * (q * 2 ^ j) + 2 ^ j by omega,
        rangeNew_of_le (by omega), ok_bind, getMerkleHash_of_eq found, ok_bind,
        rangeNew_of_le (by omega), ok_bind, parent]
      rfl

/-- The loop over the first `k` heights rewrites exactly those heights; the induction runs over
`k`, appending one iteration at a time. -/
theorem foldlM_updateRange {s : TxOutStore α K P H} {txOuts : List α} {n : Nat}
    (last : txOuts.length = n + 1) (leaf : s.txOutByIndex n = txOuts[n]?)
    (done : Rewritten h s.merkleHashes txOuts n 0) :
    ∀ k, k ≤ Nat.clog 2 (n + 1) + 1 → ∃ hashes,
      ((List.range k).map fun d => nodeKey d (n / 2 ^ d)).foldlM (updateRange h n (n + 1)) s =
        .ok { s with merkleHashes := hashes } ∧ Rewritten h hashes txOuts n k := by
  intro k
  induction k with
  | zero => intro _; exact ⟨s.merkleHashes, rfl, done⟩
  | succ k ih =>
    intro tall
    have lower : 2 ^ k < 2 * (n + 1) :=
      lt_of_le_of_lt (Nat.pow_le_pow_right (by decide) (by omega)) (two_pow_clog_lt (by omega))
    obtain ⟨hashes, run, rewritten⟩ := ih (by omega)
    refine ⟨_, ?_, rewritten_put h last rewritten⟩
    rw [List.range_succ, List.map_append, List.foldlM_append, run, ok_bind, List.map_singleton,
      List.foldlM_cons, updateRange_nodeKey h (s := { s with merkleHashes := hashes }) last leaf
        rewritten lower]
    rfl

theorem updateMerkleHashes_eq {s : TxOutStore α K P H} {txOuts : List α} {n : Nat}
    (last : txOuts.length = n + 1) (count : s.numTxOuts = n + 1) (room : n + 1 ≤ 2 ^ 63)
    (leaf : s.txOutByIndex n = txOuts[n]?) (done : Rewritten h s.merkleHashes txOuts n 0) :
    ∃ hashes, updateMerkleHashes h s n = .ok { s with merkleHashes := hashes } ∧
      ∀ d q, Stored txOuts.length d q → hashes (nodeKey d q) = some (h.nodeHash txOuts d q) := by
  have full := two_pow_clog_lt (by omega : 0 < n + 1)
  obtain ⟨hashes, run, rewritten⟩ := foldlM_updateRange h last leaf done (Nat.clog 2 (n + 1) + 1)
    (Nat.le_refl _)
  refine ⟨hashes, ?_, fun d q stored => rewritten d q stored (.inl ?_)⟩
  · have ranges := containingRanges_eq (show n < n + 1 by omega) room
    rw [← count] at ranges run
    rw [updateMerkleHashes, if_neg (by omega), ranges, ok_bind]
    exact run
  · -- a stored node is no taller than the root of the full tree
    have below : 2 ^ d < 2 ^ (Nat.clog 2 (n + 1) + 1) := by
      have := stored.2
      have := Nat.le_pow_clog (by decide : 1 < 2) (n + 1)
      rw [Nat.pow_succ, last] at *
      omega
    exact (Nat.pow_lt_pow_iff_right (by decide)).mp below

end Update

end MobileCoin.LedgerDb.TxOutStore

namespace MobileCoin.LedgerDb.TxOutStore

open MembershipProofs U64 Table HashTree

variable {α K P H : Type}

/-! ### `push` -/

section Push

variable [DecidableEq K] [DecidableEq P]
variable (txOutHash : α → K) (publicKey : α → P) (h : MerkleHasher α H)

/-- Before the loop, the nodes lying wholly before the new leaf already hold their hashes in the
new tree: they hold them in the old one, and appending a leaf after them changes none. -/
theorem rewritten_of_holds {s : TxOutStore α K P H} {txOuts : List α}
    (holds : Holds txOutHash publicKey h s txOuts) (t : α) :
    Rewritten h s.merkleHashes (txOuts ++ [t]) txOuts.length 0 := by
  intro d q _ cover
  rcases cover with never | before
  · exact absurd never (Nat.not_lt_zero d)
  · have pos := Nat.two_pow_pos d
    have stored : Stored txOuts.length d q := by
      constructor
      · rw [Nat.add_mul, Nat.one_mul] at before; omega
      · have : 2 ^ d ≤ (q + 1) * 2 ^ d := Nat.le_mul_of_pos_left _ (Nat.succ_pos q)
        omega
    rw [holds.merkleHashes_eq d q stored, MerkleHasher.nodeHash, MerkleHasher.nodeHash,
      ofList_append_of_le _ before]

theorem getElem?_append_singleton (txOuts : List α) (t : α) (i : Nat) :
    (txOuts ++ [t])[i]? = put (fun j => txOuts[j]?) txOuts.length t i := by
  rw [put_apply]
  split
  · rename_i same
    subst same
    simp
  · rename_i other
    rcases Nat.lt_or_gt_of_ne other with below | above
    · rw [List.getElem?_append_left below]
    · rw [List.getElem?_eq_none (by simp; omega), List.getElem?_eq_none (by omega)]

/-- A push of a TxOut with a new hash and a new public key onto a ledger with room succeeds at
the next index and keeps the invariant. -/
theorem push_eq {s : TxOutStore α K P H} {txOuts : List α} {t : α}
    (holds : Holds txOutHash publicKey h s txOuts)
    (newHash : txOutHash t ∉ txOuts.map txOutHash) (newKey : publicKey t ∉ txOuts.map publicKey)
    (room : txOuts.length < 2 ^ 63) :
    ∃ s', push txOutHash publicKey h s t = .ok (s', txOuts.length) ∧
      Holds txOutHash publicKey h s' (txOuts ++ [t]) := by
  have count := holds.numTxOuts_eq
  have wrap : (txOuts.length + 1) % 2 ^ 64 = txOuts.length + 1 := Nat.mod_eq_of_lt (by omega)
  have hashAbsent : s.txOutIndexByHash (txOutHash t) = none := by
    rw [holds.txOutIndexByHash_eq]; simpa using newHash
  have keyAbsent : s.txOutIndexByPublicKey (publicKey t) = none := by
    rw [holds.txOutIndexByPublicKey_eq]; simpa using newKey
  have slotAbsent : s.txOutByIndex txOuts.length = none := by
    rw [holds.txOutByIndex_eq]; simp
  -- the loop runs on the store after the count and the three index writes
  obtain ⟨hashes, update, stored⟩ := updateMerkleHashes_eq h
    (s := ⟨txOuts.length + 1, put s.txOutIndexByHash (txOutHash t) txOuts.length,
      put s.txOutIndexByPublicKey (publicKey t) txOuts.length, put s.txOutByIndex txOuts.length t,
      s.merkleHashes⟩) (by simp) rfl (by omega) (by simp) (rewritten_of_holds txOutHash publicKey h holds t)
  refine ⟨⟨txOuts.length + 1, put s.txOutIndexByHash (txOutHash t) txOuts.length,
    put s.txOutIndexByPublicKey (publicKey t) txOuts.length, put s.txOutByIndex txOuts.length t,
    hashes⟩, ?_, ?_⟩
  · simp only [push, count, wrap, putNew_of_none hashAbsent, putNew_of_none keyAbsent,
      putNew_of_none slotAbsent, ok_bind, update]
    rfl
  · constructor
    · simp
    · simp; omega
    · intro i
      rw [getElem?_append_singleton, ← funext holds.txOutByIndex_eq]
    · simpa [List.nodup_append] using ⟨holds.hashes_nodup,
        fun a member same => newHash (List.mem_map.mpr ⟨a, member, same⟩)⟩
    · simpa [List.nodup_append] using ⟨holds.publicKeys_nodup,
        fun a member same => newKey (List.mem_map.mpr ⟨a, member, same⟩)⟩
    · intro k
      rw [List.map_append, List.map_singleton, idxOf?_append_of_not_mem newHash, List.length_map,
        ← funext holds.txOutIndexByHash_eq]
    · intro p
      rw [List.map_append, List.map_singleton, idxOf?_append_of_not_mem newKey, List.length_map,
        ← funext holds.txOutIndexByPublicKey_eq]
    · exact stored

theorem containingRanges_fits {index numLeaves : Nat} {ranges : List (Nat × Nat)}
    (ok : containingRanges index numLeaves = .ok ranges) : numLeaves ≤ 2 ^ 63 := by
  by_contra big
  by_cases inside : index < numLeaves
  · rw [containingRanges_capacity inside (by omega)] at ok
    cases ok
  · rw [containingRanges, if_pos (by omega)] at ok
    cases ok

omit [DecidableEq K] [DecidableEq P] in
theorem updateMerkleHashes_fits {s s' : TxOutStore α K P H} {index : Nat}
    (ok : updateMerkleHashes h s index = .ok s') : s.numTxOuts ≤ 2 ^ 63 := by
  unfold updateMerkleHashes at ok
  dsimp only at ok
  split at ok
  · cases ok
  · obtain ⟨ranges, found, -⟩ := bind_ok ok
    exact containingRanges_fits found

/-- A push that succeeds was of a TxOut with a new hash and a new public key onto a ledger with
room: `NO_OVERWRITE` refuses a known hash or public key, and `containing_ranges` a count past
`2 ^ 63`. -/
theorem push_fresh {s : TxOutStore α K P H} {txOuts : List α} {t : α} {result}
    (holds : Holds txOutHash publicKey h s txOuts)
    (ok : push txOutHash publicKey h s t = .ok result) :
    txOutHash t ∉ txOuts.map txOutHash ∧ publicKey t ∉ txOuts.map publicKey ∧
      txOuts.length < 2 ^ 63 := by
  simp only [push] at ok
  obtain ⟨_, putHash, ok⟩ := bind_ok ok
  obtain ⟨_, putKey, ok⟩ := bind_ok ok
  obtain ⟨_, -, ok⟩ := bind_ok ok
  obtain ⟨_, update, -⟩ := bind_ok ok
  have hashAbsent := (putNew_eq_ok.mp putHash).1
  have keyAbsent := (putNew_eq_ok.mp putKey).1
  have fits := updateMerkleHashes_fits h update
  rw [holds.txOutIndexByHash_eq] at hashAbsent
  rw [holds.txOutIndexByPublicKey_eq] at keyAbsent
  dsimp only at fits
  rw [holds.numTxOuts_eq, Nat.mod_eq_of_lt (by have := holds.capacity; omega)] at fits
  refine ⟨?_, ?_, by omega⟩
  · simpa using hashAbsent
  · simpa using keyAbsent

theorem push_holds {s s' : TxOutStore α K P H} {txOuts : List α} {t : α} {index : Nat}
    (holds : Holds txOutHash publicKey h s txOuts)
    (ok : push txOutHash publicKey h s t = .ok (s', index)) :
    index = txOuts.length ∧ Holds txOutHash publicKey h s' (txOuts ++ [t]) := by
  obtain ⟨newHash, newKey, room⟩ := push_fresh txOutHash publicKey h holds ok
  obtain ⟨pushed, computed, holds'⟩ := push_eq txOutHash publicKey h holds newHash newKey room
  rw [computed] at ok
  cases ok
  exact ⟨rfl, holds'⟩

/-! ### Runs of pushes -/

theorem pushAll_cons_ok {s s' : TxOutStore α K P H} {t : α} {rest : List α}
    (ok : pushAll txOutHash publicKey h s (t :: rest) = .ok s') :
    ∃ mid index, push txOutHash publicKey h s t = .ok (mid, index) ∧
      pushAll txOutHash publicKey h mid rest = .ok s' := by
  obtain ⟨mid, first, run⟩ := foldlM_cons_ok.mp ok
  obtain ⟨⟨pushed, index⟩, computed, finished⟩ := bind_ok first
  have same : pushed = mid := by simpa using finished
  subst same
  exact ⟨pushed, index, computed, run⟩

/-- Every run of pushes from a store that holds `txOuts` ends in a store that holds the TxOuts
pushed after them. -/
theorem pushAll_holds {more : List α} :
    ∀ {s s' : TxOutStore α K P H} {txOuts : List α}, Holds txOutHash publicKey h s txOuts →
      pushAll txOutHash publicKey h s more = .ok s' →
      Holds txOutHash publicKey h s' (txOuts ++ more) := by
  induction more with
  | nil =>
    intro s s' txOuts holds ok
    cases ok
    simpa using holds
  | cons t rest ih =>
    intro s s' txOuts holds ok
    obtain ⟨mid, index, pushed, run⟩ := pushAll_cons_ok txOutHash publicKey h ok
    have holds' := (push_holds txOutHash publicKey h holds pushed).2
    simpa using ih holds' run

/-- From a store that holds `txOuts`, pushing TxOuts whose hashes and public keys are all new
and distinct succeeds while the ledger has room, and the result holds them all. -/
theorem pushAll_eq {more : List α} :
    ∀ {s : TxOutStore α K P H} {txOuts : List α}, Holds txOutHash publicKey h s txOuts →
      ((txOuts ++ more).map txOutHash).Nodup → ((txOuts ++ more).map publicKey).Nodup →
      (txOuts ++ more).length ≤ 2 ^ 63 →
      ∃ s', pushAll txOutHash publicKey h s more = .ok s' ∧
        Holds txOutHash publicKey h s' (txOuts ++ more) := by
  induction more with
  | nil =>
    intro s txOuts holds _ _ _
    exact ⟨s, rfl, by simpa using holds⟩
  | cons t rest ih =>
    intro s txOuts holds hashes keys room
    have newHash : txOutHash t ∉ txOuts.map txOutHash := by
      rw [List.map_append, List.nodup_append] at hashes
      exact fun member => hashes.2.2 _ member _ (by simp) rfl
    have newKey : publicKey t ∉ txOuts.map publicKey := by
      rw [List.map_append, List.nodup_append] at keys
      exact fun member => keys.2.2 _ member _ (by simp) rfl
    obtain ⟨mid, pushed, holds'⟩ := push_eq txOutHash publicKey h holds newHash newKey
      (by simp at room; omega)
    have shift : txOuts ++ [t] ++ rest = txOuts ++ t :: rest := by simp
    obtain ⟨s', run, holdsAll⟩ := ih holds' (by rwa [shift]) (by rwa [shift]) (by rwa [shift])
    refine ⟨s', ?_, by rwa [shift] at holdsAll⟩
    simp only [pushAll, List.foldlM_cons, pushed, ok_bind]
    exact run

end Push

end MobileCoin.LedgerDb.TxOutStore
