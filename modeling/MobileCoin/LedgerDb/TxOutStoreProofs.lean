import MobileCoin.LedgerDb.TxOutStoreInvariant
import MobileCoin.MembershipProofs.Derive

/-!
# Roots and membership proofs of the TxOut store

Reading a store that holds a ledger: `get_root_merkle_hash` returns the hash of the root of
the full tree over the ledger, and `get_merkle_proof_of_membership` returns the path proof of
the leaf (the leaf, then the sibling of the node above it at each height). With the verifier's
completeness this makes every proof the store hands out valid against the store's root; with
its soundness, a proof that is valid against the root names a TxOut of the ledger.
-/

namespace MobileCoin.LedgerDb.TxOutStore

open MembershipProofs U64 Table HashTree

variable {α K P H : Type}

/-- The half of the node of height `d + 1` above `i` that does not hold `i` is the sibling of
the node of height `d` above `i`. -/
theorem otherHalf_nodeKey (i d : Nat) :
    otherHalf i (nodeKey (d + 1) (i / 2 ^ (d + 1))) = nodeKey d (sibling (i / 2 ^ d)) := by
  have pos := Nat.two_pow_pos d
  have lower : i / 2 ^ d * 2 ^ d ≤ i := Nat.div_mul_le_self i _
  have upper : i < 2 ^ d * (i / 2 ^ d + 1) := Nat.lt_mul_div_succ i pos
  rw [div_two_pow_succ]
  generalize i / 2 ^ d = q at lower upper ⊢
  have parentKey : nodeKey (d + 1) (q / 2) =
      (2 * (q / 2 * 2 ^ d), 2 * (q / 2 * 2 ^ d) + 2 * 2 ^ d - 1) := by
    rw [nodeKey, mul_two_pow_succ, Nat.pow_succ, Nat.mul_comm (2 ^ d) 2]
  rw [parentKey, otherHalf]
  obtain ⟨r, even | odd⟩ := Nat.even_or_odd' q
  · -- `i` is in the left half; the sibling is the right half
    subst even
    have half : 2 * r / 2 = r := by omega
    rw [Nat.mul_add, Nat.mul_one, Nat.mul_comm (2 ^ d), two_mul_mul_two_pow] at upper
    rw [two_mul_mul_two_pow] at lower
    rw [half, if_pos (by omega), sibling, if_pos (by omega), nodeKey, two_mul_add_one_mul_two_pow]
    congr 1 <;> omega
  · -- `i` is in the right half; the sibling is the left half
    subst odd
    have half : (2 * r + 1) / 2 = r := by omega
    rw [two_mul_add_one_mul_two_pow] at lower
    rw [half, if_neg (by omega), sibling, if_neg (by omega), Nat.add_sub_cancel, nodeKey,
      two_mul_mul_two_pow]
    congr 1
    omega

section Read

variable [DecidableEq K] [DecidableEq P]
variable {txOutHash : α → K} {publicKey : α → P} {h : MerkleHasher α H}
variable {s : TxOutStore α K P H} {txOuts : List α}

/-- Every stored node reads back as its proof element; a node past the last TxOut reads as nil
without a lookup. -/
theorem proofElement_nodeKey (holds : Holds txOutHash publicKey h s txOuts) {d q : Nat}
    (tall : 2 ^ d < 2 * txOuts.length) :
    proofElement s h txOuts.length (nodeKey d q) = .ok (nodeElement h txOuts d q) := by
  have pos := Nat.two_pow_pos d
  rw [nodeKey]
  simp only [proofElement]
  rw [rangeNew_of_le (by omega), ok_bind]
  by_cases past : txOuts.length ≤ q * 2 ^ d
  · rw [if_pos past, pure_eq_ok, ok_bind, ← nodeHash_of_length_le h txOuts past]
    rfl
  · have found := holds.merkleHashes_eq d q ⟨by omega, tall⟩
    rw [nodeKey] at found
    rw [if_neg past, getMerkleHash_of_eq found, ok_bind]
    rfl

/-- The root the store reports is the hash of the root of the full tree over its ledger; an
empty ledger reports nil, which is that hash too. -/
theorem getRootMerkleHash_eq (holds : Holds txOutHash publicKey h s txOuts) :
    getRootMerkleHash h s = .ok (h.nodeHash txOuts (Nat.clog 2 txOuts.length) 0) := by
  rcases Nat.eq_zero_or_pos txOuts.length with empty | nonempty
  · rw [getRootMerkleHash, holds.numTxOuts_eq, if_pos empty,
      nodeHash_of_length_le h txOuts (by rw [empty]; exact Nat.zero_le _)]
  · have full := two_pow_clog_lt nonempty
    have found := holds.merkleHashes_eq _ 0 ⟨by simpa using nonempty, full⟩
    simp only [nodeKey, Nat.zero_mul, Nat.zero_add] at found
    rw [getRootMerkleHash, holds.numTxOuts_eq, if_neg (by omega),
      checkedNextPowerOfTwo_eq_some holds.capacity]
    dsimp only
    rw [rangeNew_of_le (Nat.zero_le _), ok_bind, getMerkleHash_of_eq found]

theorem getMerkleProofOfMembership_eq (holds : Holds txOutHash publicKey h s txOuts) {i : Nat}
    (inside : i < txOuts.length) :
    getMerkleProofOfMembership h s i = .ok (pathProof h txOuts i (Nat.clog 2 txOuts.length)) := by
  have full := two_pow_clog_lt (n := txOuts.length) (by omega)
  have elements : (rangesForProof i ((List.range (Nat.clog 2 txOuts.length + 1)).map
      fun d => nodeKey d (i / 2 ^ d))).mapM (proofElement s h txOuts.length) =
        .ok (pathProof h txOuts i (Nat.clog 2 txOuts.length)).elements := by
    rw [rangesForProof, List.range_succ_eq_map, List.map_cons, List.drop_one, List.tail_cons,
      List.map_map, List.map_map]
    have leafKey : (i, i) = nodeKey 0 i := by simp [nodeKey]
    rw [leafKey, pathProof, List.mapM_cons, proofElement_nodeKey holds (by omega), ok_bind,
      List.mapM_map, mapM_ok (g := fun d => nodeElement h txOuts d (sibling (i / 2 ^ d)))]
    · rfl
    · intro d member
      have below : 2 ^ d < 2 ^ Nat.clog 2 txOuts.length :=
        Nat.pow_lt_pow_right (by decide) (List.mem_range.mp member)
      simp only [Function.comp, Nat.succ_eq_add_one]
      rw [otherHalf_nodeKey, proofElement_nodeKey holds (by omega)]
  rw [getMerkleProofOfMembership, holds.numTxOuts_eq, if_neg (by omega),
    containingRanges_eq inside holds.capacity, ok_bind, elements, ok_bind]
  rfl

end Read

/-! ### The store agrees with the reference tree and with the verifier -/

section Ledger

variable [DecidableEq K] [DecidableEq P]

omit [DecidableEq K] [DecidableEq P] in
theorem merkleRoot_eq_root (h : MerkleHasher α H) (txOuts : List α) :
    merkleRoot h txOuts 0 (nextPowerOfTwo txOuts.length - 1) =
      h.nodeHash txOuts (Nat.clog 2 txOuts.length) 0 := by
  have reference := merkleRoot_eq_nodeHash h txOuts (Nat.clog 2 txOuts.length) 0
  rwa [Nat.zero_mul, Nat.zero_add] at reference

variable [DecidableEq H]

/-- After pushing a ledger in order, the store's root is the reference Merkle root of
the full tree, and for every TxOut the store hands out a proof that the verifier accepts against
that root and composes to the element of the whole range. -/
theorem root_and_proofs_of_pushAll (txOutHash : α → K) (publicKey : α → P)
    (h : MerkleHasher α H) {txOuts : List α} {s : TxOutStore α K P H}
    (pushed : pushAll txOutHash publicKey h create txOuts = .ok s) :
    getRootMerkleHash h s = .ok (merkleRoot h txOuts 0 (nextPowerOfTwo txOuts.length - 1)) ∧
      ∀ i (inside : i < txOuts.length), ∃ proof,
        getMerkleProofOfMembership h s i = .ok proof ∧
        isMembershipProofValid h txOuts[i] proof
          (merkleRoot h txOuts 0 (nextPowerOfTwo txOuts.length - 1)) = .ok true ∧
        computeImpliedMerkleRoot h proof = .ok ⟨⟨0, nextPowerOfTwo txOuts.length - 1⟩,
          merkleRoot h txOuts 0 (nextPowerOfTwo txOuts.length - 1)⟩ := by
  have holds : Holds txOutHash publicKey h s txOuts := by
    simpa using pushAll_holds txOutHash publicKey h (create_holds txOutHash publicKey h) pushed
  have fits : txOuts.length ≤ 2 ^ Nat.clog 2 txOuts.length := Nat.le_pow_clog (by decide) _
  have small : Nat.clog 2 txOuts.length ≤ 63 :=
    (Nat.clog_le_iff_le_pow (by decide)).mpr holds.capacity
  rw [merkleRoot_eq_root, nextPowerOfTwo]
  refine ⟨getRootMerkleHash_eq holds, fun i inside => ⟨_, getMerkleProofOfMembership_eq holds inside,
    isMembershipProofValid_pathProof h txOuts inside fits small,
    computeImpliedMerkleRoot_pathProof h txOuts inside fits small⟩⟩

theorem root_and_proofs_of_pushAll_three :
    pushAll id id MerkleHasher.free create [5, 6, 7] =
        .ok ((pushAll (K := Nat) (P := Nat) id id MerkleHasher.free create [5, 6, 7]).toOption.getD
          create) ∧
      getRootMerkleHash MerkleHasher.free
          ((pushAll (K := Nat) (P := Nat) id id MerkleHasher.free create [5, 6, 7]).toOption.getD
            create) =
        .ok (merkleRoot MerkleHasher.free [5, 6, 7] 0 (nextPowerOfTwo 3 - 1)) :=
  ⟨rfl, (root_and_proofs_of_pushAll id id MerkleHasher.free rfl).1⟩

/-- A membership proof that the verifier accepts against the root of a ledger the store holds
names a TxOut of that ledger, whatever ranges and hashes the proof holds, when the leaf, node
and nil hashes are injective with disjoint images. -/
theorem mem_of_isMembershipProofValid (txOutHash : α → K) (publicKey : α → P)
    (h : MerkleHasher α H) (separated : Separated h.hashLeaf h.hashNil h.hashNodes)
    {txOuts : List α} {s : TxOutStore α K P H}
    (pushed : pushAll txOutHash publicKey h create txOuts = .ok s) {root : H}
    (rooted : getRootMerkleHash h s = .ok root) (txOut : α) (proof : TxOutMembershipProof H)
    (valid : isMembershipProofValid h txOut proof root = .ok true) :
    ∃ j < txOuts.length, txOuts[j]? = some txOut := by
  have holds : Holds txOutHash publicKey h s txOuts := by
    simpa using pushAll_holds txOutHash publicKey h (create_holds txOutHash publicKey h) pushed
  obtain ⟨steps, climbed⟩ := isMembershipProofValid_climb valid
  rw [getRootMerkleHash_eq holds] at rooted
  cases rooted
  have leaf := mem_leaves_of_climb separated txOut steps _ climbed
  obtain ⟨j, inside, found⟩ := List.getElem_of_mem (mem_of_mem_leaves_ofList leaf)
  exact ⟨j, inside, by rw [List.getElem?_eq_getElem inside, found]⟩

theorem mem_of_isMembershipProofValid_six :
    isMembershipProofValid MerkleHasher.free 6
        ⟨1, 2, [⟨⟨1, 1⟩, .leaf 6⟩, ⟨⟨0, 0⟩, .leaf 5⟩, ⟨⟨2, 3⟩, .node (.leaf 7) .nil⟩]⟩
        (.node (.node (.leaf 5) (.leaf 6)) (.node (.leaf 7) .nil)) = .ok true ∧
      ∃ j < 3, [5, 6, 7][j]? = some 6 :=
  ⟨rfl, mem_of_isMembershipProofValid id id MerkleHasher.free MerkleHasher.free_separated
    (show pushAll (K := Nat) (P := Nat) id id MerkleHasher.free create [5, 6, 7] = .ok _ from rfl)
    (show getRootMerkleHash MerkleHasher.free _ =
      .ok (.node (.node (.leaf 5) (.leaf 6)) (.node (.leaf 7) .nil)) from rfl) 6
    ⟨1, 2, [⟨⟨1, 1⟩, .leaf 6⟩, ⟨⟨0, 0⟩, .leaf 5⟩, ⟨⟨2, 3⟩, .node (.leaf 7) .nil⟩]⟩ rfl⟩

end Ledger

/-! ### Rolling a proof back to a prefix of the ledger -/

section Derive

variable [DecidableEq K] [DecidableEq P]

/-- After pushing a ledger in order, `derive_proof_at_index` turns the store's proof for TxOut `i`
into the proof the store handed out when it held the first `i + 1` TxOuts, and that proof
composes to the root of their tree. -/
theorem deriveProofAtIndex_rolls_back (txOutHash : α → K) (publicKey : α → P)
    (h : MerkleHasher α H) {txOuts : List α} {s : TxOutStore α K P H}
    (pushed : pushAll txOutHash publicKey h create txOuts = .ok s) {i : Nat}
    (inside : i < txOuts.length) :
    ∃ proof prefixStore derived,
      getMerkleProofOfMembership h s i = .ok proof ∧
      pushAll txOutHash publicKey h create (txOuts.take (i + 1)) = .ok prefixStore ∧
      deriveProofAtIndex h proof = .ok derived ∧
      getMerkleProofOfMembership h prefixStore i = .ok derived ∧
      derived.index = i ∧ derived.highestIndex = i ∧
      getRootMerkleHash h prefixStore =
        .ok (merkleRoot h (txOuts.take (i + 1)) 0 (nextPowerOfTwo (i + 1) - 1)) ∧
      computeImpliedMerkleRoot h derived = .ok ⟨⟨0, nextPowerOfTwo (i + 1) - 1⟩,
        merkleRoot h (txOuts.take (i + 1)) 0 (nextPowerOfTwo (i + 1) - 1)⟩ := by
  have holds : Holds txOutHash publicKey h s txOuts := by
    simpa using pushAll_holds txOutHash publicKey h (create_holds txOutHash publicKey h) pushed
  have taken : (txOuts.take (i + 1)).length = i + 1 := by
    rw [List.length_take]
    omega
  -- the first `i + 1` pushes succeed on their own, as they did within the whole run
  have hashes : (([] ++ txOuts.take (i + 1)).map txOutHash).Nodup := by
    rw [List.nil_append, List.map_take]
    exact holds.hashes_nodup.sublist (List.take_sublist _ _)
  have keys : (([] ++ txOuts.take (i + 1)).map publicKey).Nodup := by
    rw [List.nil_append, List.map_take]
    exact holds.publicKeys_nodup.sublist (List.take_sublist _ _)
  obtain ⟨prefixStore, prefixPushed, prefixHolds⟩ :=
    pushAll_eq txOutHash publicKey h (create_holds txOutHash publicKey h) hashes keys
      (by rw [List.nil_append, taken]; have := holds.capacity; omega)
  rw [List.nil_append] at prefixHolds
  have fits : txOuts.length ≤ 2 ^ Nat.clog 2 txOuts.length := Nat.le_pow_clog (by decide) _
  have small : Nat.clog 2 txOuts.length ≤ 63 :=
    (Nat.clog_le_iff_le_pow (by decide)).mpr holds.capacity
  have prefixFits : (txOuts.take (i + 1)).length ≤ 2 ^ Nat.clog 2 (i + 1) := by
    rw [taken]
    exact Nat.le_pow_clog (by decide) _
  have prefixSmall : Nat.clog 2 (i + 1) ≤ 63 :=
    (Nat.clog_le_iff_le_pow (by decide)).mpr (by have := holds.capacity; omega)
  have prefixProof := getMerkleProofOfMembership_eq prefixHolds (i := i) (by omega)
  have prefixRoot := getRootMerkleHash_eq prefixHolds
  have prefixReference := merkleRoot_eq_root h (txOuts.take (i + 1))
  rw [taken] at prefixProof prefixRoot prefixReference
  refine ⟨_, prefixStore, _, getMerkleProofOfMembership_eq holds inside, prefixPushed,
    deriveProofAtIndex_pathProof inside fits small, prefixProof, rfl, ?_, ?_, ?_⟩
  · rw [pathProof]
    dsimp only
    omega
  · rw [prefixRoot, prefixReference]
  · rw [prefixReference, nextPowerOfTwo]
    exact computeImpliedMerkleRoot_pathProof h _ (by omega) prefixFits prefixSmall

theorem deriveProofAtIndex_rolls_back_middle :
    pushAll id id MerkleHasher.free create [5, 6, 7] =
        .ok ((pushAll (K := Nat) (P := Nat) id id MerkleHasher.free create [5, 6, 7]).toOption.getD
          create) ∧ 1 < [5, 6, 7].length ∧
      ∃ proof prefixStore derived,
        getMerkleProofOfMembership MerkleHasher.free
            ((pushAll (K := Nat) (P := Nat) id id MerkleHasher.free create [5, 6, 7]).toOption.getD
              create) 1 = .ok proof ∧
        pushAll id id MerkleHasher.free create ([5, 6, 7].take 2) = .ok prefixStore ∧
        deriveProofAtIndex MerkleHasher.free proof = .ok derived ∧
        getMerkleProofOfMembership MerkleHasher.free prefixStore 1 = .ok derived ∧
        derived.index = 1 ∧ derived.highestIndex = 1 ∧
        getRootMerkleHash MerkleHasher.free prefixStore =
          .ok (merkleRoot MerkleHasher.free ([5, 6, 7].take 2) 0 (nextPowerOfTwo 2 - 1)) ∧
        computeImpliedMerkleRoot MerkleHasher.free derived = .ok ⟨⟨0, nextPowerOfTwo 2 - 1⟩,
          merkleRoot MerkleHasher.free ([5, 6, 7].take 2) 0 (nextPowerOfTwo 2 - 1)⟩ :=
  ⟨rfl, by decide, deriveProofAtIndex_rolls_back id id MerkleHasher.free rfl (by decide)⟩

end Derive

end MobileCoin.LedgerDb.TxOutStore
