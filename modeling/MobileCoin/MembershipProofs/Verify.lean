import MobileCoin.Lib.HashTree
import MobileCoin.Lib.Except
import MobileCoin.MembershipProofs.Proof

/-!
# What the proof verifier checks

Two facts about `compute_implied_merkle_root`. Soundness: whatever elements a proof holds,
an accepted proof's root is a climb from the leaf hash, so with domain-separated hashes it
can only be the root of a tree holding the leaf (`HashTree.mem_leaves_of_climb`). Completeness:
the proof made of the siblings along the path of a leaf in the tree over a ledger composes to
that tree's root, and `is_membership_proof_valid` accepts it.

The reference tree is `merkleRoot`, the recursion over ranges `[lo, hi]` with `mid` the floor
of their mean; on the aligned ranges a ledger stores, it is the hash of `HashTree.ofList`.
-/

namespace MobileCoin.MembershipProofs

open HashTree

variable {α H : Type}

/-- The Merkle root of the leaves `[lo, hi]` of the ledger `txOuts`: the nil hash past the
end, the leaf hash of a single TxOut, and otherwise the node hash of the two halves. -/
def merkleRoot (h : MerkleHasher α H) (txOuts : List α) (lo hi : Nat) : H :=
  if past : txOuts.length ≤ lo then h.hashNil
  else if single : hi ≤ lo then h.hashLeaf txOuts[lo]
  else
    let mid := (lo + hi) / 2
    h.hashNodes (merkleRoot h txOuts lo mid) (merkleRoot h txOuts (mid + 1) hi)
termination_by hi - lo

/-- The hash of node `(d, q)` of the tree over `txOuts`, the node spanning positions
`q * 2 ^ d` to `(q + 1) * 2 ^ d - 1`. -/
def MerkleHasher.nodeHash (h : MerkleHasher α H) (txOuts : List α) (d q : Nat) : H :=
  (ofList txOuts d q).hash h.hashLeaf h.hashNil h.hashNodes

/-- The hasher whose hashes are the trees themselves: it separates the three domains, as the
Blake2b tags are taken to. -/
def MerkleHasher.free : MerkleHasher α (HashTree α) := ⟨leaf, node, nil⟩

theorem MerkleHasher.free_separated :
    Separated (MerkleHasher.free (α := α)).hashLeaf MerkleHasher.free.hashNil
      MerkleHasher.free.hashNodes where
  leaf_injective _ _ same := HashTree.leaf.inj same
  node_injective same := HashTree.node.inj same
  leaf_ne_nil _ := by simp [MerkleHasher.free]
  leaf_ne_node _ _ _ := by simp [MerkleHasher.free]
  nil_ne_node _ _ := by simp [MerkleHasher.free]

section Arithmetic

theorem mul_two_pow_succ (q d : Nat) : q * 2 ^ (d + 1) = 2 * (q * 2 ^ d) := by
  rw [Nat.pow_succ]; ring

theorem two_mul_mul_two_pow (q d : Nat) : 2 * q * 2 ^ d = 2 * (q * 2 ^ d) := by ring

theorem two_mul_add_one_mul_two_pow (q d : Nat) :
    (2 * q + 1) * 2 ^ d = 2 * (q * 2 ^ d) + 2 ^ d := by ring

theorem div_two_pow_succ (i d : Nat) : i / 2 ^ (d + 1) = i / 2 ^ d / 2 := by
  rw [Nat.div_div_eq_div_mul, Nat.pow_succ]

theorem node_end_le {i c k : Nat} (lt : i < 2 ^ c) (le : k ≤ c) :
    (i / 2 ^ k + 1) * 2 ^ k ≤ 2 ^ c := by
  have split : 2 ^ c = 2 ^ (c - k) * 2 ^ k := by rw [← Nat.pow_add]; congr 1; omega
  have below : i / 2 ^ k < 2 ^ (c - k) := by
    rw [Nat.div_lt_iff_lt_mul (Nat.two_pow_pos k), ← split]
    exact lt
  rw [split]
  exact Nat.mul_le_mul_right _ below

end Arithmetic

section Reference

variable (h : MerkleHasher α H) (txOuts : List α)

theorem nodeHash_zero (q : Nat) :
    h.nodeHash txOuts 0 q = match txOuts[q]? with
      | some t => h.hashLeaf t
      | none => h.hashNil := by
  unfold MerkleHasher.nodeHash ofList
  split <;> simp_all [HashTree.hash]

theorem nodeHash_succ_of_lt {d q : Nat} (inside : q * 2 ^ (d + 1) < txOuts.length) :
    h.nodeHash txOuts (d + 1) q =
      h.hashNodes (h.nodeHash txOuts d (2 * q)) (h.nodeHash txOuts d (2 * q + 1)) := by
  simp [MerkleHasher.nodeHash, ofList, Nat.not_le.mpr inside, HashTree.hash]

theorem nodeHash_of_length_le {d q : Nat} (past : txOuts.length ≤ q * 2 ^ d) :
    h.nodeHash txOuts d q = h.hashNil := by
  rw [MerkleHasher.nodeHash, ofList_of_length_le past, HashTree.hash]

theorem merkleRoot_eq_nodeHash (d q : Nat) :
    merkleRoot h txOuts (q * 2 ^ d) (q * 2 ^ d + 2 ^ d - 1) = h.nodeHash txOuts d q := by
  induction d generalizing q with
  | zero =>
    simp only [Nat.pow_zero, Nat.mul_one, Nat.add_sub_cancel]
    rw [merkleRoot, nodeHash_zero]
    by_cases past : txOuts.length ≤ q
    · rw [dif_pos past, List.getElem?_eq_none past]
    · rw [dif_neg past, dif_pos (Nat.le_refl q), List.getElem?_eq_getElem (by omega)]
  | succ d ih =>
    have pos : 0 < 2 ^ d := Nat.two_pow_pos d
    rw [merkleRoot]
    by_cases past : txOuts.length ≤ q * 2 ^ (d + 1)
    · rw [dif_pos past, nodeHash_of_length_le h txOuts past]
    · rw [dif_neg past, nodeHash_succ_of_lt h txOuts (Nat.not_le.mp past)]
      have wide : ¬ q * 2 ^ (d + 1) + 2 ^ (d + 1) - 1 ≤ q * 2 ^ (d + 1) := by
        rw [Nat.pow_succ]; omega
      rw [dif_neg wide, ← ih (2 * q), ← ih (2 * q + 1)]
      -- the two halves of the aligned range are the aligned ranges of the children
      have mid : (q * 2 ^ (d + 1) + (q * 2 ^ (d + 1) + 2 ^ (d + 1) - 1)) / 2 =
          2 * q * 2 ^ d + 2 ^ d - 1 := by
        rw [mul_two_pow_succ, two_mul_mul_two_pow, Nat.pow_succ]; omega
      have right : 2 * q * 2 ^ d + 2 ^ d - 1 + 1 = (2 * q + 1) * 2 ^ d := by
        rw [two_mul_mul_two_pow, two_mul_add_one_mul_two_pow]; omega
      have high : q * 2 ^ (d + 1) + 2 ^ (d + 1) - 1 = (2 * q + 1) * 2 ^ d + 2 ^ d - 1 := by
        rw [mul_two_pow_succ, two_mul_add_one_mul_two_pow, Nat.pow_succ]; omega
      have low : q * 2 ^ (d + 1) = 2 * q * 2 ^ d := by
        rw [mul_two_pow_succ, two_mul_mul_two_pow]
      dsimp only
      rw [mid, right, high, low]

end Reference

/-! ### Soundness: an accepted proof is a climb from the leaf -/

section Soundness

variable {h : MerkleHasher α H}

theorem composeAdjacent_hash {a b c : TxOutMembershipElement H}
    (ok : composeAdjacentMembershipElements h a b = .ok c) :
    ∃ side : Bool,
      c.hash = if side then h.hashNodes a.hash b.hash else h.hashNodes b.hash a.hash := by
  unfold composeAdjacentMembershipElements at ok
  dsimp only at ok
  split at ok
  · cases ok
  · cases ok
    by_cases bLeft : (b.range.to + 1) % 2 ^ 64 = a.range.from
    · exact ⟨false, by simp only [Nat.reducePow] at bLeft; simp [bLeft]⟩
    · exact ⟨true, by simp only [Nat.reducePow] at bLeft; simp [bLeft]⟩

theorem composeElements_climb {prev root : TxOutMembershipElement H} {idx : Nat}
    {rest : List (TxOutMembershipElement H)} (ok : composeElements h prev idx rest = .ok root) :
    ∃ steps, climb h.hashNodes prev.hash steps = root.hash := by
  induction rest generalizing prev idx with
  | nil =>
    cases ok
    exact ⟨[], rfl⟩
  | cons next rest ih =>
    unfold composeElements at ok
    split at ok
    · rename_i parent composed
      obtain ⟨side, parentHash⟩ := composeAdjacent_hash composed
      obtain ⟨steps, climbed⟩ := ih ok
      refine ⟨(side, next.hash) :: steps, ?_⟩
      rw [← climbed, parentHash]
      rfl
    · cases ok

theorem computeImpliedMerkleRoot_climb {proof : TxOutMembershipProof H}
    {root : TxOutMembershipElement H} (ok : computeImpliedMerkleRoot h proof = .ok root) :
    ∃ first rest, proof.elements = first :: rest ∧
      ∃ steps, climb h.hashNodes first.hash steps = root.hash := by
  unfold computeImpliedMerkleRoot at ok
  split at ok
  · cases ok
  · split at ok
    · cases ok
    · rename_i first rest elements
      split at ok
      · cases ok
      · exact ⟨first, rest, elements, composeElements_climb ok⟩

/-- An accepted proof for `txOut` climbs from `hash_leaf(txOut)` to the known root, whatever
ranges and hashes it holds. -/
theorem isMembershipProofValid_climb [DecidableEq H] {txOut : α} {proof : TxOutMembershipProof H}
    {knownRootHash : H} (valid : isMembershipProofValid h txOut proof knownRootHash = .ok true) :
    ∃ steps, climb h.hashNodes (h.hashLeaf txOut) steps = knownRootHash := by
  unfold isMembershipProofValid at valid
  split at valid
  · cases valid
  · split at valid
    · cases valid
    · rename_i first rest elements
      split at valid
      · cases valid
      · split at valid
        · cases valid
        · rename_i leafHash
          split at valid
          · cases valid
          · rename_i root implied
            split at valid
            · cases valid
            · split at valid
              · cases valid
              · obtain ⟨first', rest', elements', steps, climbed⟩ :=
                  computeImpliedMerkleRoot_climb implied
                rw [elements] at elements'
                obtain ⟨rfl, -⟩ := List.cons.inj elements'
                have sameRoot : root.hash = knownRootHash := by simpa using valid
                refine ⟨steps, ?_⟩
                rw [← Classical.not_not.mp leafHash, climbed, sameRoot]

end Soundness

/-! ### Completeness: the path of a leaf composes to the root -/

section Completeness

theorem composeAdjacent_left (h : MerkleHasher α H) {a b : TxOutMembershipElement H}
    (adjacent : a.range.to + 1 = b.range.from) (apart : b.range.to + 1 ≠ a.range.from)
    (small : a.range.to + 1 < 2 ^ 64) (small' : b.range.to + 1 < 2 ^ 64) :
    composeAdjacentMembershipElements h a b =
      .ok ⟨⟨a.range.from, b.range.to⟩, h.hashNodes a.hash b.hash⟩ := by
  have aLeft : (a.range.to + 1) % 2 ^ 64 = b.range.from := by rw [Nat.mod_eq_of_lt small, adjacent]
  have bLeft : (b.range.to + 1) % 2 ^ 64 ≠ a.range.from := by rw [Nat.mod_eq_of_lt small']; exact apart
  simp only [Nat.reducePow] at aLeft bLeft
  simp [composeAdjacentMembershipElements, aLeft, bLeft]

theorem composeAdjacent_right (h : MerkleHasher α H) {a b : TxOutMembershipElement H}
    (adjacent : b.range.to + 1 = a.range.from) (apart : a.range.to + 1 ≠ b.range.from)
    (small : a.range.to + 1 < 2 ^ 64) (small' : b.range.to + 1 < 2 ^ 64) :
    composeAdjacentMembershipElements h a b =
      .ok ⟨⟨b.range.from, a.range.to⟩, h.hashNodes b.hash a.hash⟩ := by
  have aLeft : (a.range.to + 1) % 2 ^ 64 ≠ b.range.from := by rw [Nat.mod_eq_of_lt small]; exact apart
  have bLeft : (b.range.to + 1) % 2 ^ 64 = a.range.from := by rw [Nat.mod_eq_of_lt small', adjacent]
  simp only [Nat.reducePow] at aLeft bLeft
  simp [composeAdjacentMembershipElements, aLeft, bLeft]

variable (h : MerkleHasher α H) (txOuts : List α)

/-- The proof element of node `(d, q)`. -/
def nodeElement (d q : Nat) : TxOutMembershipElement H :=
  ⟨⟨q * 2 ^ d, q * 2 ^ d + 2 ^ d - 1⟩, h.nodeHash txOuts d q⟩

/-- The other child of the parent of node `q`. -/
def sibling (q : Nat) : Nat :=
  if q % 2 = 0 then q + 1 else q - 1

/-- The proof for position `i` in the tree of height `c`: the leaf, then the sibling of the
node above `i` at each height below `c`. -/
def pathProof (i c : Nat) : TxOutMembershipProof H :=
  ⟨i, txOuts.length - 1,
    nodeElement h txOuts 0 i :: (List.range c).map fun d => nodeElement h txOuts d (sibling (i / 2 ^ d))⟩

theorem nodeElement_range (d q : Nat) :
    (nodeElement h txOuts d q).range = ⟨q * 2 ^ d, q * 2 ^ d + 2 ^ d - 1⟩ := rfl

theorem nodeElement_ordered (d q : Nat) :
    (nodeElement h txOuts d q).range.from ≤ (nodeElement h txOuts d q).range.to := by
  have := Nat.two_pow_pos d
  rw [nodeElement_range]
  dsimp only
  omega

theorem compose_sibling {d q : Nat} (inside : q / 2 * 2 ^ (d + 1) < txOuts.length)
    (fits : (q / 2 + 1) * 2 ^ (d + 1) < 2 ^ 64) :
    composeAdjacentMembershipElements h (nodeElement h txOuts d q)
      (nodeElement h txOuts d (sibling q)) = .ok (nodeElement h txOuts (d + 1) (q / 2)) := by
  have pos : 0 < 2 ^ d := Nat.two_pow_pos d
  obtain ⟨r, even | odd⟩ := Nat.even_or_odd' q
  all_goals
    have half : q / 2 = r := by omega
    rw [half] at inside fits ⊢
    have parent := nodeHash_succ_of_lt h txOuts inside
    have parentRange : (nodeElement h txOuts (d + 1) r).range =
        ⟨2 * (r * 2 ^ d), 2 * (r * 2 ^ d) + 2 * 2 ^ d - 1⟩ := by
      rw [nodeElement_range, mul_two_pow_succ, Nat.pow_succ, Nat.mul_comm (2 ^ d) 2]
    rw [mul_two_pow_succ] at inside fits
    rw [Nat.add_mul, Nat.one_mul] at fits
    have leftRange := nodeElement_range h txOuts d (2 * r)
    have rightRange := nodeElement_range h txOuts d (2 * r + 1)
    rw [two_mul_mul_two_pow] at leftRange
    rw [two_mul_add_one_mul_two_pow] at rightRange
    have whole : nodeElement h txOuts (d + 1) r = ⟨⟨2 * (r * 2 ^ d), 2 * (r * 2 ^ d) + 2 * 2 ^ d - 1⟩,
        h.hashNodes (h.nodeHash txOuts d (2 * r)) (h.nodeHash txOuts d (2 * r + 1))⟩ := by
      rw [← parentRange, ← parent]; rfl
  · -- an even node is the left child
    have next : sibling q = 2 * r + 1 := by rw [sibling, if_pos (by omega), even]
    rw [next, even, composeAdjacent_left h]
    · rw [whole]
      simp only [leftRange, rightRange, Except.ok.injEq, TxOutMembershipElement.mk.injEq,
        Range.mk.injEq]
      refine ⟨⟨trivial, by omega⟩, rfl⟩
    all_goals simp only [leftRange, rightRange]; omega
  · -- an odd node is the right child
    have next : sibling q = 2 * r := by rw [sibling, if_neg (by omega), odd, Nat.add_sub_cancel]
    rw [next, odd, composeAdjacent_right h]
    · rw [whole]
      simp only [leftRange, rightRange, Except.ok.injEq, TxOutMembershipElement.mk.injEq,
        Range.mk.injEq]
      refine ⟨⟨trivial, by omega⟩, rfl⟩
    all_goals simp only [leftRange, rightRange]; omega

/-- Composing the siblings of heights `k` to `k + m - 1` onto the node of height `k` above `i`
climbs to the node of height `k + m` above `i`. The induction peels the lowest sibling. -/
theorem composeElements_path {i : Nat} (inside : i < txOuts.length) (m : Nat) :
    ∀ k idx, i < 2 ^ (k + m) → k + m ≤ 63 →
      composeElements h (nodeElement h txOuts k (i / 2 ^ k)) idx
          ((List.range m).map fun j => nodeElement h txOuts (k + j) (sibling (i / 2 ^ (k + j)))) =
        .ok (nodeElement h txOuts (k + m) (i / 2 ^ (k + m))) := by
  induction m with
  | zero => intro k idx _ _; rfl
  | succ m ih =>
    intro k idx bound small
    rw [List.range_succ_eq_map, List.map_cons, List.map_map]
    have parent : i / 2 ^ k / 2 = i / 2 ^ (k + 1) := (div_two_pow_succ i k).symm
    have composed : composeAdjacentMembershipElements h (nodeElement h txOuts k (i / 2 ^ k))
        (nodeElement h txOuts (k + 0) (sibling (i / 2 ^ (k + 0)))) =
          .ok (nodeElement h txOuts (k + 1) (i / 2 ^ (k + 1))) := by
      rw [Nat.add_zero, compose_sibling h txOuts, parent]
      · rw [parent]
        exact lt_of_le_of_lt (Nat.div_mul_le_self i _) inside
      · rw [parent]
        have ends := node_end_le bound (show k + 1 ≤ k + (m + 1) by omega)
        have : 2 ^ (k + (m + 1)) ≤ 2 ^ 63 := Nat.pow_le_pow_right (by decide) small
        omega
    rw [composeElements, composed]
    dsimp only
    have shifted : ((fun j => nodeElement h txOuts (k + j) (sibling (i / 2 ^ (k + j)))) ∘
        Nat.succ) = fun j => nodeElement h txOuts (k + 1 + j) (sibling (i / 2 ^ (k + 1 + j))) := by
      funext j
      simp only [Function.comp, Nat.succ_eq_add_one, Nat.add_assoc, Nat.add_comm 1 j]
    rw [shifted, ih (k + 1) (idx + 1) (by rwa [Nat.add_right_comm, Nat.add_assoc])
      (by omega), Nat.add_right_comm, Nat.add_assoc]

theorem nodeElement_top {i c : Nat} (below : i < 2 ^ c) :
    nodeElement h txOuts c (i / 2 ^ c) = ⟨⟨0, 2 ^ c - 1⟩, h.nodeHash txOuts c 0⟩ := by
  rw [Nat.div_eq_of_lt below, nodeElement, Nat.zero_mul, Nat.zero_add]

section Path

variable {i c : Nat} (inside : i < txOuts.length) (fits : txOuts.length ≤ 2 ^ c) (small : c ≤ 63)
include inside fits small

theorem computeImpliedMerkleRoot_pathProof :
    computeImpliedMerkleRoot h (pathProof h txOuts i c) = .ok ⟨⟨0, 2 ^ c - 1⟩, h.nodeHash txOuts c 0⟩ := by
  have wellFormed : ((pathProof h txOuts i c).elements.any
      fun e => decide (e.range.to < e.range.from)) = false := by
    rw [List.any_eq_false]
    intro e member
    have ordered : e.range.from ≤ e.range.to := by
      simp only [pathProof, List.mem_cons, List.mem_map] at member
      rcases member with rfl | ⟨d, -, rfl⟩
      all_goals exact nodeElement_ordered h txOuts _ _
    simpa using ordered
  have path := composeElements_path h txOuts inside c 0 0 (by rw [Nat.zero_add]; omega) (by omega)
  simp only [Nat.zero_add, Nat.pow_zero, Nat.div_one] at path
  rw [computeImpliedMerkleRoot, wellFormed]
  simp only [pathProof, nodeElement_range, Nat.pow_zero, Nat.mul_one, Nat.add_sub_cancel, ne_eq,
    not_true_eq_false, or_self, if_false, Bool.false_eq_true]
  rw [path, nodeElement_top h txOuts (by omega)]

theorem isMembershipProofValid_pathProof [DecidableEq H] :
    isMembershipProofValid h txOuts[i] (pathProof h txOuts i c) (h.nodeHash txOuts c 0) = .ok true := by
  have leaf : (nodeElement h txOuts 0 i).hash = h.hashLeaf txOuts[i] := by
    simp [nodeElement, nodeHash_zero, List.getElem?_eq_getElem inside]
  rw [isMembershipProofValid]
  simp only [pathProof, nodeElement_range, Nat.pow_zero, Nat.mul_one, Nat.add_sub_cancel, ne_eq,
    not_true_eq_false, or_self, if_false, leaf]
  rw [← pathProof, computeImpliedMerkleRoot_pathProof h txOuts inside fits small]
  have : ¬ txOuts.length - 1 < i := by omega
  have : ¬ 2 ^ c - 1 < txOuts.length - 1 := by omega
  simp [*]

end Path

end Completeness

end MobileCoin.MembershipProofs
