import MobileCoin.MembershipProofs.Verify

/-!
# Rolling a proof back

`derive_proof_at_index` turns the path proof of leaf `i` in the tree over a ledger into the path
proof of the same leaf in the tree over the ledger's first `i + 1` TxOuts. Below the smaller
root every sibling is kept: a left sibling lies inside the prefix and keeps its hash, a right
sibling lies past `i` and becomes nil, as it is in the smaller tree. The `Range` order drops the
siblings from the smaller root's height up.
-/

namespace MobileCoin.MembershipProofs

open U64

variable {α H : Type}

/-! ### The `Range` order against the derived root -/

theorem Range.cmp_of_len_lt {a b : Range} (shorter : a.len < b.len) : a.cmp b = .lt := by
  rw [Range.cmp, if_pos (Nat.ne_of_lt shorter), Nat.compare_eq_lt.mpr shorter]

theorem Range.cmp_of_len_gt {a b : Range} (longer : b.len < a.len) : a.cmp b = .gt := by
  rw [Range.cmp, if_pos (Nat.ne_of_gt longer), Nat.compare_eq_gt.mpr longer]

theorem Range.len_root (c : Nat) : Range.len ⟨0, 2 ^ c - 1⟩ = 2 ^ c := by
  have := Nat.two_pow_pos c
  rw [Range.len]
  dsimp only
  rw [if_pos (Nat.zero_le _)]
  omega

section Nodes

variable (h : MerkleHasher α H) (txOuts : List α)

theorem nodeElement_len (d q : Nat) : (nodeElement h txOuts d q).range.len = 2 ^ d := by
  have pos := Nat.two_pow_pos d
  rw [nodeElement_range, Range.len]
  dsimp only
  rw [if_pos (by omega)]
  omega

theorem nodeElement_cmp_of_lt {c d : Nat} (below : d < c) (q : Nat) :
    (nodeElement h txOuts d q).range.cmp ⟨0, 2 ^ c - 1⟩ = .lt := by
  apply Range.cmp_of_len_lt
  rw [nodeElement_len, Range.len_root c]
  exact Nat.pow_lt_pow_right (by decide) below

theorem nodeElement_cmp_of_le {c d q : Nat} (above : c ≤ d) (right : 0 < q) :
    (nodeElement h txOuts d q).range.cmp ⟨0, 2 ^ c - 1⟩ = .gt := by
  rcases Nat.lt_or_eq_of_le above with taller | same
  · apply Range.cmp_of_len_gt
    rw [nodeElement_len, Range.len_root c]
    exact Nat.pow_lt_pow_right (by decide) taller
  · subst same
    have start : 0 < q * 2 ^ c := Nat.mul_pos right (Nat.two_pow_pos c)
    rw [Range.cmp, if_neg (by rw [nodeElement_len, Range.len_root c]; exact not_not.mpr rfl),
      nodeElement_range]
    simp [Nat.compare_eq_gt.mpr start]

theorem nodeHash_take {m d q : Nat} (inside : (q + 1) * 2 ^ d ≤ m) (within : m ≤ txOuts.length) :
    h.nodeHash (txOuts.take m) d q = h.nodeHash txOuts d q := by
  conv_rhs => rw [← List.take_append_drop m txOuts]
  rw [MerkleHasher.nodeHash, MerkleHasher.nodeHash, HashTree.ofList_append_of_le]
  rw [List.length_take, Nat.min_eq_left within]
  exact inside

end Nodes

/-! ### The loop of `derive_proof_at_index` -/

section Loop

variable {h : MerkleHasher α H} {index : Nat} {root : Range}

theorem deriveElements_cons_of_gt {e : TxOutMembershipElement H} (above : e.range.cmp root = .gt)
    (idx : Nat) (rest : List (TxOutMembershipElement H)) :
    deriveElements h index root idx (e :: rest) = deriveElements h index root (idx + 1) rest := by
  rw [deriveElements, if_pos above]

theorem deriveElements_cons_of_past {e : TxOutMembershipElement H} (kept : e.range.cmp root ≠ .gt)
    (past : index < e.range.from) (idx : Nat) (rest : List (TxOutMembershipElement H)) :
    deriveElements h index root idx (e :: rest) =
      (⟨e.range, h.hashNil⟩ :: ·) <$> deriveElements h index root (idx + 1) rest := by
  rw [deriveElements, if_neg kept]
  simp only [if_pos past]
  cases deriveElements h index root (idx + 1) rest <;> rfl

theorem deriveElements_cons_of_before {e : TxOutMembershipElement H}
    (kept : e.range.cmp root ≠ .gt) (ordered : e.range.from ≤ e.range.to)
    (before : e.range.to ≤ index) (idx : Nat) (rest : List (TxOutMembershipElement H)) :
    deriveElements h index root idx (e :: rest) =
      (e :: ·) <$> deriveElements h index root (idx + 1) rest := by
  have hashed : (if index < e.range.from then some h.hashNil
      else if e.range.from = e.range.to then some e.hash
      else if e.range.to ≤ index then some e.hash else none) = some e.hash := by
    rw [if_neg (by omega)]
    split_ifs <;> rfl
  rw [deriveElements, if_neg kept]
  simp only [hashed]
  cases deriveElements h index root (idx + 1) rest <;> rfl

theorem deriveElements_of_gt :
    ∀ (l : List (TxOutMembershipElement H)) (idx : Nat), (∀ e ∈ l, e.range.cmp root = .gt) →
      deriveElements h index root idx l = .ok []
  | [], _, _ => by rw [deriveElements]
  | e :: rest, idx, above => by
    rw [deriveElements_cons_of_gt (above e List.mem_cons_self),
      deriveElements_of_gt rest (idx + 1) fun e' member => above e' (List.mem_cons_of_mem e member)]

end Loop

/-! ### The path proof rolled back -/

section Path

variable (h : MerkleHasher α H) (txOuts : List α)

/-- The sibling at height `d` of the path of leaf `i`. -/
abbrev pathSibling (i d : Nat) : TxOutMembershipElement H :=
  nodeElement h txOuts d (sibling (i / 2 ^ d))

variable {h txOuts} {i c : Nat}

/-- Below the derived root's height `c`, the sibling of the path in the whole tree is rolled
back to the sibling in the tree over the first `i + 1` TxOuts. -/
theorem deriveElements_pathSibling (inside : i < txOuts.length) {d : Nat} (below : d < c)
    (idx : Nat) (rest : List (TxOutMembershipElement H)) :
    deriveElements h i ⟨0, 2 ^ c - 1⟩ idx (pathSibling h txOuts i d :: rest) =
      (pathSibling h (txOuts.take (i + 1)) i d :: ·) <$>
        deriveElements h i ⟨0, 2 ^ c - 1⟩ (idx + 1) rest := by
  have pos := Nat.two_pow_pos d
  have lower : i / 2 ^ d * 2 ^ d ≤ i := Nat.div_mul_le_self i _
  have upper : i < 2 ^ d * (i / 2 ^ d + 1) := Nat.lt_mul_div_succ i pos
  have taken : (txOuts.take (i + 1)).length = i + 1 := by
    rw [List.length_take]
    omega
  unfold pathSibling
  generalize i / 2 ^ d = q at lower upper ⊢
  obtain ⟨r, even | odd⟩ := Nat.even_or_odd' q
  · -- the sibling is the right one, past `i`: nil in the smaller tree
    have next : sibling q = 2 * r + 1 := by rw [sibling, if_pos (by omega), even]
    subst even
    rw [next, deriveElements_cons_of_past
      (by rw [nodeElement_cmp_of_lt h txOuts below]; simp)]
    · have past : (txOuts.take (i + 1)).length ≤ (2 * r + 1) * 2 ^ d := by
        rw [taken]
        nlinarith
      rw [nodeElement, nodeElement, nodeHash_of_length_le h _ past]
    · rw [nodeElement_range]
      dsimp only
      nlinarith
  · -- the sibling is the left one, inside the prefix: kept as it is
    have next : sibling q = 2 * r := by rw [sibling, if_neg (by omega), odd, Nat.add_sub_cancel]
    subst odd
    have ends : (2 * r + 1) * 2 ^ d ≤ i + 1 := by nlinarith
    rw [next, deriveElements_cons_of_before
      (by rw [nodeElement_cmp_of_lt h txOuts below]; simp)
      (nodeElement_ordered h txOuts d (2 * r))]
    · rw [nodeElement, nodeElement, nodeHash_take h txOuts ends (by omega)]
    · rw [Nat.add_mul, Nat.one_mul] at lower
      rw [nodeElement_range]
      dsimp only
      omega

/-- The siblings of heights `k` to `k + m - 1`, all below the derived root, are rolled back one
by one. -/
theorem deriveElements_pathSiblings (inside : i < txOuts.length) (rest : List (TxOutMembershipElement H)) :
    ∀ (m k idx : Nat), k + m ≤ c →
      deriveElements h i ⟨0, 2 ^ c - 1⟩ idx ((List.range' k m).map (pathSibling h txOuts i) ++ rest) =
        ((List.range' k m).map (pathSibling h (txOuts.take (i + 1)) i) ++ ·) <$>
          deriveElements h i ⟨0, 2 ^ c - 1⟩ (idx + m) rest
  | 0, _, idx, _ => by simp
  | m + 1, k, idx, below => by
    rw [List.range'_succ, List.map_cons, List.cons_append,
      deriveElements_pathSibling inside (by omega),
      deriveElements_pathSiblings inside rest m (k + 1) (idx + 1) (by omega)]
    rw [show idx + 1 + m = idx + (m + 1) by omega]
    cases deriveElements h i ⟨0, 2 ^ c - 1⟩ (idx + (m + 1)) rest <;> rfl

/-- The path proof of leaf `i` in a tree of height `c` over the ledger rolls back to the path
proof of leaf `i` in the tree over the first `i + 1` TxOuts. -/
theorem deriveProofAtIndex_pathProof (inside : i < txOuts.length) (fits : txOuts.length ≤ 2 ^ c)
    (small : c ≤ 63) :
    deriveProofAtIndex h (pathProof h txOuts i c) =
      .ok (pathProof h (txOuts.take (i + 1)) i (Nat.clog 2 (i + 1))) := by
  set c' := Nat.clog 2 (i + 1)
  have covers : i + 1 ≤ 2 ^ c' := Nat.le_pow_clog (by decide) _
  have lower : c' ≤ c := (Nat.clog_le_iff_le_pow (by decide)).mpr (by omega)
  have room : i + 1 ≤ 2 ^ 63 :=
    le_trans (by omega) (Nat.pow_le_pow_right (by decide) small)
  have wraps : (i + 1) % 2 ^ 64 = i + 1 := Nat.mod_eq_of_lt (by omega)
  have taken : (txOuts.take (i + 1)).length = i + 1 := by
    rw [List.length_take]
    omega
  have leafKept : (nodeElement h txOuts 0 i).range.cmp ⟨0, 2 ^ c' - 1⟩ ≠ .gt := by
    rcases Nat.eq_zero_or_pos c' with zero | tall
    · -- the ledger's first TxOut is its own root
      have first : i = 0 := by
        rw [zero] at covers
        omega
      rw [first, zero, nodeElement_range]
      decide
    · rw [nodeElement_cmp_of_lt h txOuts tall]
      simp
  have leaf : nodeElement h txOuts 0 i = nodeElement h (txOuts.take (i + 1)) 0 i := by
    rw [nodeElement, nodeElement, nodeHash_take h txOuts (by simp) (by omega)]
  have dropped : ∀ e ∈ (List.range' c' (c - c')).map (pathSibling h txOuts i),
      e.range.cmp ⟨0, 2 ^ c' - 1⟩ = .gt := by
    intro e member
    obtain ⟨d, level, rfl⟩ := List.mem_map.mp member
    have high : c' ≤ d := (List.mem_range'_1.mp level).1
    have first : i / 2 ^ d = 0 :=
      Nat.div_eq_of_lt (lt_of_lt_of_le (by omega) (Nat.pow_le_pow_right (by decide) high))
    rw [pathSibling, first]
    exact nodeElement_cmp_of_le h txOuts high (by simp [sibling])
  have split : List.range c = List.range' 0 c' ++ List.range' c' (c - c') := by
    have joined := List.range'_append_1 (s := 0) (m := c') (n := c - c')
    rw [Nat.zero_add, Nat.add_sub_cancel' lower] at joined
    rw [List.range_eq_range', joined]
  have derived : deriveElements h i ⟨0, 2 ^ c' - 1⟩ 0 (pathProof h txOuts i c).elements =
      .ok (pathProof h (txOuts.take (i + 1)) i c').elements := by
    have ordered := nodeElement_ordered h txOuts 0 i
    have before : (nodeElement h txOuts 0 i).range.to ≤ i := by simp [nodeElement_range]
    change deriveElements h i ⟨0, 2 ^ c' - 1⟩ 0
      (nodeElement h txOuts 0 i :: (List.range c).map (pathSibling h txOuts i)) = _
    rw [deriveElements_cons_of_before leafKept ordered before, split, List.map_append,
      deriveElements_pathSiblings inside _ c' 0 1 (by omega), deriveElements_of_gt _ _ dropped]
    change _ = Except.ok (nodeElement h (txOuts.take (i + 1)) 0 i ::
      (List.range c').map (pathSibling h (txOuts.take (i + 1)) i))
    rw [List.range_eq_range', leaf]
    simp
  have index : (pathProof h txOuts i c).index = i := rfl
  rw [deriveProofAtIndex, index, wraps, checkedNextPowerOfTwo_eq_some room]
  dsimp only
  rw [Range.new, if_pos (Nat.zero_le _)]
  dsimp only
  rw [derived, pathProof, taken, Nat.add_sub_cancel]

end Path

end MobileCoin.MembershipProofs
