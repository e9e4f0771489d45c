import MobileCoin.Transaction.Validate

/-!
# What `validate` accepts

Each check of `validate` succeeds exactly when one rule about the transaction holds, stated over
its lists rather than over the loops and sets that check it: counts, `Nodup`, strict `Pairwise`
orders by public key, membership proofs as a `Forall₂` against the root proofs, and the u64 window
of the tombstone read in naturals. `validate` succeeds exactly when every rule holds, which is
`Valid`.
-/

namespace MobileCoin.Validation

open MembershipProofs

variable {α K H R Sig KI SE IE : Type}

/-! ### The shared checks -/

theorem checkSorted_eq_ok {β : Type} {values : List β} {ordered : β → β → Bool}
    {err : TransactionValidationError SE IE} :
    checkSorted values ordered err = .ok () ↔ values.IsChain fun a b => ordered a b = true := by
  unfold checkSorted
  by_cases sorted : values.IsChain fun a b => ordered a b = true <;> simp [sorted]

theorem checkSorted_eq_ok_iff_pairwise {β : Type} {values : List β} {ordered : β → β → Bool}
    {err : TransactionValidationError SE IE} {r : β → β → Prop} [Trans r r r]
    (same : ∀ a b, ordered a b = true ↔ r a b) :
    checkSorted values ordered err = .ok () ↔ values.Pairwise r := by
  rw [checkSorted_eq_ok, ← List.isChain_iff_pairwise]
  simp only [same]

theorem checkUnique_eq_ok {β : Type} [DecidableEq β] {values : List β}
    {err : TransactionValidationError SE IE} :
    checkUnique values err = .ok () ↔ values.Nodup := by
  simp [checkUnique, foldlM_insertFresh_eq_ok]

theorem validateNumberOf_eq_ok {num : ℕ} {maximumAllowed : UInt64}
    {noneErr tooManyErr : TransactionValidationError SE IE} :
    validateNumberOf num maximumAllowed noneErr tooManyErr = .ok () ↔
      0 < num ∧ num ≤ maximumAllowed.toNat := by
  unfold validateNumberOf
  by_cases empty : num = 0
  · simp [empty]
  · simp only [empty, if_false, Nat.pos_of_ne_zero empty, true_and]
    by_cases tooMany : num > maximumAllowed.toNat
    · simp [tooMany]
    · simp [tooMany, Nat.le_of_not_gt tooMany]

/-! ### The rings -/

theorem validateRingSizes_eq_ok {txPrefix : TxPrefix α H R} {ringSize : ℕ} :
    (validateRingSizes txPrefix ringSize : TransactionValidationResult SE IE Unit) = .ok () ↔
      ∀ input ∈ txPrefix.inputs, input.ring.length = ringSize := by
  unfold validateRingSizes
  rw [forM_eq_ok_iff]
  refine forall₂_congr fun input _ => ?_
  by_cases sized : input.ring.length = ringSize <;> simp [sized]

section Unique

variable [DecidableEq α]

/-- One turn of the loop of `validate_ring_elements_are_unique`: a ring with input rules is
checked on its own and leaves the shared set as it was. -/
theorem uniqueRing_eq_ok {used used' : List α} {input : TxIn α H R} :
    ((if input.inputRules.isSome then do
        checkUnique input.ring .duplicateRingElements
        pure used
      else input.ring.foldlM (insertFresh fun _ => .duplicateRingElements) used) :
      TransactionValidationResult SE IE (List α)) = .ok used' ↔
      (input.inputRules.isSome → input.ring.Nodup) ∧
        if input.inputRules.isSome then used' = used
        else input.ring.foldlM (insertFresh fun _ =>
          (.duplicateRingElements : TransactionValidationError SE IE)) used = .ok used' := by
  by_cases ruled : input.inputRules.isSome
  · simp only [ruled, if_true, bind_unit_ok_iff, checkUnique_eq_ok, pure_eq_ok,
      Except.ok.injEq, forall_const]
    exact and_congr_right fun _ => eq_comm
  · simp [ruled]

/-- The whole loop: the rings with input rules are each distinct, and the others go through one
set, as `insertAllFresh` over the inputs without rules. -/
theorem foldlM_uniqueRing_eq_ok : ∀ {inputs : List (TxIn α H R)} {used used' : List α},
    (inputs.foldlM (fun ringElementsWithoutInputRules input =>
      if input.inputRules.isSome then do
        checkUnique input.ring .duplicateRingElements
        pure ringElementsWithoutInputRules
      else input.ring.foldlM (insertFresh fun _ => .duplicateRingElements)
        ringElementsWithoutInputRules) used : TransactionValidationResult SE IE (List α)) =
        .ok used' ↔
      (∀ input ∈ inputs, input.inputRules.isSome → input.ring.Nodup) ∧
        insertAllFresh (fun _ => (.duplicateRingElements : TransactionValidationError SE IE))
          TxIn.ring used (inputs.filter fun input => input.inputRules.isNone) = .ok used'
  | [], used, used' => by
    simp only [List.foldlM_nil, List.filter_nil, insertAllFresh_nil, List.not_mem_nil,
      false_implies, implies_true, true_and, pure_eq_ok]
  | input :: inputs, used, used' => by
    rw [foldlM_cons_ok]
    simp only [uniqueRing_eq_ok, List.forall_mem_cons]
    cases rules : input.inputRules with
    | some rule =>
      simp only [rules, Option.isSome_some, Option.isNone_some, if_true, forall_const,
        List.filter_cons, Bool.false_eq_true, if_false, foldlM_uniqueRing_eq_ok]
      constructor
      · rintro ⟨_, ⟨distinct, rfl⟩, rest, later⟩
        exact ⟨⟨distinct, rest⟩, later⟩
      · rintro ⟨⟨distinct, rest⟩, later⟩
        exact ⟨_, ⟨distinct, rfl⟩, rest, later⟩
    | none =>
      simp only [rules, Option.isSome_none, Option.isNone_none, Bool.false_eq_true, if_false,
        List.filter_cons, if_true, insertAllFresh_cons_eq_ok, foldlM_uniqueRing_eq_ok]
      constructor
      · rintro ⟨mid, ⟨-, inserted⟩, rest, later⟩
        exact ⟨⟨nofun, rest⟩, mid, inserted, later⟩
      · rintro ⟨⟨-, rest⟩, mid, inserted, later⟩
        exact ⟨mid, ⟨nofun, inserted⟩, rest, later⟩

theorem validateRingElementsAreUnique_eq_ok {txPrefix : TxPrefix α H R} :
    (validateRingElementsAreUnique txPrefix : TransactionValidationResult SE IE Unit) = .ok () ↔
      (∀ input ∈ txPrefix.inputs, input.inputRules.isSome → input.ring.Nodup) ∧
        ((txPrefix.inputs.filter fun input => input.inputRules.isNone).flatMap TxIn.ring).Nodup := by
  unfold validateRingElementsAreUnique
  rw [bind_ok_iff]
  simp only [foldlM_uniqueRing_eq_ok]
  simp only [insertAllFresh_eq_ok, List.disjoint_nil_right, true_and, pure_eq_ok, and_true,
    exists_and_left, exists_eq]

end Unique

section Order

variable [LinearOrder K] (publicKey : α → K)

/-- Input `a` goes before input `b`: both rings have a first element, and that of `a` has the
smaller public key. -/
def FirstKeyBefore (a b : TxIn α H R) : Prop :=
  ∃ first ∈ a.ring.head?, ∃ first' ∈ b.ring.head?, publicKey first < publicKey first'

variable {publicKey}

theorem FirstKeyBefore.trans {a b c : TxIn α H R} (ab : FirstKeyBefore publicKey a b)
    (bc : FirstKeyBefore publicKey b c) : FirstKeyBefore publicKey a c := by
  obtain ⟨first, firstAt, middle, middleAt, lt⟩ := ab
  obtain ⟨middle', middleAt', last, lastAt, lt'⟩ := bc
  have same : middle = middle' := Option.some_inj.mp (middleAt.symm.trans middleAt')
  exact ⟨first, firstAt, last, lastAt, lt.trans (same ▸ lt')⟩

instance : Trans (FirstKeyBefore (H := H) (R := R) publicKey) (FirstKeyBefore publicKey)
    (FirstKeyBefore publicKey) :=
  ⟨FirstKeyBefore.trans⟩

theorem inputsOrdered_iff {a b : TxIn α H R} :
    (!a.ring.isEmpty && !b.ring.isEmpty &&
      match a.ring.head?, b.ring.head? with
      | some first, some first' => decide (publicKey first < publicKey first')
      | _, _ => false) = true ↔ FirstKeyBefore publicKey a b := by
  unfold FirstKeyBefore
  cases a.ring <;> cases b.ring <;> simp

theorem validateRingElementsAreSorted_eq_ok {txPrefix : TxPrefix α H R} :
    (validateRingElementsAreSorted publicKey txPrefix : TransactionValidationResult SE IE Unit) =
        .ok () ↔
      ∀ input ∈ txPrefix.inputs, (input.ring.map publicKey).Pairwise (· < ·) := by
  unfold validateRingElementsAreSorted
  rw [forM_eq_ok_iff]
  refine forall₂_congr fun input _ => ?_
  rw [List.pairwise_map]
  exact checkSorted_eq_ok_iff_pairwise fun _ _ => decide_eq_true_iff

theorem validateInputsAreSorted_eq_ok {txPrefix : TxPrefix α H R} :
    (validateInputsAreSorted publicKey txPrefix : TransactionValidationResult SE IE Unit) =
        .ok () ↔
      txPrefix.inputs.Pairwise (FirstKeyBefore publicKey) :=
  checkSorted_eq_ok_iff_pairwise fun _ _ => inputsOrdered_iff

theorem validateOutputsAreSorted_eq_ok {txPrefix : TxPrefix α H R} :
    (validateOutputsAreSorted publicKey txPrefix : TransactionValidationResult SE IE Unit) =
        .ok () ↔
      (txPrefix.outputs.map publicKey).Pairwise (· < ·) := by
  rw [List.pairwise_map]
  exact checkSorted_eq_ok_iff_pairwise fun _ _ => decide_eq_true_iff

end Order

/-! ### The membership proofs -/

section Membership

variable [DecidableEq H] (h : MerkleHasher α H)

/-- The proof of a ring element holds against the root proof the untrusted ledger gave for it:
the root proof rolls back to one at its own index, and the element's proof reaches the root that
one implies. -/
def ProvedAgainst (txOut : α) (membershipProof rootProof : TxOutMembershipProof H) : Prop :=
  ∃ derivedProof rootElement, deriveProofAtIndex h rootProof = .ok derivedProof ∧
    computeImpliedMerkleRoot h derivedProof = .ok rootElement ∧
    isMembershipProofValid h txOut membershipProof rootElement.hash = .ok true

variable {h}

theorem validateMembershipProofs_eq_ok {txPrefix : TxPrefix α H R}
    {rootProofs : List (TxOutMembershipProof H)} :
    (validateMembershipProofs h txPrefix rootProofs : TransactionValidationResult SE IE Unit) =
        .ok () ↔
      (∀ txIn ∈ txPrefix.inputs, txIn.ring.length = txIn.proofs.length) ∧
      (∀ rootProof ∈ rootProofs, ∀ element ∈ rootProof.elements,
        element.range.from ≤ element.range.to) ∧
      List.Forall₂ (fun entry rootProof => ProvedAgainst h entry.1 entry.2 rootProof)
        (txPrefix.inputs.flatMap fun txIn => txIn.ring.zip txIn.proofs) rootProofs := by
  unfold validateMembershipProofs
  simp only [bind_unit_ok_iff, throw_bind, ite_throw_eq_ok, not_not, forM_eq_ok_iff, pure_eq_ok,
    and_true, Bool.not_eq_true, List.any_eq_false, decide_eq_true_eq, Nat.not_lt,
    List.forall₂_iff_zip]
  refine and_congr_right fun _ => ?_
  rw [and_left_comm]
  refine and_congr_right fun _ => and_congr_right fun _ => ?_
  simp only [Prod.forall]
  refine forall_congr' fun txOut => forall_congr' fun membershipProof =>
    forall_congr' fun rootProof => imp_congr_right fun _ => ?_
  -- the three calls that can fail, one after another
  unfold ProvedAgainst
  cases derived : deriveProofAtIndex h rootProof with
  | error _ => simp
  | ok derivedProof =>
    cases root : computeImpliedMerkleRoot h derivedProof with
    | error _ => simp [root]
    | ok rootElement =>
      cases valid : isMembershipProofValid h txOut membershipProof rootElement.hash with
      | error _ => simp [root, valid]
      | ok isValid => cases isValid <;> simp [root, valid]

end Membership

/-! ### The signature, the fee and the outputs -/

section Primitives

variable {p : Primitives α K H R Sig KI SE IE}

theorem getMaskedTokenId_bind_eq_ok {txOut : α} :
    (do let _ ← getMaskedTokenId p txOut : TransactionValidationResult SE IE PUnit) = .ok () ↔
      (p.maskedTokenId txOut).isSome := by
  unfold getMaskedTokenId
  cases p.maskedTokenId txOut <;> simp [okOr]

theorem validateSignature_eq_ok {blockVersion : BlockVersion} {tx : Tx α H R Sig} :
    validateSignature p blockVersion tx = .ok () ↔
      (∀ input ∈ tx.txPrefix.inputs, ∀ txOut ∈ input.ring, (p.maskedTokenId txOut).isSome) ∧
      (∀ txOut ∈ tx.txPrefix.outputs, (p.maskedTokenId txOut).isSome) ∧
      p.verifySignature blockVersion tx = .ok () := by
  unfold validateSignature
  simp only [bind_unit_ok_iff, forM_eq_ok_iff, getMaskedTokenId_bind_eq_ok, mapError_eq_ok]

theorem validateTransactionFee_eq_ok {tx : Tx α H R Sig} {minimumFee : UInt64} :
    (validateTransactionFee tx minimumFee : TransactionValidationResult SE IE Unit) = .ok () ↔
      minimumFee ≤ tx.txPrefix.fee := by
  unfold validateTransactionFee
  by_cases low : tx.txPrefix.fee < minimumFee
  · simp [low, UInt64.not_le.mpr low]
  · simp [low, UInt64.not_lt.mp low]

theorem validateKeyImagesAreUnique_eq_ok [DecidableEq KI] {tx : Tx α H R Sig} :
    validateKeyImagesAreUnique p tx = .ok () ↔ (p.keyImages tx.signature).Nodup :=
  checkUnique_eq_ok

theorem validateOutputsPublicKeysAreUnique_eq_ok [DecidableEq K] {tx : Tx α H R Sig} :
    validateOutputsPublicKeysAreUnique p tx = .ok () ↔
      (tx.txPrefix.outputs.map p.publicKey).Nodup :=
  checkUnique_eq_ok

theorem validateMemoExists_eq_ok {txOut : α} :
    validateMemoExists p txOut = .ok () ↔ p.hasMemo txOut = true := by
  unfold validateMemoExists
  cases p.hasMemo txOut <;> simp

theorem validateThatNoMemoExists_eq_ok {txOut : α} :
    validateThatNoMemoExists p txOut = .ok () ↔ p.hasMemo txOut = false := by
  unfold validateThatNoMemoExists
  cases p.hasMemo txOut <;> simp

theorem validateMaskedTokenIdExists_eq_ok {txOut : α} :
    validateMaskedTokenIdExists p txOut = .ok () ↔
      (p.maskedTokenId txOut).map List.length = some TOKEN_ID_NUM_BYTES := by
  unfold validateMaskedTokenIdExists getMaskedTokenId
  cases p.maskedTokenId txOut <;> simp [okOr]

theorem validateThatNoMaskedTokenIdExists_eq_ok {txOut : α} :
    validateThatNoMaskedTokenIdExists p txOut = .ok () ↔
      (p.maskedTokenId txOut).map List.length = some 0 := by
  unfold validateThatNoMaskedTokenIdExists getMaskedTokenId
  cases p.maskedTokenId txOut <;> simp [okOr]

/-- The memo of an output is there exactly from v1, and its masked token id is there, of eight
bytes from v2 and empty before. -/
theorem validateTxOut_eq_ok {blockVersion : BlockVersion} {txOut : α} :
    validateTxOut p blockVersion txOut = .ok () ↔
      p.hasMemo txOut = blockVersion.eMemoFeatureIsSupported ∧
      (p.maskedTokenId txOut).map List.length =
        some (if blockVersion.maskedTokenIdFeatureIsSupported then TOKEN_ID_NUM_BYTES else 0) := by
  unfold validateTxOut
  cases blockVersion.eMemoFeatureIsSupported <;> cases blockVersion.maskedTokenIdFeatureIsSupported <;>
    simp only [Bool.false_eq_true, if_false, if_true, bind_unit_ok_iff, validateMemoExists_eq_ok,
      validateThatNoMemoExists_eq_ok, validateMaskedTokenIdExists_eq_ok,
      validateThatNoMaskedTokenIdExists_eq_ok]

theorem validateAllInputRules_eq_ok {blockVersion : BlockVersion} {tx : Tx α H R Sig} :
    validateAllInputRules p blockVersion tx = .ok () ↔
      ∀ input ∈ tx.txPrefix.inputs, ∀ rules ∈ input.inputRules,
        p.verifyInputRules rules blockVersion tx = .ok () := by
  unfold validateAllInputRules
  rw [forM_eq_ok_iff]
  refine forall₂_congr fun input _ => ?_
  cases input.inputRules <;> simp [mapError_eq_ok]

end Primitives

theorem validateThatNoInputRulesExist_eq_ok {tx : Tx α H R Sig} :
    (validateThatNoInputRulesExist tx : TransactionValidationResult SE IE Unit) = .ok () ↔
      ∀ input ∈ tx.txPrefix.inputs, input.inputRules = none := by
  unfold validateThatNoInputRulesExist
  rw [forM_guard_eq_ok]
  simp

/-- The tombstone block is ahead of the current one by at most `MAX_TOMBSTONE_BLOCKS`, and the
`u64` sum of the limit does not wrap: past `u64::MAX - MAX_TOMBSTONE_BLOCKS` no tombstone
passes. -/
theorem validateTombstone_eq_ok {currentBlockIndex tombstoneBlockIndex : UInt64} :
    (validateTombstone currentBlockIndex tombstoneBlockIndex :
        TransactionValidationResult SE IE Unit) = .ok () ↔
      currentBlockIndex.toNat < tombstoneBlockIndex.toNat ∧
      tombstoneBlockIndex.toNat ≤ currentBlockIndex.toNat + MAX_TOMBSTONE_BLOCKS.toNat ∧
      currentBlockIndex.toNat + MAX_TOMBSTONE_BLOCKS.toNat ≤ U64.MAX := by
  unfold validateTombstone
  simp only [throw_bind, ite_throw_eq_ok, pure_eq_ok, and_true]
  simp only [ge_iff_le, gt_iff_lt, UInt64.lt_iff_toNat_lt, UInt64.le_iff_toNat_le,
    UInt64.toNat_add]
  have current := U64.toNat_le_MAX currentBlockIndex
  have within := U64.toNat_le_MAX tombstoneBlockIndex
  have limit : MAX_TOMBSTONE_BLOCKS.toNat = 20160 := rfl
  rw [limit]
  unfold U64.MAX at current within ⊢
  -- the limit is a `u64` sum: once it wraps it is below the current block
  omega

/-! ### `validate` -/

section Validate

variable [DecidableEq α] [LinearOrder K] [DecidableEq H] [DecidableEq KI]

/-- The rules `validate` holds a transaction to, in the order it checks them, for the block being
built at `currentBlockIndex`, the root proofs of the untrusted ledger, and the minimum fee of the
fee token. -/
@[mk_iff]
structure Valid (p : Primitives α K H R Sig KI SE IE) (tx : Tx α H R Sig)
    (currentBlockIndex : UInt64) (blockVersion : BlockVersion)
    (rootProofs : List (TxOutMembershipProof H)) (minimumFee : UInt64) : Prop where
  version_supported : blockVersion.val ≤ BlockVersion.MAX.val
  inputs_count : 0 < tx.txPrefix.inputs.length ∧ tx.txPrefix.inputs.length ≤ MAX_INPUTS.toNat
  outputs_count : 0 < tx.txPrefix.outputs.length ∧ tx.txPrefix.outputs.length ≤ MAX_OUTPUTS.toNat
  ring_sizes : ∀ input ∈ tx.txPrefix.inputs, input.ring.length = RING_SIZE
  rings_with_rules_distinct :
    ∀ input ∈ tx.txPrefix.inputs, input.inputRules.isSome → input.ring.Nodup
  /-- The rings without input rules have no element in common, nor one twice. -/
  rings_without_rules_distinct :
    ((tx.txPrefix.inputs.filter fun input => input.inputRules.isNone).flatMap TxIn.ring).Nodup
  rings_sorted : ∀ input ∈ tx.txPrefix.inputs, (input.ring.map p.publicKey).Pairwise (· < ·)
  inputs_sorted : tx.txPrefix.inputs.Pairwise (FirstKeyBefore p.publicKey)
  proofs_count : ∀ txIn ∈ tx.txPrefix.inputs, txIn.ring.length = txIn.proofs.length
  root_ranges : ∀ rootProof ∈ rootProofs, ∀ element ∈ rootProof.elements,
    element.range.from ≤ element.range.to
  /-- Each ring element with its proof, against the root proof at the same place. -/
  proved : List.Forall₂ (fun entry rootProof => ProvedAgainst p.hasher entry.1 entry.2 rootProof)
    (tx.txPrefix.inputs.flatMap fun txIn => txIn.ring.zip txIn.proofs) rootProofs
  rings_masked : ∀ input ∈ tx.txPrefix.inputs, ∀ txOut ∈ input.ring, (p.maskedTokenId txOut).isSome
  outputs_masked : ∀ txOut ∈ tx.txPrefix.outputs, (p.maskedTokenId txOut).isSome
  signed : p.verifySignature blockVersion tx = .ok ()
  fee_paid : minimumFee ≤ tx.txPrefix.fee
  key_images_distinct : (p.keyImages tx.signature).Nodup
  output_keys_distinct : (tx.txPrefix.outputs.map p.publicKey).Nodup
  tombstone_ahead : currentBlockIndex.toNat < tx.txPrefix.tombstoneBlock.toNat
  tombstone_near :
    tx.txPrefix.tombstoneBlock.toNat ≤ currentBlockIndex.toNat + MAX_TOMBSTONE_BLOCKS.toNat
  limit_fits : currentBlockIndex.toNat + MAX_TOMBSTONE_BLOCKS.toNat ≤ U64.MAX
  outputs_fit_version : ∀ txOut ∈ tx.txPrefix.outputs,
    p.hasMemo txOut = blockVersion.eMemoFeatureIsSupported ∧
    (p.maskedTokenId txOut).map List.length =
      some (if blockVersion.maskedTokenIdFeatureIsSupported then TOKEN_ID_NUM_BYTES else 0)
  outputs_sorted : blockVersion.validateTransactionOutputsAreSorted = true →
    (tx.txPrefix.outputs.map p.publicKey).Pairwise (· < ·)
  rules_verified : blockVersion.signedInputRulesAreSupported = true →
    ∀ input ∈ tx.txPrefix.inputs, ∀ rules ∈ input.inputRules,
      p.verifyInputRules rules blockVersion tx = .ok ()
  no_rules : blockVersion.signedInputRulesAreSupported = false →
    ∀ input ∈ tx.txPrefix.inputs, input.inputRules = none

theorem validate_eq_ok_iff {p : Primitives α K H R Sig KI SE IE} {tx : Tx α H R Sig}
    {currentBlockIndex : UInt64} {blockVersion : BlockVersion}
    {rootProofs : List (TxOutMembershipProof H)} {minimumFee : UInt64} :
    validate p tx currentBlockIndex blockVersion rootProofs minimumFee = .ok () ↔
      Valid p tx currentBlockIndex blockVersion rootProofs minimumFee := by
  unfold validate
  simp only [bind_unit_ok_iff, throw_bind, ite_throw_eq_ok, UInt32.not_lt, validateNumberOfInputs,
    validateNumberOfOutputs, validateNumberOf_eq_ok, validateRingSizes_eq_ok,
    validateRingElementsAreUnique_eq_ok, validateRingElementsAreSorted_eq_ok,
    validateInputsAreSorted_eq_ok, validateMembershipProofs_eq_ok, validateSignature_eq_ok,
    validateTransactionFee_eq_ok, validateKeyImagesAreUnique_eq_ok,
    validateOutputsPublicKeysAreUnique_eq_ok, validateTombstone_eq_ok, forM_eq_ok_iff,
    validateTxOut_eq_ok, ite_bind_else_eq_ok, validateOutputsAreSorted_eq_ok]
  -- the input rules are verified from v3, and are not allowed before
  simp only [ite_eq_iff', validateAllInputRules_eq_ok, validateThatNoInputRulesExist_eq_ok,
    Bool.not_eq_true, valid_iff, and_assoc]

end Validate

end MobileCoin.Validation
