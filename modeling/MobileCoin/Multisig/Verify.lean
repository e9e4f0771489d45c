import MobileCoin.Multisig.SignerSet

/-!
# What `SignerSet::verify` accepts

The recursive M-of-N rule, stated over the signer set as written: a set is satisfied when its
distinct individual keys that signed and its distinct nested sets that are satisfied number at
least its threshold. `verify` accepts exactly the valid sets that satisfy the rule, for a
multi-signature of at most `MAX_SIGNATURES` signatures, and returns the keys that signed at
every satisfied level reached from the top through satisfied sets, sorted and each once.

The sorts and `dedup`s of `verify` are what make the count one of distinct keys and distinct
sets; the proof follows the recursion of `verify` down the nested sets.
-/

namespace MobileCoin.Multisig

namespace SignerSet

open Compare

variable {P S M : Type} [LinearOrder P] [DecidableEq S] (verifier : P → M → S → Bool)
  (asRef : S → List UInt8)

/-- Some signature of the multi-signature verifies under the key. -/
def signedBy (message : M) (multiSig : MultiSig S) (key : P) : Bool :=
  multiSig.signatures.any (verifier key message)

/-! ### The rule -/

section Rule

variable (signed : P → Bool)

mutual
/-- The M-of-N rule: the distinct keys that signed and the distinct nested sets that satisfy the
rule are at least `threshold`. -/
def sat : SignerSet P → Bool
  | ⟨individualSigners, multiSigners, threshold⟩ =>
    threshold.toNat ≤
      (individualSigners.dedup.filter signed).length + (satisfied multiSigners).dedup.length
/-- The sets of the list that satisfy the rule. -/
def satisfied : List (SignerSet P) → List (SignerSet P)
  | [] => []
  | signerSet :: rest => if sat signerSet then signerSet :: satisfied rest else satisfied rest
end

mutual
/-- The keys that signed at this level and at every satisfied nested set, reached through
satisfied sets. -/
def reachedKeys : SignerSet P → List P
  | ⟨individualSigners, multiSigners, _⟩ =>
    individualSigners.filter signed ++ reachedKeysOf multiSigners
def reachedKeysOf : List (SignerSet P) → List P
  | [] => []
  | signerSet :: rest =>
    (if sat signed signerSet then reachedKeys signerSet else []) ++ reachedKeysOf rest
end

theorem satisfied_eq_filter (signerSets : List (SignerSet P)) :
    satisfied signed signerSets = signerSets.filter (sat signed) := by
  induction signerSets with
  | nil => rw [satisfied, List.filter_nil]
  | cons signerSet rest ih => rw [satisfied, List.filter_cons, ih]

theorem mem_reachedKeysOf {key : P} (signerSets : List (SignerSet P)) :
    key ∈ reachedKeysOf signed signerSets ↔
      ∃ signerSet ∈ signerSets, sat signed signerSet = true ∧ key ∈ reachedKeys signed signerSet := by
  induction signerSets with
  | nil => simp [reachedKeysOf]
  | cons signerSet rest ih =>
    rw [reachedKeysOf, List.mem_append, ih]
    by_cases satisfies : sat signed signerSet = true <;> simp [satisfies]

end Rule

/-! ### The two loops of `verify` -/

omit [LinearOrder P] [DecidableEq S] in
theorem foldl_addIndividual (signatures : List S) (message : M) :
    ∀ (signers : List P) (acc : List P × ℕ),
      signers.foldl (addIndividual verifier signatures message) acc =
        (acc.1 ++ signers.filter (fun key => signatures.any (verifier key message)),
          acc.2 + (signers.filter fun key => signatures.any (verifier key message)).length)
  | [], acc => by simp
  | signer :: rest, acc => by
    rw [List.foldl_cons, foldl_addIndividual signatures message rest, List.filter_cons,
      addIndividual]
    by_cases signs : signatures.any (verifier signer message) = true
    · rw [if_pos signs, if_pos signs]
      simp only [List.append_assoc, List.singleton_append, List.length_cons, Prod.mk.injEq,
        true_and]
      omega
    · rw [if_neg signs, if_neg signs]

omit [LinearOrder P] in
theorem foldl_addNested {f : SignerSet P → Except SignatureError (List P)} {q : SignerSet P → Bool}
    {keys : SignerSet P → List P} :
    ∀ (signerSets : List (SignerSet P)), (∀ signerSet ∈ signerSets,
        f signerSet = if q signerSet then .ok (keys signerSet) else .error ⟨⟩) →
      ∀ acc : List P × ℕ,
      signerSets.foldl (fun acc signerSet => addNested acc (f signerSet)) acc =
        (acc.1 ++ ((signerSets.filter q).map keys).flatten, acc.2 + (signerSets.filter q).length)
  | [], _, acc => by simp
  | signerSet :: rest, accepts, acc => by
    rw [List.foldl_cons, foldl_addNested rest
      (fun other member => accepts other (List.mem_cons_of_mem _ member)), List.filter_cons,
      accepts signerSet List.mem_cons_self]
    by_cases satisfies : q signerSet = true
    · rw [if_pos satisfies, if_pos satisfies, addNested]
      simp only [List.map_cons, List.flatten_cons, List.append_assoc, List.length_cons,
        Prod.mk.injEq, true_and]
      omega
    · rw [if_neg satisfies, if_neg satisfies, addNested]

omit [LinearOrder P] in
theorem attach_foldl_addNested (f : SignerSet P → Except SignatureError (List P))
    (signerSets : List (SignerSet P)) (acc : List P × ℕ) :
    signerSets.attach.foldl (fun acc signerSet => addNested acc (f signerSet.1)) acc =
      signerSets.foldl (fun acc signerSet => addNested acc (f signerSet)) acc :=
  @List.foldl_attach _ _ signerSets (fun acc signerSet => addNested acc (f signerSet)) acc

/-! ### `verify` decides the rule -/

omit [LinearOrder P] in
theorem isValid_of_mem {signerSets : List (SignerSet P)} {signerSet : SignerSet P}
    (valid : allValid signerSets = true) (member : signerSet ∈ signerSets) :
    isValid signerSet = true := by
  induction signerSets with
  | nil => exact absurd member List.not_mem_nil
  | cons first rest ih =>
    rw [allValid, Bool.and_eq_true] at valid
    rcases List.mem_cons.mp member with same | later
    · exact same ▸ valid.1
    · exact ih valid.2 later

omit [LinearOrder P] in
theorem allValid_of_isValid {self : SignerSet P} (valid : isValid self = true) :
    allValid self.multiSigners = true := by
  obtain ⟨individualSigners, multiSigners, threshold⟩ := self
  rw [isValid, Bool.and_eq_true, Bool.and_eq_true] at valid
  exact valid.1.1

omit [LinearOrder P] in
theorem any_sortDedup_signatures (multiSig : MultiSig S) (message : M) (key : P) :
    (sortDedup (compareOn asRef) multiSig.signatures).any (verifier key message) =
      signedBy verifier message multiSig key := by
  rw [signedBy, Bool.eq_iff_iff, List.any_eq_true, List.any_eq_true]
  simp only [mem_sortDedup]

/-- The count of `verify` is the count of the rule: sorting and `dedup` leave the distinct keys
and the distinct sets. -/
theorem count_eq (signed : P → Bool) (individualSigners : List P)
    (multiSigners : List (SignerSet P)) :
    ((sortDedup compare individualSigners).filter signed).length +
        ((sortDedup cmp multiSigners).filter (sat signed)).length =
      (individualSigners.dedup.filter signed).length +
        (satisfied signed multiSigners).dedup.length := by
  have keys : ((sortDedup compare individualSigners).filter signed).length =
      (individualSigners.dedup.filter signed).length :=
    ((sortDedup_perm_dedup individualSigners).filter signed).length_eq
  have sets : ((sortDedup cmp multiSigners).filter (sat signed)).Perm
      (satisfied signed multiSigners).dedup := by
    refine (List.perm_ext_iff_of_nodup ((nodup_sortDedup _).filter _) (List.nodup_dedup _)).mpr
      fun signerSet => ?_
    rw [List.mem_filter, mem_sortDedup, List.mem_dedup, satisfied_eq_filter, List.mem_filter]
  rw [keys, sets.length_eq]

/-- `verify` returns, over a valid set and a short enough multi-signature, the keys reached
through the satisfied sets when the rule holds, and an error otherwise. -/
theorem verify_eq (message : M) (multiSig : MultiSig S) (self : SignerSet P) :
    self.verify verifier asRef message multiSig =
      if self.isValid && decide (multiSig.signatures.length ≤ MAX_SIGNATURES) &&
          self.sat (signedBy verifier message multiSig) then
        .ok (sortDedup compare (self.reachedKeys (signedBy verifier message multiSig)))
      else .error ⟨⟩ := by
  rw [verify]
  by_cases valid : self.isValid = true
  swap
  · simp [valid]
  by_cases short : multiSig.signatures.length ≤ MAX_SIGNATURES
  swap
  · simp [valid, short]
  -- each nested set is valid, so it answers by the rule
  have nested : ∀ signerSet ∈ sortDedup cmp self.multiSigners,
      signerSet.verify verifier asRef message multiSig =
        if signerSet.sat (signedBy verifier message multiSig) then
          .ok (sortDedup compare (signerSet.reachedKeys (signedBy verifier message multiSig)))
        else .error ⟨⟩ := by
    intro signerSet member
    rw [verify_eq message multiSig signerSet,
      isValid_of_mem (allValid_of_isValid valid) (mem_sortDedup.mp member)]
    simp [short]
  rw [if_neg (by simp [valid]), if_neg (Nat.not_lt.mpr short)]
  dsimp only
  rw [attach_foldl_addNested, foldl_addNested _ nested, foldl_addIndividual]
  simp only [any_sortDedup_signatures, List.nil_append, Nat.zero_add]
  obtain ⟨individualSigners, multiSigners, threshold⟩ := self
  -- the signers `verify` collects are the keys reached through satisfied sets
  have sameKeys : ∀ key,
      key ∈ (sortDedup compare individualSigners).filter (signedBy verifier message multiSig) ++
          (((sortDedup cmp multiSigners).filter (sat (signedBy verifier message multiSig))).map
            fun signerSet => sortDedup compare
              (reachedKeys (signedBy verifier message multiSig) signerSet)).flatten ↔
        key ∈ reachedKeys (signedBy verifier message multiSig) ⟨individualSigners, multiSigners, threshold⟩ := by
    intro key
    rw [reachedKeys, List.mem_append, List.mem_append, mem_reachedKeysOf]
    simp only [List.mem_filter, mem_sortDedup, List.mem_flatten, List.mem_map]
    refine or_congr Iff.rfl ⟨?_, ?_⟩
    · rintro ⟨_, ⟨signerSet, ⟨member, satisfies⟩, rfl⟩, reached⟩
      exact ⟨signerSet, member, satisfies, mem_sortDedup.mp reached⟩
    · rintro ⟨signerSet, member, satisfies, reached⟩
      exact ⟨_, ⟨signerSet, ⟨member, satisfies⟩, rfl⟩, mem_sortDedup.mpr reached⟩
  -- and they count as the rule counts
  have counted := count_eq (signedBy verifier message multiSig) individualSigners multiSigners
  rw [sortDedup_eq_of_mem_iff sameKeys, sat]
  dsimp only
  rw [counted]
  simp only [valid, short, decide_true, Bool.true_and, decide_eq_true_eq]
  split_ifs with fewer enough enough
  · exact absurd enough (Nat.not_le.mpr fewer)
  · rfl
  · rfl
  · exact absurd (Nat.not_lt.mp fewer) enough
termination_by sizeOf self
decreasing_by
  have smaller := List.sizeOf_lt_of_mem (mem_sortDedup.mp member)
  obtain ⟨individualSigners, multiSigners, threshold⟩ := self
  simp only [SignerSet.mk.sizeOf_spec] at smaller ⊢
  omega

/-! ### The rule for a flat set -/

omit [LinearOrder P] [DecidableEq S] in
theorem signedBy_append_of_mem (message : M) (multiSig : MultiSig S) {signature : S}
    (repeated : signature ∈ multiSig.signatures) :
    signedBy verifier message ⟨multiSig.signatures ++ [signature]⟩ =
      signedBy verifier message multiSig := by
  funext key
  rw [signedBy, signedBy, List.any_append, List.any_cons, List.any_nil, Bool.or_false]
  by_cases verifies : verifier key message signature = true
  · rw [verifies, Bool.or_true, eq_comm, List.any_eq_true]
    exact ⟨signature, repeated, verifies⟩
  · rw [Bool.not_eq_true] at verifies
    rw [verifies, Bool.or_false]

/-- A set without nested sets accepts when its threshold is positive, the multi-signature is
short enough, and as many distinct keys signed; its threshold within its signers follows. -/
theorem verify_flat (message : M) (multiSig : MultiSig S) (individualSigners : List P)
    (threshold : UInt32) :
    verify verifier asRef message multiSig ⟨individualSigners, [], threshold⟩ =
      if 0 < threshold ∧ multiSig.signatures.length ≤ MAX_SIGNATURES ∧
          threshold.toNat ≤
            (individualSigners.dedup.filter (signedBy verifier message multiSig)).length then
        .ok (sortDedup compare (individualSigners.filter (signedBy verifier message multiSig)))
      else .error ⟨⟩ := by
  have fewer : (individualSigners.dedup.filter (signedBy verifier message multiSig)).length ≤
      individualSigners.length :=
    (List.filter_sublist.trans (List.dedup_sublist _)).length_le
  rw [verify_eq, isValid, sat, reachedKeys, reachedKeysOf, satisfied, List.append_nil]
  simp only [allValid, numSigners, List.length_nil, Nat.add_zero, List.dedup_nil,
    Bool.true_and, Bool.and_eq_true, decide_eq_true_eq]
  -- the threshold within the signers follows from the count
  refine if_congr ⟨?_, ?_⟩ rfl rfl
  · rintro ⟨⟨⟨positive, -⟩, short⟩, enough⟩
    exact ⟨positive, short, of_decide_eq_true enough⟩
  · rintro ⟨positive, short, enough⟩
    exact ⟨⟨⟨positive, decide_eq_true (le_trans enough fewer)⟩, short⟩, decide_eq_true enough⟩

/-- `verify` implements the recursive M-of-N rule, and returns the keys reached through the
satisfied sets, sorted and each once; for a flat set, repeating a key or a signature does not
count twice. -/
theorem verify_iff_rule (message : M) (multiSig : MultiSig S) (self : SignerSet P) :
    ((∃ keys, self.verify verifier asRef message multiSig = .ok keys) ↔
        self.isValid = true ∧ multiSig.signatures.length ≤ MAX_SIGNATURES ∧
          self.sat (signedBy verifier message multiSig) = true) ∧
      (∀ keys, self.verify verifier asRef message multiSig = .ok keys →
        keys.Pairwise (· < ·) ∧
          ∀ key, key ∈ keys ↔ key ∈ self.reachedKeys (signedBy verifier message multiSig)) ∧
      (∀ (individualSigners : List P) (threshold : UInt32) (key : P), key ∈ individualSigners →
        verify verifier asRef message multiSig ⟨individualSigners ++ [key], [], threshold⟩ =
          verify verifier asRef message multiSig ⟨individualSigners, [], threshold⟩) ∧
      ∀ (individualSigners : List P) (threshold : UInt32) (signature : S) (keys : List P),
        signature ∈ multiSig.signatures →
        verify verifier asRef message ⟨multiSig.signatures ++ [signature]⟩
            ⟨individualSigners, [], threshold⟩ = .ok keys →
          verify verifier asRef message multiSig ⟨individualSigners, [], threshold⟩ = .ok keys := by
  refine ⟨?_, fun keys accepted => ?_, fun individualSigners threshold key repeated => ?_,
    fun individualSigners threshold signature keys repeated accepted => ?_⟩
  · rw [verify_eq]
    by_cases holds : (self.isValid && decide (multiSig.signatures.length ≤ MAX_SIGNATURES) &&
        self.sat (signedBy verifier message multiSig)) = true
    · rw [if_pos holds]
      simp only [Bool.and_eq_true, decide_eq_true_eq] at holds
      exact iff_of_true ⟨_, rfl⟩ ⟨holds.1.1, holds.1.2, holds.2⟩
    · rw [if_neg holds]
      refine iff_of_false (fun ⟨_, failed⟩ => nomatch failed) fun ⟨valid, short, satisfies⟩ => ?_
      exact holds (by simp [valid, short, satisfies])
  · -- the keys are sorted without repeats, and are the keys reached
    rw [verify_eq] at accepted
    split at accepted
    · cases accepted
      refine ⟨(pairwise_sortDedup _).imp fun ordered => compare_lt_iff_lt.mp ordered,
        fun key => mem_sortDedup⟩
    · cases accepted
  · -- a repeated key adds nothing to the distinct keys that signed
    have sameDistinct : ((individualSigners ++ [key]).dedup.filter
        (signedBy verifier message multiSig)).length =
        (individualSigners.dedup.filter (signedBy verifier message multiSig)).length := by
      refine ((List.perm_ext_iff_of_nodup (List.nodup_dedup _) (List.nodup_dedup _)).mpr
        fun other => ?_).filter _ |>.length_eq
      rw [List.mem_dedup, List.mem_dedup, List.mem_append, List.mem_singleton]
      constructor
      · rintro (member | same)
        · exact member
        · exact same ▸ repeated
      · exact .inl
    have sameKeys : sortDedup compare ((individualSigners ++ [key]).filter
        (signedBy verifier message multiSig)) =
        sortDedup compare (individualSigners.filter (signedBy verifier message multiSig)) := by
      refine sortDedup_eq_of_mem_iff fun other => ?_
      rw [List.mem_filter, List.mem_filter, List.mem_append, List.mem_singleton]
      constructor
      · rintro ⟨member | same, signs⟩
        · exact ⟨member, signs⟩
        · exact ⟨same ▸ repeated, signs⟩
      · rintro ⟨member, signs⟩
        exact ⟨.inl member, signs⟩
    rw [verify_flat, verify_flat, sameDistinct, sameKeys]
  · -- a repeated signature changes no key's verdict, and only lengthens the list
    rw [verify_flat, signedBy_append_of_mem verifier message multiSig repeated] at accepted
    rw [verify_flat]
    split at accepted
    · next holds =>
      obtain ⟨positive, short, enough⟩ := holds
      rw [List.length_append, List.length_singleton] at short
      rw [if_pos ⟨positive, by omega, enough⟩]
      exact accepted
    · cases accepted

end SignerSet

end MobileCoin.Multisig
