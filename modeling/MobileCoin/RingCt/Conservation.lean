import Mathlib
import MobileCoin.Lib.Pedersen
import MobileCoin.RingCt.Verify

/-!
# RingCT signatures conserve value

In the algebraic model the points are the free module over `ℤ/ℓ` on the blinding generator `G`
and one generator `H t` per token, a range proof accepts only commitments `v • H t + b • G` with
`v < 2 ^ 64` under the generators of `t`, and a ring signature only a pseudo-output that differs
from the commitment of one of the ring's members by a multiple of `G`. A successful `verify`
then conserves every token: the ring members the pseudo-outputs stand for hold as much of each
token as the outputs and the fee together.

`verify` range-checks every commitment under the token it declares, and the fee commitment has
no blinding; the summed identity of the balance check therefore splits into one identity per
token, and the bound on the number of commitments keeps both sides of each below `ℓ`.
-/

namespace MobileCoin.RingCt

open Pedersen

variable {T P RP KI Z K Dg X : Type}

/-! ### The token each commitment declares -/

/-- The token each of `commitments` declares: its entry of `tokenIds` from v3, the fee token
before. -/
def declaredTokens (blockVersion : BlockVersion) (fee : Amount T) (commitments : List P)
    (tokenIds : List T) : List T :=
  if blockVersion.mixedTransactionsAreSupported then tokenIds
  else List.replicate commitments.length fee.tokenId

/-- The pseudo-output and the output commitments, each with the token it declares. -/
def declaredCommitments (blockVersion : BlockVersion) (fee : Amount T)
    (sig : SignatureRctBulletproofs T P KI Z) (outputCommitments : List P) : List (P × T) :=
  sig.pseudoOutputCommitments.zip
      (declaredTokens blockVersion fee sig.pseudoOutputCommitments sig.pseudoOutputTokenIds) ++
    outputCommitments.zip (declaredTokens blockVersion fee outputCommitments sig.outputTokenIds)

theorem exists_mem_zip_of_mem {α β : Type} {l : List α} {l' : List β} {a : α}
    (same : l.length = l'.length) (member : a ∈ l) : ∃ b, (a, b) ∈ l.zip l' := by
  obtain ⟨i, below, rfl⟩ := List.mem_iff_getElem.mp member
  have below' : i < l'.length := same ▸ below
  refine ⟨l'[i], List.mem_iff_getElem.mpr ⟨i, by simp [below, below'], ?_⟩⟩
  simp

theorem zipExact_eq_ok {α β : Type} {l : List α} {l' : List β} {pairs : List (α × β)} :
    (zipExact l l' : Except (Error T) _) = .ok pairs ↔ l.length = l'.length ∧ pairs = l.zip l' := by
  unfold zipExact
  split_ifs with same <;> simp [same, eq_comm]

/-! ### What a successful `verify` checked -/

section Checks

variable {sig : SignatureRctBulletproofs T P KI Z} {blockVersion : BlockVersion}
  {rings : List (SignedInputRing K P Dg)} {outputCommitments : List P} {fee : Amount T}

/-- The lengths the shape checks of `verify` establish. -/
structure Shaped (sig : SignatureRctBulletproofs T P KI Z) (blockVersion : BlockVersion)
    (rings : List (SignedInputRing K P Dg)) (outputCommitments : List P) : Prop where
  ringSignatures : rings.length = sig.ringSignatures.length
  pseudoOutputs : rings.length = sig.pseudoOutputCommitments.length
  pseudoOutputTokenIds : blockVersion.mixedTransactionsAreSupported = true →
    sig.pseudoOutputCommitments.length = sig.pseudoOutputTokenIds.length
  outputTokenIds : blockVersion.mixedTransactionsAreSupported = true →
    outputCommitments.length = sig.outputTokenIds.length

theorem Shaped.declaredTokens_length (shaped : Shaped sig blockVersion rings outputCommitments) :
    sig.pseudoOutputCommitments.length ≤
        (declaredTokens blockVersion fee sig.pseudoOutputCommitments sig.pseudoOutputTokenIds).length ∧
      outputCommitments.length ≤
        (declaredTokens blockVersion fee outputCommitments sig.outputTokenIds).length := by
  unfold declaredTokens
  cases mixed : blockVersion.mixedTransactionsAreSupported with
  | false => simp
  | true =>
    simp only [if_true]
    exact ⟨(shaped.pseudoOutputTokenIds mixed).le, (shaped.outputTokenIds mixed).le⟩

variable [LinearOrder T]

theorem checkTokenRangeProof_covers {c : Crypto T P RP KI Z K Dg X} {tokenId : T}
    {rangeProof : List UInt8}
    (ok : checkTokenRangeProof c sig outputCommitments (tokenId, rangeProof) = .ok ()) :
    ∃ proof commitments,
      (∀ x, (x, tokenId) ∈ sig.pseudoOutputCommitments.zip sig.pseudoOutputTokenIds ++
        outputCommitments.zip sig.outputTokenIds → x ∈ commitments) ∧
      c.checkRangeProofs proof commitments (c.generator tokenId) = .ok () := by
  unfold checkTokenRangeProof at ok
  obtain ⟨pseudoOutputs, pseudoZipped, ok⟩ := bind_ok ok
  obtain ⟨outputs, outputsZipped, ok⟩ := bind_ok ok
  rw [zipExact_eq_ok] at pseudoZipped outputsZipped
  simp only [throw_bind, ite_throw_eq_ok] at ok
  obtain ⟨-, ok⟩ := ok
  obtain ⟨proof, -, checked⟩ := bind_ok ok
  refine ⟨proof, _, fun x declared => ?_, checked⟩
  rw [pseudoZipped.2, outputsZipped.2]
  exact List.mem_filterMap.mpr ⟨(x, tokenId), declared, by simp⟩

/-- Every commitment `verify` range-checks is checked under the generator of the token it
declares. -/
theorem checkRangeProofsOf_covers {c : Crypto T P RP KI Z K Dg X}
    (ok : checkRangeProofsOf c sig blockVersion outputCommitments fee = .ok ()) :
    ∀ p ∈ declaredCommitments blockVersion fee sig outputCommitments,
      ∃ proof commitments, p.1 ∈ commitments ∧
        c.checkRangeProofs proof commitments (c.generator p.2) = .ok () := by
  rintro ⟨x, t⟩ declared
  unfold checkRangeProofsOf at ok
  unfold declaredCommitments declaredTokens at declared
  cases mixed : blockVersion.mixedTransactionsAreSupported with
  | false =>
    -- one range proof under the fee token's generator covers every commitment
    simp only [mixed, Bool.not_false, if_true, Bool.false_eq_true, if_false] at ok declared
    simp only [throw_bind, ite_throw_eq_ok] at ok
    obtain ⟨-, ok⟩ := ok
    obtain ⟨proof, -, checked⟩ := bind_ok ok
    have inOne : x ∈ sig.pseudoOutputCommitments ++ outputCommitments ∧ t = fee.tokenId := by
      rcases List.mem_append.mp declared with pseudo | output
      · exact ⟨List.mem_append_left _ (List.of_mem_zip pseudo).1,
          List.eq_of_mem_replicate (List.of_mem_zip pseudo).2⟩
      · exact ⟨List.mem_append_right _ (List.of_mem_zip output).1,
          List.eq_of_mem_replicate (List.of_mem_zip output).2⟩
    rw [inOne.2]
    exact ⟨proof, _, inOne.1, checked⟩
  | true =>
    -- the token is used, so one iteration of the loop checks its commitments
    simp only [mixed, Bool.not_true, if_true, Bool.false_eq_true, if_false] at ok declared
    simp only [throw_bind, ite_throw_eq_ok] at ok
    obtain ⟨-, -, ok⟩ := ok
    obtain ⟨pairs, zipped, loop⟩ := bind_ok ok
    obtain ⟨sameLength, rfl⟩ := zipExact_eq_ok.mp zipped
    have used : t ∈ tokenIds fee sig := by
      rw [tokenIds, List.mem_insertionSort, List.mem_dedup, List.cons_append, List.mem_cons,
        List.mem_append]
      rcases List.mem_append.mp declared with pseudo | output
      · exact .inr (.inr (List.of_mem_zip pseudo).2)
      · exact .inr (.inl (List.of_mem_zip output).2)
    obtain ⟨rangeProof, paired⟩ := exists_mem_zip_of_mem sameLength used
    obtain ⟨proof, commitments, covered, checked⟩ :=
      checkTokenRangeProof_covers (forM_ok loop _ paired)
    exact ⟨proof, commitments, covered x declared, checked⟩

variable [Zero T] [DecidableEq KI]

theorem checkShape_shaped (ok : checkShape sig blockVersion rings outputCommitments fee = .ok ()) :
    Shaped sig blockVersion rings outputCommitments := by
  unfold checkShape at ok
  simp only [throw_bind, ite_throw_eq_ok, ne_eq, Decidable.not_not] at ok
  obtain ⟨-, -, ringSignatures, pseudoOutputs, rest⟩ := ok
  refine ⟨ringSignatures, pseudoOutputs, fun mixed => ?_, fun mixed => ?_⟩
  · rw [if_pos mixed] at rest
    simp only [ite_throw_eq_ok, Decidable.not_not] at rest
    exact rest.1
  · rw [if_pos mixed] at rest
    simp only [ite_throw_eq_ok, Decidable.not_not] at rest
    exact rest.2.1

theorem verify_eq_ok [CommRing Z] [AddCommGroup P] [Module Z P] [DecidableEq P]
    {c : Crypto T P RP KI Z K Dg X} {txPrefix : X}
    (verified : verify c sig blockVersion txPrefix rings outputCommitments fee = .ok ()) :
    checkShape sig blockVersion rings outputCommitments fee = .ok () ∧
      checkRangeProofsOf c sig blockVersion outputCommitments fee = .ok () ∧
      outputCommitments.sum + (c.generator fee.tokenId).commit (fee.value.toNat : Z) (feeBlinding : Z) -
        sig.pseudoOutputCommitments.sum = 0 ∧
      ∃ digest, ∀ p ∈ rings.zip (sig.ringSignatures.zip sig.pseudoOutputCommitments),
        c.verifyRing p.2.1 (p.1.signedDigest.getD digest) p.1.members p.2.2 = .ok () := by
  unfold verify at verified
  obtain ⟨shape, verified⟩ := bind_unit_ok_iff.mp verified
  obtain ⟨ranges, verified⟩ := bind_unit_ok_iff.mp verified
  simp only [throw_bind, ite_throw_eq_ok, ne_eq, Decidable.not_not] at verified
  obtain ⟨balanced, verified⟩ := verified
  obtain ⟨digest, -, signed⟩ := bind_ok verified
  exact ⟨shape, ranges, balanced, digest, fun p member => forM_ok signed p member⟩

end Checks

/-! ### The algebraic model -/

/-- The order `ℓ` of the Ristretto group. -/
def groupOrder : ℕ := 2 ^ 252 + 27742317777372353535851937790883648493

instance : Fact (1 < groupOrder) := ⟨by decide⟩

theorem two_pow_192_lt_groupOrder : 2 ^ 192 < groupOrder := by
  decide

abbrev Scalar := ZMod groupOrder

/-- A point of the algebraic model: its coefficients at `G` (`none`) and at each `H t`. -/
abbrev Point (T : Type) := Option T → Scalar

/-- The primitives of `verify` in the algebraic model: the generators of token `t` are `H t`
and `G`, a range proof accepts only commitments to values below `2 ^ 64` under the generators
of a token, and a ring signature only a pseudo-output that differs from the commitment of one
of the ring's members by a multiple of `G`. -/
structure AlgebraicCrypto (T RP KI K Dg X : Type) [DecidableEq T] extends
    Crypto T (Point T) RP KI Scalar K Dg X where
  generator_eq : ∀ t, generator t = ⟨base t, blindingBase⟩
  rangeSound : ∀ proof commitments t,
    checkRangeProofs proof commitments ⟨base t, blindingBase⟩ = .ok () →
      ∀ x ∈ commitments, InRange (2 ^ 64) t x
  ringSound : ∀ ringSignature digest members pseudoOutput,
    verifyRing ringSignature digest members pseudoOutput = .ok () →
      ∃ member ∈ members, ∃ k : Scalar, pseudoOutput - member.commitment = k • blindingBase

section Exact

variable [DecidableEq T]

theorem base_injective {t t' : T} (same : (base t : Point T) = base t') : t = t' := by
  have atT := congrFun same (some t)
  rw [base_some, base_some, if_pos rfl] at atT
  by_contra differ
  rw [if_neg differ] at atT
  exact one_ne_zero atT

variable [Fintype T]

/-- The range check that accepts exactly the lists of commitments, under the generators of one
token, to values below `2 ^ 64`. -/
def exactRangeCheck (commitments : List (Point T)) (generators : PedersenGens (Point T)) :
    Except (Error T) Unit :=
  if ∃ t, generators.B = base t ∧ generators.bBlinding = blindingBase ∧
      commitments.all fun x => decide ((∀ t', t' ≠ t → x (some t') = 0) ∧ (x (some t)).val < 2 ^ 64)
  then .ok () else .error (.rangeProof "range proof verification failed")

/-- The ring check that accepts a pseudo-output exactly when it differs from the commitment of a
ring member in the blinding only. -/
def exactRingCheck (members : List (ReducedTxOut K (Point T))) (pseudoOutput : Point T) :
    Except (Error T) Unit :=
  if members.any fun member => decide (∀ t, (pseudoOutput - member.commitment) (some t) = 0)
  then .ok () else .error (.ringSignature "invalid signature")

theorem exactRangeCheck_sound {commitments : List (Point T)} {t : T}
    (accepted : exactRangeCheck commitments ⟨base t, blindingBase⟩ = .ok ()) :
    ∀ x ∈ commitments, InRange (2 ^ 64) t x := by
  unfold exactRangeCheck at accepted
  split_ifs at accepted with found
  obtain ⟨t', sameBase, -, each⟩ := found
  rw [base_injective sameBase] at *
  intro x member
  obtain ⟨others, below⟩ := of_decide_eq_true (List.all_eq_true.mp each x member)
  refine ⟨(x (some t')).val, below, x none, funext fun o => ?_⟩
  cases o with
  | none => rw [commit_none]
  | some t'' =>
    rw [commit_some]
    by_cases same : t'' = t'
    · rw [if_pos same, same, ZMod.natCast_zmod_val]
    · rw [if_neg same, others t'' same]

theorem exactRingCheck_sound {members : List (ReducedTxOut K (Point T))} {pseudoOutput : Point T}
    (accepted : exactRingCheck members pseudoOutput = .ok ()) :
    ∃ member ∈ members, ∃ k : Scalar, pseudoOutput - member.commitment = k • blindingBase := by
  unfold exactRingCheck at accepted
  split_ifs at accepted with found
  obtain ⟨member, inRing, blindingOnly⟩ := List.any_eq_true.mp found
  refine ⟨member, inRing, (pseudoOutput - member.commitment) none, funext fun o => ?_⟩
  cases o with
  | none => simp [blindingBase]
  | some t => simpa using of_decide_eq_true blindingOnly t

/-- The algebraic model with the exact range and ring checks; every transaction and message
digest are accepted as they come. -/
def exactCrypto (KI X : Type) : AlgebraicCrypto T Unit KI K Unit X where
  generator t := ⟨base t, blindingBase⟩
  rangeProofFromBytes _ := some ()
  checkRangeProofs _ := exactRangeCheck
  mlsagSigningDigest _ _ _ _ _ := .ok ()
  verifyRing _ _ := exactRingCheck
  generator_eq _ := rfl
  rangeSound _ _ _ accepted := exactRangeCheck_sound accepted
  ringSound _ _ _ _ accepted := exactRingCheck_sound accepted

end Exact

section Conservation

variable [LinearOrder T]

/-- A ring member for each pseudo-output: one of its ring's members, in the blinding only apart
from the pseudo-output. -/
theorem AlgebraicCrypto.exists_matched (crypto : AlgebraicCrypto T RP KI K Dg X) {digest : Dg}
    {rings : List (SignedInputRing K (Point T) Dg)} :
    ∀ {ringSignatures : List (RingMLSAG KI Scalar)} {pseudoOutputs : List (Point T)},
      rings.length = ringSignatures.length → rings.length = pseudoOutputs.length →
      (∀ p ∈ rings.zip (ringSignatures.zip pseudoOutputs),
        crypto.verifyRing p.2.1 (p.1.signedDigest.getD digest) p.1.members p.2.2 = .ok ()) →
      ∃ matched : List (ReducedTxOut K (Point T)),
        List.Forall₂ (fun member ring => member ∈ ring.members) matched rings ∧
        List.Forall₂ (fun member pseudoOutput =>
          ∃ k : Scalar, pseudoOutput - member.commitment = k • blindingBase) matched pseudoOutputs := by
  induction rings with
  | nil =>
    intro ringSignatures pseudoOutputs _ samePseudo _
    rw [List.length_nil, eq_comm, List.length_eq_zero_iff] at samePseudo
    exact ⟨[], .nil, samePseudo ▸ .nil⟩
  | cons ring rings ih =>
    intro ringSignatures pseudoOutputs sameSigs samePseudo signed
    cases ringSignatures with
    | nil => cases sameSigs
    | cons ringSignature ringSignatures =>
      cases pseudoOutputs with
      | nil => cases samePseudo
      | cons pseudoOutput pseudoOutputs =>
        obtain ⟨member, inRing, k, differ⟩ :=
          crypto.ringSound _ _ _ _ (signed _ List.mem_cons_self)
        obtain ⟨matched, rest, restDiffer⟩ := ih (Nat.succ.inj sameSigs)
          (Nat.succ.inj samePseudo) fun p member => signed p (List.mem_cons_of_mem _ member)
        exact ⟨member :: matched, .cons inRing rest, .cons ⟨k, differ⟩ restDiffer⟩

/-- The balance identity at `H t`, as natural numbers: the values of token `t` the
pseudo-outputs declare are those the outputs declare plus the fee's. -/
theorem declaredValue_balance {pseudoOutputs outputs : List (Point T)}
    {pseudoTokens outputTokens : List T} {fee : Amount T}
    (pseudoLength : pseudoOutputs.length ≤ pseudoTokens.length)
    (outputLength : outputs.length ≤ outputTokens.length)
    (inRange : ∀ p ∈ pseudoOutputs.zip pseudoTokens ++ outputs.zip outputTokens,
      InRange (2 ^ 64) p.2 p.1)
    (few : pseudoOutputs.length + outputs.length < 2 ^ 128)
    (balanced : outputs.sum + (⟨base fee.tokenId, blindingBase⟩ : PedersenGens (Point T)).commit
      (fee.value.toNat : Scalar) (feeBlinding : Scalar) - pseudoOutputs.sum = 0) (t : T) :
    declaredValue t (pseudoOutputs.zip pseudoTokens) =
      declaredValue t (outputs.zip outputTokens) + if t = fee.tokenId then fee.value.toNat else 0 := by
  have fits : 2 ^ 64 ≤ groupOrder := le_of_lt (lt_trans (by decide) two_pow_192_lt_groupOrder)
  have pseudoInRange : ∀ p ∈ pseudoOutputs.zip pseudoTokens, InRange (2 ^ 64) p.2 p.1 :=
    fun p member => inRange p (List.mem_append_left _ member)
  have outputInRange : ∀ p ∈ outputs.zip outputTokens, InRange (2 ^ 64) p.2 p.1 :=
    fun p member => inRange p (List.mem_append_right _ member)
  -- the balance identity read at `H t`
  have atT := congrFun balanced (some t)
  have pseudoSum := sum_some_eq_declaredValue fits t pseudoInRange
  have outputSum := sum_some_eq_declaredValue fits t outputInRange
  rw [List.map_fst_zip pseudoLength] at pseudoSum
  rw [List.map_fst_zip outputLength] at outputSum
  have feeAt : (PedersenGens.commit (⟨base fee.tokenId, blindingBase⟩ : PedersenGens (Point T))
      (fee.value.toNat : Scalar) (feeBlinding : Scalar)) (some t) =
        ((if t = fee.tokenId then fee.value.toNat else 0 : ℕ) : Scalar) := by
    by_cases same : t = fee.tokenId <;> simp [PedersenGens.commit, feeBlinding, same]
  simp only [Pi.sub_apply, Pi.add_apply, Pi.zero_apply, pseudoSum, outputSum, feeAt,
    sub_eq_zero, ← Nat.cast_add] at atT
  -- both sides stay below `ℓ`
  have pseudoBound := declaredValue_le fits t pseudoInRange
  have outputBound := declaredValue_le fits t outputInRange
  have feeBound : (if t = fee.tokenId then fee.value.toNat else 0) < 2 ^ 64 := by
    split_ifs
    · exact fee.value.toNat_lt
    · exact Nat.two_pow_pos 64
  rw [List.length_zip] at pseudoBound outputBound
  have pseudoBound' : declaredValue t (pseudoOutputs.zip pseudoTokens) ≤
      pseudoOutputs.length * 2 ^ 64 :=
    le_trans pseudoBound (Nat.mul_le_mul_right _ (Nat.min_le_left _ _))
  have outputBound' : declaredValue t (outputs.zip outputTokens) ≤ outputs.length * 2 ^ 64 :=
    le_trans outputBound (Nat.mul_le_mul_right _ (Nat.min_le_left _ _))
  have order := two_pow_192_lt_groupOrder
  simp only [Nat.reducePow] at pseudoBound' outputBound' feeBound few order
  exact (natCast_inj_of_lt (by omega) (by omega) atT).symm

variable [Zero T] [Fintype T] [DecidableEq KI]

/-- A RingCT signature that verifies conserves every token, in the algebraic model. Each
pseudo-output stands for a member of its ring, whose commitment it equals up to blinding; of
every token, those members hold what the outputs hold plus the fee. -/
theorem verify_conserves_value (crypto : AlgebraicCrypto T RP KI K Dg X)
    (sig : SignatureRctBulletproofs T (Point T) KI Scalar) (blockVersion : BlockVersion)
    (txPrefix : X) (rings : List (SignedInputRing K (Point T) Dg))
    (outputCommitments : List (Point T)) (fee : Amount T)
    (few : sig.pseudoOutputCommitments.length + outputCommitments.length < 2 ^ 128)
    (verified :
      verify crypto.toCrypto sig blockVersion txPrefix rings outputCommitments fee = .ok ()) :
    ∃ matched : List (ReducedTxOut K (Point T)),
      List.Forall₂ (fun member ring => member ∈ ring.members) matched rings ∧
      List.Forall₂ (fun member pseudoOutput =>
        ∃ k : Scalar, pseudoOutput - member.commitment = k • blindingBase)
        matched sig.pseudoOutputCommitments ∧
      ∀ t, declaredValue t ((matched.map (·.commitment)).zip
          (declaredTokens blockVersion fee sig.pseudoOutputCommitments sig.pseudoOutputTokenIds)) =
        declaredValue t (outputCommitments.zip
          (declaredTokens blockVersion fee outputCommitments sig.outputTokenIds)) +
        if t = fee.tokenId then fee.value.toNat else 0 := by
  obtain ⟨shapeOk, rangesOk, balanced, digest, signed⟩ := verify_eq_ok verified
  have shaped := checkShape_shaped shapeOk
  -- every commitment is in range under the token it declares
  have inRange : ∀ p ∈ declaredCommitments blockVersion fee sig outputCommitments,
      InRange (2 ^ 64) p.2 p.1 := by
    intro p declared
    obtain ⟨proof, commitments, member, checked⟩ := checkRangeProofsOf_covers rangesOk p declared
    rw [crypto.generator_eq] at checked
    exact crypto.rangeSound proof commitments p.2 checked p.1 member
  obtain ⟨matched, inRings, differ⟩ :=
    crypto.exists_matched shaped.ringSignatures shaped.pseudoOutputs signed
  refine ⟨matched, inRings, differ, fun t => ?_⟩
  -- the matched members commit to what their pseudo-outputs commit to
  have sameValues : List.Forall₂ (fun x y => x (some t) = y (some t))
      (matched.map (·.commitment)) sig.pseudoOutputCommitments := by
    rw [List.forall₂_map_left_iff]
    exact differ.imp fun _ _ ⟨_, blindingOnly⟩ => (some_eq_of_sub_eq_smul blindingOnly t).symm
  rw [declaredValue_congr t sameValues]
  rw [crypto.generator_eq] at balanced
  exact declaredValue_balance shaped.declaredTokens_length.1 shaped.declaredTokens_length.2
    inRange few balanced t

theorem verify_conserves_value_one_ring :
    ∃ matched : List (ReducedTxOut Unit (Point (Fin 2))),
      List.Forall₂ (fun member ring => member ∈ ring.members) matched
        [(⟨[⟨(), (), commit 0 5 8⟩], none⟩ : SignedInputRing Unit (Point (Fin 2)) Unit)] ∧
      List.Forall₂ (fun member pseudoOutput =>
        ∃ k : Scalar, pseudoOutput - member.commitment = k • blindingBase) matched [commit 0 5 3] ∧
      ∀ t : Fin 2, declaredValue t ((matched.map (·.commitment)).zip [0]) =
        declaredValue t (([commit 0 4 3] : List (Point (Fin 2))).zip [0]) +
          if t = 0 then 1 else 0 :=
  verify_conserves_value (exactCrypto ℕ Unit)
    ⟨[⟨0, [], 7⟩], [commit 0 5 3], [], [[]], [0], [0]⟩ ⟨3⟩ () [⟨[⟨(), (), commit 0 5 8⟩], none⟩]
    [commit 0 4 3] ⟨1, 0⟩ (by decide) (by decide)

end Conservation

end MobileCoin.RingCt
