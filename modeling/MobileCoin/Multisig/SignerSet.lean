import MobileCoin.Lib.Compare

/-!
# Signer sets

`mc_crypto_multisig`: a signer set holds individual public keys and nested signer sets, with a
threshold, and `SignerSet::verify` accepts a multi-signature when at least `threshold` of its
members signed. A key signed when some signature of the multi-signature verifies under it; a
nested set signed when it accepts the same multi-signature.

The derived `Ord` of `SignerSet` compares the individual signers, then the nested sets, then
the threshold. It is a total order, `eq` exactly on equal sets, so `sort` then `dedup` keeps
each nested set once. Whether a signature verifies under a key is the parameter `verifier`;
signatures are sorted by their bytes `asRef`.
-/

namespace MobileCoin.Multisig

open Compare

def MAX_SIGNATURES : ℕ := 10

structure MultiSig (S : Type) where
  signatures : List S

structure SignerSet (P : Type) where
  individualSigners : List P
  multiSigners : List (SignerSet P)
  threshold : UInt32

structure SignatureError where
  deriving DecidableEq, Repr

namespace SignerSet

variable {P : Type}

def numSigners (self : SignerSet P) : ℕ := self.individualSigners.length + self.multiSigners.length

mutual
/-- `SignerSet::is_valid`: every nested set is valid, and `0 < threshold <= num_signers()`. -/
def isValid : SignerSet P → Bool
  | self@⟨_, multiSigners, threshold⟩ =>
    allValid multiSigners && 0 < threshold && threshold.toNat ≤ self.numSigners
def allValid : List (SignerSet P) → Bool
  | [] => true
  | signerSet :: rest => isValid signerSet && allValid rest
end

/-! ### The derived order -/

variable [LinearOrder P]

mutual
/-- The derived `Ord for SignerSet`: the individual signers, then the nested sets, then the
threshold. -/
def cmp : SignerSet P → SignerSet P → Ordering
  | ⟨individualSigners, multiSigners, threshold⟩, ⟨individualSigners', multiSigners', threshold'⟩ =>
    (compare individualSigners individualSigners').then
      ((cmpList multiSigners multiSigners').then (compare threshold threshold'))
def cmpList : List (SignerSet P) → List (SignerSet P) → Ordering
  | [], [] => .eq
  | [], _ :: _ => .lt
  | _ :: _, [] => .gt
  | a :: as, b :: bs => (cmp a b).then (cmpList as bs)
end

mutual
theorem cmp_self : ∀ a : SignerSet P, cmp a a = .eq
  | ⟨individualSigners, multiSigners, threshold⟩ => by
    rw [cmp, cmpList_self multiSigners,
      show compare individualSigners individualSigners = .eq from Std.ReflCmp.compare_self,
      show compare threshold threshold = .eq from Std.ReflCmp.compare_self]
    rfl
theorem cmpList_self : ∀ as : List (SignerSet P), cmpList as as = .eq
  | [] => by rw [cmpList]
  | a :: as => by rw [cmpList, cmp_self a, cmpList_self as, Ordering.eq_then]
end

mutual
theorem eq_of_cmp : ∀ a b : SignerSet P, cmp a b = .eq → a = b
  | ⟨individualSigners, multiSigners, threshold⟩, ⟨individualSigners', multiSigners', threshold'⟩,
      same => by
    rw [cmp, Ordering.then_eq_eq, Ordering.then_eq_eq] at same
    obtain ⟨signers, sets, thresholds⟩ := same
    rw [Std.LawfulEqCmp.eq_of_compare signers, eq_of_cmpList multiSigners multiSigners' sets,
      Std.LawfulEqCmp.eq_of_compare thresholds]
theorem eq_of_cmpList : ∀ as bs : List (SignerSet P), cmpList as bs = .eq → as = bs
  | [], [], _ => rfl
  | [], _ :: _, same => by simp [cmpList] at same
  | _ :: _, [], same => by simp [cmpList] at same
  | a :: as, b :: bs, same => by
    rw [cmpList, Ordering.then_eq_eq] at same
    rw [eq_of_cmp a b same.1, eq_of_cmpList as bs same.2]
end

mutual
theorem cmp_swap : ∀ a b : SignerSet P, cmp b a = (cmp a b).swap
  | ⟨individualSigners, multiSigners, threshold⟩, ⟨individualSigners', multiSigners', threshold'⟩ => by
    rw [cmp, cmp, Ordering.swap_then, Ordering.swap_then, cmpList_swap multiSigners multiSigners',
      show compare individualSigners' individualSigners =
        (compare individualSigners individualSigners').swap from Std.OrientedCmp.eq_swap,
      show compare threshold' threshold = (compare threshold threshold').swap from
        Std.OrientedCmp.eq_swap]
theorem cmpList_swap : ∀ as bs : List (SignerSet P), cmpList bs as = (cmpList as bs).swap
  | [], [] => by rw [cmpList]; rfl
  | [], _ :: _ => by rw [cmpList, cmpList]; rfl
  | _ :: _, [] => by rw [cmpList, cmpList]; rfl
  | a :: as, b :: bs => by
    rw [cmpList, cmpList, Ordering.swap_then, cmp_swap a b, cmpList_swap as bs]
end

mutual
theorem cmp_lt_trans : ∀ a b c : SignerSet P, cmp a b = .lt → cmp b c = .lt → cmp a c = .lt
  | ⟨individualSigners, multiSigners, threshold⟩, ⟨individualSigners', multiSigners', threshold'⟩,
      ⟨individualSigners'', multiSigners'', threshold''⟩, ab, bc => by
    rw [cmp] at ab bc ⊢
    -- the individual signers, then the nested sets, then the thresholds
    exact then_lt_trans_of (fun _ _ => Std.LawfulEqCmp.eq_of_compare)
      (fun _ => Std.ReflCmp.compare_self) Std.TransCmp.lt_trans
      (then_lt_trans eq_of_cmpList cmpList_self
        (cmpList_lt_trans multiSigners multiSigners' multiSigners'') Std.TransCmp.lt_trans) ab bc
theorem cmpList_lt_trans : ∀ as bs cs : List (SignerSet P),
    cmpList as bs = .lt → cmpList bs cs = .lt → cmpList as cs = .lt
  | [], _, _ :: _, _, _ => by rw [cmpList]
  | [], [], [], ab, _ => by simp [cmpList] at ab
  | [], _ :: _, [], _, bc => by simp [cmpList] at bc
  | _ :: _, [], _, ab, _ => by simp [cmpList] at ab
  | _ :: _, _ :: _, [], _, bc => by simp [cmpList] at bc
  | a :: as, b :: bs, c :: cs, ab, bc => by
    rw [cmpList] at ab bc ⊢
    exact then_lt_trans eq_of_cmp cmp_self (cmp_lt_trans a b c) (cmpList_lt_trans as bs cs) ab bc
end

instance : Std.OrientedCmp (@cmp P _) where
  eq_swap {a b} := cmp_swap b a

instance : Std.TransCmp (@cmp P _) where
  isLE_trans := isLE_trans_of_lt_trans eq_of_cmp cmp_lt_trans

instance : Std.LawfulEqCmp (@cmp P _) where
  compare_self {a} := cmp_self a
  eq_of_compare {a b} := eq_of_cmp a b

/-- The derived `Eq`, which agrees with the derived `Ord`. -/
instance : DecidableEq (SignerSet P) := fun a b =>
  decidable_of_iff (cmp a b = .eq) ⟨eq_of_cmp a b, fun same => same ▸ cmp_self a⟩

/-! ### `verify` -/

variable {S M : Type} [DecidableEq S] (verifier : P → M → S → Bool) (asRef : S → List UInt8)

/-- A turn of the first loop of `verify`: an individual signer under which some signature
verifies is matched and counted. -/
def addIndividual (signatures : List S) (message : M) (acc : List P × ℕ) (individualSigner : P) :
    List P × ℕ :=
  if signatures.any (verifier individualSigner message) then
    (acc.1 ++ [individualSigner], acc.2 + 1)
  else acc

/-- A turn of the second loop of `verify`: a nested set that accepts adds the signers it
returns and counts once. -/
def addNested (acc : List P × ℕ) (result : Except SignatureError (List P)) : List P × ℕ :=
  match result with
  | .ok signerIdentities => (acc.1 ++ signerIdentities, acc.2 + 1)
  | .error _ => acc

/-- `SignerSet::verify`: the individual signers and nested sets that signed, sorted and without
repeats, when there are at least `threshold` of them; the nested sets check the
multi-signature as given. -/
def verify (message : M) (multiSig : MultiSig S) (self : SignerSet P) :
    Except SignatureError (List P) :=
  if !self.isValid then .error ⟨⟩
  else if MAX_SIGNATURES < multiSig.signatures.length then .error ⟨⟩
  else
    let potentialIndividualSigners := sortDedup compare self.individualSigners
    let potentialMultiSigners := sortDedup cmp self.multiSigners
    let signatures := sortDedup (compareOn asRef) multiSig.signatures
    let matchedIndividuals :=
      potentialIndividualSigners.foldl (addIndividual verifier signatures message) ([], 0)
    let (matchedSignerIdentities, numMatches) := potentialMultiSigners.attach.foldl
      (fun acc signerSet => addNested acc (verify message multiSig signerSet.1)) matchedIndividuals
    if numMatches < self.threshold.toNat then .error ⟨⟩
    else .ok (sortDedup compare matchedSignerIdentities)
termination_by sizeOf self
decreasing_by
  have nested := List.sizeOf_lt_of_mem (mem_sortDedup.mp signerSet.2)
  obtain ⟨individualSigners, multiSigners, threshold⟩ := self
  simp only [SignerSet.mk.sizeOf_spec] at nested ⊢
  omega

end SignerSet

end MobileCoin.Multisig
