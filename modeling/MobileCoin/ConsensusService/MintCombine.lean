import MobileCoin.Lib.Compare
import MobileCoin.Lib.GreedySelect
import MobileCoin.LedgerDb.MintLimits

/-!
# Combining mint transactions into a block

`MintTxManagerImpl::combine_mint_config_txs` and `combine_mint_txs` sort their candidates by
the derived `Ord` and keep, through a `partition` closure with `HashSet`s of what it has seen,
each transaction whose `(nonce, token_id)` is new while fewer than `max_elements` nonces were
seen; `combine_mint_txs` also asks the ledger for the active configuration that would mint
the transaction, and keeps it only when there is one, not seen before.

Both are the greedy walk `GreedySelect.select`: what they keep is sorted, within the cap, and
free of repeated nonces and configurations. Configurations are used once per block, but two
configurations of one token can each have room for their transaction while the token's
`total_mint_limit` has room for only one of them; `write_mint_txs` then refuses the block.

The candidates are values of types with the derived orders, linear orders here, and
`mintConfigTx` and `mintTx` give the fields of a candidate that the ledger reads (its prefix).
-/

namespace MobileCoin.ConsensusService

open Compare GreedySelect LedgerDb

variable {S N : Type} [DecidableEq S] [DecidableEq N]

namespace MintTxManagerImpl

section MintConfigTxs

variable {U : Type} [LinearOrder U] (mintConfigTx : U → MintConfigTx S N)

/-- `NonceByTokenId` of a `MintConfigTx`. -/
def configNonceWithTokenId (tx : U) : N × Nat :=
  ((mintConfigTx tx).nonce, (mintConfigTx tx).tokenId)

/-- The `partition` closure of `combine_mint_config_txs` over the sorted candidates, with the
nonces seen so far: the transactions it keeps. -/
def combineMintConfigTxsLoop (maxElements : Nat) : List U → List (N × Nat) → List U
  | [], _ => []
  | tx :: txs, seenNonces =>
    if seenNonces.length ≥ maxElements then combineMintConfigTxsLoop maxElements txs seenNonces
    else if configNonceWithTokenId mintConfigTx tx ∈ seenNonces then
      combineMintConfigTxsLoop maxElements txs seenNonces
    else
      tx :: combineMintConfigTxsLoop maxElements txs
        (seenNonces.insert (configNonceWithTokenId mintConfigTx tx))

/-- `MintTxManagerImpl::combine_mint_config_txs`; it always returns `Ok`. -/
def combineMintConfigTxs (txs : List U) (maxElements : Nat) : List U :=
  combineMintConfigTxsLoop mintConfigTx maxElements (txs.mergeSort fun a b => decide (a ≤ b)) []

/-- Two `MintConfigTx`s with one nonce for one token. -/
def configTxsConflict (t tx : U) : Bool :=
  configNonceWithTokenId mintConfigTx t == configNonceWithTokenId mintConfigTx tx

omit [DecidableEq S] [LinearOrder U] in
/-- The closure refines the walk, its `HashSet` of nonces holding those of the transactions
kept so far. -/
theorem combineMintConfigTxsLoop_eq_select (maxElements : Nat) :
    ∀ (txs taken : List U) (seenNonces : List (N × Nat)), seenNonces.length = taken.length →
      (∀ nonce, nonce ∈ seenNonces ↔ ∃ t ∈ taken, configNonceWithTokenId mintConfigTx t = nonce) →
      taken ++ combineMintConfigTxsLoop mintConfigTx maxElements txs seenNonces =
        select maxElements (fun _ => true) (configTxsConflict mintConfigTx) txs taken := by
  intro txs
  induction txs with
  | nil =>
    intro taken _ _ _
    rw [combineMintConfigTxsLoop, select_nil, List.append_nil]
  | cons tx txs ih =>
    intro taken seenNonces counted seen
    rw [combineMintConfigTxsLoop]
    by_cases full : seenNonces.length ≥ maxElements
    · rw [if_pos full, ih taken seenNonces counted seen, select_of_full _ (counted ▸ full),
        select_of_full _ (counted ▸ full)]
    rw [if_neg full]
    by_cases repeated : configNonceWithTokenId mintConfigTx tx ∈ seenNonces
    · -- a nonce seen before: refused
      rw [if_pos repeated, ih taken seenNonces counted seen, select_cons_of_not_takes]
      obtain ⟨t, member, same⟩ := (seen _).mp repeated
      intro takes
      have free := takes.2.2 t member
      simp [configTxsConflict, same] at free
    · -- a new nonce: kept, and inserted
      rw [if_neg repeated]
      have takes : Takes maxElements (fun _ => true) (configTxsConflict mintConfigTx) taken tx :=
        ⟨by omega, rfl, fun t member => by
          simpa [configTxsConflict] using fun same => repeated ((seen _).mpr ⟨t, member, same⟩)⟩
      rw [select_cons_of_takes takes, ← ih (taken ++ [tx]) _ ?_ ?_, List.append_assoc,
        List.singleton_append]
      · rw [List.length_insert_of_not_mem repeated, List.length_append, counted, List.length_singleton]
      · exact mem_insert_iff_keyed seen rfl fun _ same => same.symm

omit [DecidableEq S] in
theorem combineMintConfigTxs_eq_select (txs : List U) (maxElements : Nat) :
    combineMintConfigTxs mintConfigTx txs maxElements =
      select maxElements (fun _ => true) (configTxsConflict mintConfigTx)
        (txs.mergeSort fun a b => decide (a ≤ b)) [] :=
  combineMintConfigTxsLoop_eq_select mintConfigTx maxElements _ [] [] rfl (by simp)

omit [DecidableEq S] in
/-- What `combine_mint_config_txs` keeps: a sorted sub-multiset of the candidates, within the
cap, with no `(nonce, token_id)` twice; a candidate it refuses repeats the nonce of one kept
before it, or comes after `max_elements` kept; and it keeps the same for every order of the
candidates. -/
theorem combineMintConfigTxs_spec (txs : List U) (maxElements : Nat) :
    (combineMintConfigTxs mintConfigTx txs maxElements).Subperm txs ∧ (combineMintConfigTxs mintConfigTx txs maxElements).Pairwise (· ≤ ·) ∧
      (combineMintConfigTxs mintConfigTx txs maxElements).length ≤ maxElements ∧
      (combineMintConfigTxs mintConfigTx txs maxElements).Pairwise (fun a b =>
        configNonceWithTokenId mintConfigTx a ≠ configNonceWithTokenId mintConfigTx b) ∧
      (∀ tx ∈ txs, tx ∉ combineMintConfigTxs mintConfigTx txs maxElements →
        maxElements ≤ (combineMintConfigTxs mintConfigTx txs maxElements).countP (· < tx) ∨
        ∃ t ∈ combineMintConfigTxs mintConfigTx txs maxElements, t < tx ∧
          configNonceWithTokenId mintConfigTx t = configNonceWithTokenId mintConfigTx tx) ∧
      ∀ permuted : List U, permuted.Perm txs →
        combineMintConfigTxs mintConfigTx permuted maxElements = combineMintConfigTxs mintConfigTx txs maxElements := by
  have walked := combineMintConfigTxs_eq_select mintConfigTx txs maxElements
  obtain ⟨added, selected, sub⟩ := @select_eq_append _ maxElements (fun _ => true)
    (configTxsConflict mintConfigTx) (txs.mergeSort fun a b => decide (a ≤ b)) []
  rw [List.nil_append] at selected
  have sorted := List.pairwise_mergeSort' (fun a b : U => a ≤ b) txs
  refine ⟨?_, ?_, ?_, ?_, fun tx member passed => ?_, fun permuted p => ?_⟩
  · rw [walked, selected]
    exact sub.subperm.trans (List.mergeSort_perm _ _).subperm
  · rw [walked, selected]
    exact sorted.sublist sub
  · rw [walked]
    exact length_select_le _ (Nat.zero_le _)
  · rw [walked]
    exact (select_pairwise _ List.Pairwise.nil).imp fun free => by
      simpa [configTxsConflict] using free
  · -- strictly before in the sorted order is `<`
    rw [walked] at passed ⊢
    rcases passed_over_sorted sorted ((List.mergeSort_perm txs _).mem_iff.mpr member) passed
      with full | inadmissible | ⟨t, picked, before, differ, conflicting⟩
    · left
      refine full.trans (Nat.le_of_eq (List.countP_congr fun t _ => ?_))
      rw [decide_eq_true_iff, decide_eq_true_iff, lt_iff_le_and_ne]
    · exact Bool.noConfusion inadmissible
    · exact .inr ⟨t, picked, lt_of_le_of_ne before differ, by simpa [configTxsConflict] using conflicting⟩
  · unfold combineMintConfigTxs
    rw [mergeSort_le_eq_of_perm p]

end MintConfigTxs

section MintTxs

variable {T : Type} [LinearOrder T] (verify : S → MintTx N → Bool)
  (mintConfigStore : MintConfigStore S N) (mintTx : T → MintTx N)

/-- `NonceByTokenId` of a `MintTx`. -/
def nonceWithTokenId (tx : T) : N × Nat := ((mintTx tx).nonce, (mintTx tx).tokenId)

/-- The `partition` closure of `combine_mint_txs` over the sorted candidates, with the nonces
and the configurations seen so far: the transactions it keeps. -/
def combineMintTxsLoop (maxElements : Nat) : List T → List (N × Nat) → List (MintConfig S) → List T
  | [], _, _ => []
  | tx :: txs, seenNonces, seenMintConfigs =>
    if seenNonces.length ≥ maxElements then
      combineMintTxsLoop maxElements txs seenNonces seenMintConfigs
    else if nonceWithTokenId mintTx tx ∈ seenNonces then
      combineMintTxsLoop maxElements txs seenNonces seenMintConfigs
    else
      match mintConfigStore.getActiveMintConfigForMintTx verify (mintTx tx) with
      -- no active configuration: logged and refused
      | .error _ => combineMintTxsLoop maxElements txs seenNonces seenMintConfigs
      | .ok activeMintConfig =>
        -- a specific configuration is used once per block
        if activeMintConfig.mintConfig ∈ seenMintConfigs then
          combineMintTxsLoop maxElements txs seenNonces seenMintConfigs
        else
          tx :: combineMintTxsLoop maxElements txs (seenNonces.insert (nonceWithTokenId mintTx tx))
            (seenMintConfigs.insert activeMintConfig.mintConfig)

/-- `MintTxManagerImpl::combine_mint_txs`; it always returns `Ok`. -/
def combineMintTxs (txs : List T) (maxElements : Nat) : List T :=
  combineMintTxsLoop verify mintConfigStore mintTx maxElements
    (txs.mergeSort fun a b => decide (a ≤ b)) [] []

/-- The configuration the ledger would mint `tx` through, if any. -/
def mintConfigOf (tx : T) : Option (MintConfig S) :=
  match mintConfigStore.getActiveMintConfigForMintTx verify (mintTx tx) with
  | .ok activeMintConfig => some activeMintConfig.mintConfig
  | .error _ => none

/-- Two `MintTx`s with one nonce for one token, or minted through one configuration. -/
def mintTxsConflict (t tx : T) : Bool :=
  nonceWithTokenId mintTx t == nonceWithTokenId mintTx tx ||
    mintConfigOf verify mintConfigStore mintTx t == mintConfigOf verify mintConfigStore mintTx tx

omit [LinearOrder T] in
/-- The closure refines the walk, its `HashSet`s holding the nonces and the configurations of
the transactions kept so far. -/
theorem combineMintTxsLoop_eq_select (maxElements : Nat) :
    ∀ (txs taken : List T) (seenNonces : List (N × Nat)) (seenMintConfigs : List (MintConfig S)),
      seenNonces.length = taken.length →
      (∀ nonce, nonce ∈ seenNonces ↔ ∃ t ∈ taken, nonceWithTokenId mintTx t = nonce) →
      (∀ mintConfig, mintConfig ∈ seenMintConfigs ↔
        ∃ t ∈ taken, mintConfigOf verify mintConfigStore mintTx t = some mintConfig) →
      taken ++ combineMintTxsLoop verify mintConfigStore mintTx maxElements txs seenNonces
          seenMintConfigs =
        select maxElements (fun tx => (mintConfigOf verify mintConfigStore mintTx tx).isSome)
          (mintTxsConflict verify mintConfigStore mintTx) txs taken := by
  intro txs
  induction txs with
  | nil =>
    intro taken _ _ _ _ _
    rw [combineMintTxsLoop, select_nil, List.append_nil]
  | cons tx txs ih =>
    intro taken seenNonces seenMintConfigs counted seen seenConfigs
    have rest := ih taken seenNonces seenMintConfigs counted seen seenConfigs
    rw [combineMintTxsLoop]
    by_cases full : seenNonces.length ≥ maxElements
    · rw [if_pos full, rest, select_of_full _ (counted ▸ full), select_of_full _ (counted ▸ full)]
    rw [if_neg full]
    by_cases repeated : nonceWithTokenId mintTx tx ∈ seenNonces
    · -- a nonce seen before: refused
      rw [if_pos repeated, rest, select_cons_of_not_takes]
      obtain ⟨t, member, same⟩ := (seen _).mp repeated
      intro takes
      have free := takes.2.2 t member
      simp [mintTxsConflict, same] at free
    rw [if_neg repeated]
    cases found : mintConfigStore.getActiveMintConfigForMintTx verify (mintTx tx) with
    | error e =>
      -- no active configuration: refused
      have none : mintConfigOf verify mintConfigStore mintTx tx = none := by rw [mintConfigOf, found]
      rw [rest, select_cons_of_not_takes]
      intro takes
      have admitted : (mintConfigOf verify mintConfigStore mintTx tx).isSome = true := takes.2.1
      rw [none] at admitted
      exact Bool.noConfusion admitted
    | ok activeMintConfig =>
      have matched : mintConfigOf verify mintConfigStore mintTx tx =
          some activeMintConfig.mintConfig := by
        rw [mintConfigOf, found]
      dsimp only
      by_cases used : activeMintConfig.mintConfig ∈ seenMintConfigs
      · -- a configuration used before: refused
        rw [if_pos used, rest, select_cons_of_not_takes]
        obtain ⟨t, member, same⟩ := (seenConfigs _).mp used
        intro takes
        have free := takes.2.2 t member
        simp [mintTxsConflict, same, matched] at free
      · -- kept, and its nonce and configuration inserted
        rw [if_neg used]
        have takes : Takes maxElements (fun tx => (mintConfigOf verify mintConfigStore mintTx tx).isSome)
            (mintTxsConflict verify mintConfigStore mintTx) taken tx := by
          refine ⟨by omega, by simp only [matched, Option.isSome_some], fun t member => ?_⟩
          have newNonce := fun same => repeated ((seen _).mpr ⟨t, member, same⟩)
          have newConfig := fun same => used ((seenConfigs _).mpr ⟨t, member, same⟩)
          simp only [mintTxsConflict, matched, Bool.or_eq_false_iff, beq_eq_false_iff_ne]
          exact ⟨newNonce, newConfig⟩
        rw [select_cons_of_takes takes, ← ih (taken ++ [tx]) _ _ ?_ ?_ ?_, List.append_assoc,
          List.singleton_append]
        · rw [List.length_insert_of_not_mem repeated, List.length_append, counted,
            List.length_singleton]
        · exact mem_insert_iff_keyed seen rfl fun _ same => same.symm
        · exact mem_insert_iff_keyed seenConfigs matched fun _ same =>
            Option.some.inj (same.symm.trans matched)

omit [DecidableEq N] [LinearOrder T] in
/-- A mint transaction with a configuration to mint it: the ledger matched one whose signer
set signed it and which has room for its amount, and the token's total limit has room for the
amount on its own. -/
theorem exists_of_mintConfigOf_isSome {tx : T}
    (admitted : (mintConfigOf verify mintConfigStore mintTx tx).isSome = true) :
    ∃ activeMintConfig a,
      mintConfigStore.getActiveMintConfigForMintTx verify (mintTx tx) = .ok activeMintConfig ∧
      mintConfigOf verify mintConfigStore mintTx tx = some activeMintConfig.mintConfig ∧
      mintConfigStore.getActiveMintConfigs (mintTx tx).tokenId = some a ∧
      a.canMint (mintTx tx).amount = true ∧
      verify activeMintConfig.mintConfig.signerSet (mintTx tx) = true ∧
      ActiveMintConfigs.HasRoom activeMintConfig (mintTx tx).amount := by
  cases found : mintConfigStore.getActiveMintConfigForMintTx verify (mintTx tx) with
  | error e =>
    rw [mintConfigOf, found] at admitted
    exact Bool.noConfusion admitted
  | ok activeMintConfig =>
    obtain ⟨a, active, getOk⟩ := MintConfigStore.getActiveMintConfigForMintTx_eq_ok.mp found
    obtain ⟨can, -, foundConfig⟩ := ActiveMintConfigs.getActiveMintConfigForMintTx_eq_ok.mp getOk
    obtain ⟨-, -, -, signed, room, -⟩ := ActiveMintConfigs.findConfig_eq_ok foundConfig
    exact ⟨activeMintConfig, a, rfl, by rw [mintConfigOf, found], active, can, signed, room⟩

theorem combineMintTxs_eq_select (txs : List T) (maxElements : Nat) :
    combineMintTxs verify mintConfigStore mintTx txs maxElements =
      select maxElements (fun tx => (mintConfigOf verify mintConfigStore mintTx tx).isSome)
        (mintTxsConflict verify mintConfigStore mintTx)
        (txs.mergeSort fun a b => decide (a ≤ b)) [] :=
  combineMintTxsLoop_eq_select verify mintConfigStore mintTx maxElements _ [] [] [] rfl (by simp)
    (by simp)

/-- What `combine_mint_txs` keeps: a sorted sub-multiset of the candidates, within the cap,
with no `(nonce, token_id)` twice and no configuration twice, each with an active
configuration that signed it and has room for its amount; a candidate it refuses has no such
configuration, or repeats the nonce or the configuration of one kept before it, or comes after
`max_elements` kept; and it keeps the same for every order of the candidates. -/
theorem combineMintTxs_spec (txs : List T) (maxElements : Nat) :
    (combineMintTxs verify mintConfigStore mintTx txs maxElements).Subperm txs ∧ (combineMintTxs verify mintConfigStore mintTx txs maxElements).Pairwise (· ≤ ·) ∧
      (combineMintTxs verify mintConfigStore mintTx txs maxElements).length ≤ maxElements ∧
      (combineMintTxs verify mintConfigStore mintTx txs maxElements).Pairwise (fun a b => nonceWithTokenId mintTx a ≠ nonceWithTokenId mintTx b) ∧
      (combineMintTxs verify mintConfigStore mintTx txs maxElements).Pairwise (fun a b =>
        mintConfigOf verify mintConfigStore mintTx a ≠ mintConfigOf verify mintConfigStore mintTx b) ∧
      (∀ tx ∈ combineMintTxs verify mintConfigStore mintTx txs maxElements, ∃ activeMintConfig a,
        mintConfigStore.getActiveMintConfigForMintTx verify (mintTx tx) = .ok activeMintConfig ∧
        mintConfigOf verify mintConfigStore mintTx tx = some activeMintConfig.mintConfig ∧
        mintConfigStore.getActiveMintConfigs (mintTx tx).tokenId = some a ∧
        a.canMint (mintTx tx).amount = true ∧
        verify activeMintConfig.mintConfig.signerSet (mintTx tx) = true ∧
        ActiveMintConfigs.HasRoom activeMintConfig (mintTx tx).amount) ∧
      (∀ tx ∈ txs, tx ∉ combineMintTxs verify mintConfigStore mintTx txs maxElements →
        maxElements ≤ (combineMintTxs verify mintConfigStore mintTx txs maxElements).countP (· < tx) ∨
        mintConfigOf verify mintConfigStore mintTx tx = none ∨
        ∃ t ∈ combineMintTxs verify mintConfigStore mintTx txs maxElements, t < tx ∧
          (nonceWithTokenId mintTx t = nonceWithTokenId mintTx tx ∨
            mintConfigOf verify mintConfigStore mintTx t = mintConfigOf verify mintConfigStore mintTx tx)) ∧
      ∀ permuted : List T, permuted.Perm txs →
        combineMintTxs verify mintConfigStore mintTx permuted maxElements = combineMintTxs verify mintConfigStore mintTx txs maxElements := by
  have walked := combineMintTxs_eq_select verify mintConfigStore mintTx txs maxElements
  obtain ⟨added, selected, sub⟩ := @select_eq_append _ maxElements
    (fun tx => (mintConfigOf verify mintConfigStore mintTx tx).isSome)
    (mintTxsConflict verify mintConfigStore mintTx) (txs.mergeSort fun a b => decide (a ≤ b)) []
  rw [List.nil_append] at selected
  have sorted := List.pairwise_mergeSort' (fun a b : T => a ≤ b) txs
  have apart := @select_pairwise _ maxElements
    (fun tx => (mintConfigOf verify mintConfigStore mintTx tx).isSome)
    (mintTxsConflict verify mintConfigStore mintTx) (txs.mergeSort fun a b => decide (a ≤ b)) []
    List.Pairwise.nil
  simp only [mintTxsConflict, Bool.or_eq_false_iff, beq_eq_false_iff_ne] at apart
  refine ⟨?_, ?_, ?_, ?_, ?_, fun tx picked => ?_, fun tx member passed => ?_, fun permuted p => ?_⟩
  · rw [walked, selected]
    exact sub.subperm.trans (List.mergeSort_perm _ _).subperm
  · rw [walked, selected]
    exact sorted.sublist sub
  · rw [walked]
    exact length_select_le _ (Nat.zero_le _)
  · rw [walked]
    exact apart.imp And.left
  · rw [walked]
    exact apart.imp And.right
  · rw [walked] at picked
    exact exists_of_mintConfigOf_isSome verify mintConfigStore mintTx
      (@admissible_of_mem_select _ _ (fun tx => (mintConfigOf verify mintConfigStore mintTx tx).isSome)
        _ _ _ _ picked List.not_mem_nil)
  · -- strictly before in the sorted order is `<`
    rw [walked] at passed ⊢
    rcases passed_over_sorted sorted ((List.mergeSort_perm txs _).mem_iff.mpr member) passed
      with full | inadmissible | ⟨t, picked, before, differ, conflicting⟩
    · left
      refine full.trans (Nat.le_of_eq (List.countP_congr fun t _ => ?_))
      rw [decide_eq_true_iff, decide_eq_true_iff, lt_iff_le_and_ne]
    · exact .inr (.inl (Option.not_isSome_iff_eq_none.mp (by simpa using inadmissible)))
    · refine .inr (.inr ⟨t, picked, lt_of_le_of_ne before differ, ?_⟩)
      simpa [mintTxsConflict] using conflicting
  · unfold combineMintTxs
    rw [mergeSort_le_eq_of_perm p]

end MintTxs

end MintTxManagerImpl

open MembershipProofs in
/-- A token with two configurations, of limits 6 and 10, under a total limit of 10, neither used
yet. A `MintTx` of 6 is matched to the first and one of 7 to the second, each within the
token's limit on its own, and combine keeps both; appending the block with both fails, as the
second would take the token past its total limit. -/
theorem combineMintTxs_passes_total_mint_limit :
    ∃ s : LedgerDB Nat Nat Nat Nat (HashTree Nat) Nat Nat Nat,
      LedgerDB.Reachable ⟨id, id, MerkleHasher.free, fun _ => true, (·.keyImages.length),
        fun _ => true, fun _ _ => true⟩ s ∧
      MintTxManagerImpl.combineMintTxs (fun _ _ => true) s.mintConfigStore
          (fun tx : Nat => if tx = 0 then ⟨1, 6, 0⟩ else ⟨1, 7, 1⟩) [0, 1] 10 = [0, 1] ∧
      LedgerDB.appendBlock ⟨id, id, MerkleHasher.free, fun _ => true, (·.keyImages.length),
          fun _ => true, fun _ _ => true⟩ s ⟨3, 0, 2, 2, 0⟩ ⟨[], [6, 7], [], [⟨1, 6, 0⟩, ⟨1, 7, 1⟩]⟩
          false =
        .error (.mintLimitExceeded 7 6 10) := by
  refine ⟨LedgerDB.commit ⟨id, id, MerkleHasher.free, fun _ => true, (·.keyImages.length),
      fun _ => true, fun _ _ => true⟩
    (LedgerDB.commit ⟨id, id, MerkleHasher.free, fun _ => true, (·.keyImages.length),
        fun _ => true, fun _ _ => true⟩ LedgerDB.create ⟨1, 0, 0, 0, 0⟩ ⟨[], [5], [], []⟩ false)
    ⟨2, 0, 1, 1, 0⟩ ⟨[], [], [⟨⟨1, [⟨1, 0, 6⟩, ⟨1, 1, 10⟩], 0, 10⟩, 0⟩], []⟩ false,
    .commit (.commit .create), ?_, rfl⟩
  -- the candidates are already sorted
  have sorted : ([0, 1] : List Nat).mergeSort (fun a b => decide (a ≤ b)) = [0, 1] :=
    List.mergeSort_of_pairwise (by decide)
  rw [MintTxManagerImpl.combineMintTxs, sorted]
  rfl

end MobileCoin.ConsensusService
