import MobileCoin.Lib.FirstMatch
import MobileCoin.LedgerDb.LedgerDB
import MobileCoin.MembershipProofs.Verify

/-!
# Mint limits in the ledger

Every configuration's total minted stays within its mint limit, and a token's configurations
together within the token's total mint limit, in every ledger `append_block` builds; the `u64`
sum of `total_minted` therefore never wraps. The argument rests on the two searches of the
mint path: `get_active_mint_config_for_mint_tx` returns the first configuration that signed the
`MintTx` and has room, and `update_total_minted` updates the first configuration equal to it,
which is that one or one before it with at least as much minted.

The same two searches disagree when a `MintConfigTx` lists one configuration twice: once the
first copy is full, a `MintTx` matched to the second copy is rejected by `update_total_minted`.
-/

namespace MobileCoin.LedgerDb

open Table U64 MembershipProofs

namespace ActiveMintConfigs

variable {S N : Type}

/-- The amounts minted through a token's configurations, summed without wrapping. -/
def mintedSum (a : ActiveMintConfigs S N) : Nat := (a.configs.map (·.totalMinted.toNat)).sum

/-- A configuration that can mint `amount` more without passing its own limit. -/
def HasRoom (activeMintConfig : ActiveMintConfig S) (amount : UInt64) : Prop :=
  activeMintConfig.totalMinted.toNat + amount.toNat ≤ activeMintConfig.mintConfig.mintLimit.toNat

structure WithinLimits (a : ActiveMintConfigs S N) : Prop where
  config : ∀ c ∈ a.configs, c.totalMinted ≤ c.mintConfig.mintLimit
  total : a.mintedSum ≤ a.totalMintLimit.toNat

theorem mintedSum_of_eq {a : ActiveMintConfigs S N} {pre post : List (ActiveMintConfig S)}
    {c : ActiveMintConfig S} (shape : a.configs = pre ++ c :: post) :
    a.mintedSum = (pre.map (·.totalMinted.toNat)).sum + c.totalMinted.toNat +
      (post.map (·.totalMinted.toNat)).sum := by
  rw [mintedSum, shape, List.map_append, List.sum_append, List.map_cons, List.sum_cons,
    Nat.add_assoc]

theorem totalMinted_toNat (a : ActiveMintConfigs S N) :
    a.totalMinted.toNat = a.mintedSum % 2 ^ 64 := by
  rw [totalMinted, toNat_sum, List.map_map]
  rfl

theorem WithinLimits.totalMinted_eq {a : ActiveMintConfigs S N} (within : a.WithinLimits) :
    a.totalMinted.toNat = a.mintedSum := by
  have fits : a.mintedSum < 2 ^ 64 := lt_of_le_of_lt within.total a.totalMintLimit.toNat_lt
  rw [totalMinted_toNat, Nat.mod_eq_of_lt fits]

theorem WithinLimits.canMint_iff {a : ActiveMintConfigs S N} (within : a.WithinLimits)
    {amount : UInt64} :
    a.canMint amount = true ↔ a.mintedSum + amount.toNat ≤ a.totalMintLimit.toNat := by
  unfold canMint
  cases added : checkedAdd a.totalMinted amount with
  | none =>
    have exceeds := not_le_of_checkedAdd_eq_none a.totalMintLimit added
    rw [within.totalMinted_eq] at exceeds
    simp only [Bool.false_eq_true, false_iff]
    exact exceeds
  | some newTotalMinted =>
    simp only [decide_eq_true_iff]
    rw [checkedAdd_le_iff added, within.totalMinted_eq]

theorem ofMintConfigTx_withinLimits (mintConfigTx : MintConfigTx S N) :
    (ofMintConfigTx mintConfigTx).WithinLimits where
  config := by
    intro c member
    obtain ⟨mintConfig, -, rfl⟩ := List.mem_map.mp member
    exact UInt64.le_iff_toNat_le.mpr (Nat.zero_le _)
  total := by
    have nothing : (ofMintConfigTx mintConfigTx).mintedSum = 0 := by
      simp [mintedSum, ofMintConfigTx, Function.comp_def]
    rw [nothing]
    exact Nat.zero_le _

/-- The loop of `get_active_mint_config_for_mint_tx` returns the first configuration that signed
the `MintTx` and has room for its amount. -/
theorem findConfig_eq_ok {verify : S → MintTx N → Bool} {mintTx : MintTx N}
    {activeMintConfig : ActiveMintConfig S} {configs : List (ActiveMintConfig S)} :
    ∀ {error : Error}, findConfig verify mintTx configs error = .ok activeMintConfig →
      ∃ pre post, configs = pre ++ activeMintConfig :: post ∧
        verify activeMintConfig.mintConfig.signerSet mintTx = true ∧
        HasRoom activeMintConfig mintTx.amount ∧
        ∀ c ∈ pre, verify c.mintConfig.signerSet mintTx = true → ¬HasRoom c mintTx.amount := by
  induction configs with
  | nil =>
    intro error found
    cases found
  | cons c rest ih =>
    intro error found
    -- the configuration returned is a later one, and `c` was passed over
    have later : ∀ {error'}, findConfig verify mintTx rest error' = .ok activeMintConfig →
        (verify c.mintConfig.signerSet mintTx = true → ¬HasRoom c mintTx.amount) →
        ∃ pre post, c :: rest = pre ++ activeMintConfig :: post ∧
          verify activeMintConfig.mintConfig.signerSet mintTx = true ∧
          HasRoom activeMintConfig mintTx.amount ∧
          ∀ d ∈ pre, verify d.mintConfig.signerSet mintTx = true →
            ¬HasRoom d mintTx.amount := by
      intro error' foundLater passed
      obtain ⟨pre, post, shape, signed, room, before⟩ := ih foundLater
      refine ⟨c :: pre, post, by rw [shape, List.cons_append], signed, room, ?_⟩
      intro d member
      rcases List.mem_cons.mp member with rfl | earlier
      · exact passed
      · exact before d earlier
    unfold findConfig at found
    cases signed : verify c.mintConfig.signerSet mintTx with
    | false =>
      simp only [signed, Bool.not_false, if_true] at found
      exact later found (fun signedTrue => absurd signedTrue (by simp [signed]))
    | true =>
      simp only [signed, Bool.not_true, Bool.false_eq_true, if_false] at found
      cases added : checkedAdd c.totalMinted mintTx.amount with
      | none =>
        simp only [added] at found
        exact later found fun _ => not_le_of_checkedAdd_eq_none _ added
      | some newTotalMinted =>
        simp only [added] at found
        by_cases fits : newTotalMinted ≤ c.mintConfig.mintLimit
        · rw [if_pos fits, Except.ok.injEq] at found
          subst found
          exact ⟨[], rest, rfl, signed, (checkedAdd_le_iff added).mp fits, by simp⟩
        · rw [if_neg fits] at found
          exact later found fun _ => (checkedAdd_le_iff added).not.mp fits

variable [DecidableEq S]

theorem getActiveMintConfigForMintTx_eq_ok {verify : S → MintTx N → Bool}
    {a : ActiveMintConfigs S N} {mintTx : MintTx N} {activeMintConfig : ActiveMintConfig S} :
    a.getActiveMintConfigForMintTx verify mintTx = .ok activeMintConfig ↔
      a.canMint mintTx.amount = true ∧ a.configs.map (·.mintConfig) = a.mintConfigTx.configs ∧
        findConfig verify mintTx a.configs .notFound = .ok activeMintConfig := by
  unfold getActiveMintConfigForMintTx
  by_cases can : a.canMint mintTx.amount = true <;>
    by_cases same : a.configs.map (·.mintConfig) = a.mintConfigTx.configs <;> simp [can, same]

end ActiveMintConfigs

namespace MintConfigStore

open ActiveMintConfigs

variable {S N : Type}

/-- Each token's active configurations are configurations of that token, within their limits. -/
structure MintLimitsHold (store : MintConfigStore S N) : Prop where
  keyed : ∀ tokenId a, store.getActiveMintConfigs tokenId = some a →
    ∀ c ∈ a.configs, c.mintConfig.tokenId = tokenId
  within : ∀ tokenId a, store.getActiveMintConfigs tokenId = some a → a.WithinLimits

theorem create_mintLimitsHold : (create : MintConfigStore S N).MintLimitsHold where
  keyed := by simp [create, getActiveMintConfigs]
  within := by simp [create, getActiveMintConfigs]

theorem MintLimitsHold.of_eq {store store' : MintConfigStore S N} (holds : store.MintLimitsHold)
    (same : store'.activeMintConfigsByTokenId = store.activeMintConfigsByTokenId) :
    store'.MintLimitsHold where
  keyed := by
    unfold getActiveMintConfigs
    rw [same]
    exact holds.keyed
  within := by
    unfold getActiveMintConfigs
    rw [same]
    exact holds.within

/-- Writing one token's configurations keeps the invariant when they are the token's own and
within their limits. -/
theorem MintLimitsHold.put {store store' : MintConfigStore S N} (holds : store.MintLimitsHold)
    {tokenId : Nat} {a : ActiveMintConfigs S N}
    (written : store'.activeMintConfigsByTokenId =
      Table.put store.activeMintConfigsByTokenId tokenId a)
    (keyed : ∀ c ∈ a.configs, c.mintConfig.tokenId = tokenId) (within : a.WithinLimits) :
    store'.MintLimitsHold := by
  have lookup : ∀ tokenId' a', store'.getActiveMintConfigs tokenId' = some a' →
      (tokenId' = tokenId ∧ a' = a) ∨ store.getActiveMintConfigs tokenId' = some a' := by
    intro tokenId' a' found
    unfold getActiveMintConfigs at found ⊢
    rw [written] at found
    by_cases same : tokenId' = tokenId
    · subst same
      rw [put_same, Option.some.injEq] at found
      exact .inl ⟨rfl, found.symm⟩
    · rw [put_other _ _ same] at found
      exact .inr found
  constructor
  · intro tokenId' a' found
    rcases lookup tokenId' a' found with ⟨rfl, rfl⟩ | old
    · exact keyed
    · exact holds.keyed tokenId' a' old
  · intro tokenId' a' found
    rcases lookup tokenId' a' found with ⟨rfl, rfl⟩ | old
    · exact within
    · exact holds.within tokenId' a' old

theorem checkMintConfig_eq_ok {mintConfigTx : MintConfigTx S N} :
    checkMintConfig mintConfigTx = .ok () ↔
      ∀ c ∈ mintConfigTx.configs, c.tokenId = mintConfigTx.tokenId := by
  unfold checkMintConfig
  by_cases mixed : mintConfigTx.configs.any (·.tokenId ≠ mintConfigTx.tokenId) <;>
    simp_all

section Writes

variable [DecidableEq N]

theorem writeValidatedMintConfigTx_mintLimitsHold {blockIndex : Nat}
    {store store' : MintConfigStore S N} {validated : ValidatedMintConfigTx S N}
    (holds : store.MintLimitsHold)
    (written : writeValidatedMintConfigTx blockIndex store validated = .ok store') :
    store'.MintLimitsHold := by
  unfold writeValidatedMintConfigTx at written
  obtain ⟨checked, written⟩ := bind_unit_ok_iff.mp written
  obtain ⟨byNonce, -, written⟩ := bind_ok written
  rw [pure_eq_ok, Except.ok.injEq] at written
  subst written
  refine holds.put rfl ?_ (ofMintConfigTx_withinLimits _)
  intro c member
  obtain ⟨mintConfig, inTx, rfl⟩ := List.mem_map.mp member
  exact checkMintConfig_eq_ok.mp checked mintConfig inTx

theorem writeValidatedMintConfigTxs_mintLimitsHold {blockIndex : Nat}
    {store store' : MintConfigStore S N} {validatedMintConfigTxs : List (ValidatedMintConfigTx S N)}
    (holds : store.MintLimitsHold)
    (written : store.writeValidatedMintConfigTxs blockIndex validatedMintConfigTxs = .ok store') :
    store'.MintLimitsHold := by
  unfold writeValidatedMintConfigTxs at written
  obtain ⟨byBlock, -, loop⟩ := bind_ok written
  have start : MintLimitsHold { store with validatedMintConfigTxsByBlock := byBlock } :=
    holds.of_eq rfl
  exact foldlM_ok_invariant (motive := MintLimitsHold)
    (fun _ _ _ holds step => writeValidatedMintConfigTx_mintLimitsHold holds step) start loop

end Writes

variable [DecidableEq S]

theorem getActiveMintConfigForMintTx_eq_ok {verify : S → MintTx N → Bool}
    {store : MintConfigStore S N} {mintTx : MintTx N} {activeMintConfig : ActiveMintConfig S} :
    store.getActiveMintConfigForMintTx verify mintTx = .ok activeMintConfig ↔
      ∃ a, store.getActiveMintConfigs mintTx.tokenId = some a ∧
        a.getActiveMintConfigForMintTx verify mintTx = .ok activeMintConfig := by
  unfold getActiveMintConfigForMintTx
  simp only [bind_ok_iff, okOr_eq_ok]

theorem updateTotalMinted_eq_ok {store store' : MintConfigStore S N} {mintConfig : MintConfig S}
    {amount : UInt64} (updated : store.updateTotalMinted mintConfig amount = .ok store') :
    ∃ a pre activeMintConfig post,
      store.getActiveMintConfigs mintConfig.tokenId = some a ∧
      a.configs = pre ++ activeMintConfig :: post ∧ activeMintConfig.mintConfig = mintConfig ∧
      (∀ c ∈ pre, c.mintConfig ≠ mintConfig) ∧
      activeMintConfig.totalMinted ≤ amount ∧ amount ≤ mintConfig.mintLimit ∧
      store'.activeMintConfigsByTokenId = Table.put store.activeMintConfigsByTokenId
        mintConfig.tokenId
        { a with configs := pre ++ { activeMintConfig with totalMinted := amount } :: post } := by
  unfold updateTotalMinted at updated
  obtain ⟨a, active, updated⟩ := bind_ok updated
  obtain ⟨⟨activeMintConfig, position⟩, located, updated⟩ := bind_ok updated
  rw [okOr_eq_ok] at active located
  obtain ⟨pre, post, shape, rfl, same, before⟩ :=
    (find?_zipIdx_eq_some (p := fun c : ActiveMintConfig S => decide (c.mintConfig = mintConfig))).mp
      located
  simp only [throw_bind, ite_throw_eq_ok, pure_eq_ok, Except.ok.injEq] at updated
  obtain ⟨notLess, notOver, -, rfl⟩ := updated
  have same : activeMintConfig.mintConfig = mintConfig := of_decide_eq_true same
  refine ⟨a, pre, activeMintConfig, post, active, shape, same, ?_, UInt64.not_lt.mp notLess,
    ?_, ?_⟩
  · exact fun c member => of_decide_eq_false (before c member)
  · rw [← same]
    exact UInt64.not_lt.mp notOver
  · rw [shape, Nat.zero_add, List.set_append_right _ _ (Nat.le_refl _), Nat.sub_self,
      List.set_cons_zero]

theorem updateTotalMinted_decrease {store : MintConfigStore S N} {mintConfig : MintConfig S}
    {amount : UInt64} {a : ActiveMintConfigs S N} {first : ActiveMintConfig S}
    (active : store.getActiveMintConfigs mintConfig.tokenId = some a)
    (found : a.configs.find? (·.mintConfig = mintConfig) = some first)
    (less : amount < first.totalMinted) :
    store.updateTotalMinted mintConfig amount =
      .error (.totalMintedAmountCannotDecrease amount first.totalMinted) := by
  obtain ⟨position, located⟩ := find?_zipIdx_of_find? found
  unfold updateTotalMinted
  simp only [active, located, okOr_some, ok_bind, if_pos less, throw_bind]
  rfl

end MintConfigStore

namespace MintTxStore

open ActiveMintConfigs MintConfigStore

variable {S N : Type}

/-- The configuration `update_total_minted` updates has minted at least as much as the one the
`MintTx` was matched to: it is that configuration, or an equal one before it that was passed
over for want of room. -/
theorem matched_le_updated {verify : S → MintTx N → Bool} {mintTx : MintTx N}
    {configs : List (ActiveMintConfig S)} {matched updated : ActiveMintConfig S}
    {pre post pre' post' : List (ActiveMintConfig S)}
    (shape : configs = pre' ++ updated :: post')
    (same : updated.mintConfig = matched.mintConfig)
    (first : ∀ c ∈ pre', c.mintConfig ≠ matched.mintConfig)
    (matchedShape : configs = pre ++ matched :: post)
    (passedOver : ∀ c ∈ pre, verify c.mintConfig.signerSet mintTx = true →
      ¬HasRoom c mintTx.amount)
    (signed : verify matched.mintConfig.signerSet mintTx = true)
    (room : HasRoom matched mintTx.amount) :
    matched.totalMinted.toNat ≤ updated.totalMinted.toNat := by
  have order := first_eq_or_mem (p := fun c => c.mintConfig = matched.mintConfig)
    (matchedShape.symm.trans shape) rfl first
  rcases order with rfl | earlier
  · exact Nat.le_refl _
  · have full := passedOver updated earlier (by rw [same]; exact signed)
    unfold HasRoom at full room
    rw [same] at full
    omega

variable [DecidableEq S] [DecidableEq N]

theorem writeMintTx_eq_ok {verify : S → MintTx N → Bool} {blockIndex : Nat}
    {store store' : MintTxStore N} {mintConfigStore mintConfigStore' : MintConfigStore S N}
    {mintTx : MintTx N}
    (written : writeMintTx verify blockIndex (store, mintConfigStore) mintTx =
      .ok (store', mintConfigStore')) :
    ∃ activeMintConfig,
      mintConfigStore.getActiveMintConfigForMintTx verify mintTx = .ok activeMintConfig ∧
      activeMintConfig.totalMinted.toNat + mintTx.amount.toNat ≤ MAX ∧
      mintConfigStore.updateTotalMinted activeMintConfig.mintConfig
        (activeMintConfig.totalMinted + mintTx.amount) = .ok mintConfigStore' ∧
      ∃ byNonce, putNew store.blockIndexByMintTxNonceAndTokenId (mintTx.nonce, mintTx.tokenId)
          blockIndex = .ok byNonce ∧
        store' = { store with blockIndexByMintTxNonceAndTokenId := byNonce } := by
  unfold writeMintTx at written
  obtain ⟨activeMintConfig, matched, written⟩ := bind_ok written
  obtain ⟨newTotalMinted, added, written⟩ := bind_ok written
  obtain ⟨fits, value⟩ := checkedAdd_eq_some.mp (okOr_eq_ok.mp added)
  have sum : newTotalMinted = activeMintConfig.totalMinted + mintTx.amount := by
    rw [← UInt64.toNat_inj, value, toNat_add_of_le fits]
  subst sum
  obtain ⟨updatedStore, updated, written⟩ := bind_ok written
  obtain ⟨byNonce, nonce, written⟩ := bind_ok written
  rw [pure_eq_ok, Except.ok.injEq, Prod.mk.injEq] at written
  obtain ⟨rfl, rfl⟩ := written
  exact ⟨activeMintConfig, matched, fits, updated, byNonce, nonce, rfl⟩

theorem writeMintTx_mintLimitsHold {verify : S → MintTx N → Bool} {blockIndex : Nat}
    {stores stores' : MintTxStore N × MintConfigStore S N} {mintTx : MintTx N}
    (holds : stores.2.MintLimitsHold)
    (written : writeMintTx verify blockIndex stores mintTx = .ok stores') :
    stores'.2.MintLimitsHold := by
  obtain ⟨store, mintConfigStore⟩ := stores
  obtain ⟨store', mintConfigStore'⟩ := stores'
  obtain ⟨matched, getOk, fits, updated, -⟩ := writeMintTx_eq_ok written
  obtain ⟨a, active, getOk⟩ := MintConfigStore.getActiveMintConfigForMintTx_eq_ok.mp getOk
  obtain ⟨can, -, found⟩ := ActiveMintConfigs.getActiveMintConfigForMintTx_eq_ok.mp getOk
  obtain ⟨pre, post, matchedShape, signed, room, passedOver⟩ := findConfig_eq_ok found
  have within := holds.within _ a active
  -- `update_total_minted` looks the configuration up under its own token, which is the
  -- `MintTx`'s
  have token : matched.mintConfig.tokenId = mintTx.tokenId :=
    holds.keyed _ a active matched (by rw [matchedShape]; simp)
  obtain ⟨a', pre', target, post', active', shape, same, first, notLess, notOver, stored⟩ :=
    updateTotalMinted_eq_ok updated
  rw [token, active, Option.some.injEq] at active'
  subst active'
  have behind := matched_le_updated shape same first matchedShape passedOver signed room
  have amount : (matched.totalMinted + mintTx.amount).toNat =
      matched.totalMinted.toNat + mintTx.amount.toNat := toNat_add_of_le fits
  refine holds.put stored ?_ ⟨?_, ?_⟩
  · intro c member
    rw [token]
    rcases List.mem_append.mp member with early | rest
    · exact holds.keyed _ a active c (by rw [shape]; exact List.mem_append_left _ early)
    · rcases List.mem_cons.mp rest with rfl | late
      · exact holds.keyed _ a active target (by rw [shape]; simp)
      · exact holds.keyed _ a active c (by rw [shape]; simp [late])
  · intro c member
    rcases List.mem_append.mp member with early | rest
    · exact within.config c (by rw [shape]; exact List.mem_append_left _ early)
    · rcases List.mem_cons.mp rest with rfl | late
      · rw [same]
        exact notOver
      · exact within.config c (by rw [shape]; simp [late])
  · -- the new total replaces the updated configuration's, which was at least the matched one's
    have before := mintedSum_of_eq shape
    have after := mintedSum_of_eq (a := { a with configs :=
      pre' ++ { target with totalMinted := matched.totalMinted + mintTx.amount } :: post' }) rfl
    have limit := (within.canMint_iff).mp can
    simp only [amount] at after
    show _ ≤ a.totalMintLimit.toNat
    omega

theorem writeMintTxs_mintLimitsHold {verify : S → MintTx N → Bool} {store : MintTxStore N}
    {blockIndex : Nat} {mintTxs : List (MintTx N)} {mintConfigStore : MintConfigStore S N}
    {stores' : MintTxStore N × MintConfigStore S N} (holds : mintConfigStore.MintLimitsHold)
    (written : store.writeMintTxs verify blockIndex mintTxs mintConfigStore = .ok stores') :
    stores'.2.MintLimitsHold := by
  unfold writeMintTxs at written
  obtain ⟨byBlock, -, loop⟩ := bind_ok written
  exact foldlM_ok_invariant (motive := fun stores => stores.2.MintLimitsHold)
    (fun _ _ _ holds step => writeMintTx_mintLimitsHold holds step) holds loop

end MintTxStore

namespace LedgerDB

open MintConfigStore MintTxStore

variable {KI α K P H D S N : Type} {c : Crypto KI α K P H D S N}

theorem Reachable.commit [Inhabited D] [DecidableEq D] [DecidableEq S] [DecidableEq N]
    [DecidableEq KI] [DecidableEq K] [DecidableEq P] {s : LedgerDB KI α K P H D S N}
    {block : Block D} {contents : BlockContents KI α S N} {hasMetadata : Bool}
    (reached : Reachable c s) : Reachable c (commit c s block contents hasMetadata) := by
  unfold LedgerDB.commit
  split
  · rename_i s' appended
    exact .append reached appended
  · exact reached

variable [Inhabited D] [DecidableEq D] [DecidableEq S] [DecidableEq N] [DecidableEq KI]
  [DecidableEq K] [DecidableEq P]

/-- What `append_block` writes to the mint stores: the `MintTx`s first, then the
`MintConfigTx`s. -/
theorem appendBlock_mintStores {s s' : LedgerDB KI α K P H D S N} {block : Block D}
    {contents : BlockContents KI α S N} {hasMetadata : Bool}
    (appended : appendBlock c s block contents hasMetadata = .ok s') :
    ∃ mintConfigStore,
      s.mintTxStore.writeMintTxs c.verify block.index contents.mintTxs s.mintConfigStore =
        .ok (s'.mintTxStore, mintConfigStore) ∧
      mintConfigStore.writeValidatedMintConfigTxs block.index contents.validatedMintConfigTxs =
        .ok s'.mintConfigStore := by
  unfold appendBlock at appended
  obtain ⟨-, appended⟩ := bind_unit_ok_iff.mp appended
  obtain ⟨⟨keyImages, keyImagesByBlock⟩, -, appended⟩ := bind_ok appended
  obtain ⟨tables, -, appended⟩ := bind_ok appended
  obtain ⟨⟨mintTxStore, mintConfigStore⟩, minted, appended⟩ := bind_ok appended
  obtain ⟨configStore, configured, appended⟩ := bind_ok appended
  simp only [writeBlock, pure_eq_ok, Except.ok.injEq] at appended
  subst appended
  exact ⟨mintConfigStore, minted, configured⟩

theorem appendBlock_mintLimitsHold {s s' : LedgerDB KI α K P H D S N} {block : Block D}
    {contents : BlockContents KI α S N} {hasMetadata : Bool}
    (holds : s.mintConfigStore.MintLimitsHold)
    (appended : appendBlock c s block contents hasMetadata = .ok s') :
    s'.mintConfigStore.MintLimitsHold := by
  obtain ⟨mintConfigStore, minted, configured⟩ := appendBlock_mintStores appended
  exact writeValidatedMintConfigTxs_mintLimitsHold (writeMintTxs_mintLimitsHold holds minted)
    configured

theorem Reachable.mintLimitsHold {s : LedgerDB KI α K P H D S N} (reached : Reachable c s) :
    s.mintConfigStore.MintLimitsHold := by
  induction reached with
  | create => exact create_mintLimitsHold
  | append _ appended holds => exact appendBlock_mintLimitsHold holds appended

/-- In every ledger that `append_block` builds, each active configuration has minted at most its
mint limit, and a token's configurations together at most the token's total mint limit; their
`u64` sum `total_minted` is the sum without wrapping. -/
theorem Reachable.mint_limits {s : LedgerDB KI α K P H D S N} (reached : Reachable c s)
    {tokenId : Nat} {a : ActiveMintConfigs S N}
    (active : s.mintConfigStore.getActiveMintConfigs tokenId = some a) :
    (∀ config ∈ a.configs, config.totalMinted ≤ config.mintConfig.mintLimit) ∧
      a.totalMinted.toNat = a.mintedSum ∧ a.totalMinted ≤ a.totalMintLimit := by
  have within := reached.mintLimitsHold.within tokenId a active
  refine ⟨within.config, within.totalMinted_eq, ?_⟩
  rw [UInt64.le_iff_toNat_le, within.totalMinted_eq]
  exact within.total

/-- After a block that sets up two configurations of token `1`, each with limit `10`, and a block
that mints `8` with the first: both stay within their limits, and the token's `total_minted`, `8`,
within its total limit `20`. -/
theorem mint_limits_after_mint :
    ∃ (s : LedgerDB Nat Nat Nat Nat (HashTree Nat) Nat Nat Nat) (a : ActiveMintConfigs Nat Nat),
      Reachable ⟨id, id, MerkleHasher.free, fun _ => true, (·.keyImages.length),
        fun _ => true, fun _ _ => true⟩ s ∧
      s.mintConfigStore.getActiveMintConfigs 1 = some a ∧ a.totalMinted = 8 ∧
      (∀ config ∈ a.configs, config.totalMinted ≤ config.mintConfig.mintLimit) ∧
      a.totalMinted.toNat = a.mintedSum ∧ a.totalMinted ≤ a.totalMintLimit := by
  have reached : Reachable ⟨id, id, MerkleHasher.free, fun _ => true, (·.keyImages.length),
      fun _ => true, fun _ _ => true⟩
      (commit ⟨id, id, MerkleHasher.free, fun _ => true, (·.keyImages.length), fun _ => true,
          fun _ _ => true⟩
        (commit ⟨id, id, MerkleHasher.free, fun _ => true, (·.keyImages.length), fun _ => true,
            fun _ _ => true⟩
          (commit ⟨id, id, MerkleHasher.free, fun _ => true, (·.keyImages.length), fun _ => true,
            fun _ _ => true⟩ (create : LedgerDB Nat Nat Nat Nat (HashTree Nat) Nat Nat Nat)
            ⟨1, 0, 0, 0, 0⟩ ⟨[], [5], [], []⟩ false)
          ⟨2, 0, 1, 1, 0⟩ ⟨[], [], [⟨⟨1, [⟨1, 0, 10⟩, ⟨1, 0, 10⟩], 0, 20⟩, 0⟩], []⟩ false)
        ⟨3, 0, 2, 2, 0⟩ ⟨[], [6], [], [⟨1, 8, 0⟩]⟩ false) :=
    .commit (.commit (.commit .create))
  refine ⟨_, ?configs, reached, ?active, ?minted, reached.mint_limits ?active⟩
  case active => rfl
  case minted => rfl

end LedgerDB

namespace MintTxStore

open ActiveMintConfigs MintConfigStore

variable {S N : Type} [DecidableEq S] [DecidableEq N]

/-- `write_mint_txs` rejects a `MintTx` that `get_active_mint_config_for_mint_tx` matched to a
configuration when an equal configuration stands before it and has minted more than the
matched one would after the `MintTx`: `update_total_minted` updates that first one. -/
theorem writeMintTxs_rejects_matched_config {verify : S → MintTx N → Bool}
    {store : MintTxStore N} {blockIndex : Nat} {mintConfigStore : MintConfigStore S N}
    {mintTx : MintTx N} {matched first : ActiveMintConfig S} {a : ActiveMintConfigs S N}
    (fresh : store.mintTxsByBlock blockIndex = none)
    (getOk : mintConfigStore.getActiveMintConfigForMintTx verify mintTx = .ok matched)
    (active : mintConfigStore.getActiveMintConfigs matched.mintConfig.tokenId = some a)
    (found : a.configs.find? (·.mintConfig = matched.mintConfig) = some first)
    (behind : matched.totalMinted.toNat + mintTx.amount.toNat < first.totalMinted.toNat) :
    store.writeMintTxs verify blockIndex [mintTx] mintConfigStore =
      .error (.totalMintedAmountCannotDecrease (matched.totalMinted + mintTx.amount)
        first.totalMinted) := by
  have fits : matched.totalMinted.toNat + mintTx.amount.toNat ≤ MAX :=
    Nat.le_trans (Nat.le_of_lt behind) (toNat_le_MAX first.totalMinted)
  have added : checkedAdd matched.totalMinted mintTx.amount =
      some (matched.totalMinted + mintTx.amount) :=
    checkedAdd_eq_some.mpr ⟨fits, toNat_add_of_le fits⟩
  have rejected := updateTotalMinted_decrease active found
    (UInt64.lt_iff_toNat_lt.mpr (by rw [toNat_add_of_le fits]; exact behind))
  unfold writeMintTxs writeMintTx
  simp only [putNew_of_none fresh, ok_bind, List.foldlM_cons, getOk, added, okOr_some, rejected,
    error_bind]

theorem writeMintTxs_rejects_matched_config_after_mint :
    ∃ s : LedgerDB Nat Nat Nat Nat (HashTree Nat) Nat Nat Nat,
      LedgerDB.Reachable ⟨id, id, MerkleHasher.free, fun _ => true, (·.keyImages.length),
        fun _ => true, fun _ _ => true⟩ s ∧
      s.mintConfigStore.getActiveMintConfigForMintTx (fun _ _ => true) ⟨1, 5, 1⟩ =
        .ok ⟨⟨1, 0, 10⟩, 0⟩ ∧
      s.mintTxStore.writeMintTxs (fun _ _ => true) 3 [⟨1, 5, 1⟩] s.mintConfigStore =
        .error (.totalMintedAmountCannotDecrease 5 8) ∧
      LedgerDB.appendBlock ⟨id, id, MerkleHasher.free, fun _ => true, (·.keyImages.length),
          fun _ => true, fun _ _ => true⟩ s ⟨4, 0, 3, 3, 0⟩ ⟨[], [7], [], [⟨1, 5, 1⟩]⟩ false =
        .error (.totalMintedAmountCannotDecrease 5 8) :=
  ⟨LedgerDB.commit ⟨id, id, MerkleHasher.free, fun _ => true, (·.keyImages.length),
      fun _ => true, fun _ _ => true⟩
    (LedgerDB.commit ⟨id, id, MerkleHasher.free, fun _ => true, (·.keyImages.length),
        fun _ => true, fun _ _ => true⟩
      (LedgerDB.commit ⟨id, id, MerkleHasher.free, fun _ => true, (·.keyImages.length),
          fun _ => true, fun _ _ => true⟩ LedgerDB.create ⟨1, 0, 0, 0, 0⟩ ⟨[], [5], [], []⟩ false)
      ⟨2, 0, 1, 1, 0⟩ ⟨[], [], [⟨⟨1, [⟨1, 0, 10⟩, ⟨1, 0, 10⟩], 0, 20⟩, 0⟩], []⟩ false)
    ⟨3, 0, 2, 2, 0⟩ ⟨[], [6], [], [⟨1, 8, 0⟩]⟩ false,
    .commit (.commit (.commit .create)), rfl,
    @writeMintTxs_rejects_matched_config _ _ _ _ _ _ _ _ _ ⟨⟨1, 0, 10⟩, 0⟩ ⟨⟨1, 0, 10⟩, 8⟩ _
      rfl rfl rfl rfl (by decide), rfl⟩

end MintTxStore

end MobileCoin.LedgerDb
