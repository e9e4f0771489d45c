import MobileCoin.Lib.Except
import MobileCoin.Lib.FirstMatch
import MobileCoin.Transaction.BlockVersion

/-!
# Partial fills (MCIP 42)

A signed contingent input may let the counterparty fill it partially: its rules name a
partial-fill change output of value `C`, a least fill `m`, and partial-fill outputs. The
counterparty keeps change `c ≤ C - m` and pays each partial-fill output of value `v` at least
the fraction `(C - c) / C` of it.

`TransactionBuilder::add_presigned_partial_fill_input` computes each fractional output as
`division_helper(v, C - c, C)`, a rounded-up `u128` division, and
`InputRules::verify_partial_fill_rules` checks the fraction cross-multiplied in `u128`. Both
are modelled from the source with every amount already revealed, and a tx out compared
ignoring its amount as a value of an arbitrary type `T`. The builder's fractional value is the
least one the validator accepts, and what the builder outputs passes the validator.
-/

namespace MobileCoin.PartialFill

/-- `u128::MAX + 1`: `u128` values are the naturals below it, wrapping as release builds do. -/
def U128 : Nat := 2 ^ 128

structure Amount where
  value : UInt64
  tokenId : UInt64
  deriving DecidableEq, Repr

/-- A tx out of the rules or of the transaction: what `eq_ignoring_amount` compares, and the
amount it reveals. -/
structure RevealedTxOut (T : Type) where
  txOut : T
  amount : Amount
  deriving DecidableEq, Repr

/-- The partial-fill fields of `InputRules`. -/
structure InputRules (T : Type) where
  partialFillChange : Option (RevealedTxOut T)
  partialFillOutputs : List (RevealedTxOut T)
  minPartialFillValue : UInt64
  deriving Repr

inductive SignedContingentInputError
  | featureNotSupportedAtBlockVersion (version : UInt32) (feature : String)
  | missingProofs
  | missingRules
  | missingPartialFillChange
  | zeroPartialFillChange
  | minPartialFillValueExceedsPartialChange
  | tokenIdMismatch
  | changeLimitExceeded
  deriving DecidableEq, Repr

inductive InputRuleError
  | minPartialFillValueExceedsPartialFillChange
  | zeroPartialFillChange
  | missingFractionalChangeOutput
  | fractionalOutputTokenIdMismatch
  | fractionalChangeOutputAmountExceedsLimit
  | missingFractionalOutput
  | fractionalOutputAmountDoesNotRespectFillFraction
  | partialFillOutputsNotExpected
  | minPartialFillValueNotExpected
  deriving DecidableEq, Repr

variable {T : Type}

/-- `division_helper`: `partial_fill_output_value * num / denom` rounded up, in `u128`, cast to
`u64`. Its one caller has rejected `denom = 0`, on which the source's division panics. -/
def divisionHelper (partialFillOutputValue : UInt64) (num denom : Nat) : UInt64 :=
  let num128 := partialFillOutputValue.toNat * num % U128
  UInt64.ofNat ((num128 + (denom - 1)) % U128 / denom)

/-- The value logic of `TransactionBuilder::add_presigned_partial_fill_input`, from the
builder's outputs so far: the outputs after it pushed the fractional outputs and the
fractional change, and the fractional amounts it returns. -/
def addPresignedPartialFillInput (outputs : List (RevealedTxOut T)) (blockVersion : BlockVersion)
    (ringLen proofsLen : Nat) (rules : Option (InputRules T)) (sciChangeAmount : Amount) :
    Except SignedContingentInputError (List (RevealedTxOut T) × List Amount) := do
  if !blockVersion.maskedAmountV2IsSupported then
    throw (.featureNotSupportedAtBlockVersion blockVersion.val "partial fills")
  if ringLen ≠ proofsLen then throw .missingProofs
  let rules ← okOr rules .missingRules
  let partialFillChange ← okOr rules.partialFillChange .missingPartialFillChange
  let partialFillChangeAmount := partialFillChange.amount
  if partialFillChangeAmount.value = 0 then throw .zeroPartialFillChange
  if rules.minPartialFillValue > partialFillChangeAmount.value then
    throw .minPartialFillValueExceedsPartialChange
  if partialFillChangeAmount.tokenId ≠ sciChangeAmount.tokenId then throw .tokenIdMismatch
  if partialFillChangeAmount.value - rules.minPartialFillValue < sciChangeAmount.value then
    throw .changeLimitExceeded
  let fillFractionNum := (partialFillChangeAmount.value - sciChangeAmount.value).toNat
  let fillFractionDenom := partialFillChangeAmount.value.toNat
  let fractionalOutputs := rules.partialFillOutputs.map fun r =>
    (⟨r.txOut, ⟨divisionHelper r.amount.value fillFractionNum fillFractionDenom, r.amount.tokenId⟩⟩ :
      RevealedTxOut T)
  pure (outputs ++ fractionalOutputs ++ [⟨partialFillChange.txOut, sciChangeAmount⟩],
    fractionalOutputs.map RevealedTxOut.amount)

/-- The validator's test of one fractional output:
`fractional_output_value * denom < partial_fill_output_value * num` in `u128`. -/
def fillFractionViolated (fractionalOutputValue partialFillOutputValue : UInt64) (num denom : Nat) :
    Bool :=
  fractionalOutputValue.toNat * denom % U128 < partialFillOutputValue.toNat * num % U128

/-- The body of the validator's loop over the partial-fill outputs: find the fractional
output, and check its token and fraction. -/
def verifyFractionalOutput [DecidableEq T] (outputs : List (RevealedTxOut T))
    (fillFractionNum fillFractionDenom : Nat) (partialFillOutput : RevealedTxOut T) :
    Except InputRuleError Unit := do
  let fractionalOutput ← okOr (outputs.find? (·.txOut = partialFillOutput.txOut))
    .missingFractionalOutput
  if fractionalOutput.amount.tokenId ≠ partialFillOutput.amount.tokenId then
    throw .fractionalOutputTokenIdMismatch
  if fillFractionViolated fractionalOutput.amount.value partialFillOutput.amount.value
      fillFractionNum fillFractionDenom then
    throw .fractionalOutputAmountDoesNotRespectFillFraction

/-- `InputRules::verify_partial_fill_rules`, on the outputs of the transaction. -/
def verifyPartialFillRules [DecidableEq T] (rules : InputRules T)
    (outputs : List (RevealedTxOut T)) : Except InputRuleError Unit :=
  match rules.partialFillChange with
  | some partialFillChange => do
    let partialFillChangeAmount := partialFillChange.amount
    if partialFillChangeAmount.value < rules.minPartialFillValue then
      throw .minPartialFillValueExceedsPartialFillChange
    if partialFillChangeAmount.value = 0 then throw .zeroPartialFillChange
    let fractionalChange ← okOr (outputs.find? (·.txOut = partialFillChange.txOut))
      .missingFractionalChangeOutput
    let fractionalChangeAmount := fractionalChange.amount
    if fractionalChangeAmount.tokenId ≠ partialFillChangeAmount.tokenId then
      throw .fractionalOutputTokenIdMismatch
    if fractionalChangeAmount.value > partialFillChangeAmount.value - rules.minPartialFillValue then
      throw .fractionalChangeOutputAmountExceedsLimit
    let fillFractionNum := (partialFillChangeAmount.value - fractionalChangeAmount.value).toNat
    let fillFractionDenom := partialFillChangeAmount.value.toNat
    rules.partialFillOutputs.forM (verifyFractionalOutput outputs fillFractionNum fillFractionDenom)
  | none => do
    if !rules.partialFillOutputs.isEmpty then throw .partialFillOutputsNotExpected
    if rules.minPartialFillValue ≠ 0 then throw .minPartialFillValueNotExpected

/-! ### The arithmetic -/

/-- A product of two `u64` values plus a `u64` value less one stays below `u128::MAX + 1`. -/
theorem mul_add_pred_lt_U128 (a b d : UInt64) : a.toNat * b.toNat + (d.toNat - 1) < U128 := by
  have product : a.toNat * b.toNat ≤ (2 ^ 64 - 1) * (2 ^ 64 - 1) :=
    Nat.mul_le_mul (Nat.le_pred_of_lt a.toNat_lt) (Nat.le_pred_of_lt b.toNat_lt)
  have := d.toNat_lt
  unfold U128
  omega

theorem ceil_le_iff {a b g : Nat} (pos : 0 < b) : (a + (b - 1)) / b ≤ g ↔ a ≤ b * g := by
  rw [Nat.div_le_iff_le_mul_add_pred pos]
  omega

section Arithmetic

variable {v n C g : UInt64}

theorem divisionHelper_toNat (within : n ≤ C) (pos : 0 < C.toNat) :
    (divisionHelper v n.toNat C.toNat).toNat = (v.toNat * n.toNat + (C.toNat - 1)) / C.toNat := by
  have noWrap := mul_add_pred_lt_U128 v n C
  -- the quotient is at most `v`, so the cast to `u64` keeps it
  have quotient : (v.toNat * n.toNat + (C.toNat - 1)) / C.toNat ≤ v.toNat := by
    rw [ceil_le_iff pos, Nat.mul_comm C.toNat]
    exact Nat.mul_le_mul_left _ (UInt64.le_iff_toNat_le.mp within)
  rw [divisionHelper, Nat.mod_eq_of_lt (by omega : v.toNat * n.toNat < U128),
    Nat.mod_eq_of_lt noWrap]
  exact UInt64.toNat_ofNat_of_lt' (Nat.lt_of_le_of_lt quotient v.toNat_lt)

theorem le_divisionHelper_iff (within : n ≤ C) (pos : 0 < C.toNat) :
    divisionHelper v n.toNat C.toNat ≤ g ↔ v.toNat * n.toNat ≤ g.toNat * C.toNat := by
  rw [UInt64.le_iff_toNat_le, divisionHelper_toNat within pos, ceil_le_iff pos, Nat.mul_comm g.toNat]

theorem divisionHelper_le (within : n ≤ C) (pos : 0 < C.toNat) :
    divisionHelper v n.toNat C.toNat ≤ v := by
  rw [le_divisionHelper_iff within pos]
  exact Nat.mul_le_mul_left _ (UInt64.le_iff_toNat_le.mp within)

theorem fillFractionViolated_eq_false_iff :
    fillFractionViolated g v n.toNat C.toNat = false ↔ v.toNat * n.toNat ≤ g.toNat * C.toNat := by
  have left := mul_add_pred_lt_U128 g C 0
  have right := mul_add_pred_lt_U128 v n 0
  rw [fillFractionViolated, Nat.mod_eq_of_lt (by omega), Nat.mod_eq_of_lt (by omega)]
  simp

end Arithmetic

/-! ### The builder's and the validator's checks -/

section Checks

variable {rules : InputRules T} {partialFillChange : RevealedTxOut T} {blockVersion : BlockVersion}

/-- Once the rules carry a partial-fill change that passes its own checks, the builder either
rejects the change as over the limit or pushes its outputs. -/
theorem addPresignedPartialFillInput_eq (change : rules.partialFillChange = some partialFillChange)
    (pos : partialFillChange.amount.value ≠ 0)
    (min : rules.minPartialFillValue ≤ partialFillChange.amount.value)
    (supported : blockVersion.maskedAmountV2IsSupported = true) (outputs : List (RevealedTxOut T))
    (ringLen : Nat) (c : UInt64) :
    addPresignedPartialFillInput outputs blockVersion ringLen ringLen (some rules)
        ⟨c, partialFillChange.amount.tokenId⟩ =
      if partialFillChange.amount.value - rules.minPartialFillValue < c then
        .error .changeLimitExceeded
      else
        let fractionalOutputs := rules.partialFillOutputs.map fun r =>
          (⟨r.txOut, ⟨divisionHelper r.amount.value (partialFillChange.amount.value - c).toNat
            partialFillChange.amount.value.toNat, r.amount.tokenId⟩⟩ : RevealedTxOut T)
        .ok (outputs ++ fractionalOutputs ++ [⟨partialFillChange.txOut, ⟨c, partialFillChange.amount.tokenId⟩⟩],
          fractionalOutputs.map RevealedTxOut.amount) := by
  have notAbove : ¬ rules.minPartialFillValue > partialFillChange.amount.value :=
    UInt64.not_lt.mpr min
  simp only [addPresignedPartialFillInput, supported, change, pos, notAbove, Bool.not_true,
    Bool.false_eq_true, ne_eq, not_true_eq_false, okOr_some, ok_bind, if_false]
  split <;> rfl

variable [DecidableEq T]

/-- Once the fractional change output is found with the change's token, the validator either
rejects it as over the limit or checks the partial-fill outputs. -/
theorem verifyPartialFillRules_eq (change : rules.partialFillChange = some partialFillChange)
    (pos : partialFillChange.amount.value ≠ 0)
    (min : rules.minPartialFillValue ≤ partialFillChange.amount.value)
    {outputs : List (RevealedTxOut T)} {c : UInt64}
    (found : outputs.find? (·.txOut = partialFillChange.txOut) =
      some ⟨partialFillChange.txOut, ⟨c, partialFillChange.amount.tokenId⟩⟩) :
    verifyPartialFillRules rules outputs =
      if c > partialFillChange.amount.value - rules.minPartialFillValue then
        .error .fractionalChangeOutputAmountExceedsLimit
      else
        rules.partialFillOutputs.forM (verifyFractionalOutput outputs
          (partialFillChange.amount.value - c).toNat partialFillChange.amount.value.toNat) := by
  have notBelow : ¬ partialFillChange.amount.value < rules.minPartialFillValue :=
    UInt64.not_lt.mpr min
  simp only [verifyPartialFillRules, change, notBelow, pos, found, okOr_some, ok_bind, if_false,
    ne_eq, not_true_eq_false]
  split <;> rfl

theorem verifyFractionalOutput_ne_limit (outputs : List (RevealedTxOut T)) (num denom : Nat)
    (partialFillOutput : RevealedTxOut T) :
    verifyFractionalOutput outputs num denom partialFillOutput ≠
      .error .fractionalChangeOutputAmountExceedsLimit := by
  unfold verifyFractionalOutput
  cases outputs.find? (·.txOut = partialFillOutput.txOut) with
  | none => simp [okOr]
  | some fractionalOutput =>
    simp only [okOr_some, ok_bind]
    split_ifs <;> simp [throw, throwThe, MonadExceptOf.throw]

omit [DecidableEq T] in
theorem addPresignedPartialFillInput_eq_ok {outputs : List (RevealedTxOut T)} {ringLen proofsLen : Nat}
    {rules? : Option (InputRules T)} {sciChangeAmount : Amount}
    {result : List (RevealedTxOut T) × List Amount} :
    addPresignedPartialFillInput outputs blockVersion ringLen proofsLen rules? sciChangeAmount =
        .ok result ↔
      blockVersion.maskedAmountV2IsSupported = true ∧ ringLen = proofsLen ∧
        ∃ rules partialFillChange, rules? = some rules ∧
          rules.partialFillChange = some partialFillChange ∧ partialFillChange.amount.value ≠ 0 ∧
          rules.minPartialFillValue ≤ partialFillChange.amount.value ∧
          partialFillChange.amount.tokenId = sciChangeAmount.tokenId ∧
          sciChangeAmount.value ≤ partialFillChange.amount.value - rules.minPartialFillValue ∧
          let fractionalOutputs := rules.partialFillOutputs.map fun r =>
            (⟨r.txOut, ⟨divisionHelper r.amount.value
              (partialFillChange.amount.value - sciChangeAmount.value).toNat
              partialFillChange.amount.value.toNat, r.amount.tokenId⟩⟩ : RevealedTxOut T)
          result = (outputs ++ fractionalOutputs ++ [⟨partialFillChange.txOut, sciChangeAmount⟩],
            fractionalOutputs.map RevealedTxOut.amount) := by
  unfold addPresignedPartialFillInput
  simp only [bind_ok_iff, throw_bind, ite_throw_eq_ok, okOr_eq_ok, pure_eq_ok,
    Bool.not_eq_true', Bool.not_eq_false, ne_eq, Decidable.not_not, gt_iff_lt, UInt64.not_lt,
    Except.ok.injEq]
  constructor
  · rintro ⟨supported, sameLength, rules, rfl, partialFillChange, change, pos, min, token, limit,
      rfl⟩
    exact ⟨supported, sameLength, rules, partialFillChange, rfl, change, pos, min, token, limit, rfl⟩
  · rintro ⟨supported, sameLength, rules, partialFillChange, rfl, change, pos, min, token, limit,
      rfl⟩
    exact ⟨supported, sameLength, rules, rfl, partialFillChange, change, pos, min, token, limit, rfl⟩

end Checks

/-! ### The builder and the validator agree -/

section Agreement

variable [DecidableEq T] {rules : InputRules T} {partialFillChange : RevealedTxOut T}

/-- For a change `C ≥ 1`, a least fill `m ≤ C` and a kept change `c ≤ C - m`, the builder's
`division_helper(v, C - c, C)` is `v * (C - c) / C` rounded up without `u128` overflow, at most
`v`, and the least `u64` value whose product with `C` covers `v * (C - c)`: the validator
accepts exactly the values from it up. And the builder's and the validator's limit checks
reject the same kept changes. -/
theorem builder_agrees_with_validator (change : rules.partialFillChange = some partialFillChange)
    (pos : 1 ≤ partialFillChange.amount.value)
    (min : rules.minPartialFillValue ≤ partialFillChange.amount.value) :
    (∀ c v : UInt64, c ≤ partialFillChange.amount.value - rules.minPartialFillValue →
      let C := partialFillChange.amount.value
      let f := divisionHelper v (C - c).toNat C.toNat
      v.toNat * (C - c).toNat + (C.toNat - 1) < U128 ∧
        f.toNat = (v.toNat * (C - c).toNat + (C.toNat - 1)) / C.toNat ∧ f ≤ v ∧
        (∀ g : UInt64, f ≤ g ↔ v.toNat * (C - c).toNat ≤ g.toNat * C.toNat) ∧
        (∀ g : UInt64, fillFractionViolated g v (C - c).toNat C.toNat = false ↔ f ≤ g)) ∧
    (∀ blockVersion : BlockVersion, blockVersion.maskedAmountV2IsSupported = true →
      ∀ (outputs txOutputs : List (RevealedTxOut T)) (ringLen : Nat) (c : UInt64),
        txOutputs.find? (·.txOut = partialFillChange.txOut) =
          some ⟨partialFillChange.txOut, ⟨c, partialFillChange.amount.tokenId⟩⟩ →
        (addPresignedPartialFillInput outputs blockVersion ringLen ringLen (some rules)
            ⟨c, partialFillChange.amount.tokenId⟩ = .error .changeLimitExceeded ↔
          verifyPartialFillRules rules txOutputs = .error .fractionalChangeOutputAmountExceedsLimit)) := by
  have positive : 0 < partialFillChange.amount.value.toNat := by
    have := UInt64.le_iff_toNat_le.mp pos
    simp only [UInt64.toNat_one] at this
    omega
  have nonzero : partialFillChange.amount.value ≠ 0 := fun zero => by simp [zero] at positive
  refine ⟨fun c v limit => ?_, fun blockVersion supported outputs txOutputs ringLen c found => ?_⟩
  · have within : partialFillChange.amount.value - c ≤ partialFillChange.amount.value :=
      UInt64.sub_le (UInt64.le_trans limit (UInt64.sub_le min))
    exact ⟨mul_add_pred_lt_U128 v _ _, divisionHelper_toNat within positive,
      divisionHelper_le within positive, fun g => le_divisionHelper_iff within positive,
      fun g => fillFractionViolated_eq_false_iff.trans (le_divisionHelper_iff within positive).symm⟩
  · rw [addPresignedPartialFillInput_eq change nonzero min supported,
      verifyPartialFillRules_eq change nonzero min found]
    -- both reject exactly when `C - m < c`; otherwise neither returns the limit error
    by_cases exceeds : partialFillChange.amount.value - rules.minPartialFillValue < c
    · simp [exceeds]
    · simp only [exceeds, if_false, reduceCtorEq, false_iff]
      exact forM_ne_error (verifyFractionalOutput_ne_limit _ _ _) _

theorem builder_agrees_with_validator_at_ten :
    let rules : InputRules Unit := ⟨some ⟨(), ⟨10, 0⟩⟩, [⟨(), ⟨7, 0⟩⟩], 2⟩
    rules.partialFillChange = some ⟨(), ⟨10, 0⟩⟩ ∧ (1 : UInt64) ≤ 10 ∧ rules.minPartialFillValue ≤ 10 ∧
      divisionHelper 7 (10 - 3 : UInt64).toNat (10 : UInt64).toNat = 5 :=
  have agrees := builder_agrees_with_validator
    (show (⟨some ⟨(), ⟨10, 0⟩⟩, [⟨(), ⟨7, 0⟩⟩], 2⟩ : InputRules Unit).partialFillChange =
      some ⟨(), ⟨10, 0⟩⟩ from rfl) (by decide) (by decide)
  ⟨rfl, by decide, by decide, UInt64.toNat_inj.mp (by
    rw [(agrees.1 3 7 (by decide)).2.1]
    rfl)⟩

/-- A fractional output the builder pushed passes the validator's checks, when the outputs are
told apart by what they hold besides their amounts. -/
theorem verifyFractionalOutput_built {outputs : List (RevealedTxOut T)} {C c : UInt64}
    (within : C - c ≤ C) (positive : 0 < C.toNat) (distinct : (outputs.map RevealedTxOut.txOut).Nodup)
    {partialFillOutput : RevealedTxOut T}
    (pushed : ⟨partialFillOutput.txOut, ⟨divisionHelper partialFillOutput.amount.value (C - c).toNat
      C.toNat, partialFillOutput.amount.tokenId⟩⟩ ∈ outputs) :
    verifyFractionalOutput outputs (C - c).toNat C.toNat partialFillOutput = .ok () := by
  have found := find?_key_eq_of_nodup distinct pushed
  have accepted : fillFractionViolated (divisionHelper partialFillOutput.amount.value (C - c).toNat
      C.toNat) partialFillOutput.amount.value (C - c).toNat C.toNat = false :=
    fillFractionViolated_eq_false_iff.mpr ((le_divisionHelper_iff within positive).mp
      (UInt64.le_refl _))
  simp only [verifyFractionalOutput, found, okOr_some, ok_bind, ne_eq, not_true_eq_false,
    if_false, accepted, Bool.false_eq_true]
  rfl

/-- What the builder outputs passes the validator's partial-fill rules, when the outputs are told
apart by what they hold besides their amounts. -/
theorem addPresignedPartialFillInput_verifies {outputs : List (RevealedTxOut T)}
    {blockVersion : BlockVersion} {ringLen proofsLen : Nat} {sciChangeAmount : Amount}
    {result : List (RevealedTxOut T) × List Amount}
    (built : addPresignedPartialFillInput outputs blockVersion ringLen proofsLen (some rules)
      sciChangeAmount = .ok result)
    (distinct : (result.1.map RevealedTxOut.txOut).Nodup) :
    verifyPartialFillRules rules result.1 = .ok () := by
  obtain ⟨-, -, rules', partialFillChange, same, change, pos, min, token, limit, rfl⟩ :=
    addPresignedPartialFillInput_eq_ok.mp built
  cases same
  obtain ⟨c, tokenId⟩ := sciChangeAmount
  subst token
  have positive : 0 < partialFillChange.amount.value.toNat := by
    rw [Nat.pos_iff_ne_zero, Ne, ← UInt64.toNat_zero, UInt64.toNat_inj]
    exact pos
  have within : partialFillChange.amount.value - c ≤ partialFillChange.amount.value :=
    UInt64.sub_le (UInt64.le_trans limit (UInt64.sub_le min))
  -- the fractional change is the last output the builder pushed
  have found := find?_key_eq_of_nodup distinct (List.mem_append_right _ List.mem_cons_self)
  rw [verifyPartialFillRules_eq change pos min found, if_neg (UInt64.not_lt.mpr limit)]
  refine forM_eq_ok_of_forall fun partialFillOutput member => ?_
  refine verifyFractionalOutput_built within positive distinct ?_
  exact List.mem_append_left _ (List.mem_append_right _ (List.mem_map_of_mem member))

theorem addPresignedPartialFillInput_verifies_at_ten :
    let rules : InputRules Nat := ⟨some ⟨0, ⟨10, 0⟩⟩, [⟨1, ⟨7, 0⟩⟩], 2⟩
    addPresignedPartialFillInput [] ⟨3⟩ 1 1 (some rules) ⟨3, 0⟩ =
      .ok ([⟨1, ⟨5, 0⟩⟩, ⟨0, ⟨3, 0⟩⟩], [⟨5, 0⟩]) ∧
      ([⟨1, ⟨5, 0⟩⟩, ⟨0, ⟨3, 0⟩⟩].map RevealedTxOut.txOut : List Nat).Nodup ∧
      verifyPartialFillRules rules [⟨1, ⟨5, 0⟩⟩, ⟨0, ⟨3, 0⟩⟩] = .ok () :=
  have built : addPresignedPartialFillInput [] ⟨3⟩ 1 1 (some ⟨some ⟨0, ⟨10, 0⟩⟩, [⟨1, ⟨7, 0⟩⟩], 2⟩)
      ⟨3, 0⟩ = .ok ([⟨1, ⟨5, 0⟩⟩, ⟨0, ⟨3, 0⟩⟩], [⟨5, 0⟩]) := by decide
  ⟨built, by decide, addPresignedPartialFillInput_verifies built (by decide)⟩

end Agreement

end MobileCoin.PartialFill
