import MobileCoin.Lib.BestSelection
import MobileCoin.Lib.U64

/-!
# Input selection in the sample paykit

`input_selection_heuristic` picks which of a wallet's tx outs to spend for an amount, using at
most `max_inputs` of them (clamped to `MAX_INPUTS`). It refuses when the wallet's total does
not cover the amount; otherwise it fills a table `dp_table[i][j]`, the largest sum of at most
`j` values from `tx_values[i..]`, refuses with a compaction hint when even the best
`max_inputs` values fall short, and otherwise walks the values in order, taking each one that
still leaves the amount reachable with the slots that remain. All sums are `u64` and wrap, as
release builds do; an `assert!` that fails is a panic, here `none`.

The wallet total wraps when the values sum to `2 ^ 64` or more, and the function then refuses
a wallet that covers the amount. Below that, the table holds the best sums, and the walk
returns the lexicographically least selection of at most `max_inputs` indices that covers
the amount.
-/

namespace MobileCoin.SamplePaykit

open BestSelection

def MAX_INPUTS : Nat := 16

inductive InputSelectionError
  | insufficientFunds
  | walletCompactingNeeded (value : UInt64)
  deriving DecidableEq, Repr

/-- A row of `dp_table` from the row below it: `dp_table[i][0] = 0` and, for `j < MAX_INPUTS`,
`dp_table[i][j + 1] = max(tx_values[i] + dp_table[i + 1][j], dp_table[i + 1][j + 1])`. The row
has `MAX_INPUTS + 1` columns; no read goes past them. -/
def dpRow (txValue : UInt64) (below : Nat → UInt64) : Nat → UInt64
  | 0 => 0
  | j + 1 => if j < MAX_INPUTS then max (txValue + below j) (below (j + 1)) else 0

/-- `dp_table[i]`, filled from the last row of zeros up: it is a function of `tx_values[i..]`. -/
def dpTable : List UInt64 → Nat → UInt64
  | [] => fun _ => 0
  | txValue :: rest => dpRow txValue (dpTable rest)

/-- The greedy loop from index `idx`, with the values from `idx` on, the indices taken so far
and their `u64` total; `dpTable rest` is `dp_table[idx + 1]`. -/
def greedy (amount : UInt64) (maxInputs : Nat) :
    Nat → List UInt64 → List Nat → UInt64 → Option (List Nat)
  | _, [], result, value =>
    -- the two asserts after the loop
    if result.length ≤ maxInputs ∧ value ≥ amount then some result else none
  | idx, txValue :: rest, result, value =>
    if value ≥ amount then
      if result.length ≤ maxInputs then some result else none
    else if result.length < maxInputs then
      if value + txValue + dpTable rest (maxInputs - result.length - 1) ≥ amount then
        greedy amount maxInputs (idx + 1) rest (result ++ [idx]) (value + txValue)
      else greedy amount maxInputs (idx + 1) rest result value
    else none

def inputSelectionHeuristic (txValues : List UInt64) (amount : UInt64) (maxInputs : Nat) :
    Option (Except InputSelectionError (List Nat)) :=
  let maxInputs := min maxInputs MAX_INPUTS
  if txValues.sum < amount then some (.error .insufficientFunds)
  else if dpTable txValues maxInputs < amount then
    some (.error (.walletCompactingNeeded (dpTable txValues (max maxInputs 3))))
  else (greedy amount maxInputs 0 txValues [] 0).map .ok

/-- Two values of `2 ^ 63` cover an amount of one, but their `u64` total wraps to zero and the
wallet is refused as short of funds. -/
theorem inputSelectionHeuristic_wrapped_total :
    inputSelectionHeuristic [9223372036854775808, 9223372036854775808] 1 2 =
        some (.error .insufficientFunds) ∧
      1 ≤ ([9223372036854775808, 9223372036854775808].map UInt64.toNat).sum := by
  have wrapped : ([9223372036854775808, 9223372036854775808] : List UInt64).sum = 0 := by decide
  refine ⟨?_, by decide⟩
  simp only [inputSelectionHeuristic, wrapped]
  rfl

/-! ### The table -/

section Table

variable {txValues : List UInt64}

/-- Without a wrap, `dp_table[i][j]` is the best sum of at most `j` of the values from `i` on. -/
theorem dpTable_isBest (noWrap : (txValues.map UInt64.toNat).sum < 2 ^ 64) :
    ∀ {i}, i ≤ txValues.length → ∀ {j}, j ≤ MAX_INPUTS →
      IsBest (txValues.map UInt64.toNat) i j (dpTable (txValues.drop i) j).toNat := by
  intro i inside
  -- the table is filled from the last row up: induction on the rows below `i`
  induction h : txValues.length - i generalizing i with
  | zero =>
    intro j _
    rw [List.drop_eq_nil_of_le (by omega), dpTable]
    exact isBest_end (by simp; omega) j
  | succ n ih =>
    have before : i < txValues.length := by omega
    rw [List.drop_eq_getElem_cons before, dpTable]
    intro j small
    cases j with
    | zero => exact isBest_zero i
    | succ j =>
      have taken := ih (i := i + 1) (by omega) (by omega) (j := j) (by omega)
      have skipped := ih (i := i + 1) (by omega) (by omega) (j := j + 1) small
      -- the `u64` sum in the recurrence does not wrap
      have bounded : txValues[i].toNat + (dpTable (txValues.drop (i + 1)) j).toNat ≤ U64.MAX := by
        have below := taken.le_sum_drop
        have whole : ((txValues.map UInt64.toNat).drop i).sum =
            txValues[i].toNat + ((txValues.map UInt64.toNat).drop (i + 1)).sum := by
          rw [List.drop_eq_getElem_cons (by simpa using before), List.sum_cons, List.getElem_map]
        have within := (List.drop_sublist i (txValues.map UInt64.toNat)).sum_le_sum
          fun _ _ => Nat.zero_le _
        unfold U64.MAX
        omega
      have recurrence := isBest_succ (by simpa using before) taken skipped
      rw [List.getD_eq_getElem _ _ (by simpa using before), List.getElem_map,
        ← U64.toNat_add_of_le bounded, ← UInt64.toNat_max] at recurrence
      simpa [dpRow, show j < MAX_INPUTS by omega] using recurrence

end Table

/-! ### The walk -/

section Walk

variable {txValues : List UInt64} {amount : UInt64} {maxInputs : Nat}

theorem drop_eq_cons_parts {rest : List UInt64} {idx : Nat} {txValue : UInt64}
    (rest_eq : txValues.drop idx = txValue :: rest) :
    idx < (txValues.map UInt64.toNat).length ∧
      (txValues.map UInt64.toNat).getD idx 0 = txValue.toNat ∧ txValues.drop (idx + 1) = rest := by
  have inside : idx < txValues.length := by
    have lengths := congrArg List.length rest_eq
    simp only [List.length_drop, List.length_cons] at lengths
    omega
  have at_idx : txValues[idx] = txValue := by
    have split := rest_eq
    rw [List.drop_eq_getElem_cons inside, List.cons.injEq] at split
    exact split.1
  refine ⟨by simpa using inside, ?_, ?_⟩
  · rw [List.getD_eq_getElem _ _ (by simpa using inside), List.getElem_map, at_idx]
  · rw [List.drop_add_one_eq_tail_drop, rest_eq, List.tail_cons]

/-- The walk from `idx`, with `result` taken and `value` its total, returns the first covering
extension of `result`, when there is one and nothing wraps. The induction is on the values
still to walk; each step is one of the three moves of `FirstCovering`, and the table decides
between taking and skipping. -/
theorem greedy_firstCovering (noWrap : (txValues.map UInt64.toNat).sum < 2 ^ 64)
    (fits : maxInputs ≤ MAX_INPUTS) :
    ∀ {rest idx result value}, txValues.drop idx = rest → result.length ≤ maxInputs →
      value.toNat = selectedSum (txValues.map UInt64.toNat) result →
      value.toNat + (rest.map UInt64.toNat).sum < 2 ^ 64 →
      (∃ selection, CoveringExtension (txValues.map UInt64.toNat) amount.toNat idx maxInputs
        result selection) →
      ∃ first, greedy amount maxInputs idx rest result value = some first ∧
        FirstCovering (txValues.map UInt64.toNat) amount.toNat idx maxInputs result first := by
  intro rest
  induction rest with
  | nil =>
    intro idx result value rest_eq room sum _ ⟨selection, covering⟩
    -- past the last value only what was taken is left, and the asserts pass
    have past : (txValues.map UInt64.toNat).length ≤ idx := by
      simpa using List.drop_eq_nil_iff.mp rest_eq
    obtain ⟨-, reached⟩ := covering.eq_of_stuck (.inr past)
    refine ⟨result, ?_, firstCovering_self reached⟩
    rw [greedy, if_pos ⟨room, UInt64.le_iff_toNat_le.mpr (sum ▸ reached)⟩]
  | cons txValue rest ih =>
    intro idx result value rest_eq room sum bounded ⟨selection, covering⟩
    obtain ⟨inside, at_idx, tail⟩ := drop_eq_cons_parts rest_eq
    rw [greedy]
    by_cases reached : value ≥ amount
    · -- stop
      rw [if_pos reached, if_pos room]
      exact ⟨result, rfl, firstCovering_self (sum ▸ UInt64.le_iff_toNat_le.mp reached)⟩
    have short : selectedSum (txValues.map UInt64.toNat) result < amount.toNat := by
      rw [← sum]
      exact Nat.not_le.mp fun le => reached (UInt64.le_iff_toNat_le.mpr le)
    by_cases full : result.length < maxInputs
    case neg =>
      obtain ⟨-, reached'⟩ := covering.eq_of_stuck (.inl (Nat.not_lt.mp full))
      exact absurd reached' (Nat.not_le.mpr short)
    rw [if_neg reached, if_pos full]
    -- the table's entry below is the best the values after `idx` can add with the room left
    have sameRoom : maxInputs - result.length - 1 = maxInputs - (result ++ [idx]).length := by
      simp only [List.length_append, List.length_singleton]
      omega
    have best := dpTable_isBest noWrap (i := idx + 1) (by simpa using inside)
      (j := maxInputs - result.length - 1) (by omega)
    rw [tail] at best
    have below : (dpTable rest (maxInputs - result.length - 1)).toNat ≤ (rest.map UInt64.toNat).sum := by
      simpa [← tail] using best.le_sum_drop
    have restSum : ((txValue :: rest).map UInt64.toNat).sum =
        txValue.toNat + (rest.map UInt64.toNat).sum := by
      rw [List.map_cons, List.sum_cons]
    have takenTotal : (value + txValue).toNat = value.toNat + txValue.toNat :=
      U64.toNat_add_of_le (by unfold U64.MAX; omega)
    have takenSum : (value + txValue).toNat =
        selectedSum (txValues.map UInt64.toNat) (result ++ [idx]) := by
      rw [selectedSum_append, selectedSum_cons, selectedSum_nil, at_idx, takenTotal, sum,
        Nat.add_zero]
    have testTotal : (value + txValue + dpTable rest (maxInputs - result.length - 1)).toNat =
        (value + txValue).toNat + (dpTable rest (maxInputs - result.length - 1)).toNat :=
      U64.toNat_add_of_le (by unfold U64.MAX; omega)
    have takenBest : IsBest (txValues.map UInt64.toNat) (idx + 1)
        (maxInputs - (result ++ [idx]).length) (dpTable rest (maxInputs - result.length - 1)).toNat := by
      rw [← sameRoom]
      exact best
    have reachable : (∃ selection, CoveringExtension (txValues.map UInt64.toNat) amount.toNat
        (idx + 1) maxInputs (result ++ [idx]) selection) ↔
        amount ≤ value + txValue + dpTable rest (maxInputs - result.length - 1) := by
      rw [exists_coveringExtension_iff takenBest, ← takenSum, UInt64.le_iff_toNat_le, testTotal]
    by_cases takes : value + txValue + dpTable rest (maxInputs - result.length - 1) ≥ amount
    · -- take `txValues[idx]`: the amount stays reachable with it
      rw [if_pos takes]
      obtain ⟨first, walked, isFirst⟩ := @ih (idx + 1) (result ++ [idx]) (value + txValue) tail
        (by simp only [List.length_append, List.length_singleton]; omega) takenSum (by omega)
        (reachable.mpr takes)
      exact ⟨first, walked, isFirst.of_take inside full short⟩
    · -- skip it: no covering extension takes it
      rw [if_neg takes]
      have noTake := fun selection taking => takes (reachable.mp ⟨selection, taking⟩)
      obtain ⟨first, walked, isFirst⟩ := ih tail room sum (by omega)
        ⟨selection, covering.of_skip short noTake⟩
      exact ⟨first, walked, isFirst.of_skip short noTake⟩

theorem inputSelectionHeuristic_outcomes (noWrap : (txValues.map UInt64.toNat).sum < 2 ^ 64) :
    let values := txValues.map UInt64.toNat
    let k := min maxInputs MAX_INPUTS
    values.sum < amount.toNat ∧
        inputSelectionHeuristic txValues amount maxInputs = some (.error .insufficientFunds) ∨
      amount.toNat ≤ values.sum ∧
        (∀ selection, Selection values 0 k selection → selectedSum values selection < amount.toNat) ∧
        inputSelectionHeuristic txValues amount maxInputs =
          some (.error (.walletCompactingNeeded (dpTable txValues (max k 3)))) ∨
      ∃ first, FirstCovering values amount.toNat 0 k [] first ∧
        inputSelectionHeuristic txValues amount maxInputs = some (.ok first) := by
  intro values k
  have fits : k ≤ MAX_INPUTS := Nat.min_le_right _ _
  have total : txValues.sum.toNat = values.sum := by
    rw [U64.toNat_sum, Nat.mod_eq_of_lt noWrap]
  have best : IsBest values 0 k (dpTable txValues k).toNat := by
    simpa using dpTable_isBest noWrap (i := 0) (Nat.zero_le _) (j := k) fits
  by_cases short : txValues.sum < amount
  · refine .inl ⟨?_, if_pos short⟩
    rwa [UInt64.lt_iff_toNat_lt, total] at short
  have enough : amount.toNat ≤ values.sum := by
    rwa [UInt64.not_lt, UInt64.le_iff_toNat_le, total] at short
  by_cases uncovered : dpTable txValues k < amount
  · -- even the best `k` values fall short
    refine .inr (.inl ⟨enough, fun selection selected => ?_, ?_⟩)
    · exact Nat.lt_of_le_of_lt (best.2 selection selected) (UInt64.lt_iff_toNat_lt.mp uncovered)
    · simp only [inputSelectionHeuristic, if_neg short]
      exact if_pos uncovered
  · -- the table says the amount is reachable, so the walk finds the first selection
    have covered : ∃ selection, CoveringExtension values amount.toNat 0 k [] selection := by
      rw [exists_coveringExtension_iff (by simpa using best), selectedSum_nil, Nat.zero_add]
      exact UInt64.le_iff_toNat_le.mp (UInt64.not_lt.mp uncovered)
    have start : (0 : UInt64).toNat = selectedSum values [] := rfl
    obtain ⟨first, walked, isFirst⟩ := greedy_firstCovering noWrap fits List.drop_zero (by simp)
      start (by simpa using noWrap) covered
    refine .inr (.inr ⟨first, isFirst, ?_⟩)
    simp only [inputSelectionHeuristic, if_neg short]
    rw [if_neg uncovered, walked, Option.map_some]

end Walk

/-- Below a wrap of the wallet total, the heuristic never panics: it refuses a wallet exactly
when its total is short of the amount; it asks for compaction exactly when no `max_inputs`
values cover the amount, with the best sum of `max(max_inputs, 3)` values; and otherwise it
returns the first selection of at most `max_inputs` indices, in lexicographic order, that
covers the amount. -/
theorem inputSelectionHeuristic_spec (txValues : List UInt64) (amount : UInt64) (maxInputs : Nat)
    (noWrap : (txValues.map UInt64.toNat).sum < 2 ^ 64) :
    let values := txValues.map UInt64.toNat
    let k := min maxInputs MAX_INPUTS
    (inputSelectionHeuristic txValues amount maxInputs).isSome ∧
    (inputSelectionHeuristic txValues amount maxInputs = some (.error .insufficientFunds) ↔
      values.sum < amount.toNat) ∧
    (∀ best, inputSelectionHeuristic txValues amount maxInputs =
        some (.error (.walletCompactingNeeded best)) ↔
      amount.toNat ≤ values.sum ∧
        (∀ selection, Selection values 0 k selection → selectedSum values selection < amount.toNat) ∧
        IsBest values 0 (max k 3) best.toNat) ∧
    (∀ inputs, inputSelectionHeuristic txValues amount maxInputs = some (.ok inputs) ↔
      Selection values 0 k inputs ∧ amount.toNat ≤ selectedSum values inputs ∧
        ∀ selection, Selection values 0 k selection → amount.toNat ≤ selectedSum values selection →
          ¬ selection < inputs) := by
  intro values k
  have hint : IsBest values 0 (max k 3) (dpTable txValues (max k 3)).toNat := by
    simpa using dpTable_isBest noWrap (i := 0) (Nat.zero_le _) (j := max k 3)
      (max_le (Nat.min_le_right _ _) (by decide))
  rcases inputSelectionHeuristic_outcomes noWrap with ⟨short, outcome⟩ |
    ⟨enough, uncovered, outcome⟩ | ⟨first, isFirst, outcome⟩
  · -- refused for a short wallet: nothing covers the amount
    rw [outcome]
    refine ⟨rfl, iff_of_true rfl short, fun best => iff_of_false (by simp) fun ⟨enough, _⟩ =>
      Nat.not_le.mpr short enough, fun inputs => iff_of_false (by simp) ?_⟩
    rintro ⟨selected, reached, -⟩
    have within := selectedSum_le_sum_drop selected
    rw [List.drop_zero] at within
    exact Nat.not_le.mpr short (reached.trans within)
  · -- a compaction hint with the best sum of `max k 3` values
    rw [outcome]
    refine ⟨rfl, iff_of_false (by simp) (Nat.not_lt.mpr enough), fun best => ?_,
      fun inputs => iff_of_false (by simp) ?_⟩
    · simp only [Option.some.injEq, Except.error.injEq, InputSelectionError.walletCompactingNeeded.injEq]
      constructor
      · rintro rfl
        exact ⟨enough, uncovered, hint⟩
      · rintro ⟨-, -, isBest⟩
        exact UInt64.toNat_inj.mp (hint.unique isBest)
    · rintro ⟨selected, reached, -⟩
      exact Nat.not_le.mpr (uncovered inputs selected) reached
  · -- the first covering selection
    obtain ⟨selected, reached, -⟩ := firstCovering_nil_iff.mp isFirst
    rw [outcome]
    refine ⟨rfl, iff_of_false (by simp) ?_, fun best => iff_of_false (by simp) ?_, fun inputs => ?_⟩
    · have within := selectedSum_le_sum_drop selected
      rw [List.drop_zero] at within
      exact Nat.not_lt.mpr (reached.trans within)
    · rintro ⟨-, uncovered, -⟩
      exact Nat.not_le.mpr (uncovered first selected) reached
    · rw [Option.some.injEq, Except.ok.injEq, ← firstCovering_nil_iff]
      exact ⟨fun returned => returned ▸ isFirst, isFirst.unique⟩

theorem inputSelectionHeuristic_spec_sample :
    (([5, 3, 4] : List UInt64).map UInt64.toNat).sum < 2 ^ 64 ∧
      (inputSelectionHeuristic [5, 3, 4] 7 2).isSome :=
  ⟨by decide, (inputSelectionHeuristic_spec [5, 3, 4] 7 2 (by decide)).1⟩

/-- The walk takes `5`, then `3`, which reaches the amount before `4` is looked at. -/
example : inputSelectionHeuristic [5, 3, 4] 7 2 = some (.ok [0, 1]) := by decide

end MobileCoin.SamplePaykit
