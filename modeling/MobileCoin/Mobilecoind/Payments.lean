import MobileCoin.Lib.U64

/-!
# Selecting UTXOs for a payment

`TransactionsManager::select_utxos_for_value` picks the inputs of a payment: it sorts the
UTXOs of the token largest first, refuses a value above the sum of the `max_inputs` largest,
and then pops UTXOs smallest first into a window of at most `max_inputs`, dropping the oldest
(the smallest) when the window overflows, until the window covers the value. Sums are `u64`
and wrap, as release builds do; an `assert!` that fails is a panic, here `none`.

A value of zero panics: the window covers it before anything is popped, and the function
asserts that it selected something. For a positive value whose UTXOs sum below `2 ^ 64`, the
window after `j` pops holds the `min(j, max_inputs)` largest of the `j` smallest values, and the
function returns it for the least `j` at which it covers the value.
-/

namespace MobileCoin.Mobilecoind

/-- An `UnspentTxOut`: the fields the selection reads, and the rest (`tx_out`, the subaddress,
the key image, the spend heights) carried along as `X`. -/
structure UnspentTxOut (X : Type) where
  rest : X
  value : UInt64
  tokenId : UInt64
  deriving DecidableEq, Repr

inductive Error
  | insufficientFunds
  | insufficientFundsFragmentedUtxos
  deriving DecidableEq, Repr

variable {X : Type}

/-- The `u64` sum of the values, wrapping. -/
def totalValue (utxos : List (UnspentTxOut X)) : UInt64 := (utxos.map (·.value)).sum

/-- `sort_by_key(|utxo| Reverse(utxo.value))`: a stable sort, largest value first. -/
def sortByValueDesc (utxos : List (UnspentTxOut X)) : List (UnspentTxOut X) :=
  utxos.mergeSort fun a b => decide (b.value ≤ a.value)

/-- The selection loop. `sorted_utxos.pop()` takes the last, smallest UTXO, so the UTXOs still
to pop are passed smallest first; `selected_utxos.remove(0)` drops the oldest. -/
def selectLoop (value : UInt64) (maxInputs : Nat) (popOrder selectedUtxos : List (UnspentTxOut X)) :
    Except Error (List (UnspentTxOut X)) :=
  if totalValue selectedUtxos ≥ value then .ok selectedUtxos
  else
    match popOrder with
    | [] => .error .insufficientFunds
    | nextUtxo :: popOrder =>
      let pushed := selectedUtxos ++ [nextUtxo]
      selectLoop value maxInputs popOrder
        (if pushed.length > maxInputs then pushed.drop 1 else pushed)

def selectUtxosForValue (tokenId : UInt64) (utxos : List (UnspentTxOut X)) (value : UInt64)
    (maxInputs : Nat) : Option (Except Error (List (UnspentTxOut X))) :=
  let sortedUtxos := sortByValueDesc (utxos.filter (·.tokenId = tokenId))
  let maxSpendableAmount := totalValue (sortedUtxos.take maxInputs)
  if value > maxSpendableAmount then
    if totalValue sortedUtxos ≥ value then some (.error .insufficientFundsFragmentedUtxos)
    else some (.error .insufficientFunds)
  else
    match selectLoop value maxInputs sortedUtxos.reverse [] with
    | .error e => some (.error e)
    | .ok selectedUtxos =>
      -- the two sanity `assert!`s
      if selectedUtxos.isEmpty then none
      else if selectedUtxos.length > maxInputs then none
      else some (.ok selectedUtxos)

/-- A value of zero panics on the sanity assert, whatever the UTXOs: the empty selection
already covers it. -/
theorem selectUtxosForValue_zero_panics (tokenId : UInt64) (utxos : List (UnspentTxOut X))
    (maxInputs : Nat) : selectUtxosForValue tokenId utxos 0 maxInputs = none := by
  have covered : ∀ popOrder : List (UnspentTxOut X),
      selectLoop 0 maxInputs popOrder [] = .ok [] := by
    intro popOrder
    cases popOrder <;> simp [selectLoop, totalValue]
  simp only [selectUtxosForValue, gt_iff_lt, UInt64.not_lt.mpr UInt64.zero_le, covered]
  rfl

/-! ### The window -/

section Window

variable {α : Type}

/-- What the loop holds after `j` pops from `popOrder`: the last `maxInputs` of the first `j`. -/
def window (popOrder : List α) (maxInputs j : Nat) : List α :=
  (popOrder.take j).drop (j - maxInputs)

@[simp] theorem window_zero (popOrder : List α) (maxInputs : Nat) :
    window popOrder maxInputs 0 = [] := by
  simp [window]

theorem length_window (popOrder : List α) (maxInputs : Nat) {j : Nat} (inside : j ≤ popOrder.length) :
    (window popOrder maxInputs j).length = min j maxInputs := by
  rw [window, List.length_drop, List.length_take, Nat.min_eq_left inside]
  omega

theorem window_sublist (popOrder : List α) (maxInputs j : Nat) :
    (window popOrder maxInputs j).Sublist popOrder :=
  (List.drop_sublist _ _).trans (List.take_sublist _ _)

theorem map_window {β : Type} (f : α → β) (popOrder : List α) (maxInputs j : Nat) :
    (window popOrder maxInputs j).map f = window (popOrder.map f) maxInputs j := by
  rw [window, window, List.map_drop, List.map_take]

theorem window_succ {popOrder : List α} {maxInputs j : Nat} (inside : j < popOrder.length) :
    window popOrder maxInputs (j + 1) =
      let pushed := window popOrder maxInputs j ++ [popOrder[j]]
      if pushed.length > maxInputs then pushed.drop 1 else pushed := by
  have before : (popOrder.take j).length = j := List.length_take_of_le (Nat.le_of_lt inside)
  simp only [window, List.take_add_one, List.getElem?_eq_getElem inside, Option.toList_some,
    List.length_append, List.length_drop, before, List.length_singleton]
  by_cases full : maxInputs ≤ j
  · -- the window was full: the oldest goes
    rw [if_pos (by omega), ← List.drop_append_of_le_length
      (show j - maxInputs ≤ (popOrder.take j).length by omega), List.drop_drop]
    congr 1
    omega
  · rw [if_neg (by omega), show j - maxInputs = 0 by omega, show j + 1 - maxInputs = 0 by omega]
    rfl

theorem window_length_eq (popOrder : List α) (maxInputs : Nat) :
    window popOrder maxInputs popOrder.length = popOrder.drop (popOrder.length - maxInputs) := by
  rw [window, List.take_length]

end Window

/-! ### The loop -/

section Loop

variable {value : UInt64} {maxInputs : Nat} {popOrder : List (UnspentTxOut X)}

/-- What one turn of the loop does from the window after `j` pops: return it when it covers the
value, fail when nothing is left to pop, and go on from the window after `j + 1` pops. -/
theorem selectLoop_window {j : Nat} (inside : j ≤ popOrder.length) :
    selectLoop value maxInputs (popOrder.drop j) (window popOrder maxInputs j) =
      if totalValue (window popOrder maxInputs j) ≥ value then .ok (window popOrder maxInputs j)
      else if j < popOrder.length then
        selectLoop value maxInputs (popOrder.drop (j + 1)) (window popOrder maxInputs (j + 1))
      else .error .insufficientFunds := by
  rw [selectLoop.eq_def]
  split_ifs with covers before
  · rfl
  · rw [List.drop_eq_getElem_cons before, window_succ before]
  · rw [List.drop_eq_nil_of_le (by omega)]

/-- A successful loop returns the window after `j'` pops, for the first `j'` from `j` on at which
the window covers the value. -/
theorem selectLoop_eq_ok {selected : List (UnspentTxOut X)} :
    ∀ {j : Nat}, j ≤ popOrder.length →
      selectLoop value maxInputs (popOrder.drop j) (window popOrder maxInputs j) = .ok selected →
      ∃ j', j ≤ j' ∧ j' ≤ popOrder.length ∧ selected = window popOrder maxInputs j' ∧
        value ≤ totalValue selected ∧
        ∀ i, j ≤ i → i < j' → totalValue (window popOrder maxInputs i) < value := by
  -- induction on the number of UTXOs left to pop
  intro j inside
  induction h : popOrder.length - j generalizing j with
  | zero =>
    rw [selectLoop_window inside, if_neg (show ¬ j < popOrder.length by omega)]
    split_ifs with covers
    · rintro ⟨⟩
      exact ⟨j, le_refl j, inside, rfl, covers, fun i low high => absurd high (by omega)⟩
    · nofun
  | succ n ih =>
    rw [selectLoop_window inside, if_pos (show j < popOrder.length by omega)]
    split_ifs with covers
    · rintro ⟨⟩
      exact ⟨j, le_refl j, inside, rfl, covers, fun i low high => absurd high (by omega)⟩
    · intro later
      obtain ⟨j', after, bound, same, done, short⟩ := ih (by omega) (by omega) later
      refine ⟨j', by omega, bound, same, done, fun i low high => ?_⟩
      rcases Nat.eq_or_lt_of_le low with rfl | higher
      · exact UInt64.not_le.mp covers
      · exact short i higher high

theorem selectLoop_isOk {j : Nat} (inside : j ≤ popOrder.length)
    (reached : ∃ i, j ≤ i ∧ i ≤ popOrder.length ∧ value ≤ totalValue (window popOrder maxInputs i)) :
    ∃ selected, selectLoop value maxInputs (popOrder.drop j) (window popOrder maxInputs j) =
      .ok selected := by
  induction h : popOrder.length - j generalizing j with
  | zero =>
    obtain ⟨i, low, high, covers⟩ := reached
    obtain rfl : i = j := by omega
    rw [selectLoop_window inside, if_pos covers]
    exact ⟨_, rfl⟩
  | succ n ih =>
    rw [selectLoop_window inside, if_pos (show j < popOrder.length by omega)]
    split_ifs with covers
    · exact ⟨_, rfl⟩
    · obtain ⟨i, low, high, reaches⟩ := reached
      have later : j + 1 ≤ i := by
        rcases Nat.eq_or_lt_of_le low with rfl | higher
        · exact absurd reaches covers
        · exact higher
      exact ih (by omega) ⟨i, later, high, reaches⟩ (by omega)

end Loop

/-! ### The sort and the sums -/

section Sums

variable {utxos : List (UnspentTxOut X)}

/-- The values of the UTXOs as naturals. -/
def values (utxos : List (UnspentTxOut X)) : List Nat := utxos.map (·.value.toNat)

theorem sortByValueDesc_perm (utxos : List (UnspentTxOut X)) : (sortByValueDesc utxos).Perm utxos :=
  List.mergeSort_perm _ _

theorem pairwise_sortByValueDesc (utxos : List (UnspentTxOut X)) :
    (sortByValueDesc utxos).Pairwise fun a b => b.value ≤ a.value := by
  have sorted := @List.pairwise_mergeSort (UnspentTxOut X) (fun a b => decide (b.value ≤ a.value))
    (fun a b c ab bc => by simpa using UInt64.le_trans (of_decide_eq_true bc) (of_decide_eq_true ab))
    (fun a b => by rcases UInt64.le_total a.value b.value with ordered | ordered <;> simp [ordered])
    utxos
  exact sorted.imp fun ordered => of_decide_eq_true ordered

theorem values_reverse_sortByValueDesc (utxos : List (UnspentTxOut X)) :
    values (sortByValueDesc utxos).reverse = (values utxos).mergeSort fun a b => decide (a ≤ b) := by
  have ascending : (values (sortByValueDesc utxos).reverse).Pairwise (· ≤ ·) := by
    rw [values, List.map_reverse, List.pairwise_reverse, List.pairwise_map]
    exact (pairwise_sortByValueDesc utxos).imp fun ordered => UInt64.le_iff_toNat_le.mp ordered
  refine List.Perm.eq_of_pairwise' ascending (List.pairwise_mergeSort' (· ≤ ·) _) ?_
  rw [values, List.map_reverse]
  exact (List.reverse_perm _).trans (((List.mergeSort_perm _ _).map _).trans
    (List.mergeSort_perm _ _).symm)

theorem values_sortByValueDesc (utxos : List (UnspentTxOut X)) :
    values (sortByValueDesc utxos) = (values utxos).mergeSort fun a b => decide (b ≤ a) := by
  have descending : (values (sortByValueDesc utxos)).Pairwise fun a b => b ≤ a := by
    rw [values, List.pairwise_map]
    exact (pairwise_sortByValueDesc utxos).imp fun ordered => UInt64.le_iff_toNat_le.mp ordered
  refine List.Perm.eq_of_pairwise (fun a b _ _ ba ab => Nat.le_antisymm ab ba) descending
    (List.pairwise_mergeSort' (fun a b : Nat => b ≤ a) _) ?_
  exact ((List.mergeSort_perm _ _).map _).trans (List.mergeSort_perm _ _).symm

theorem totalValue_toNat {selected : List (UnspentTxOut X)} (noWrap : (values selected).sum < 2 ^ 64) :
    (totalValue selected).toNat = (values selected).sum := by
  rw [totalValue, U64.toNat_sum, List.map_map]
  exact Nat.mod_eq_of_lt noWrap

theorem sum_values_le {selected : List (UnspentTxOut X)} (part : selected.Subperm utxos) :
    (values selected).sum ≤ (values utxos).sum := by
  obtain ⟨sub, same, sublist⟩ := part
  calc (values selected).sum = (values sub).sum := (same.map _).sum_eq.symm
    _ ≤ (values utxos).sum := (sublist.map _).sum_le_sum fun _ _ => Nat.zero_le _

theorem sum_window_mergeSort (l : List Nat) (maxInputs : Nat) :
    (window (l.mergeSort fun a b => decide (a ≤ b)) maxInputs l.length).sum =
      ((l.mergeSort fun a b => decide (b ≤ a)).take maxInputs).sum := by
  -- read backwards, the ascending sort is the descending one
  have backwards : (l.mergeSort fun a b => decide (a ≤ b)).reverse =
      l.mergeSort fun a b => decide (b ≤ a) := by
    refine List.Perm.eq_of_pairwise (fun a b _ _ ba ab => Nat.le_antisymm ab ba) ?_
      (List.pairwise_mergeSort' (fun a b : Nat => b ≤ a) _) ?_
    · exact List.pairwise_reverse.mpr (List.pairwise_mergeSort' (· ≤ ·) _)
    · exact (List.reverse_perm _).trans ((List.mergeSort_perm _ _).trans (List.mergeSort_perm _ _).symm)
  have size : (l.mergeSort fun a b => decide (a ≤ b)).length = l.length := List.length_mergeSort _
  rw [← size, window_length_eq, ← backwards, List.take_reverse, List.sum_reverse]

end Sums

/-! ### What the selection returns -/

section Spec

variable {tokenId value : UInt64} {utxos : List (UnspentTxOut X)} {maxInputs : Nat}

/-- Without a wrap, the pre-check's `max_spendable_amount` is the sum of the `maxInputs` largest
values. -/
theorem totalValue_take_sortByValueDesc (noWrap : (values utxos).sum < 2 ^ 64) :
    (totalValue ((sortByValueDesc utxos).take maxInputs)).toNat =
      (((values utxos).mergeSort fun a b => decide (b ≤ a)).take maxInputs).sum := by
  have part : ((sortByValueDesc utxos).take maxInputs).Subperm utxos :=
    (List.take_sublist _ _).subperm.trans (sortByValueDesc_perm utxos).subperm
  rw [totalValue_toNat (Nat.lt_of_le_of_lt (sum_values_le part) noWrap), values, List.map_take,
    ← values, values_sortByValueDesc]

/-- Without a wrap, the loop's total after `j` pops is the sum of the window of the ascending
values. -/
theorem totalValue_window (noWrap : (values utxos).sum < 2 ^ 64) (j : Nat) :
    (totalValue (window (sortByValueDesc utxos).reverse maxInputs j)).toNat =
      (window ((values utxos).mergeSort fun a b => decide (a ≤ b)) maxInputs j).sum := by
  have part : (window (sortByValueDesc utxos).reverse maxInputs j).Subperm utxos :=
    (window_sublist _ _ _).subperm.trans ((List.reverse_perm _).trans (sortByValueDesc_perm utxos)).subperm
  rw [totalValue_toNat (Nat.lt_of_le_of_lt (sum_values_le part) noWrap), values, map_window, ← values,
    values_reverse_sortByValueDesc]

theorem le_totalValue_iff {selected : List (UnspentTxOut X)} (noWrap : (values selected).sum < 2 ^ 64) :
    value ≤ totalValue selected ↔ value.toNat ≤ (values selected).sum := by
  rw [UInt64.le_iff_toNat_le, totalValue_toNat noWrap]

/-- A value above the `maxInputs` largest is refused: as fragmented when all the UTXOs of the
token cover it, as insufficient otherwise. -/
theorem selectUtxosForValue_of_short
    (noWrap : (values (utxos.filter (·.tokenId = tokenId))).sum < 2 ^ 64)
    (short : (((values (utxos.filter (·.tokenId = tokenId))).mergeSort fun a b => decide (b ≤ a)).take
      maxInputs).sum < value.toNat) :
    selectUtxosForValue tokenId utxos value maxInputs =
      some (.error (if value.toNat ≤ (values (utxos.filter (·.tokenId = tokenId))).sum then
        .insufficientFundsFragmentedUtxos else .insufficientFunds)) := by
  have above : value > totalValue ((sortByValueDesc (utxos.filter (·.tokenId = tokenId))).take maxInputs) := by
    rw [gt_iff_lt, UInt64.lt_iff_toNat_lt, totalValue_take_sortByValueDesc noWrap]
    exact short
  have sorted : (values (sortByValueDesc (utxos.filter (·.tokenId = tokenId)))).sum =
      (values (utxos.filter (·.tokenId = tokenId))).sum :=
    ((sortByValueDesc_perm _).map _).sum_eq
  have all : value ≤ totalValue (sortByValueDesc (utxos.filter (·.tokenId = tokenId))) ↔
      value.toNat ≤ (values (sortByValueDesc (utxos.filter (·.tokenId = tokenId)))).sum :=
    le_totalValue_iff (sorted ▸ noWrap)
  rw [sorted] at all
  simp only [selectUtxosForValue, above, if_true, ge_iff_le, all]
  split_ifs <;> rfl

/-- A value the `maxInputs` largest cover is met: the function returns the window after the
first `j` pops whose values cover it. -/
theorem selectUtxosForValue_of_covered (pos : 0 < value.toNat)
    (noWrap : (values (utxos.filter (·.tokenId = tokenId))).sum < 2 ^ 64)
    (covered : value.toNat ≤ (((values (utxos.filter (·.tokenId = tokenId))).mergeSort
      fun a b => decide (b ≤ a)).take maxInputs).sum) :
    let popOrder := (sortByValueDesc (utxos.filter (·.tokenId = tokenId))).reverse
    let ascending := (values (utxos.filter (·.tokenId = tokenId))).mergeSort fun a b => decide (a ≤ b)
    ∃ j, j ≤ popOrder.length ∧
      selectUtxosForValue tokenId utxos value maxInputs = some (.ok (window popOrder maxInputs j)) ∧
      value.toNat ≤ (window ascending maxInputs j).sum ∧
      ∀ i < j, (window ascending maxInputs i).sum < value.toNat := by
  intro popOrder ascending
  have notAbove : ¬ value > totalValue ((sortByValueDesc (utxos.filter (·.tokenId = tokenId))).take
      maxInputs) := by
    rw [gt_iff_lt, UInt64.lt_iff_toNat_lt, totalValue_take_sortByValueDesc noWrap]
    exact Nat.not_lt.mpr covered
  -- the loop's totals are the sums of the windows of the ascending values
  have totals : ∀ j, value ≤ totalValue (window popOrder maxInputs j) ↔
      value.toNat ≤ (window ascending maxInputs j).sum := fun j => by
    rw [UInt64.le_iff_toNat_le, totalValue_window noWrap]
  have size : popOrder.length = (values (utxos.filter (·.tokenId = tokenId))).length := by
    rw [List.length_reverse, (sortByValueDesc_perm _).length_eq, values, List.length_map]
  -- the last window holds the `maxInputs` largest values, which cover the value
  have last : value ≤ totalValue (window popOrder maxInputs popOrder.length) := by
    rw [totals, size, sum_window_mergeSort]
    exact covered
  have start : selectLoop value maxInputs popOrder [] =
      selectLoop value maxInputs (popOrder.drop 0) (window popOrder maxInputs 0) := by
    rw [List.drop_zero, window_zero]
  have reached : ∃ i, 0 ≤ i ∧ i ≤ popOrder.length ∧ value ≤ totalValue (window popOrder maxInputs i) :=
    ⟨popOrder.length, Nat.zero_le _, le_refl _, last⟩
  obtain ⟨selected, ran⟩ := selectLoop_isOk (Nat.zero_le popOrder.length) reached
  obtain ⟨j, -, bound, rfl, done, short⟩ := selectLoop_eq_ok (Nat.zero_le _) ran
  rw [← start] at ran
  refine ⟨j, bound, ?_, (totals j).mp done, fun i before => ?_⟩
  · -- the sanity asserts hold: the window covers a positive value, and holds at most `maxInputs`
    have nonempty : (window popOrder maxInputs j).isEmpty = false := by
      rw [List.isEmpty_eq_false_iff]
      rintro empty
      rw [empty, totalValue, List.map_nil, List.sum_nil, UInt64.le_iff_toNat_le] at done
      simp at done
      omega
    have fits : ¬ (window popOrder maxInputs j).length > maxInputs := by
      rw [length_window _ _ bound]
      omega
    simp only [selectUtxosForValue, notAbove, if_false]
    rw [ran]
    simp only [nonempty, fits, if_false, Bool.false_eq_true]
  · exact Nat.lt_of_not_le fun reaches => absurd ((totals i).mpr reaches)
      (UInt64.not_le.mpr (short i (Nat.zero_le i) before))

/-- For a positive value, and UTXOs of the token whose values sum below `2 ^ 64` so that no
`u64` sum wraps, `select_utxos_for_value` does not panic; it refuses as insufficient exactly when
the UTXOs of the token do not cover the value, and as fragmented exactly when they do but their
`max_inputs` largest do not. Otherwise it returns at most `max_inputs` of the token's UTXOs,
whose values are the `min(j, max_inputs)` largest of the `j` smallest, for the least `j` at which
these cover the value. -/
theorem selectUtxosForValue_spec (pos : 0 < value.toNat)
    (noWrap : (values (utxos.filter (·.tokenId = tokenId))).sum < 2 ^ 64) :
    let owned := utxos.filter (·.tokenId = tokenId)
    let ascending := (values owned).mergeSort fun a b => decide (a ≤ b)
    let topK := (((values owned).mergeSort fun a b => decide (b ≤ a)).take maxInputs).sum
    selectUtxosForValue tokenId utxos value maxInputs ≠ none ∧
    (selectUtxosForValue tokenId utxos value maxInputs = some (.error .insufficientFunds) ↔
      (values owned).sum < value.toNat) ∧
    (selectUtxosForValue tokenId utxos value maxInputs =
        some (.error .insufficientFundsFragmentedUtxos) ↔
      topK < value.toNat ∧ value.toNat ≤ (values owned).sum) ∧
    (value.toNat ≤ topK → ∃ selected j,
      selectUtxosForValue tokenId utxos value maxInputs = some (.ok selected) ∧
      selected ≠ [] ∧ selected.length ≤ maxInputs ∧ selected.Subperm owned ∧
      values selected = (ascending.take j).drop (j - maxInputs) ∧
      value.toNat ≤ ((ascending.take j).drop (j - maxInputs)).sum ∧
      ∀ i < j, ((ascending.take i).drop (i - maxInputs)).sum < value.toNat) := by
  intro owned ascending topK
  have topKLe : topK ≤ (values owned).sum := by
    calc topK ≤ ((values owned).mergeSort fun a b => decide (b ≤ a)).sum :=
          (List.take_sublist _ _).sum_le_sum fun _ _ => Nat.zero_le _
      _ = (values owned).sum := (List.mergeSort_perm _ _).sum_eq
  by_cases short : topK < value.toNat
  · -- refused before the loop
    rw [selectUtxosForValue_of_short noWrap short]
    refine ⟨nofun, ?_, ?_, fun covered => absurd covered (Nat.not_le.mpr short)⟩
    · split_ifs with enough
      · exact iff_of_false (by simp) (Nat.not_lt.mpr enough)
      · exact iff_of_true rfl (Nat.lt_of_not_le enough)
    · split_ifs with enough
      · exact iff_of_true rfl ⟨short, enough⟩
      · exact iff_of_false (by simp) fun both => enough both.2
  · obtain ⟨j, bound, returned, done, before⟩ :=
      selectUtxosForValue_of_covered pos noWrap (Nat.le_of_not_lt short)
    rw [returned]
    have popOrder : ((sortByValueDesc owned).reverse).Perm owned :=
      (List.reverse_perm _).trans (sortByValueDesc_perm owned)
    have same : values (window (sortByValueDesc owned).reverse maxInputs j) =
        window ascending maxInputs j := by
      rw [values, map_window, ← values, values_reverse_sortByValueDesc]
    have nonempty : window (sortByValueDesc owned).reverse maxInputs j ≠ [] := by
      intro empty
      rw [← same, empty] at done
      simp [values] at done
      omega
    refine ⟨nofun, iff_of_false (by simp) (Nat.not_lt.mpr ((Nat.le_of_not_lt short).trans topKLe)),
      iff_of_false (by simp) fun both => short both.1, fun _ => ⟨_, j, rfl, nonempty, ?_,
      (window_sublist _ _ _).subperm.trans popOrder.subperm, same, done, before⟩⟩
    rw [length_window _ _ bound]
    exact Nat.min_le_right _ _

theorem selectUtxosForValue_spec_three :
    0 < (4 : UInt64).toNat ∧
      (values ([⟨(), 5, 0⟩, ⟨(), 1, 0⟩, ⟨(), 3, 0⟩].filter (·.tokenId = 0))).sum < 2 ^ 64 ∧
      selectUtxosForValue 0 [⟨(), 5, 0⟩, ⟨(), 1, 0⟩, ⟨(), 3, 0⟩] 4 2 ≠ none :=
  ⟨by decide, by decide, (selectUtxosForValue_spec (by decide) (by decide)).1⟩

end Spec

end MobileCoin.Mobilecoind
