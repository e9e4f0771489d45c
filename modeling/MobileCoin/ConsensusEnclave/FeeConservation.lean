import Mathlib
import MobileCoin.ConsensusEnclave.FormBlock

/-!
# Fee outputs conserve the fees

The loop of `form_block` for one token mints the chunks `feeChunks` of its total; the fee
outputs of a block are those chunks for the first `min(num_tokens, num_transactions)` entries
of the sorted totals, numbered per token. Each total is the sum of the fees paid in its token,
sorting keeps the entries and puts the nonzero ones first, and there are at most as many nonzero
totals as transactions, so the entries left out have nothing to mint.
-/

namespace MobileCoin.ConsensusEnclave

open U64 CtTokenMap

/-! ### The loop for one token -/

/-- The chunks minted for a total: `u64::MAX` while more than that is left, then the rest (a
zero total gives one zero chunk). -/
def feeChunks (total : Nat) : List Nat :=
  List.replicate ((total - 1) / MAX) MAX ++ [total - (total - 1) / MAX * MAX]

/-- The outputs for the chunks of one token, counted from `counter`. -/
def chunkOutputs (tokenId : TokenId) : Nat → List Nat → List FeeOutput
  | _, [] => []
  | counter, chunk :: rest =>
    ⟨⟨UInt64.ofNat chunk, tokenId⟩, counter⟩ :: chunkOutputs tokenId (counter + 1) rest

theorem max_pos : 0 < MAX := by decide

theorem feeChunks_of_le {total : Nat} (le : total ≤ MAX) : feeChunks total = [total] := by
  have none : (total - 1) / MAX = 0 := Nat.div_eq_of_lt (by have := max_pos; omega)
  rw [feeChunks, none, List.replicate_zero, Nat.zero_mul, Nat.sub_zero, List.nil_append]

theorem feeChunks_of_lt {total : Nat} (lt : MAX < total) :
    feeChunks total = MAX :: feeChunks (total - MAX) := by
  have more : (total - 1) / MAX = (total - MAX - 1) / MAX + 1 := by
    rw [← Nat.add_div_right _ max_pos]
    congr 1
    omega
  unfold feeChunks
  rw [more, List.replicate_succ, List.cons_append, Nat.succ_mul, Nat.add_comm _ MAX,
    Nat.sub_add_eq]

theorem feeChunks_sum (total : Nat) : (feeChunks total).sum = total := by
  have below : (total - 1) / MAX * MAX ≤ total := (Nat.div_mul_le_self _ _).trans (by omega)
  rw [feeChunks, List.sum_append, List.sum_replicate_nat, List.sum_singleton]
  omega

theorem feeChunks_le (total : Nat) : ∀ chunk ∈ feeChunks total, chunk ≤ MAX := by
  have split := Nat.div_add_mod (total - 1) MAX
  have rest := Nat.mod_lt (total - 1) max_pos
  intro chunk mem
  rcases List.mem_append.mp mem with full | last
  · rw [(List.mem_replicate.mp full).2]
  · rw [List.mem_singleton.mp last, Nat.mul_comm]
    omega

theorem feeChunks_ne_nil (total : Nat) : feeChunks total ≠ [] := by
  simp [feeChunks]

theorem outputFeeOf_eq_ofNat (totalFee : U128) :
    outputFeeOf totalFee = UInt64.ofNat (min totalFee.toNat MAX) := by
  apply UInt64.toNat_inj.mp
  have fits : min totalFee.toNat MAX < 2 ^ 64 := by
    have : MAX < 2 ^ 64 := by decide
    omega
  rw [outputFeeOf_toNat, UInt64.toNat_ofNat', Nat.mod_eq_of_lt fits]

/-- The do-while loop mints the chunks of the total, counting on from the outputs before it. -/
theorem mintFeeOutputs_eq (blockVersion : BlockVersion) (tokenId : TokenId) (totalFee : U128)
    (outputs : List (Except Error FeeOutput)) :
    mintFeeOutputs blockVersion tokenId totalFee outputs =
      outputs ++ (chunkOutputs tokenId outputs.length (feeChunks totalFee.toNat)).map
        fun o => mintOutput blockVersion o.amount o.counter := by
  induction totalFee, outputs using mintFeeOutputs.induct blockVersion tokenId with
  | case1 totalFee outputs outputFee totalFee' done =>
    -- nothing left after one chunk: the total fits in one
    have remaining := sub_outputFeeOf_toNat totalFee
    simp only [totalFee', outputFee] at done
    rw [done] at remaining
    have fits : totalFee.toNat ≤ MAX := by simp at remaining; omega
    rw [mintFeeOutputs, if_pos done, feeChunks_of_le fits, outputFeeOf_eq_ofNat, min_eq_left fits]
    simp [chunkOutputs]
  | case2 totalFee outputs outputFee outputs' totalFee' more ih =>
    have remaining := sub_outputFeeOf_toNat totalFee
    simp only [totalFee', outputs', outputFee] at more ih
    have nonzero : (totalFee - (outputFeeOf totalFee).toBitVec.setWidth 128).toNat ≠ 0 := by
      rwa [← BitVec.toNat_inj] at more
    have big : MAX < totalFee.toNat := by omega
    rw [mintFeeOutputs, if_neg more, ih, remaining, min_eq_right (Nat.le_of_lt big),
      feeChunks_of_lt big, outputFeeOf_eq_ofNat, min_eq_right (Nat.le_of_lt big)]
    rw [chunkOutputs, List.map_cons, List.append_assoc, List.length_append, List.length_singleton]
    rfl

theorem chunkOutputs_tokenId {tokenId : TokenId} {counter : Nat} {chunks : List Nat} :
    ∀ o ∈ chunkOutputs tokenId counter chunks, o.amount.tokenId = tokenId := by
  induction chunks generalizing counter with
  | nil => simp [chunkOutputs]
  | cons chunk rest ih =>
    intro o mem
    rcases List.mem_cons.mp mem with rfl | later
    · rfl
    · exact ih o later

theorem chunkOutputs_values (tokenId : TokenId) (counter : Nat) {chunks : List Nat}
    (small : ∀ chunk ∈ chunks, chunk ≤ MAX) :
    (chunkOutputs tokenId counter chunks).map (·.amount.value.toNat) = chunks := by
  induction chunks generalizing counter with
  | nil => rfl
  | cons chunk rest ih =>
    have fits : chunk < 2 ^ 64 := by
      have := small chunk List.mem_cons_self
      have : MAX < 2 ^ 64 := by decide
      omega
    rw [chunkOutputs, List.map_cons, ih (counter + 1) fun c mem => small c (List.mem_cons_of_mem _ mem)]
    simp only [UInt64.toNat_ofNat', Nat.mod_eq_of_lt fits]

theorem chunkOutputs_counters (tokenId : TokenId) (counter : Nat) (chunks : List Nat) :
    (chunkOutputs tokenId counter chunks).map (·.counter) = List.range' counter chunks.length := by
  induction chunks generalizing counter with
  | nil => rfl
  | cons chunk rest ih =>
    rw [chunkOutputs, List.map_cons, ih, List.length_cons, List.range'_succ]

theorem chunkOutputs_ne_nil (tokenId : TokenId) (counter : Nat) {chunks : List Nat}
    (some : chunks ≠ []) : chunkOutputs tokenId counter chunks ≠ [] := by
  cases chunks with
  | nil => exact absurd rfl some
  | cons chunk rest => simp [chunkOutputs]

/-! ### Collecting the outputs -/

/-- The fee outputs when every mint succeeds: for each entry its chunks, counted from zero. -/
def plannedOutputs (entries : List (TokenId × U128)) : List FeeOutput :=
  entries.flatMap fun e => chunkOutputs e.1 0 (feeChunks e.2.toNat)

theorem mintOutput_eq_ok {blockVersion : BlockVersion} {amount : Amount} {counter : Nat}
    {o : FeeOutput} (ok : mintOutput blockVersion amount counter = .ok o) : o = ⟨amount, counter⟩ := by
  unfold mintOutput at ok
  split at ok
  · cases ok
  · exact (Except.ok.inj ok).symm

/-- When `form_block` gets its fee outputs, they are the planned ones: a failing mint would
have stopped the collection. -/
theorem feeOutputs_eq_ok {blockVersion : BlockVersion} {ctMinFeeMap : CtTokenMap UInt64}
    {transactions : List Tx} {outputs : List FeeOutput}
    (minted : feeOutputs blockVersion ctMinFeeMap transactions = .ok outputs) :
    outputs = plannedOutputs ((totalFees ctMinFeeMap transactions).sortZeroesToEnd.storage.take
      (min (totalFees ctMinFeeMap transactions).sortZeroesToEnd.len transactions.length)) := by
  unfold feeOutputs at minted
  dsimp only at minted
  set entries := (totalFees ctMinFeeMap transactions).sortZeroesToEnd.storage.take
    (min (totalFees ctMinFeeMap transactions).sortZeroesToEnd.len transactions.length)
  have planned : (entries.flatMap fun e => mintFeeOutputs blockVersion e.1 e.2 []) =
      (plannedOutputs entries).map fun o => mintOutput blockVersion o.amount o.counter := by
    rw [plannedOutputs, List.map_flatMap]
    congr 1
    funext e
    rw [mintFeeOutputs_eq, List.nil_append, List.length_nil]
  rw [planned, List.mapM_map] at minted
  rw [mapM_ok_eq_map (fun o _ _ ok => mintOutput_eq_ok ok) minted, List.map_id']

/-! ### The totals -/

/-- The fees paid in a token: what its total has to be. -/
def feeSum (transactions : List Tx) (tokenId : TokenId) : Nat :=
  ((transactions.filter (·.feeTokenId == tokenId)).map (·.fee.toNat)).sum

/-- Every entry of a totals map holds the fees paid in its token. -/
def TotalsMatch (transactions : List Tx) (m : CtTokenMap U128) : Prop :=
  ∀ e ∈ m.storage, e.2.toNat = feeSum transactions e.1

theorem feeSum_append_singleton (transactions : List Tx) (tx : Tx) (tokenId : TokenId) :
    feeSum (transactions ++ [tx]) tokenId =
      feeSum transactions tokenId + if tx.feeTokenId = tokenId then tx.fee.toNat else 0 := by
  unfold feeSum
  by_cases paid : tx.feeTokenId = tokenId <;> simp [paid]

theorem feeSum_le (transactions : List Tx) (tokenId : TokenId) :
    feeSum transactions tokenId ≤ transactions.length * MAX := by
  induction transactions using List.reverseRecOn with
  | nil => simp [feeSum]
  | append_singleton rest tx ih =>
    have fee : tx.fee.toNat ≤ MAX := by have := tx.fee.toNat_lt; rw [MAX]; omega
    rw [feeSum_append_singleton, List.length_append, List.length_singleton, Nat.succ_mul]
    split <;> omega

theorem exists_of_feeSum_ne_zero {transactions : List Tx} {tokenId : TokenId}
    (paid : feeSum transactions tokenId ≠ 0) : ∃ tx ∈ transactions, tx.feeTokenId = tokenId := by
  by_contra none
  apply paid
  have empty : transactions.filter (·.feeTokenId == tokenId) = [] := by
    rw [List.filter_eq_nil_iff]
    intro tx mem same
    exact none ⟨tx, mem, by simpa using same⟩
  rw [feeSum, empty, List.map_nil, List.sum_nil]

/-- Adding one more fee keeps the totals right, as long as fewer than `2 ^ 64` fees of at most
`u64::MAX` each cannot overflow a `u128`. -/
theorem totalsMatch_add {done : List Tx} {m : CtTokenMap U128} (matched : TotalsMatch done m)
    (tx : Tx) (fits : done.length + 1 < 2 ^ 64) :
    TotalsMatch (done ++ [tx]) (m.add tx.feeTokenId (tx.fee.toBitVec.setWidth 128)).1 := by
  intro e mem
  rw [add_storage] at mem
  obtain ⟨⟨key, val⟩, stored, rfl⟩ := List.mem_map.mp mem
  have before : val.toNat = feeSum done key := matched _ stored
  rw [feeSum_append_singleton]
  by_cases paid : key = tx.feeTokenId
  · -- the entry of the fee token: the sum stays below `2 ^ 128`
    subst paid
    have bound := feeSum_le done tx.feeTokenId
    have fee : tx.fee.toNat < 2 ^ 64 := tx.fee.toNat_lt
    have feeFits : tx.fee.toNat < 2 ^ 128 := by omega
    have noOverflow : tx.fee.toNat + val.toNat < 2 ^ 128 := by
      rw [before]
      rw [MAX] at bound
      omega
    simp only [beq_self_eq_true, if_true]
    rw [BitVec.toNat_add, BitVec.toNat_setWidth, UInt64.toNat_toBitVec, Nat.mod_eq_of_lt feeFits,
      Nat.mod_eq_of_lt noOverflow, before]
    omega
  · have other : (key == tx.feeTokenId) = false := by simpa using paid
    simp only [other, Bool.false_eq_true, if_false, Ne.symm paid, Nat.add_zero]
    exact before

theorem foldl_add_totalsMatch (rest : List Tx) :
    ∀ (done : List Tx) (m : CtTokenMap U128), TotalsMatch done m →
      (done ++ rest).length < 2 ^ 64 →
      TotalsMatch (done ++ rest) (rest.foldl (fun totalFees tx =>
        (totalFees.add tx.feeTokenId (tx.fee.toBitVec.setWidth 128)).1) m) := by
  induction rest with
  | nil =>
    intro done m matched _
    simpa using matched
  | cons tx rest ih =>
    intro done m matched fits
    rw [List.length_append, List.length_cons] at fits
    have next := totalsMatch_add matched tx (by omega)
    rw [List.foldl_cons, ← List.singleton_append, ← List.append_assoc]
    exact ih _ _ next (by rw [List.length_append, List.length_append]; simp; omega)

theorem totalFees_match (ctMinFeeMap : CtTokenMap UInt64) {transactions : List Tx}
    (fits : transactions.length < 2 ^ 64) :
    TotalsMatch transactions (totalFees ctMinFeeMap transactions) := by
  have start : TotalsMatch [] (ofKeys ctMinFeeMap.keys : CtTokenMap U128) := by
    intro e mem
    obtain ⟨key, _, rfl⟩ := List.mem_map.mp mem
    rfl
  have run := foldl_add_totalsMatch transactions [] _ start (by rwa [List.nil_append])
  rwa [List.nil_append] at run

theorem totalFees_keys (ctMinFeeMap : CtTokenMap UInt64) (transactions : List Tx) :
    (totalFees ctMinFeeMap transactions).keys = ctMinFeeMap.keys := by
  have keep : ∀ (rest : List Tx) (m : CtTokenMap U128), (rest.foldl (fun totalFees tx =>
      (totalFees.add tx.feeTokenId (tx.fee.toBitVec.setWidth 128)).1) m).keys = m.keys := by
    intro rest
    induction rest with
    | nil => intro m; rfl
    | cons tx rest ih => intro m; rw [List.foldl_cons, ih, add_keys]
  rw [totalFees, keep, ofKeys_keys]

/-! ### Sorting and taking -/

section Totals

variable {transactions : List Tx} {entries : List (TokenId × U128)}

theorem ne_zero_of_feeSum {e : TokenId × U128} (matched : e.2.toNat = feeSum transactions e.1)
    (nonzero : e.2 ≠ 0) : feeSum transactions e.1 ≠ 0 := by
  rw [← matched]
  intro zero
  exact nonzero (BitVec.eq_of_toNat_eq (by rw [zero]; rfl))

/-- A nonzero total has a transaction paying in its token, and the tokens are distinct, so there
are at most as many nonzero totals as transactions. -/
theorem length_nonzero_le (distinct : (entries.map (·.1)).Nodup)
    (matched : ∀ e ∈ entries, e.2.toNat = feeSum transactions e.1) :
    (entries.filter fun e => e.2 ≠ 0).length ≤ transactions.length := by
  have nodup : ((entries.filter fun e => e.2 ≠ 0).map (·.1)).Nodup :=
    distinct.sublist ((List.filter_sublist).map _)
  have paid : (entries.filter fun e => e.2 ≠ 0).map (·.1) ⊆ transactions.map (·.feeTokenId) := by
    intro t mem
    obtain ⟨e, kept, rfl⟩ := List.mem_map.mp mem
    obtain ⟨stored, nonzero⟩ := List.mem_filter.mp kept
    obtain ⟨tx, mem, same⟩ :=
      exists_of_feeSum_ne_zero (ne_zero_of_feeSum (matched e stored) (of_decide_eq_true nonzero))
    exact List.mem_map.mpr ⟨tx, mem, same⟩
  simpa using (nodup.subperm paid).length_le

/-- The entries with one key hold, together, the fees paid in it: one entry when the key is
there, and no fees when it is not. -/
theorem sum_filter_key (distinct : (entries.map (·.1)).Nodup)
    (matched : ∀ e ∈ entries, e.2.toNat = feeSum transactions e.1)
    (covered : ∀ tx ∈ transactions, tx.feeTokenId ∈ entries.map (·.1)) (tokenId : TokenId) :
    ((entries.filter (·.1 == tokenId)).map (·.2.toNat)).sum = feeSum transactions tokenId := by
  set keyed := entries.filter (·.1 == tokenId)
  have values : keyed.map (·.2.toNat) = List.replicate keyed.length (feeSum transactions tokenId) := by
    refine List.eq_replicate_iff.mpr ⟨List.length_map _, ?_⟩
    intro x mem
    obtain ⟨e, kept, rfl⟩ := List.mem_map.mp mem
    obtain ⟨stored, key⟩ := List.mem_filter.mp kept
    rw [matched e stored, beq_iff_eq.mp key]
  have keys : keyed.map (·.1) = List.replicate keyed.length tokenId := by
    refine List.eq_replicate_iff.mpr ⟨List.length_map _, ?_⟩
    intro x mem
    obtain ⟨e, kept, rfl⟩ := List.mem_map.mp mem
    exact beq_iff_eq.mp (List.mem_filter.mp kept).2
  have atMostOne : keyed.length ≤ 1 := by
    have nodup : (keyed.map (·.1)).Nodup := distinct.sublist ((List.filter_sublist).map _)
    rwa [keys, List.nodup_replicate] at nodup
  rw [values, List.sum_replicate_nat]
  rcases Nat.le_one_iff_eq_zero_or_eq_one.mp atMostOne with none | one
  · -- no entry for the key: no transaction paid in it
    rw [none, Nat.zero_mul]
    symm
    by_contra paid
    obtain ⟨tx, mem, same⟩ := exists_of_feeSum_ne_zero paid
    obtain ⟨e, stored, key⟩ := List.mem_map.mp (covered tx mem)
    have kept : e ∈ keyed := List.mem_filter.mpr ⟨stored, by rw [key, same]; exact beq_self_eq_true _⟩
    rw [List.length_eq_zero_iff.mp none] at kept
    cases kept
  · rw [one, Nat.one_mul]

theorem sum_filter_take (distinct : (entries.map (·.1)).Nodup)
    (matched : ∀ e ∈ entries, e.2.toNat = feeSum transactions e.1)
    (covered : ∀ tx ∈ transactions, tx.feeTokenId ∈ entries.map (·.1)) {n : Nat}
    (dropped : ∀ e ∈ entries.drop n, e.2 = 0) (tokenId : TokenId) :
    (((entries.take n).filter (·.1 == tokenId)).map (·.2.toNat)).sum = feeSum transactions tokenId := by
  have droppedSum : (((entries.drop n).filter (·.1 == tokenId)).map (·.2.toNat)).sum = 0 := by
    apply List.sum_eq_zero_iff_forall_eq_nat.mpr
    intro x mem
    obtain ⟨e, kept, rfl⟩ := List.mem_map.mp mem
    rw [dropped e (List.mem_filter.mp kept).1]
    rfl
  have whole := sum_filter_key distinct matched covered tokenId
  rw [← List.take_append_drop n entries, List.filter_append, List.map_append, List.sum_append,
    droppedSum, Nat.add_zero] at whole
  exact whole

end Totals

/-! ### The planned outputs -/

theorem plannedOutputs_cons (e : TokenId × U128) (rest : List (TokenId × U128)) :
    plannedOutputs (e :: rest) = chunkOutputs e.1 0 (feeChunks e.2.toNat) ++ plannedOutputs rest :=
  List.flatMap_cons

theorem plannedOutputs_sum (entries : List (TokenId × U128)) (tokenId : TokenId) :
    (((plannedOutputs entries).filter (·.amount.tokenId == tokenId)).map (·.amount.value.toNat)).sum =
      ((entries.filter (·.1 == tokenId)).map (·.2.toNat)).sum := by
  induction entries with
  | nil => rfl
  | cons e rest ih =>
    rw [plannedOutputs_cons, List.filter_append, List.map_append, List.sum_append, ih,
      List.filter_cons]
    by_cases same : e.1 = tokenId
    · have all : (chunkOutputs e.1 0 (feeChunks e.2.toNat)).filter (·.amount.tokenId == tokenId) =
          chunkOutputs e.1 0 (feeChunks e.2.toNat) := by
        rw [List.filter_eq_self]
        intro o mem
        rw [chunkOutputs_tokenId o mem, same, beq_self_eq_true]
      rw [all, chunkOutputs_values _ _ (feeChunks_le _), feeChunks_sum,
        if_pos (by rw [same]; exact beq_self_eq_true _),
        List.map_cons, List.sum_cons]
    · have none : (chunkOutputs e.1 0 (feeChunks e.2.toNat)).filter (·.amount.tokenId == tokenId) =
          [] := by
        rw [List.filter_eq_nil_iff]
        intro o mem
        rw [chunkOutputs_tokenId o mem]
        simpa using same
      rw [none, if_neg (by simpa using same), List.map_nil, List.sum_nil, Nat.zero_add]

theorem mem_plannedOutputs_tokenId (entries : List (TokenId × U128)) (tokenId : TokenId) :
    tokenId ∈ (plannedOutputs entries).map (·.amount.tokenId) ↔ tokenId ∈ entries.map (·.1) := by
  constructor
  · intro mem
    obtain ⟨o, produced, rfl⟩ := List.mem_map.mp mem
    obtain ⟨e, entry, chunk⟩ := List.mem_flatMap.mp produced
    exact List.mem_map.mpr ⟨e, entry, (chunkOutputs_tokenId o chunk).symm⟩
  · -- every entry mints at least one output
    intro mem
    obtain ⟨e, entry, rfl⟩ := List.mem_map.mp mem
    obtain ⟨o, first⟩ :=
      List.exists_mem_of_ne_nil _ (chunkOutputs_ne_nil e.1 0 (feeChunks_ne_nil e.2.toNat))
    exact List.mem_map.mpr ⟨o, List.mem_flatMap.mpr ⟨e, entry, first⟩, chunkOutputs_tokenId o first⟩

/-- Counters restart at zero for each token and count up within it, so with distinct tokens no
(token, counter) pair repeats. -/
theorem plannedOutputs_pairs_nodup {entries : List (TokenId × U128)}
    (distinct : (entries.map (·.1)).Nodup) :
    ((plannedOutputs entries).map fun o => (o.amount.tokenId, o.counter)).Nodup := by
  rw [plannedOutputs, List.map_flatMap, List.nodup_flatMap]
  constructor
  · intro e _
    have pairs : (chunkOutputs e.1 0 (feeChunks e.2.toNat)).map
        (fun o => (o.amount.tokenId, o.counter)) =
        (List.range' 0 (feeChunks e.2.toNat).length).map (Prod.mk e.1) := by
      rw [← chunkOutputs_counters e.1 0, List.map_map]
      apply List.map_congr_left
      intro o mem
      rw [Function.comp_apply, chunkOutputs_tokenId o mem]
    rw [pairs]
    exact (List.nodup_range' ..).map fun _ _ same => (Prod.mk.inj same).2
  · refine (List.pairwise_map.mp distinct).imp fun {a b} different => ?_
    intro p inA inB
    obtain ⟨o, memA, rfl⟩ := List.mem_map.mp inA
    obtain ⟨o', memB, same⟩ := List.mem_map.mp inB
    apply different
    rw [← chunkOutputs_tokenId o memA, ← chunkOutputs_tokenId o' memB]
    exact (Prod.mk.inj same).1.symm

/-! ### Accepted transactions -/

theorem feeTokenId_mem_of_getTxsFromInputs {validate : Tx → UInt64 → Except Error Unit}
    {ctMinFees : CtTokenMap UInt64} {transactions accepted' : List Tx}
    (accepted : getTxsFromInputs validate ctMinFees transactions = .ok accepted') :
    ∀ tx ∈ transactions, tx.feeTokenId ∈ ctMinFees.keys := by
  intro tx mem
  unfold getTxsFromInputs at accepted
  split_ifs at accepted with empty
  · rw [List.isEmpty_iff.mp empty] at mem
    cases mem
  · obtain ⟨_, looped, _⟩ := bind_ok accepted
    obtain ⟨_, found, _⟩ := bind_ok (forM_ok looped tx mem)
    by_contra absent
    rw [minimumFee, (get_eq_none_iff ctMinFees tx.feeTokenId).mpr absent] at found
    cases found

/-! ### Conservation -/

theorem feeOutputs_conserve_fees (blockVersion : BlockVersion)
    (validate : Tx → UInt64 → Except Error Unit) (ctMinFeeMap : CtTokenMap UInt64)
    (transactions : List Tx) (distinct : ctMinFeeMap.keys.Nodup)
    (accepted : getTxsFromInputs validate ctMinFeeMap transactions = .ok transactions)
    (fits : transactions.length < 2 ^ 64) {outputs : List FeeOutput}
    (minted : feeOutputs blockVersion ctMinFeeMap transactions = .ok outputs) :
    (∀ tokenId, ((outputs.filter (·.amount.tokenId == tokenId)).map (·.amount.value.toNat)).sum =
      ((transactions.filter (·.feeTokenId == tokenId)).map (·.fee.toNat)).sum) ∧
    (∀ o ∈ outputs, o.amount.value.toNat ≤ MAX) ∧
    (∀ e ∈ (totalFees ctMinFeeMap transactions).sortZeroesToEnd.storage.drop
      (min ctMinFeeMap.len transactions.length), e.2 = 0) ∧
    (outputs.map (·.amount.tokenId)).toFinset.card = min ctMinFeeMap.len transactions.length ∧
    (outputs.map fun o => (o.amount.tokenId, o.counter)).Nodup := by
  set sorted := (totalFees ctMinFeeMap transactions).sortZeroesToEnd
  obtain ⟨perm, zeroesLast⟩ := sortZeroesToEnd_spec (totalFees ctMinFeeMap transactions)
  have keysPerm : (sorted.storage.map (·.1)).Perm ctMinFeeMap.keys := by
    rw [← totalFees_keys ctMinFeeMap transactions]
    exact perm.map _
  have sortedDistinct := keysPerm.nodup_iff.mpr distinct
  have matched : ∀ e ∈ sorted.storage, e.2.toNat = feeSum transactions e.1 :=
    fun e mem => totalFees_match ctMinFeeMap fits e (perm.subset mem)
  have covered : ∀ tx ∈ transactions, tx.feeTokenId ∈ sorted.storage.map (·.1) :=
    fun tx mem => keysPerm.symm.subset (feeTokenId_mem_of_getTxsFromInputs accepted tx mem)
  have len : sorted.len = ctMinFeeMap.len := by
    simpa [CtTokenMap.len, CtTokenMap.keys] using keysPerm.length_eq
  -- at most as many nonzero totals as transactions, all of them before the zeroes
  have dropped : ∀ e ∈ sorted.storage.drop (min ctMinFeeMap.len transactions.length), e.2 = 0 := by
    apply zeroesLast.zero_of_mem_drop
    have few := length_nonzero_le sortedDistinct matched
    have within := List.length_filter_le (fun e => decide (e.2 ≠ (default : U128))) sorted.storage
    rw [CtTokenMap.len] at len
    exact Nat.le_min.mpr ⟨len ▸ within, few⟩
  have planned := feeOutputs_eq_ok minted
  rw [len] at planned
  subst planned
  set taken := sorted.storage.take (min ctMinFeeMap.len transactions.length)
  have takenDistinct : (taken.map (·.1)).Nodup := by
    rw [List.map_take]
    exact sortedDistinct.sublist (List.take_sublist _ _)
  refine ⟨fun tokenId => ?_, fun o _ => ?_, dropped, ?_, plannedOutputs_pairs_nodup takenDistinct⟩
  · rw [plannedOutputs_sum, sum_filter_take sortedDistinct matched covered dropped, feeSum]
  · have := o.amount.value.toNat_lt
    rw [MAX]
    omega
  · have sameTokens : ((plannedOutputs taken).map (·.amount.tokenId)).toFinset =
        (taken.map (·.1)).toFinset := by
      ext tokenId
      rw [List.mem_toFinset, List.mem_toFinset, mem_plannedOutputs_tokenId]
    have short : min ctMinFeeMap.len transactions.length ≤ sorted.storage.length := by
      rw [← CtTokenMap.len, len]
      exact Nat.min_le_left _ _
    rw [sameTokens, List.toFinset_card_of_nodup takenDistinct, List.length_map, List.length_take,
      Nat.min_eq_left short]

theorem feeOutputs_conserve_fees_sample :
    feeOutputs ⟨3⟩ ⟨[(0, 400), (1, 100), (2, 50)]⟩ [⟨10, 2⟩, ⟨30, 0⟩, ⟨5, 2⟩] =
        .ok [⟨⟨30, 0⟩, 0⟩, ⟨⟨15, 2⟩, 0⟩, ⟨⟨0, 1⟩, 0⟩] ∧
      ∀ tokenId, ((([⟨⟨30, 0⟩, 0⟩, ⟨⟨15, 2⟩, 0⟩, ⟨⟨0, 1⟩, 0⟩] : List FeeOutput).filter
        (·.amount.tokenId == tokenId)).map (·.amount.value.toNat)).sum =
        ((([⟨10, 2⟩, ⟨30, 0⟩, ⟨5, 2⟩] : List Tx).filter (·.feeTokenId == tokenId)).map
          (·.fee.toNat)).sum := by
  have minted : feeOutputs ⟨3⟩ ⟨[(0, 400), (1, 100), (2, 50)]⟩ [⟨10, 2⟩, ⟨30, 0⟩, ⟨5, 2⟩] =
      .ok [⟨⟨30, 0⟩, 0⟩, ⟨⟨15, 2⟩, 0⟩, ⟨⟨0, 1⟩, 0⟩] := by
    unfold feeOutputs
    simp only [mintFeeOutputs_eq]
    decide
  exact ⟨minted, (feeOutputs_conserve_fees ⟨3⟩ (fun _ _ => .ok ()) _ _ (by decide) (by decide)
    (by decide) minted).1⟩

end MobileCoin.ConsensusEnclave
