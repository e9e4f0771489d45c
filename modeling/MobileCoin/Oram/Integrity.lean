import Mathlib
import MobileCoin.Oram.Storage

/-!
# Authenticity of the trusted state of `OcallORAMStorage`

An `OcallORAMStorage` stands for a `HeapORAMStorage` of all `count` blocks. The invariant is
`Authentic`: with `stored` the block last sent untrusted at each index, the trusted merkle roots are
the hashes of the blocks at the top of the untrusted part, every stored block's parent records its
hash, and every stored block decrypts to the heap's block.

Whatever untrusted answers, a checkout that does not panic returns what the heap holds at every
node of the path that lies in the treetop or holds a stored block (`checkout_authentic`), and a
checkin after it keeps the invariant, with the heap the blocks checked in (`checkin_authentic`).
The argument assumes `compute_block_hash` collision-free and AES-CTR an involution per nonce.
-/

namespace MobileCoin.OramStorage

open TreeIndex Table OcallORAMStorage

variable {D M H : Type} [Inhabited D] [Inhabited M] [Inhabited H] [DecidableEq M] [DecidableEq H]

/-- `compute_block_hash` under the secret `hash_key`, modelled as collision-free: injective, and
missing the zero hash that stands for a block never written. -/
structure CollisionFree (keys : Keys D M H) : Prop where
  injective : ∀ {eData eData' : D} {blockIdx blockIdx' : Nat} {extendedMeta extendedMeta' : ExtendedMeta M H},
    keys.computeBlockHash eData blockIdx extendedMeta = keys.computeBlockHash eData' blockIdx' extendedMeta' →
      eData = eData' ∧ blockIdx = blockIdx' ∧ extendedMeta = extendedMeta'
  ne_default : ∀ eData blockIdx extendedMeta, keys.computeBlockHash eData blockIdx extendedMeta ≠ default

/-- AES-CTR under one key and nonce, modelled as an involution. -/
def KeystreamInvolutive (keys : Keys D M H) : Prop :=
  ∀ blockIdx blockCtr, Function.Involutive (keys.applyKeystream blockIdx blockCtr)

/-- The hash of the block last sent untrusted at `blockIdx`, and the zero hash when none was. -/
def storedHash (keys : Keys D M H) (blockIdx : Nat) : Option (D × ExtendedMeta M H) → H
  | none => default
  | some block => keys.computeBlockHash block.1 blockIdx block.2

/-- What untrusted holds after `checkin_ocall` sends it `sent`, each block at its index less
`treetop_max_count`. -/
def receive (treetopMaxCount : Nat) (stored : Nat → Option (D × ExtendedMeta M H))
    (sent : List (Nat × D × ExtendedMeta M H)) : Nat → Option (D × ExtendedMeta M H) :=
  sent.foldl (fun stored block => Function.update stored (block.1 + treetopMaxCount) (some block.2)) stored

section Receive

omit [Inhabited D] [Inhabited M] [Inhabited H] [DecidableEq M] [DecidableEq H]

variable {treetopMaxCount : Nat} {stored : Nat → Option (D × ExtendedMeta M H)}

@[simp] theorem receive_nil : receive treetopMaxCount stored [] = stored := rfl

theorem receive_append (sent more : List (Nat × D × ExtendedMeta M H)) :
    receive treetopMaxCount stored (sent ++ more) =
      receive treetopMaxCount (receive treetopMaxCount stored sent) more :=
  List.foldl_append

theorem receive_ne_none (sent : List (Nat × D × ExtendedMeta M H)) {idx : Nat}
    (kept : stored idx ≠ none) : receive treetopMaxCount stored sent idx ≠ none := by
  induction sent generalizing stored with
  | nil => exact kept
  | cons block rest ih =>
    apply ih
    show Function.update stored (block.1 + treetopMaxCount) (some block.2) idx ≠ none
    by_cases here : idx = block.1 + treetopMaxCount
    · rw [here, Function.update_self]
      exact Option.some_ne_none _
    · rwa [Function.update_of_ne here]

theorem receive_apply (sent : List (Nat × D × ExtendedMeta M H)) (idx : Nat) :
    receive treetopMaxCount stored sent idx =
      ((sent.filter fun block => block.1 + treetopMaxCount = idx).getLast?.map Prod.snd).or
        (stored idx) := by
  induction sent using List.reverseRecOn with
  | nil => rfl
  | append_singleton sent block ih =>
    rw [receive_append, List.filter_append]
    by_cases here : block.1 + treetopMaxCount = idx
    · subst here
      simp [receive]
    · have untouched : receive treetopMaxCount (receive treetopMaxCount stored sent) [block] idx =
          receive treetopMaxCount stored sent idx :=
        Function.update_of_ne (Ne.symm here) _ _
      rw [untouched, ih]
      simp [here]

theorem receive_zipWith {path : List Nat} (above : ∀ idx ∈ path, treetopMaxCount ≤ idx)
    (blocks : List (D × ExtendedMeta M H)) :
    receive treetopMaxCount stored (path.zipWith (fun idx block => (idx - treetopMaxCount, block)) blocks) =
      writeAll stored path (blocks.map some) := by
  induction path generalizing blocks stored with
  | nil => rfl
  | cons idx rest ih =>
    cases blocks with
    | nil => rfl
    | cons block more =>
      have back : idx - treetopMaxCount + treetopMaxCount = idx :=
        Nat.sub_add_cancel (above idx List.mem_cons_self)
      rw [List.zipWith_cons_cons, List.map_cons, writeAll_cons, ← ih (fun i member => above i
        (List.mem_cons_of_mem _ member))]
      simp only [receive, List.foldl_cons, back]

end Receive

/-- The trusted state of `storage` authenticates `stored`, the block last sent untrusted at each tree
index, as the blocks of `heap`. -/
structure Authentic (keys : Keys D M H) (storage : OcallORAMStorage D M H)
    (heap : HeapORAMStorage D M) (stored : Nat → Option (D × ExtendedMeta M H)) : Prop where
  treetop : ∀ idx, idx < storage.treetopMaxCount → storage.treetop.data idx = heap.data idx
  untrusted : ∀ idx block, stored idx = some block → storage.treetopMaxCount ≤ idx
  root : ∀ idx, storage.treetopMaxCount ≤ idx → idx < 2 * storage.treetopMaxCount →
    storage.trustedMerkleRoots idx = storedHash keys idx (stored idx)
  child : ∀ idx block, 2 * storage.treetopMaxCount ≤ idx → stored idx = some block →
    ∃ parent, stored (idx / 2) = some parent ∧
      parent.2.extraMeta.childHash idx = keys.computeBlockHash block.1 idx block.2
  decrypts : ∀ idx block, stored idx = some block → decrypt keys idx block = heap.data idx

omit [DecidableEq M] [DecidableEq H] in
theorem new_eq_some {count : Nat} {treetopCachingThresholdLog2 : UInt32} {dataSize allocationId : UInt64}
    {self : OcallORAMStorage D M H}
    (created : new count treetopCachingThresholdLog2 dataSize allocationId = some self) :
    self.count = count ∧ self.treetop = HeapORAMStorage.new ∧
      self.trustedMerkleRoots = (fun _ => default) := by
  unfold new at created
  by_cases zero : count = 0
  · simp [zero] at created
  by_cases power : count &&& (count - 1) ≠ 0
  · simp [zero, power] at created
  by_cases unallocated : treetopMaxCountOf treetopCachingThresholdLog2 dataSize < count ∧ allocationId = 0
  · simp [zero, power, unallocated] at created
  simp only [zero, power, unallocated, if_false] at created
  obtain rfl := Option.some.inj created
  exact ⟨rfl, rfl, rfl⟩

omit [DecidableEq M] [DecidableEq H] in
theorem authentic_new (keys : Keys D M H) {count : Nat} {treetopCachingThresholdLog2 : UInt32}
    {dataSize allocationId : UInt64} {self : OcallORAMStorage D M H}
    (created : new count treetopCachingThresholdLog2 dataSize allocationId = some self) :
    Authentic keys self HeapORAMStorage.new (fun _ => none) := by
  obtain ⟨-, treetop, roots⟩ := new_eq_some created
  refine ⟨fun idx _ => by rw [treetop], fun _ _ absent => (nomatch absent), fun idx _ _ => ?_,
    fun _ _ _ absent => (nomatch absent), fun _ _ absent => (nomatch absent)⟩
  rw [roots, storedHash]

/-! ### Checkout -/

section Checkout

variable {keys : Keys D M H} {self : OcallORAMStorage D M H} {heap : HeapORAMStorage D M}
  {stored : Nat → Option (D × ExtendedMeta M H)}

omit [Inhabited D] in
theorem eq_of_carriedHash_eq (collisionFree : CollisionFree keys) {blockIdx : Nat}
    {block sent : D × ExtendedMeta M H}
    (same : carriedHash keys blockIdx block = keys.computeBlockHash sent.1 blockIdx sent.2) :
    block = sent ∧ block.2 ≠ default := by
  by_cases zero : block.2 = default
  · rw [carriedHash, if_pos zero] at same
    exact absurd same.symm (collisionFree.ne_default _ _ _)
  · rw [carriedHash_of_ne_default keys blockIdx zero] at same
    obtain ⟨data, -, extendedMeta⟩ := collisionFree.injective same
    exact ⟨Prod.ext data extendedMeta, zero⟩

omit [Inhabited D] in
/-- The checks of a checkout carry the trusted merkle root down the untrusted part of the path:
each block returned at an index untrusted was sent a block for carries up the hash of that block.
The induction is on the path from the bottom; a block's parent is checked first by induction, and
the parent's record of its child then pins the block. -/
theorem carriedHash_of_pathChecked (collisionFree : CollisionFree keys)
    (authentic : Authentic keys self heap stored) :
    ∀ {blocks : List (Nat × D × ExtendedMeta M H)} {lastHash : Option (Nat × H)},
      PathChecked keys lastHash blocks →
      blocks.IsChain (fun child parent => parent.1 = child.1 / 2) →
      (∀ block ∈ blocks, self.treetopMaxCount ≤ block.1) → RootChecked keys self blocks →
      (∀ top ∈ blocks.getLast?, top.1 < 2 * self.treetopMaxCount) →
      ∀ block ∈ blocks, ∀ sent, stored block.1 = some sent →
        carriedHash keys block.1 block.2 = keys.computeBlockHash sent.1 block.1 sent.2
  | [], _, _, _, _, _, _ => by simp
  | [(topIdx, top)], _, _, _, untrusted, root, below => by
    intro block member sent found
    rw [List.mem_singleton] at member
    subst member
    have trusted := authentic.root topIdx (untrusted _ List.mem_cons_self) (below _ rfl)
    rw [found, storedHash] at trusted
    simp only [RootChecked, List.getLast?_singleton] at root
    rw [← root, trusted]
  | (childIdx, child) :: (parentIdx, parent) :: rest, lastHash, checked, chain, untrusted, root,
      below => by
    obtain ⟨-, checkedRest⟩ := checked
    rw [List.isChain_cons_cons] at chain
    obtain ⟨link, chainRest⟩ := chain
    have later := carriedHash_of_pathChecked collisionFree authentic checkedRest chainRest
      (fun block member => untrusted block (List.mem_cons_of_mem _ member))
      (by simpa [RootChecked] using root) (by simpa using below)
    intro block member sent found
    rcases List.mem_cons.mp member with rfl | member
    · -- the parent, higher on the path, was sent a block and untrusted returned it
      have parentUntrusted := untrusted _ (List.mem_cons_of_mem _ List.mem_cons_self)
      have deep : 2 * self.treetopMaxCount ≤ childIdx := by
        simp only at link parentUntrusted
        omega
      obtain ⟨recorded, parentSent, recordsChild⟩ := authentic.child _ sent deep found
      rw [← show parentIdx = childIdx / 2 from link] at parentSent
      obtain ⟨rfl, nonzero⟩ :=
        eq_of_carriedHash_eq collisionFree (later _ List.mem_cons_self recorded parentSent)
      exact (checkedRest.1 nonzero).trans recordsChild
    · exact later block member sent found

omit [Inhabited D] [Inhabited M] [Inhabited H] [DecidableEq M] [DecidableEq H] in
/-- The untrusted part of the path: each node the parent of the one before, all past the treetop,
and the last one a child of a treetop node. -/
theorem untrustedPath_shape {index treetopMaxCount first : Nat}
    (found : (parents index).findIdx? (· < treetopMaxCount) = some first)
    (checkoutOcall : Nat → D × ExtendedMeta M H) :
    let returned := checkoutOcallAt checkoutOcall treetopMaxCount ((parents index).take first)
    returned.IsChain (fun child parent => parent.1 = child.1 / 2) ∧
      (∀ block ∈ returned, treetopMaxCount ≤ block.1) ∧
      ∀ top ∈ returned.getLast?, top.1 < 2 * treetopMaxCount := by
  obtain ⟨onPath, topBelow, lowerAbove⟩ := findIdx?_parents found
  refine ⟨?_, ?_, ?_⟩
  · rw [checkoutOcallAt, List.isChain_map]
    exact (isChain_parents index).take first
  · intro block member
    obtain ⟨idx, taken, rfl⟩ := List.mem_map.mp member
    obtain ⟨j, inside, rfl⟩ := List.getElem_of_mem taken
    simp only [List.getElem_take]
    exact lowerAbove j (by simp at inside; omega)
  · intro top last
    rw [checkoutOcallAt, List.getLast?_map, Option.mem_def, Option.map_eq_some_iff] at last
    obtain ⟨idx, last, rfl⟩ := last
    rw [List.getLast?_eq_getElem?, List.length_take, Nat.min_eq_left onPath.le,
      List.getElem?_take] at last
    split_ifs at last with firstPos
    · obtain ⟨inside, rfl⟩ := List.getElem?_eq_some_iff.mp last
      -- the node at the first treetop index is the parent of the last untrusted one
      have parent := getElem_succ_parents (n := index) (k := first - 1) (by omega)
      simp only [Nat.sub_add_cancel (show 1 ≤ first by omega)] at parent
      simp only
      omega

/-- The scratch buffer holds, at each node of `path` untrusted was sent a block for, that block's
extra metadata. -/
def ScratchRecords (stored : Nat → Option (D × ExtendedMeta M H)) (path : List Nat)
    (scratch : List (ExtendedMeta M H)) : Prop :=
  ∀ j (inside : j < path.length) block, stored path[j] = some block →
    ∃ entry, scratch[j]? = some entry ∧ entry.extraMeta = block.2.extraMeta

/-- Past the treetop, a checkout that does not panic was returned by untrusted, at each node it
was sent a block for, exactly that block. -/
theorem checkoutUntrusted_returns_stored (collisionFree : CollisionFree keys)
    (authentic : Authentic keys self heap stored) {index first : Nat}
    (found : (parents index).findIdx? (· < self.treetopMaxCount) = some first)
    {checkoutOcall : Nat → D × ExtendedMeta M H}
    {result : List (ExtendedMeta M H) × List (D × M)}
    (untrusted : self.checkoutUntrusted keys ((parents index).take first) checkoutOcall = some result)
    {j : Nat} (earlier : j < first) (inside : j < (parents index).length)
    {block : D × ExtendedMeta M H} (sent : stored (parents index)[j] = some block) :
    checkoutOcall ((parents index)[j] - self.treetopMaxCount) = block ∧ block.2 ≠ default := by
  obtain ⟨checked, rooted, -⟩ := checkoutUntrusted_eq_some.mp untrusted
  obtain ⟨chain, above, below⟩ := untrustedPath_shape found checkoutOcall
  have member : ((parents index)[j], checkoutOcall ((parents index)[j] - self.treetopMaxCount)) ∈
      checkoutOcallAt checkoutOcall self.treetopMaxCount ((parents index).take first) :=
    List.mem_map.mpr ⟨_, List.mem_iff_getElem.mpr ⟨j, by simp; omega, by simp⟩, rfl⟩
  have carried :=
    carriedHash_of_pathChecked collisionFree authentic checked chain above rooted below _ member block sent
  obtain ⟨same, nonzero⟩ := eq_of_carriedHash_eq collisionFree carried
  exact ⟨same, same ▸ nonzero⟩

/-- A checkout that does not panic only fills the scratch buffer. It returns, at each node of the
path in the treetop or untrusted was sent a block for, the block `heap` holds there, and leaves in
the scratch buffer the extra metadata untrusted was sent for each such node. -/
theorem checkout_authentic (collisionFree : CollisionFree keys)
    (authentic : Authentic keys self heap stored) {index : Nat}
    {checkoutOcall : Nat → D × ExtendedMeta M H} {self' : OcallORAMStorage D M H}
    {outputs : List (D × M)} (ok : self.checkout keys index checkoutOcall = some (self', outputs)) :
    self' = { self with metaScratchBuffer := self'.metaScratchBuffer } ∧
      ScratchRecords stored (parents index) self'.metaScratchBuffer ∧
      ∀ k (inside : k < (parents index).length),
        ((parents index)[k] < self.treetopMaxCount ∨ stored (parents index)[k] ≠ none) →
          outputs[k]? = some (heap.data (parents index)[k]) := by
  obtain ⟨-, -, first, found, cases⟩ := checkout_eq_some.mp ok
  obtain ⟨onPath, topBelow, lowerAbove⟩ := findIdx?_parents found
  -- a node at or past the first treetop index is in the treetop, so untrusted holds nothing there
  have treetopAt : ∀ k (inside : k < (parents index).length), first ≤ k →
      (parents index)[k] < self.treetopMaxCount := fun k inside later =>
    Nat.lt_of_le_of_lt (getElem_parents_le later inside) topBelow
  have unsentAt : ∀ k (inside : k < (parents index).length), first ≤ k →
      stored (parents index)[k] = none := fun k inside later => by
    cases sent : stored (parents index)[k] with
    | none => rfl
    | some block => exact absurd (authentic.untrusted _ block sent) (by simpa using treetopAt k inside later)
  rcases cases with ⟨rfl, rfl, rfl⟩ | ⟨firstPos, scratch, lower, untrusted, rfl, rfl⟩
  · refine ⟨rfl, fun k inside block sent => ?_, fun k inside _ => ?_⟩
    · rw [unsentAt k inside (Nat.zero_le k)] at sent
      exact absurd sent (by simp)
    · rw [HeapORAMStorage.checkout, List.getElem?_map, List.getElem?_eq_getElem inside,
        Option.map_some, authentic.treetop _ (treetopAt k inside (Nat.zero_le k))]
  · obtain ⟨-, -, same⟩ := checkoutUntrusted_eq_some.mp untrusted
    simp only [Prod.mk.injEq] at same
    obtain ⟨rfl, rfl⟩ := same
    refine ⟨rfl, fun k inside block sent => ?_, fun k inside covered => ?_⟩
    · by_cases earlier : k < first
      · obtain ⟨returned, -⟩ := checkoutUntrusted_returns_stored collisionFree authentic found
          untrusted earlier inside sent
        refine ⟨scratchEntry keys (parents index)[k]
          (checkoutOcall ((parents index)[k] - self.treetopMaxCount)), ?_, ?_⟩
        · simp [checkoutOcallAt, earlier, List.getElem?_eq_getElem inside]
        · rw [scratchEntry_extraMeta, returned]
      · rw [unsentAt k inside (Nat.le_of_not_lt earlier)] at sent
        exact absurd sent (by simp)
    · by_cases earlier : k < first
      · have sentSome : ∃ block, stored (parents index)[k] = some block := by
          rcases covered with treetop | sent
          · exact absurd (lowerAbove k earlier) (Nat.not_le_of_lt treetop)
          · exact Option.ne_none_iff_exists'.mp sent
        obtain ⟨block, sent⟩ := sentSome
        obtain ⟨returned, nonzero⟩ := checkoutUntrusted_returns_stored collisionFree authentic found
          untrusted earlier inside sent
        rw [List.getElem?_append_left (by simp [checkoutOcallAt]; omega)]
        simp only [checkoutOcallAt, List.map_map, List.getElem?_map, List.getElem?_take, earlier,
          if_true, List.getElem?_eq_getElem inside, Option.map_some, Function.comp_apply,
          returned, openBlock, if_neg nonzero, Option.some.injEq]
        exact authentic.decrypts _ block sent
      · have lowerLength : (List.map (fun b => openBlock keys b.1 b.2)
            (checkoutOcallAt checkoutOcall self.treetopMaxCount ((parents index).take first))).length =
            first := by simp [checkoutOcallAt]; omega
        rw [List.getElem?_append_right (by omega), lowerLength, List.getElem?_map,
          List.getElem?_drop, Nat.add_sub_cancel' (Nat.le_of_not_lt earlier),
          List.getElem?_eq_getElem inside, Option.map_some,
          authentic.treetop _ (treetopAt k inside (Nat.le_of_not_lt earlier))]

end Checkout

/-! ### Checkin

Past the treetop a checkin seals a block at each untrusted node of the path. The blocks sent
untrusted are then `stored` with the sealed blocks written along the untrusted part of the path,
and each field of `Authentic` is kept: at a node of the path by what the loop seals there, off
the path because the sealed parent keeps the record its scratch buffer entry had, which the
checkout before took from the block untrusted was sent. -/

section Checkin

variable {keys : Keys D M H} {self : OcallORAMStorage D M H} {heap : HeapORAMStorage D M}
  {stored : Nat → Option (D × ExtendedMeta M H)} {index first : Nat} {src : List (D × M)}
  {scratch : List (ExtendedMeta M H)} {sealed : List (D × ExtendedMeta M H)}

section Sealed

variable (authentic : Authentic keys self heap stored)
  (found : (parents index).findIdx? (· < self.treetopMaxCount) = some first)
  (along : SealedAlong keys ((parents index).take first) src scratch sealed)

omit [Inhabited D] [Inhabited M] [Inhabited H] [DecidableEq M] [DecidableEq H] in
include found in
theorem mem_untrustedPath {idx : Nat} :
    idx ∈ (parents index).take first ↔ ∃ j, j < first ∧ (parents index)[j]? = some idx := by
  obtain ⟨onPath, -, -⟩ := findIdx?_parents found
  rw [List.mem_take_iff_getElem]
  constructor
  · rintro ⟨j, inside, rfl⟩
    exact ⟨j, by omega, List.getElem?_eq_getElem (by omega)⟩
  · rintro ⟨j, earlier, atJ⟩
    obtain ⟨inside, rfl⟩ := List.getElem?_eq_some_iff.mp atJ
    exact ⟨j, by omega, rfl⟩

omit [Inhabited D] [Inhabited M] [Inhabited H] [DecidableEq M] [DecidableEq H] in
include found in
theorem untrustedPath_depth {j idx : Nat} (earlier : j < first)
    (atJ : (parents index)[j]? = some idx) :
    self.treetopMaxCount ≤ idx ∧ (j + 1 < first ↔ 2 * self.treetopMaxCount ≤ idx) := by
  obtain ⟨onPath, topBelow, lowerAbove⟩ := findIdx?_parents found
  obtain ⟨inside, rfl⟩ := List.getElem?_eq_some_iff.mp atJ
  have parent := getElem_succ_parents (n := index) (k := j) (by omega)
  refine ⟨lowerAbove j earlier, ⟨fun deeper => ?_, fun deep => ?_⟩⟩
  · have := lowerAbove (j + 1) deeper
    omega
  · by_contra last
    have atFirst : j + 1 = first := by omega
    subst atFirst
    omega

omit [Inhabited D] [Inhabited M] [Inhabited H] [DecidableEq M] [DecidableEq H] in
include found along in
theorem sealedStored_getElem? {j idx : Nat} (earlier : j < first)
    (atJ : (parents index)[j]? = some idx) :
    writeAll stored ((parents index).take first) (sealed.map some) idx = sealed[j]? := by
  obtain ⟨onPath, -, -⟩ := findIdx?_parents found
  obtain ⟨inside, rfl⟩ := List.getElem?_eq_some_iff.mp atJ
  have lowerLength : ((parents index).take first).length = first := by simp; omega
  have sealedLength : (sealed.map some).length = first := by rw [List.length_map, along.length, lowerLength]
  have distinct : ((parents index).take first).Nodup :=
    (nodup_parents index).sublist (List.take_sublist first _)
  have written : writeAll stored ((parents index).take first) (sealed.map some)
      ((parents index).take first)[j] = (sealed.map some)[j] :=
    writeAll_getElem stored distinct (by omega) (by omega)
  simpa [List.getElem?_eq_getElem (show j < sealed.length by simp at sealedLength; omega)] using written

omit [Inhabited D] [Inhabited M] [Inhabited H] [DecidableEq M] [DecidableEq H] in
theorem sealedStored_of_not_mem {idx : Nat} (absent : idx ∉ (parents index).take first) :
    writeAll stored ((parents index).take first) (sealed.map some) idx = stored idx :=
  writeAll_of_not_mem stored absent

omit [Inhabited D] [Inhabited M] [Inhabited H] [DecidableEq M] [DecidableEq H] in
include found in
theorem le_of_mem_untrustedPath {idx : Nat} (member : idx ∈ (parents index).take first) :
    self.treetopMaxCount ≤ idx := by
  obtain ⟨j, earlier, atJ⟩ := (mem_untrustedPath found).mp member
  exact (untrustedPath_depth found earlier atJ).1

omit [Inhabited D] [Inhabited M] [Inhabited H] [DecidableEq M] [DecidableEq H] in
include found in
theorem mem_untrustedPath_of_le {idx : Nat} (member : idx ∈ parents index)
    (above : self.treetopMaxCount ≤ idx) : idx ∈ (parents index).take first := by
  obtain ⟨onPath, topBelow, -⟩ := findIdx?_parents found
  obtain ⟨k, inside, rfl⟩ := List.getElem_of_mem member
  rw [mem_untrustedPath found]
  refine ⟨k, ?_, List.getElem?_eq_getElem inside⟩
  by_contra later
  have higher := getElem_parents_le (Nat.le_of_not_lt later) inside
  omega

omit [Inhabited D] [Inhabited M] [DecidableEq M] [DecidableEq H] in
include authentic found in
theorem checkin_treetop {treetop : HeapORAMStorage D M}
    (written : treetop.data = writeAll self.treetop.data ((parents index).drop first) (src.drop first))
    {idx : Nat} (below : idx < self.treetopMaxCount) :
    treetop.data idx = (heap.checkin index src).data idx := by
  have absent : idx ∉ (parents index).take first := fun member =>
    absurd (le_of_mem_untrustedPath found member) (Nat.not_le_of_lt below)
  rw [written, writeAll_drop _ first absent, HeapORAMStorage.data_checkin]
  exact writeAll_congr (authentic.treetop idx below)

omit [Inhabited D] [Inhabited M] [DecidableEq M] [DecidableEq H] in
include authentic found in
theorem sealedStored_untrusted {idx : Nat} {block : D × ExtendedMeta M H}
    (sent : writeAll stored ((parents index).take first) (sealed.map some) idx = some block) :
    self.treetopMaxCount ≤ idx := by
  by_cases member : idx ∈ (parents index).take first
  · exact le_of_mem_untrustedPath found member
  · rw [sealedStored_of_not_mem member] at sent
    exact authentic.untrusted idx block sent

omit [Inhabited D] [Inhabited M] [Inhabited H] [DecidableEq M] [DecidableEq H] in
include found along in
theorem sealedStored_ne_none {idx : Nat} (member : idx ∈ (parents index).take first) :
    writeAll stored ((parents index).take first) (sealed.map some) idx ≠ none := by
  obtain ⟨j, earlier, atJ⟩ := (mem_untrustedPath found).mp member
  obtain ⟨onPath, -, -⟩ := findIdx?_parents found
  rw [sealedStored_getElem? found along earlier atJ, List.getElem?_eq_getElem]
  · exact Option.some_ne_none _
  · rw [along.length]
    simp
    omega

omit [Inhabited D] [Inhabited M] [DecidableEq M] [DecidableEq H] in
include authentic found along in
theorem sealedStored_decrypts (sameLength : (parents index).length = src.length) {idx : Nat}
    {block : D × ExtendedMeta M H}
    (sent : writeAll stored ((parents index).take first) (sealed.map some) idx = some block) :
    decrypt keys idx block = (heap.checkin index src).data idx := by
  rw [HeapORAMStorage.data_checkin]
  by_cases member : idx ∈ (parents index).take first
  · -- the block sealed at this node, from the block checked in there
    obtain ⟨j, earlier, atJ⟩ := (mem_untrustedPath found).mp member
    rw [sealedStored_getElem? found along earlier atJ] at sent
    obtain ⟨onPath, -, -⟩ := findIdx?_parents found
    obtain ⟨inside, rfl⟩ := List.getElem?_eq_some_iff.mp atJ
    obtain ⟨-, rfl⟩ := List.getElem?_eq_some_iff.mp sent
    have decrypted := along.decrypts j (by simp; omega)
    rw [writeAll_getElem heap.data (nodup_parents index) inside (by omega)]
    simpa using decrypted
  · rw [sealedStored_of_not_mem member] at sent
    have offPath : idx ∉ parents index := fun onPath =>
      member (mem_untrustedPath_of_le found onPath (authentic.untrusted idx block sent))
    rw [writeAll_of_not_mem heap.data offPath]
    exact authentic.decrypts idx block sent

omit [Inhabited D] [Inhabited M] [DecidableEq M] [DecidableEq H] in
include authentic found in
/-- The trusted merkle roots after a checkin: the root the checkin records is the hash of the block
sealed at the last untrusted node, and no other node under a root is written. -/
theorem sealedStored_root {lastIdx : Nat} {lastHash : H}
    (lastAt : (parents index)[first - 1]? = some lastIdx)
    (lastHashEq : lastHash = storedHash keys lastIdx
      (writeAll stored ((parents index).take first) (sealed.map some) lastIdx))
    {idx : Nat} (above : self.treetopMaxCount ≤ idx) (below : idx < 2 * self.treetopMaxCount) :
    Function.update self.trustedMerkleRoots lastIdx lastHash idx =
      storedHash keys idx (writeAll stored ((parents index).take first) (sealed.map some) idx) := by
  by_cases last : idx = lastIdx
  · subst last
    rw [Function.update_self, lastHashEq]
  · have absent : idx ∉ (parents index).take first := by
      intro member
      obtain ⟨j, earlier, atJ⟩ := (mem_untrustedPath found).mp member
      -- only the last untrusted node lies under a root
      have atLast : j = first - 1 := by
        have depth := (untrustedPath_depth found earlier atJ).2
        omega
      rw [atLast, lastAt] at atJ
      exact last (Option.some.inj atJ).symm
    rw [Function.update_of_ne last, authentic.root idx above below, sealedStored_of_not_mem absent]

omit [Inhabited D] [Inhabited M] [DecidableEq M] [DecidableEq H] in
include authentic found along in
/-- After a checkin every block untrusted holds below the roots is recorded by its parent: on the
path by the loop that sealed both, off the path by the parent's record, which a parent sealed on
the path keeps from its scratch buffer entry. -/
theorem sealedStored_child (records : ScratchRecords stored ((parents index).take first) scratch)
    {idx : Nat} {block : D × ExtendedMeta M H} (deep : 2 * self.treetopMaxCount ≤ idx)
    (sent : writeAll stored ((parents index).take first) (sealed.map some) idx = some block) :
    ∃ parent, writeAll stored ((parents index).take first) (sealed.map some) (idx / 2) = some parent ∧
      parent.2.extraMeta.childHash idx = keys.computeBlockHash block.1 idx block.2 := by
  obtain ⟨onPath, -, -⟩ := findIdx?_parents found
  by_cases member : idx ∈ (parents index).take first
  · -- the parent is the next node of the path, sealed after this one
    obtain ⟨j, earlier, atJ⟩ := (mem_untrustedPath found).mp member
    have deeper : j + 1 < first := (untrustedPath_depth found earlier atJ).2.mpr deep
    rw [sealedStored_getElem? found along earlier atJ] at sent
    obtain ⟨inside, rfl⟩ := List.getElem?_eq_some_iff.mp atJ
    obtain ⟨-, rfl⟩ := List.getElem?_eq_some_iff.mp sent
    have parentAt : (parents index)[j + 1]? = some ((parents index)[j] / 2) := by
      rw [List.getElem?_eq_getElem (by omega), getElem_succ_parents]
    have recorded := along.records j (by simp; omega)
    have parentInside : j + 1 < sealed.length := by rw [along.length]; simp; omega
    refine ⟨sealed[j + 1], ?_, by simpa using recorded⟩
    rw [sealedStored_getElem? found along deeper parentAt, List.getElem?_eq_getElem]
  · rw [sealedStored_of_not_mem member] at sent
    obtain ⟨parent, parentSent, recordsChild⟩ := authentic.child idx block deep sent
    by_cases parentMember : idx / 2 ∈ (parents index).take first
    · -- the parent was sealed on the path and kept its record of this child
      obtain ⟨i, earlier, atI⟩ := (mem_untrustedPath found).mp parentMember
      obtain ⟨inside, parentIdx⟩ := List.getElem?_eq_some_iff.mp atI
      have sealedInside : i < sealed.length := by rw [along.length]; simp; omega
      refine ⟨sealed[i], by rw [sealedStored_getElem? found along earlier atI,
        List.getElem?_eq_getElem sealedInside], ?_⟩
      obtain ⟨entry, entryAt, sameMeta⟩ :=
        records i (by simp; omega) parent (by simpa [parentIdx] using parentSent)
      obtain ⟨scratchInside, rfl⟩ := List.getElem?_eq_some_iff.mp entryAt
      have kept := along.keeps i (by simp; omega) idx fun i' before => by
        have child : (parents index)[i] = (parents index)[i'] / 2 := by
          subst before
          exact getElem_succ_parents inside
        have differs : idx ≠ (parents index)[i'] := fun same =>
          member ((mem_untrustedPath found).mpr ⟨i', by omega, by rw [same, List.getElem?_eq_getElem]⟩)
        simp only [List.getElem_take]
        exact ⟨differs, by omega⟩
      rw [kept, sameMeta, recordsChild]
    · rw [sealedStored_of_not_mem parentMember]
      exact ⟨parent, parentSent, recordsChild⟩

omit [Inhabited D] [Inhabited M] [DecidableEq M] [DecidableEq H] in
include found along in
/-- The hash a checkin records as a trusted merkle root is that of the block sealed at the last
untrusted node. -/
theorem sealedStored_last (firstPos : 0 < first) {lastIdx : Nat} {lastHash : H}
    (sealing : checkinPath keys none (((parents index).take first).zip (src.zip scratch)) =
      (some (lastIdx, lastHash), sealed)) :
    (parents index)[first - 1]? = some lastIdx ∧ lastHash = storedHash keys lastIdx
      (writeAll stored ((parents index).take first) (sealed.map some) lastIdx) := by
  obtain ⟨onPath, -, -⟩ := findIdx?_parents found
  have blocksLength : (((parents index).take first).zip (src.zip scratch)).length = first := by
    have := along.srcLength
    have := along.scratchLength
    simp only [List.length_zip, List.length_take] at *
    omega
  have lastIndex : first - 1 + 1 = (((parents index).take first).zip (src.zip scratch)).length := by
    omega
  have last := checkinPath_fst keys none lastIndex (by rw [checkinPath_length]; omega)
  simp only [sealing, Option.some.injEq, Prod.mk.injEq] at last
  obtain ⟨idxEq, hashEq⟩ := last
  simp only [List.getElem_zip, List.getElem_take] at idxEq hashEq
  subst idxEq
  refine ⟨List.getElem?_eq_getElem (by omega), ?_⟩
  rw [hashEq, sealedStored_getElem? found along (by omega) (List.getElem?_eq_getElem (by omega)),
    List.getElem?_eq_getElem (by rw [along.length]; simp; omega), storedHash]

end Sealed

omit [Inhabited D] [DecidableEq M] [DecidableEq H] in
/-- The scratch buffer `checkin` resizes to the untrusted part of the path keeps the records a
checkout left in it. -/
theorem scratchRecords_resizeWith {path : List Nat} {l : List (ExtendedMeta M H)} {n : Nat}
    (records : ScratchRecords stored path l) :
    ScratchRecords stored (path.take n) (resizeWith (path.take n).length l) := by
  intro j inside block sent
  obtain ⟨entry, entryAt, sameMeta⟩ := records j (by simp at inside; omega) block (by simpa using sent)
  refine ⟨entry, ?_, sameMeta⟩
  rw [getElem?_resizeWith inside, entryAt]
  rfl

omit [Inhabited D] [DecidableEq M] [DecidableEq H] in
/-- A checkin after a checkout keeps the trusted state authentic, with the heap the blocks checked
in and untrusted holding what the checkin sent it: the block sealed at each untrusted node of the
path. -/
theorem checkin_authentic (involutive : KeystreamInvolutive keys)
    (authentic : Authentic keys self heap stored)
    (records : ScratchRecords stored (parents index) self.metaScratchBuffer)
    {self' : OcallORAMStorage D M H} {sent : List (Nat × D × ExtendedMeta M H)}
    (ok : self.checkin keys index src = some (self', sent)) :
    self'.count = self.count ∧ self'.treetopMaxCount = self.treetopMaxCount ∧
      Authentic keys self' (heap.checkin index src) (receive self.treetopMaxCount stored sent) ∧
      ∀ idx ∈ parents index, self.treetopMaxCount ≤ idx →
        receive self.treetopMaxCount stored sent idx ≠ none := by
  obtain ⟨-, -, sameLength, first, found, count, treetopMax, treetopData, cases⟩ :=
    checkin_eq_some keys ok
  obtain ⟨onPath, -, -⟩ := findIdx?_parents found
  refine ⟨count, treetopMax, ?_⟩
  rcases cases with ⟨rfl, roots, rfl⟩ | ⟨firstPos, lastIdx, lastHash, untrusted, roots⟩
  · -- the whole path is in the treetop: untrusted is sent nothing
    have offPath : ∀ idx ∈ parents index, self.treetopMaxCount ≤ idx → False := fun idx member above =>
      by simpa using mem_untrustedPath_of_le found member above
    refine ⟨⟨fun idx below => ?_, fun idx block sent => ?_, fun idx above below => ?_,
      fun idx block deep sent => ?_, fun idx block sent => ?_⟩,
      fun idx member above => (offPath idx member above).elim⟩
    · rw [treetopMax] at below
      exact checkin_treetop authentic found treetopData below
    · rw [treetopMax]
      exact authentic.untrusted idx block sent
    · rw [treetopMax] at above below
      rw [roots]
      exact authentic.root idx above below
    · rw [treetopMax] at deep
      exact authentic.child idx block deep sent
    · have absent : idx ∉ parents index := fun member =>
        offPath idx member (authentic.untrusted idx block sent)
      rw [HeapORAMStorage.data_checkin, writeAll_of_not_mem heap.data absent]
      exact authentic.decrypts idx block sent
  · -- past the treetop: untrusted holds the blocks sealed along the path
    have lowerLength : ((parents index).take first).length = first := by simp; omega
    have along : SealedAlong keys ((parents index).take first) src
        (resizeWith ((parents index).take first).length self.metaScratchBuffer)
        (checkinPath keys none (((parents index).take first).zip (src.zip
          (resizeWith ((parents index).take first).length self.metaScratchBuffer)))).2 :=
      sealedAlong_checkinPath keys involutive (by simp; omega) (by simp)
    obtain ⟨sealing, -, sentEq⟩ := checkinUntrusted_eq_some keys untrusted
    dsimp only at sentEq
    generalize sealedEq : checkinPath keys none (((parents index).take first).zip (src.zip
      (resizeWith ((parents index).take first).length self.metaScratchBuffer))) = result
      at along sealing sentEq
    obtain ⟨lastCarried, sealed⟩ := result
    obtain rfl : lastCarried = some (lastIdx, lastHash) := sealing
    obtain ⟨lastAt, lastHashEq⟩ := sealedStored_last found along firstPos sealedEq
    rw [sentEq, receive_zipWith (fun idx member => le_of_mem_untrustedPath found member)]
    refine ⟨⟨fun idx below => ?_, fun idx block sent => ?_, fun idx above below => ?_,
      fun idx block deep sent => ?_, fun idx block sent => ?_⟩, fun idx member above => ?_⟩
    · rw [treetopMax] at below
      exact checkin_treetop authentic found treetopData below
    · rw [treetopMax]
      exact sealedStored_untrusted authentic found sent
    · rw [treetopMax] at above below
      rw [roots]
      exact sealedStored_root authentic found lastAt lastHashEq above below
    · rw [treetopMax] at deep
      exact sealedStored_child authentic found along (scratchRecords_resizeWith records) deep sent
    · exact sealedStored_decrypts authentic found along sameLength sent
    · exact sealedStored_ne_none found along (mem_untrustedPath_of_le found member above)

omit [Inhabited D] [DecidableEq M] [DecidableEq H] in
/-- What a checkin sends untrusted: the blocks sealed along the untrusted part of the path, each
at its index less `treetop_max_count`. -/
theorem checkin_sealed (involutive : KeystreamInvolutive keys) {self' : OcallORAMStorage D M H}
    {sent : List (Nat × D × ExtendedMeta M H)} (ok : self.checkin keys index src = some (self', sent)) :
    ∃ first, (parents index).findIdx? (· < self.treetopMaxCount) = some first ∧ ∃ sealed,
      SealedAlong keys ((parents index).take first) src
        (resizeWith ((parents index).take first).length self.metaScratchBuffer) sealed ∧
      sent = ((parents index).take first).zipWith
        (fun idx block => (idx - self.treetopMaxCount, block)) sealed := by
  obtain ⟨-, -, sameLength, first, found, -, -, -, cases⟩ := checkin_eq_some keys ok
  obtain ⟨onPath, -, -⟩ := findIdx?_parents found
  have along : SealedAlong keys ((parents index).take first) src
      (resizeWith ((parents index).take first).length self.metaScratchBuffer)
      (checkinPath keys none (((parents index).take first).zip (src.zip
        (resizeWith ((parents index).take first).length self.metaScratchBuffer)))).2 :=
    sealedAlong_checkinPath keys involutive (by simp; omega) (by simp)
  refine ⟨first, found, _, along, ?_⟩
  rcases cases with ⟨rfl, -, rfl⟩ | ⟨-, lastIdx, lastHash, untrusted, -⟩
  · rfl
  · exact (checkinUntrusted_eq_some keys untrusted).2.2

end Checkin

end MobileCoin.OramStorage
