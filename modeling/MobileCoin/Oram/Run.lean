import Mathlib
import MobileCoin.Oram.Integrity

/-!
# Runs of checkouts and checkins

A path ORAM reaches its storage by accesses: a checkout of the path from a leaf, then a checkin
along the same path of the blocks it read, changed as it likes. Over a run of accesses from a new
`OcallORAMStorage`, with untrusted answering each checkout as it likes, every checkout that does
not panic returns what `HeapORAMStorage` would at each node of the path that lies in the treetop or
that an access has checked in before (`checkout_agrees_at_written`).

At a node never checked in the two part. A block untrusted returns with zeroed metadata opens to
zeroes without being checked against the hash carried up to it, and the block below it is checked
against nothing else. On a new storage untrusted can so make a checkout open the deepest block of a
path to any block it likes (`checkout_fresh_returns_forged_block`), where `HeapORAMStorage` returns
zeroes.
-/

namespace MobileCoin.OramStorage

open TreeIndex OcallORAMStorage

variable {D M H : Type} [Inhabited D] [Inhabited M] [Inhabited H] [DecidableEq M] [DecidableEq H]

/-- One access of a path ORAM: the checkout of the path from `index`, answered by untrusted with
`checkoutOcall`, then the checkin of `src` along the path. -/
structure Access (D M H : Type) where
  index : Nat
  checkoutOcall : Nat → D × ExtendedMeta M H
  src : List (D × M)

namespace OcallORAMStorage

/-- An access: the storage after it, what its checkout returned and what its checkin sent
untrusted. -/
def access (keys : Keys D M H) (self : OcallORAMStorage D M H) (a : Access D M H) :
    Option (OcallORAMStorage D M H × List (D × M) × List (Nat × D × ExtendedMeta M H)) := do
  let (self, outputs) ← self.checkout keys a.index a.checkoutOcall
  let (self, sent) ← self.checkin keys a.index a.src
  return (self, outputs, sent)

/-- A run of accesses none of which panics: the storage after it, and everything its checkins sent
untrusted, in order. -/
def run (keys : Keys D M H) (self : OcallORAMStorage D M H) :
    List (Access D M H) → Option (OcallORAMStorage D M H × List (Nat × D × ExtendedMeta M H))
  | [] => some (self, [])
  | a :: rest => do
    let (self, _, sent) ← self.access keys a
    let (self, log) ← run keys self rest
    return (self, sent ++ log)

theorem access_eq_some {keys : Keys D M H} {self self' : OcallORAMStorage D M H} {a : Access D M H}
    {outputs : List (D × M)} {sent : List (Nat × D × ExtendedMeta M H)} :
    self.access keys a = some (self', outputs, sent) ↔
      ∃ checkedOut, self.checkout keys a.index a.checkoutOcall = some (checkedOut, outputs) ∧
        checkedOut.checkin keys a.index a.src = some (self', sent) := by
  simp only [access, Option.bind_eq_bind, Option.bind_eq_some_iff, Prod.exists]
  constructor
  · rintro ⟨checkedOut, outputs', checkout, self'', sent', checkin, same⟩
    simp only [pure, Option.some.injEq, Prod.mk.injEq] at same
    obtain ⟨rfl, rfl, rfl⟩ := same
    exact ⟨checkedOut, checkout, checkin⟩
  · rintro ⟨checkedOut, checkout, checkin⟩
    exact ⟨checkedOut, outputs, checkout, self', sent, checkin, rfl⟩

theorem run_cons_eq_some {keys : Keys D M H} {self self' : OcallORAMStorage D M H} {a : Access D M H}
    {rest : List (Access D M H)} {log : List (Nat × D × ExtendedMeta M H)} :
    self.run keys (a :: rest) = some (self', log) ↔
      ∃ accessed outputs sent later, self.access keys a = some (accessed, outputs, sent) ∧
        accessed.run keys rest = some (self', later) ∧ log = sent ++ later := by
  simp only [run, Option.bind_eq_bind, Option.bind_eq_some_iff, Prod.exists]
  constructor
  · rintro ⟨accessed, outputs, sent, accessOk, self'', later, restOk, same⟩
    simp only [pure, Option.some.injEq, Prod.mk.injEq] at same
    obtain ⟨rfl, rfl⟩ := same
    exact ⟨accessed, outputs, sent, later, accessOk, restOk, rfl⟩
  · rintro ⟨accessed, outputs, sent, later, accessOk, restOk, rfl⟩
    exact ⟨accessed, outputs, sent, accessOk, self', later, restOk, rfl⟩

theorem run_append_singleton {keys : Keys D M H} {self middle self' : OcallORAMStorage D M H}
    {accesses : List (Access D M H)} {log : List (Nat × D × ExtendedMeta M H)} {a : Access D M H}
    {outputs : List (D × M)} {sent : List (Nat × D × ExtendedMeta M H)}
    (ran : self.run keys accesses = some (middle, log))
    (ok : middle.access keys a = some (self', outputs, sent)) :
    self.run keys (accesses ++ [a]) = some (self', log ++ sent) := by
  induction accesses generalizing self log with
  | nil =>
    simp only [run, Option.some.injEq, Prod.mk.injEq] at ran
    obtain ⟨rfl, rfl⟩ := ran
    exact run_cons_eq_some.mpr ⟨self', outputs, sent, [], ok, rfl, by simp⟩
  | cons b rest ih =>
    obtain ⟨accessed, outputs', sent', later, accessOk, restOk, rfl⟩ := run_cons_eq_some.mp ran
    exact run_cons_eq_some.mpr ⟨accessed, outputs', sent', later ++ sent, accessOk, ih restOk,
      by rw [List.append_assoc]⟩

end OcallORAMStorage

/-- `HeapORAMStorage` after the same accesses: each writes its blocks along its path. -/
def heapRun (heap : HeapORAMStorage D M) (accesses : List (Access D M H)) : HeapORAMStorage D M :=
  accesses.foldl (fun heap a => heap.checkin a.index a.src) heap

/-- Keys for the examples: the identity keystream, and a hash pairing the fields of a block into a
nonzero number. -/
def pairKeys : Keys Bool Bool Nat where
  applyKeystream _ _ block := block
  computeBlockHash eData blockIdx extendedMeta :=
    Nat.pair (Nat.pair eData.toNat blockIdx)
      (Nat.pair (Nat.pair extendedMeta.metadata.toNat extendedMeta.extraMeta.blockCtr.toNat)
        (Nat.pair extendedMeta.extraMeta.leftChildHash extendedMeta.extraMeta.rightChildHash)) + 1

theorem pairKeys_involutive : KeystreamInvolutive pairKeys := fun _ _ _ => rfl

theorem pairKeys_collisionFree : CollisionFree pairKeys where
  injective {eData eData' blockIdx blockIdx' extendedMeta extendedMeta'} same := by
    obtain ⟨metadata, blockCtr, left, right⟩ := extendedMeta
    obtain ⟨metadata', blockCtr', left', right'⟩ := extendedMeta'
    simp only [pairKeys, Nat.add_right_cancel_iff, Nat.pair_eq_pair] at same
    obtain ⟨⟨data, rfl⟩, ⟨sameMetadata, counter⟩, rfl, rfl⟩ := same
    -- the block and its metadata are booleans, told apart by their numbers
    have toNat_inj : ∀ {b b' : Bool}, b.toNat = b'.toNat → b = b' := by
      intro b b' same
      cases b <;> cases b' <;> simp_all
    refine ⟨toNat_inj data, rfl, ?_⟩
    have sameMeta : metadata = metadata' := toNat_inj sameMetadata
    have sameCounter : blockCtr = blockCtr' := UInt64.toNat_inj.mp counter
    rw [sameMeta, sameCounter]
  ne_default _ _ _ := Nat.succ_ne_zero _

/-- The storage `new 8 1 1 1` builds: eight blocks, the first two in the treetop. -/
def eightBlocks : OcallORAMStorage Bool Bool Nat :=
  ⟨8, 2, le_refl 2, HeapORAMStorage.new, fun _ => 0, []⟩

theorem new_eightBlocks : new 8 1 1 1 = some eightBlocks := rfl

/-- The storage `new 4 1 1 1` builds: four blocks, the first two in the treetop. -/
def fourBlocks : OcallORAMStorage Bool Bool Nat :=
  { eightBlocks with count := 4 }

theorem new_fourBlocks : new 4 1 1 1 = some fourBlocks := rfl

/-- An access of node `2` that untrusted answers honestly, with the block it holds there, and that
checks in blocks with metadata `true`. -/
def honestAccess (stored : Nat → Option (Bool × ExtendedMeta Bool Nat)) : Access Bool Bool Nat :=
  ⟨2, fun _ => (stored 2).getD default, [(true, true), (true, true)]⟩

/-- On a storage of four blocks, an honestly answered access of node `2` never panics while the
block untrusted holds there has metadata `true`; it sends one block for node `2`, again with
metadata `true`. -/
theorem honestAccess_ok {self : OcallORAMStorage Bool Bool Nat} {heap : HeapORAMStorage Bool Bool}
    {stored : Nat → Option (Bool × ExtendedMeta Bool Nat)}
    (authentic : Authentic pairKeys self heap stored) (count : self.count = 4)
    (treetop : self.treetopMaxCount = 2)
    (marked : ∀ block, stored 2 = some block → block.2.metadata = true) :
    ∃ self' outputs block, self.access pairKeys (honestAccess stored) = some (self', outputs, [(0, block)]) ∧
      block.2.metadata = true := by
  have path : parents 2 = [2, 1] := by simp [parents]
  have found : (parents 2).findIdx? (· < self.treetopMaxCount) = some 1 := by
    rw [path, treetop]
    rfl
  have returnedEq : checkoutOcallAt (honestAccess stored).checkoutOcall self.treetopMaxCount
      ((parents 2).take 1) = [(2, (stored 2).getD default)] := by
    rw [path, treetop]
    rfl
  -- the trusted merkle root authenticates the block untrusted holds
  have rooted : RootChecked pairKeys self [(2, (stored 2).getD default)] := by
    have root := authentic.root 2 (by omega) (by omega)
    simp only [RootChecked, List.getLast?_singleton]
    rw [root]
    cases held : stored 2 with
    | none => rfl
    | some block =>
      have nonzero : block.2 ≠ default := fun zero => by
        have unmarked := marked block held
        rw [zero] at unmarked
        exact absurd unmarked (by decide)
      rw [Option.getD_some, storedHash, carriedHash_of_ne_default pairKeys 2 nonzero]
  have untrusted := checkoutUntrusted_eq_some.mpr
    ⟨by rw [returnedEq]; exact ⟨trivial, trivial⟩, by rw [returnedEq]; exact rooted, rfl⟩
  obtain ⟨checkedOut, outputs, checkout, sameCount, sameTreetop⟩ : ∃ checkedOut outputs,
      self.checkout pairKeys 2 (honestAccess stored).checkoutOcall = some (checkedOut, outputs) ∧
        checkedOut.count = 4 ∧ checkedOut.treetopMaxCount = 2 :=
    ⟨_, _, checkout_eq_some.mpr ⟨by decide, by omega, 1, found, .inr ⟨by decide, _, _, untrusted, rfl, rfl⟩⟩,
      count, treetop⟩
  -- the checkin panics only on an invalid index
  have checkinSome : (checkedOut.checkin pairKeys 2 (honestAccess stored).src).isSome :=
    checkin_isSome pairKeys (by decide) (by omega) (by rw [path]; rfl)
  obtain ⟨⟨self', sent⟩, checkin⟩ := Option.isSome_iff_exists.mp checkinSome
  obtain ⟨first, found', sealed, along, rfl⟩ := checkin_sealed pairKeys_involutive checkin
  have firstTreetop : (parents 2).findIdx? (· < checkedOut.treetopMaxCount) = some 1 := by
    rw [path, sameTreetop]
    rfl
  obtain rfl : first = 1 := Option.some.inj (found'.symm.trans firstTreetop)
  obtain ⟨block, rfl⟩ : ∃ block, sealed = [block] :=
    List.length_eq_one_iff.mp (by simpa [path] using along.length)
  have sentEq : ((parents 2).take 1).zipWith
      (fun idx block => (idx - checkedOut.treetopMaxCount, block)) [block] = [(0, block)] := by
    rw [path, sameTreetop]
    rfl
  rw [sentEq] at checkin
  have decrypted := along.decrypts 0 (by simp [path])
  simp [decrypt, pairKeys, honestAccess] at decrypted
  exact ⟨self', outputs, block, access_eq_some.mpr ⟨checkedOut, checkout, checkin⟩, decrypted.2⟩

/-! ### Runs keep the trusted state authentic -/

section Run

variable {keys : Keys D M H} {heap : HeapORAMStorage D M} {stored : Nat → Option (D × ExtendedMeta M H)}

omit [Inhabited D] [Inhabited M] [DecidableEq M] [DecidableEq H] in
theorem Authentic.withScratch {self : OcallORAMStorage D M H}
    (authentic : Authentic keys self heap stored) (metaScratchBuffer : List (ExtendedMeta M H)) :
    Authentic keys { self with metaScratchBuffer } heap stored :=
  ⟨authentic.treetop, authentic.untrusted, authentic.root, authentic.child, authentic.decrypts⟩

/-- An access keeps the trusted state authentic, with the heap its checkin writes and untrusted
holding what it sends: the checkout leaves in the scratch buffer what the checkin needs. -/
theorem access_authentic (collisionFree : CollisionFree keys) (involutive : KeystreamInvolutive keys)
    {self self' : OcallORAMStorage D M H} (authentic : Authentic keys self heap stored)
    {a : Access D M H} {outputs : List (D × M)} {sent : List (Nat × D × ExtendedMeta M H)}
    (ok : self.access keys a = some (self', outputs, sent)) :
    self'.count = self.count ∧ self'.treetopMaxCount = self.treetopMaxCount ∧
      Authentic keys self' (heap.checkin a.index a.src) (receive self.treetopMaxCount stored sent) ∧
      ∀ idx ∈ parents a.index, self.treetopMaxCount ≤ idx →
        receive self.treetopMaxCount stored sent idx ≠ none := by
  obtain ⟨checkedOut, checkout, checkin⟩ := access_eq_some.mp ok
  obtain ⟨scratchOnly, records, -⟩ := checkout_authentic collisionFree authentic checkout
  have checkedOutAuthentic : Authentic keys checkedOut heap stored := by
    rw [scratchOnly]
    exact authentic.withScratch _
  have sameCount : checkedOut.count = self.count := by
    rw [scratchOnly]
  have sameTreetop : checkedOut.treetopMaxCount = self.treetopMaxCount := by
    rw [scratchOnly]
  obtain ⟨count, treetopMax, authentic', written⟩ :=
    checkin_authentic involutive checkedOutAuthentic records checkin
  rw [sameTreetop] at authentic' written
  exact ⟨count.trans sameCount, treetopMax.trans sameTreetop, authentic', written⟩

/-- A run keeps the trusted state authentic, with the heap after the same accesses and untrusted
holding everything sent it. Every node an access of the run checked in past the treetop then
holds a block. -/
theorem run_authentic (collisionFree : CollisionFree keys) (involutive : KeystreamInvolutive keys)
    {accesses : List (Access D M H)} {self self' : OcallORAMStorage D M H}
    {log : List (Nat × D × ExtendedMeta M H)} (authentic : Authentic keys self heap stored)
    (ran : self.run keys accesses = some (self', log)) :
    self'.count = self.count ∧ self'.treetopMaxCount = self.treetopMaxCount ∧
      Authentic keys self' (heapRun heap accesses) (receive self.treetopMaxCount stored log) ∧
      ∀ a ∈ accesses, ∀ idx ∈ parents a.index, self.treetopMaxCount ≤ idx →
        receive self.treetopMaxCount stored log idx ≠ none := by
  induction accesses generalizing self heap stored log with
  | nil =>
    simp only [run, Option.some.injEq, Prod.mk.injEq] at ran
    obtain ⟨rfl, rfl⟩ := ran
    exact ⟨rfl, rfl, authentic, fun a member => absurd member List.not_mem_nil⟩
  | cons a rest ih =>
    obtain ⟨accessed, outputs, sent, later, accessOk, restOk, rfl⟩ := run_cons_eq_some.mp ran
    obtain ⟨sameCount, sameTreetop, authentic₁, written₁⟩ :=
      access_authentic collisionFree involutive authentic accessOk
    obtain ⟨sameCount', sameTreetop', authentic', written'⟩ := ih authentic₁ restOk
    rw [sameTreetop] at sameTreetop' authentic' written'
    rw [receive_append]
    refine ⟨sameCount'.trans sameCount, sameTreetop', authentic', ?_⟩
    intro b member idx onPath above
    rcases List.mem_cons.mp member with rfl | later
    · exact receive_ne_none later (written₁ idx onPath above)
    · exact written' b later idx onPath above

/-- After any run of accesses from a new storage, a checkout that does not panic returns, at each
node of the path in the treetop or checked in by an access of the run, the block
`HeapORAMStorage` returns after the same accesses. -/
theorem checkout_agrees_at_written (collisionFree : CollisionFree keys)
    (involutive : KeystreamInvolutive keys) {count : Nat} {treetopCachingThresholdLog2 : UInt32}
    {dataSize allocationId : UInt64} {created self self' : OcallORAMStorage D M H}
    (fresh : new count treetopCachingThresholdLog2 dataSize allocationId = some created)
    {accesses : List (Access D M H)} {log : List (Nat × D × ExtendedMeta M H)}
    (ran : created.run keys accesses = some (self, log)) {index : Nat}
    {checkoutOcall : Nat → D × ExtendedMeta M H} {outputs : List (D × M)}
    (ok : self.checkout keys index checkoutOcall = some (self', outputs))
    {k : Nat} (inside : k < (parents index).length)
    (written : (parents index)[k] < created.treetopMaxCount ∨
      ∃ a ∈ accesses, (parents index)[k] ∈ parents a.index) :
    outputs[k]? = ((heapRun HeapORAMStorage.new accesses).checkout index)[k]? := by
  obtain ⟨-, sameTreetop, authentic, everWritten⟩ :=
    run_authentic collisionFree involutive (authentic_new keys fresh) ran
  obtain ⟨-, -, agrees⟩ := checkout_authentic collisionFree authentic ok
  rw [HeapORAMStorage.checkout, List.getElem?_map, List.getElem?_eq_getElem inside, Option.map_some]
  apply agrees k inside
  rw [sameTreetop]
  rcases written with treetop | ⟨a, member, onPath⟩
  · exact .inl treetop
  · by_cases above : created.treetopMaxCount ≤ (parents index)[k]
    · exact .inr (everWritten a member _ onPath above)
    · exact .inl (Nat.lt_of_not_le above)

/-- An honestly answered access of node `2`, below the treetop of four blocks, checks in blocks
`(true, true)`; a later checkout of node `2`, answered with what untrusted was sent, returns them. -/
theorem checkout_agrees_at_written_after_checkin :
    ∃ self log self' outputs,
      fourBlocks.run pairKeys [honestAccess fun _ => none] = some (self, log) ∧
      self.checkout pairKeys 2 (honestAccess (receive 2 (fun _ => none) log)).checkoutOcall =
        some (self', outputs) ∧
      outputs[0]? = some (true, true) := by
  obtain ⟨self, outputs, block, first, marking⟩ :=
    honestAccess_ok (authentic_new pairKeys new_fourBlocks) rfl rfl fun _ none => by cases none
  have ran : fourBlocks.run pairKeys ([] ++ [honestAccess fun _ => none]) =
      some (self, [] ++ [(0, block)]) :=
    run_append_singleton rfl first
  rw [List.nil_append, List.nil_append] at ran
  obtain ⟨count, treetop, authentic, -⟩ := run_authentic pairKeys_collisionFree pairKeys_involutive
    (authentic_new pairKeys new_fourBlocks) ran
  -- untrusted holds for node `2` the block the first checkin sent
  have marked : ∀ held, receive 2 (fun _ => none) [(0, block)] 2 = some held →
      held.2.metadata = true := by
    intro held found
    simp only [receive, List.foldl_cons, List.foldl_nil, Function.update_self,
      Option.some.injEq] at found
    exact found ▸ marking
  obtain ⟨self₂, outputs₂, block₂, second, -⟩ := honestAccess_ok authentic count treetop marked
  obtain ⟨checkedOut, checkout, -⟩ := access_eq_some.mp second
  have checkoutTwo : self.checkout pairKeys 2
      (honestAccess (receive 2 (fun _ => none) [(0, block)])).checkoutOcall =
        some (checkedOut, outputs₂) := checkout
  refine ⟨self, _, checkedOut, _, ran, checkoutTwo, ?_⟩
  -- node `2` is the first of its path, and the access of the run checked it in
  have path : parents 2 = [2, 1] := by simp [parents]
  have inside : 0 < (parents 2).length := by rw [path]; decide
  rw [checkout_agrees_at_written pairKeys_collisionFree pairKeys_involutive new_fourBlocks ran
    checkoutTwo (k := 0) inside (.inr ⟨_, List.mem_singleton_self _, List.getElem_mem inside⟩)]
  -- the heap holds at node `2` the block checked in there
  rw [heapRun, List.foldl_cons, List.foldl_nil, HeapORAMStorage.checkout,
    HeapORAMStorage.data_checkin]
  dsimp only [honestAccess]
  rw [path]
  rfl

end Run

/-! ### Blocks never checked in -/

section Fresh

variable {keys : Keys D M H}

omit [Inhabited D] in
theorem pathChecked_of_default (keys : Keys D M H) {lastHash : Option (Nat × H)}
    {blocks : List (Nat × D × ExtendedMeta M H)} (zero : ∀ block ∈ blocks, block.2.2 = default) :
    PathChecked keys lastHash blocks := by
  induction blocks generalizing lastHash with
  | nil => trivial
  | cons block rest ih =>
    obtain ⟨blockIdx, eData, extendedMeta⟩ := block
    have unchecked : extendedMeta = default := zero _ List.mem_cons_self
    refine ⟨?_, ih fun b member => zero b (List.mem_cons_of_mem _ member)⟩
    rcases lastHash with _ | ⟨lastIdx, hash⟩
    · trivial
    · exact fun nonzero => absurd unchecked nonzero

omit [Inhabited D] in
theorem rootChecked_of_default {self : OcallORAMStorage D M H}
    (roots : self.trustedMerkleRoots = fun _ => default) {returned : List (Nat × D × ExtendedMeta M H)}
    {last : Nat × D × ExtendedMeta M H} (lastEq : returned.getLast? = some last)
    (zero : last.2.2 = default) : RootChecked keys self returned := by
  obtain ⟨lastIdx, block⟩ := last
  simp only at zero
  simp [RootChecked, lastEq, roots, carriedHash, zero]

/-- Below twice the treetop the leaf and its parent are kept by untrusted: the first treetop
index of the path is at least `2`. -/
theorem two_le_of_findIdx?_parents {index treetopMaxCount first : Nat}
    (deep : 2 * treetopMaxCount ≤ index)
    (found : (parents index).findIdx? (· < treetopMaxCount) = some first) : 2 ≤ first := by
  obtain ⟨onPath, topBelow, -⟩ := findIdx?_parents found
  have atFirst := getElem_parents onPath
  by_contra shallow
  interval_cases first <;> simp at atFirst <;> omega

/-- On a new storage, untrusted can make a checkout of any path of more than one untrusted node
return any block at its leaf: it returns the block encrypted under the counter `1` there, and
zeroed metadata at the nodes above. `HeapORAMStorage` returns zeroes there. -/
theorem checkout_fresh_returns_forged_block (involutive : KeystreamInvolutive keys) {count : Nat}
    {treetopCachingThresholdLog2 : UInt32} {dataSize allocationId : UInt64}
    {self : OcallORAMStorage D M H}
    (created : new count treetopCachingThresholdLog2 dataSize allocationId = some self) {index : Nat}
    (deep : 2 * self.treetopMaxCount ≤ index) (inRange : index < count) (block : D × M) :
    (∃ checkoutOcall self' outputs, self.checkout keys index checkoutOcall = some (self', outputs) ∧
        outputs[0]? = some block) ∧
      ((HeapORAMStorage.new : HeapORAMStorage D M).checkout index)[0]? = some default := by
  obtain ⟨sameCount, -, roots⟩ := new_eq_some created
  have two := self.two_le_treetopMaxCount
  have pos : 0 < index := by omega
  have path := parents_of_pos pos
  refine ⟨?_, by simp [HeapORAMStorage.checkout, HeapORAMStorage.new, path]⟩
  obtain ⟨first, found⟩ := exists_findIdx?_parents pos (by omega : 1 < self.treetopMaxCount)
  have deeper := two_le_of_findIdx?_parents deep found
  let forged : D × ExtendedMeta M H :=
    ((keys.applyKeystream index 1 block).1, ⟨(keys.applyKeystream index 1 block).2, ⟨1, default, default⟩⟩)
  let checkoutOcall : Nat → D × ExtendedMeta M H := fun u =>
    if u = index - self.treetopMaxCount then forged else default
  have nonzero : forged.2 ≠ default := fun zero => by
    have counter : (1 : UInt64) = 0 :=
      congrArg (fun extendedMeta : ExtendedMeta M H => extendedMeta.extraMeta.blockCtr) zero
    exact absurd counter (by decide)
  have upper : (parents index).take first = index :: (parents (index / 2)).take (first - 1) := by
    rw [path, show first = first - 1 + 1 by omega, List.take_succ_cons, Nat.add_sub_cancel]
  -- above the leaf untrusted returns zeroed blocks
  have zero : ∀ b ∈ checkoutOcallAt checkoutOcall self.treetopMaxCount ((parents (index / 2)).take (first - 1)),
      b.2.2 = default := by
    intro b member
    obtain ⟨idx, taken, rfl⟩ := List.mem_map.mp member
    have above : self.treetopMaxCount ≤ idx :=
      le_of_mem_untrustedPath found (by rw [upper]; exact List.mem_cons_of_mem _ taken)
    have below : idx < index := by
      obtain ⟨-, k, rfl⟩ := mem_parents.mp (List.mem_of_mem_take taken)
      have := Nat.div_le_self (index / 2) (2 ^ k)
      omega
    have differs : idx - self.treetopMaxCount ≠ index - self.treetopMaxCount := by omega
    simp only [checkoutOcall, if_neg differs]
    rfl
  have returnedEq : checkoutOcallAt checkoutOcall self.treetopMaxCount ((parents index).take first) =
      (index, forged) :: checkoutOcallAt checkoutOcall self.treetopMaxCount
        ((parents (index / 2)).take (first - 1)) := by
    rw [upper]
    simp [checkoutOcallAt, checkoutOcall]
  obtain ⟨last, lastEq, lastMember⟩ : ∃ last, (checkoutOcallAt checkoutOcall self.treetopMaxCount
      ((parents index).take first)).getLast? = some last ∧ last ∈ checkoutOcallAt checkoutOcall
        self.treetopMaxCount ((parents (index / 2)).take (first - 1)) := by
    have nonempty : checkoutOcallAt checkoutOcall self.treetopMaxCount
        ((parents (index / 2)).take (first - 1)) ≠ [] := by
      rw [checkoutOcallAt, parents_of_pos (by omega : 0 < index / 2),
        show first - 1 = first - 2 + 1 by omega, List.take_succ_cons, List.map_cons]
      exact List.cons_ne_nil _ _
    rw [returnedEq, List.getLast?_cons, List.getLast?_eq_some_getLast nonempty]
    exact ⟨_, rfl, List.getLast_mem nonempty⟩
  have untrusted := checkoutUntrusted_eq_some.mpr
    ⟨by rw [returnedEq]; exact ⟨trivial, pathChecked_of_default keys zero⟩,
      rootChecked_of_default roots lastEq (zero last lastMember), rfl⟩
  refine ⟨checkoutOcall, _, _, checkout_eq_some.mpr ⟨pos, by omega, first, found,
    .inr ⟨by omega, _, _, untrusted, rfl, rfl⟩⟩, ?_⟩
  rw [returnedEq, List.map_cons, List.cons_append, List.getElem?_cons_zero, openBlock, if_neg nonzero,
    decrypt]
  exact congrArg some (involutive index 1 block)

theorem checkout_fresh_returns_forged_block_at_four :
    (∃ checkoutOcall self' outputs, eightBlocks.checkout pairKeys 4 checkoutOcall = some (self', outputs) ∧
        outputs[0]? = some (true, true)) ∧
      ((HeapORAMStorage.new : HeapORAMStorage Bool Bool).checkout 4)[0]? = some default :=
  checkout_fresh_returns_forged_block pairKeys_involutive new_eightBlocks (by decide) (by decide) (true, true)

end Fresh

end MobileCoin.OramStorage
