import MobileCoin.Lib.Except
import MobileCoin.Scp.Slot

/-!
# The weight of a node

`QuorumSetExt::weight` returns the fraction of the quorum slices that contain a node, as a
pair of `u32`s: the threshold over the member count of the level holding the node, times the
same fraction of every level above it. `Slot::neighbors` scales `U256::MAX` by it and converts
the result back to a `U256`, which panics unless the fraction is at most one.

The bounds need the threshold of every level within its members, as `QuorumSet::is_valid`
checks, and the member counts multiplied along every nesting path within `u32`, so that the
products do not wrap. A node that occurs has a positive weight only when every threshold on
its path is positive, which `is_valid` does not ask.
-/

namespace MobileCoin.Scp

namespace QuorumSet

variable {ID : Type}

/-! ### Properties of every level -/

mutual
/-- `p` holds at every level, given the product of the member counts of the levels above. -/
def everyLevel (p : ℕ → UInt32 → List (Option (QuorumSetMember ID)) → Bool) (above : ℕ) :
    QuorumSet ID → Bool
  | mk threshold members =>
    p above threshold members && everyInnerSet p (above * members.length) members
def everyInnerSet (p : ℕ → UInt32 → List (Option (QuorumSetMember ID)) → Bool) (above : ℕ) :
    List (Option (QuorumSetMember ID)) → Bool
  | [] => true
  | none :: rest => everyInnerSet p above rest
  | some (.node _) :: rest => everyInnerSet p above rest
  | some (.innerSet qs) :: rest => everyLevel p above qs && everyInnerSet p above rest
end

/-- `threshold <= members.len()`, the check `QuorumSet::is_valid` makes at each level. -/
def thresholdFits (_above : ℕ) (threshold : UInt32) (members : List (Option (QuorumSetMember ID))) :
    Bool :=
  threshold.toNat ≤ members.length

/-- The member counts from the top down to this level multiply to a `u32`. -/
def productFits (above : ℕ) (_threshold : UInt32) (members : List (Option (QuorumSetMember ID))) :
    Bool :=
  above * members.length < UInt32.size

def thresholdPositive (_above : ℕ) (threshold : UInt32)
    (_members : List (Option (QuorumSetMember ID))) : Bool :=
  0 < threshold

mutual
theorem everyLevel_and (p p' : ℕ → UInt32 → List (Option (QuorumSetMember ID)) → Bool) :
    ∀ (above : ℕ) (qs : QuorumSet ID),
      everyLevel (fun a t m => p a t m && p' a t m) above qs =
        (everyLevel p above qs && everyLevel p' above qs)
  | above, mk threshold members => by
    rw [everyLevel, everyLevel, everyLevel, everyInnerSet_and p p' (above * members.length)]
    simp only [Bool.and_assoc, Bool.and_left_comm]
theorem everyInnerSet_and (p p' : ℕ → UInt32 → List (Option (QuorumSetMember ID)) → Bool) :
    ∀ (above : ℕ) (members : List (Option (QuorumSetMember ID))),
      everyInnerSet (fun a t m => p a t m && p' a t m) above members =
        (everyInnerSet p above members && everyInnerSet p' above members)
  | _, [] => rfl
  | above, none :: rest => by
    rw [everyInnerSet, everyInnerSet, everyInnerSet, everyInnerSet_and p p' above rest]
  | above, some (.node _) :: rest => by
    rw [everyInnerSet, everyInnerSet, everyInnerSet, everyInnerSet_and p p' above rest]
  | above, some (.innerSet qs) :: rest => by
    rw [everyInnerSet, everyInnerSet, everyInnerSet, everyLevel_and p p' above qs,
      everyInnerSet_and p p' above rest]
    simp only [Bool.and_assoc, Bool.and_left_comm]
end

/-! ### Bounds of the weight -/

/-- The facts about the level being walked that bound its weight: its threshold is within its
member count `length`, and `length` times the product `above` of the counts above it fits. -/
structure LevelFits (above : ℕ) (threshold length : UInt32) : Prop where
  above_pos : 0 < above
  above_lt : above < UInt32.size
  threshold_le : threshold.toNat ≤ length.toNat
  product_lt : above * length.toNat < UInt32.size

/-- A weight at most one, whose denominator times the product `above` still fits. -/
def WeightBounded (above : ℕ) (weight : UInt32 × UInt32) : Prop :=
  0 < weight.2.toNat ∧ weight.1.toNat ≤ weight.2.toNat ∧ above * weight.2.toNat < UInt32.size

theorem toNat_mul_of_lt {a b : UInt32} (fits : a.toNat * b.toNat < UInt32.size) :
    (a * b).toNat = a.toNat * b.toNat := by
  rw [UInt32.toNat_mul]
  exact Nat.mod_eq_of_lt fits

theorem inner_products_toNat {above : ℕ} {threshold length num2 denom2 : UInt32}
    (fits : LevelFits above threshold length)
    (inner : WeightBounded (above * length.toNat) (num2, denom2)) :
    (threshold * num2).toNat = threshold.toNat * num2.toNat ∧
      (length * denom2).toNat = length.toNat * denom2.toNat := by
  obtain ⟨-, numLe, innerLt⟩ := inner
  have denomLt : length.toNat * denom2.toNat < UInt32.size := by
    calc length.toNat * denom2.toNat ≤ above * (length.toNat * denom2.toNat) :=
          Nat.le_mul_of_pos_left _ fits.above_pos
      _ = above * length.toNat * denom2.toNat := (Nat.mul_assoc _ _ _).symm
      _ < UInt32.size := innerLt
  have numLe' : threshold.toNat * num2.toNat ≤ length.toNat * denom2.toNat :=
    Nat.mul_le_mul fits.threshold_le numLe
  exact ⟨toNat_mul_of_lt (Nat.lt_of_le_of_lt numLe' denomLt), toNat_mul_of_lt denomLt⟩

theorem LevelFits.inner {above : ℕ} {threshold length : UInt32}
    (fits : LevelFits above threshold length) (nonempty : 0 < length.toNat) :
    0 < above * length.toNat ∧ above * length.toNat < UInt32.size :=
  ⟨Nat.mul_pos fits.above_pos nonempty, fits.product_lt⟩

/-- The two checks the bounds need at each level. -/
def levelFits (above : ℕ) (threshold : UInt32) (members : List (Option (QuorumSetMember ID))) :
    Bool :=
  thresholdFits above threshold members && productFits above threshold members

variable [DecidableEq ID] (nodeId : ID)

mutual
theorem membersWeight_bounded (threshold length : UInt32) :
    ∀ (members : List (Option (QuorumSetMember ID))) (above : ℕ),
      LevelFits above threshold length → members.length ≤ length.toNat →
      everyInnerSet levelFits (above * length.toNat) members = true →
      WeightBounded above (membersWeight nodeId threshold length members)
  | [], above, fits, _, _ => by
    rw [membersWeight]
    exact ⟨Nat.one_pos, Nat.zero_le 1, by simpa using fits.above_lt⟩
  | none :: rest, above, fits, short, valid => by
    rw [everyInnerSet] at valid
    rw [membersWeight]
    exact membersWeight_bounded threshold length rest above fits
      (Nat.le_of_succ_le short) valid
  | some (.node id) :: rest, above, fits, short, valid => by
    rw [everyInnerSet] at valid
    rw [membersWeight]
    split
    · -- the node is a member of this level: the level's own fraction
      exact ⟨Nat.lt_of_lt_of_le (Nat.succ_pos _) short, fits.threshold_le, fits.product_lt⟩
    · exact membersWeight_bounded threshold length rest above fits
        (Nat.le_of_succ_le short) valid
  | some (.innerSet qs) :: rest, above, fits, short, valid => by
    rw [everyInnerSet, Bool.and_eq_true] at valid
    have nonempty : 0 < length.toNat := Nat.lt_of_lt_of_le (Nat.succ_pos _) short
    obtain ⟨innerPos, innerLt⟩ := fits.inner nonempty
    have inner := weight_bounded qs (above * length.toNat) innerPos innerLt valid.1
    rcases found : weight nodeId qs with ⟨num2, denom2⟩
    rw [found] at inner
    rw [membersWeight, found]
    dsimp only
    split
    · -- the node is in the inner set: this level's fraction times the inner one
      obtain ⟨numEq, denomEq⟩ := inner_products_toNat fits inner
      obtain ⟨denomPos, numLe, innerProduct⟩ := inner
      refine ⟨?_, ?_, ?_⟩
      · rw [denomEq]
        exact Nat.mul_pos nonempty denomPos
      · rw [numEq, denomEq]
        exact Nat.mul_le_mul fits.threshold_le numLe
      · rw [denomEq, ← Nat.mul_assoc]
        exact innerProduct
    · exact membersWeight_bounded threshold length rest above fits
        (Nat.le_of_succ_le short) valid.2
theorem weight_bounded :
    ∀ (qs : QuorumSet ID) (above : ℕ), 0 < above → above < UInt32.size →
      everyLevel levelFits above qs = true → WeightBounded above (weight nodeId qs)
  | mk threshold members, above, pos, lt, valid => by
    rw [everyLevel, Bool.and_eq_true, levelFits, Bool.and_eq_true, thresholdFits, productFits,
      decide_eq_true_eq, decide_eq_true_eq] at valid
    obtain ⟨⟨thresholdLe, productLt⟩, inner⟩ := valid
    have length : (UInt32.ofNat members.length).toNat = members.length :=
      UInt32.toNat_ofNat_of_lt' (Nat.lt_of_le_of_lt (Nat.le_mul_of_pos_left _ pos) productLt)
    rw [weight]
    refine membersWeight_bounded threshold _ members above ⟨pos, lt, ?_, ?_⟩ ?_ ?_
    · rw [length]
      exact thresholdLe
    · rw [length]
      exact productLt
    · rw [length]
    · rw [length]
      exact inner
end

/-! ### Which nodes have a positive weight -/

mutual
theorem mem_of_membersWeight_pos (threshold length : UInt32) :
    ∀ members : List (Option (QuorumSetMember ID)),
      0 < (membersWeight nodeId threshold length members).1 → nodeId ∈ membersNodes members
  | [], positive => by
    rw [membersWeight] at positive
    exact absurd positive (UInt32.lt_irrefl 0)
  | none :: rest, positive => by
    rw [membersWeight] at positive
    rw [membersNodes]
    exact mem_of_membersWeight_pos threshold length rest positive
  | some (.node id) :: rest, positive => by
    rw [membersWeight] at positive
    rw [membersNodes]
    split at positive
    · next same => exact same ▸ List.mem_cons_self
    · exact List.mem_cons_of_mem id (mem_of_membersWeight_pos threshold length rest positive)
  | some (.innerSet qs) :: rest, positive => by
    rw [membersNodes, List.mem_append]
    rcases found : weight nodeId qs with ⟨num2, denom2⟩
    rw [membersWeight, found] at positive
    dsimp only at positive
    split at positive
    · next innerPositive =>
      exact .inl (mem_of_weight_pos qs (by rw [found]; exact innerPositive))
    · exact .inr (mem_of_membersWeight_pos threshold length rest positive)
theorem mem_of_weight_pos :
    ∀ qs : QuorumSet ID, 0 < (weight nodeId qs).1 → nodeId ∈ nodesList qs
  | mk threshold members, positive => by
    rw [weight] at positive
    rw [nodesList]
    exact mem_of_membersWeight_pos threshold _ members positive
end

/-- The checks of the bounds, and a positive threshold. -/
def positiveFits (above : ℕ) (threshold : UInt32) (members : List (Option (QuorumSetMember ID))) :
    Bool :=
  levelFits above threshold members && thresholdPositive above threshold members

omit [DecidableEq ID] in
theorem everyLevel_levelFits_of_positiveFits {above : ℕ} {qs : QuorumSet ID}
    (valid : everyLevel positiveFits above qs = true) : everyLevel levelFits above qs = true := by
  have split := everyLevel_and levelFits thresholdPositive above qs
  rw [show (fun a t m => levelFits a t m && thresholdPositive a t m) = @positiveFits ID from rfl,
    valid] at split
  exact (Bool.and_eq_true _ _).mp split.symm |>.1

mutual
theorem membersWeight_pos (threshold length : UInt32) :
    ∀ (members : List (Option (QuorumSetMember ID))) (above : ℕ),
      LevelFits above threshold length → 0 < threshold → members.length ≤ length.toNat →
      everyInnerSet positiveFits (above * length.toNat) members = true →
      nodeId ∈ membersNodes members → 0 < (membersWeight nodeId threshold length members).1
  | [], _, _, _, _, _, member => by
    rw [membersNodes] at member
    exact absurd member List.not_mem_nil
  | none :: rest, above, fits, positive, short, valid, member => by
    rw [everyInnerSet] at valid
    rw [membersNodes] at member
    rw [membersWeight]
    exact membersWeight_pos threshold length rest above fits positive
      (Nat.le_of_succ_le short) valid member
  | some (.node id) :: rest, above, fits, positive, short, valid, member => by
    rw [everyInnerSet] at valid
    rw [membersNodes, List.mem_cons] at member
    rw [membersWeight]
    split
    · exact positive
    · next other =>
      exact membersWeight_pos threshold length rest above fits positive
        (Nat.le_of_succ_le short) valid (member.resolve_left fun same => other same.symm)
  | some (.innerSet qs) :: rest, above, fits, positive, short, valid, member => by
    rw [everyInnerSet, Bool.and_eq_true] at valid
    rw [membersNodes, List.mem_append] at member
    have nonempty : 0 < length.toNat := Nat.lt_of_lt_of_le (Nat.succ_pos _) short
    obtain ⟨innerPos, innerLt⟩ := fits.inner nonempty
    have inner := weight_bounded nodeId qs (above * length.toNat) innerPos innerLt
      (everyLevel_levelFits_of_positiveFits valid.1)
    have innerPositive := weight_pos qs (above * length.toNat) innerPos innerLt valid.1
    rcases found : weight nodeId qs with ⟨num2, denom2⟩
    rw [found] at inner innerPositive
    rw [membersWeight, found]
    dsimp only
    split
    · -- the product of two positive factors that does not wrap
      next innerPositive' =>
      obtain ⟨numEq, -⟩ := inner_products_toNat fits inner
      rw [UInt32.lt_iff_toNat_lt, numEq]
      exact Nat.mul_pos (UInt32.lt_iff_toNat_lt.mp positive)
        (UInt32.lt_iff_toNat_lt.mp innerPositive')
    · next notInner =>
      have elsewhere := member.resolve_left fun there => notInner (innerPositive there)
      exact membersWeight_pos threshold length rest above fits positive
        (Nat.le_of_succ_le short) valid.2 elsewhere
theorem weight_pos :
    ∀ (qs : QuorumSet ID) (above : ℕ), 0 < above → above < UInt32.size →
      everyLevel positiveFits above qs = true → nodeId ∈ nodesList qs → 0 < (weight nodeId qs).1
  | mk threshold members, above, pos, lt, valid, member => by
    rw [everyLevel, Bool.and_eq_true, positiveFits, Bool.and_eq_true, levelFits, Bool.and_eq_true,
      thresholdFits, productFits, thresholdPositive, decide_eq_true_eq, decide_eq_true_eq,
      decide_eq_true_eq] at valid
    obtain ⟨⟨⟨thresholdLe, productLt⟩, positive⟩, inner⟩ := valid
    rw [nodesList] at member
    have length : (UInt32.ofNat members.length).toNat = members.length :=
      UInt32.toNat_ofNat_of_lt' (Nat.lt_of_le_of_lt (Nat.le_mul_of_pos_left _ pos) productLt)
    rw [weight]
    refine membersWeight_pos threshold _ members above ⟨pos, lt, ?_, ?_⟩ positive ?_ ?_ member
    · rw [length]
      exact thresholdLe
    · rw [length]
      exact productLt
    · rw [length]
    · rw [length]
      exact inner
end

end QuorumSet

namespace Slot

open QuorumSet

variable {ID V : Type} [DecidableEq ID] [LinearOrder V]

/-- `MAX_U256 * num / denom`, saturated in `U512`, fits a `U256` when `num <= denom`. -/
theorem scaled_weight_lt {num denom : ℕ} (pos : 0 < denom) (le : num ≤ denom) :
    Min.min ((2 ^ 256 - 1) * num) (2 ^ 512 - 1) / denom < 2 ^ 256 :=
  calc Min.min ((2 ^ 256 - 1) * num) (2 ^ 512 - 1) / denom
      ≤ (2 ^ 256 - 1) * num / denom := Nat.div_le_div_right (min_le_left _ _)
    _ ≤ (2 ^ 256 - 1) * denom / denom := Nat.div_le_div_right (Nat.mul_le_mul_left _ le)
    _ = 2 ^ 256 - 1 := Nat.mul_div_cancel _ pos
    _ < 2 ^ 256 := Nat.sub_lt (Nat.two_pow_pos 256) Nat.one_pos

omit [LinearOrder V] in
theorem neighbors_ok (s : Slot ID V) (fns : Fns ID V) (slotIndex : UInt64) (round : UInt32)
    (bounded : ∀ nodeId, 0 < (s.weight nodeId).2.toNat ∧
      (s.weight nodeId).1.toNat ≤ (s.weight nodeId).2.toNat) :
    ∃ neighbors, s.neighbors fns slotIndex round = .ok neighbors := by
  unfold neighbors
  apply filterM_ok
  intro nodeId _
  obtain ⟨pos, le⟩ := bounded nodeId
  rcases weighed : s.weight nodeId with ⟨num, denom⟩
  rw [weighed] at pos le
  have nonzero : denom ≠ 0 := fun zero => by simp [zero] at pos
  simp only [if_neg nonzero, if_neg (Nat.not_le.mpr (scaled_weight_lt pos le))]
  exact ⟨_, rfl⟩

end Slot

open QuorumSet in
/-- The weight is a fraction in `[0, 1]` with a positive denominator; a node with a positive
weight occurs in the set, and a node that occurs has a positive weight when every threshold
is; and `neighbors` never panics for a slot with such a quorum set. -/
theorem weight_fraction {ID : Type} [DecidableEq ID] (q : QuorumSet ID) (nodeId : ID)
    (valid : q.everyLevel thresholdFits 1 = true) (fits : q.everyLevel productFits 1 = true) :
    0 < (q.weight nodeId).2.toNat ∧ (q.weight nodeId).1.toNat ≤ (q.weight nodeId).2.toNat ∧
      (0 < (q.weight nodeId).1.toNat → nodeId ∈ q.nodes) ∧
      (q.everyLevel thresholdPositive 1 = true → nodeId ∈ q.nodes →
        0 < (q.weight nodeId).1.toNat) ∧
      ∀ {V : Type} [LinearOrder V] (s : Slot ID V), s.quorumSet = q →
        ∀ fns slotIndex round, ∃ neighbors, s.neighbors fns slotIndex round = .ok neighbors := by
  have levels : ∀ qs : QuorumSet ID, qs.everyLevel thresholdFits 1 = true →
      qs.everyLevel productFits 1 = true → qs.everyLevel levelFits 1 = true := by
    intro qs thresholds products
    rw [show @levelFits ID = fun a t m => thresholdFits a t m && productFits a t m from rfl,
      everyLevel_and, thresholds, products]
    rfl
  have bounded : ∀ qs : QuorumSet ID, qs.everyLevel thresholdFits 1 = true →
      qs.everyLevel productFits 1 = true → ∀ nodeId, WeightBounded 1 (qs.weight nodeId) :=
    fun qs thresholds products nodeId =>
      weight_bounded nodeId qs 1 Nat.one_pos (by decide) (levels qs thresholds products)
  obtain ⟨denomPos, numLe, -⟩ := bounded q valid fits nodeId
  refine ⟨denomPos, numLe, fun positive => ?_, fun positiveThresholds member => ?_, ?_⟩
  · -- a positive numerator comes from a member holding the node
    rw [nodes, List.mem_eraseDups]
    exact mem_of_weight_pos nodeId q (UInt32.lt_iff_toNat_lt.mpr positive)
  · rw [nodes, List.mem_eraseDups] at member
    have positiveLevels : q.everyLevel positiveFits 1 = true := by
      rw [show @positiveFits ID = fun a t m => levelFits a t m && thresholdPositive a t m from rfl,
        everyLevel_and, levels q valid fits, positiveThresholds]
      rfl
    exact UInt32.lt_iff_toNat_lt.mp
      (weight_pos nodeId q 1 Nat.one_pos (by decide) positiveLevels member)
  · intro V _ s quorumSet fns slotIndex round
    refine Slot.neighbors_ok s fns slotIndex round fun other => ?_
    rw [Slot.weight]
    split
    · exact ⟨Nat.one_pos, le_refl 1⟩
    · rw [quorumSet]
      obtain ⟨otherPos, otherLe, -⟩ := bounded q valid fits other
      exact ⟨otherPos, otherLe⟩

theorem weight_fraction_two_nodes :
    (QuorumSet.mk 1 [some (.node 0), some (.node 1)] : QuorumSet ℕ).everyLevel
        QuorumSet.thresholdFits 1 = true ∧
      (QuorumSet.mk 1 [some (.node 0), some (.node 1)] : QuorumSet ℕ).everyLevel
        QuorumSet.productFits 1 = true ∧
      ((QuorumSet.mk 1 [some (.node 0), some (.node 1)] : QuorumSet ℕ).weight 0).1.toNat ≤
        ((QuorumSet.mk 1 [some (.node 0), some (.node 1)] : QuorumSet ℕ).weight 0).2.toNat :=
  ⟨by decide, by decide, (weight_fraction (QuorumSet.mk 1 [some (.node 0), some (.node 1)]) 0
    (by decide) (by decide)).2.1⟩

namespace QuorumSet

/-- A threshold of `0` passes `is_valid`, and the one member of that level weighs nothing. -/
theorem weight_of_zero_threshold :
    (mk 0 [some (.node 0)] : QuorumSet ℕ).isValid = true ∧
      (mk 0 [some (.node 0)] : QuorumSet ℕ).everyLevel thresholdFits 1 = true ∧
      (mk 0 [some (.node 0)] : QuorumSet ℕ).everyLevel productFits 1 = true ∧
      0 ∈ (mk 0 [some (.node 0)] : QuorumSet ℕ).nodes ∧
      (mk 0 [some (.node 0)] : QuorumSet ℕ).weight 0 = (0, 1) := by
  decide

end QuorumSet

end MobileCoin.Scp
