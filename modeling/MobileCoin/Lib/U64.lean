import Mathlib

/-!
# `u64` helpers from the Rust standard library

`u64` values are modelled as natural numbers below `2 ^ 64`, except where the code relies on
how `u64` arithmetic wraps or is checked: there they are `UInt64`. This file gives the
documented behaviour of `checked_add`, `checked_next_power_of_two` and `leading_zeros`, of `+ 1`
where it does not wrap and of `max` on naturals, and the bit masks `(1 << depth) - 1` with their
complements, in terms of division by powers of two.
-/

namespace MobileCoin.U64

def MAX : Nat := 2 ^ 64 - 1

def checkedAdd (a b : UInt64) : Option UInt64 :=
  if a.toNat + b.toNat ≤ MAX then some (a + b) else none

theorem toNat_le_MAX (a : UInt64) : a.toNat ≤ MAX := by
  have := a.toNat_lt
  unfold MAX
  omega

theorem toNat_add_of_le {a b : UInt64} (fits : a.toNat + b.toNat ≤ MAX) :
    (a + b).toNat = a.toNat + b.toNat := by
  unfold MAX at fits
  rw [UInt64.toNat_add, Nat.mod_eq_of_lt (by omega)]

theorem not_MAX_lt (a : UInt64) : ¬UInt64.ofNat MAX < a := by
  rw [UInt64.lt_iff_toNat_lt, UInt64.toNat_ofNat', Nat.mod_eq_of_lt (by decide)]
  exact Nat.not_lt.mpr (toNat_le_MAX a)

theorem toNat_add_one {a : UInt64} (room : a.toNat < MAX) : (a + 1).toNat = a.toNat + 1 :=
  toNat_add_of_le room

theorem toNat_foldl_max (l : List UInt64) :
    ∀ a : UInt64, (l.foldl max a).toNat = (l.map UInt64.toNat).foldl max a.toNat := by
  induction l with
  | nil => intro a; rfl
  | cons b l ih =>
    intro a
    rw [List.foldl_cons, ih, List.map_cons, List.foldl_cons, UInt64.toNat_max]

theorem toNat_max?_getD (l : List UInt64) :
    (l.max?.getD 0).toNat = (l.map UInt64.toNat).max?.getD 0 := by
  cases l with
  | nil => rfl
  | cons a l =>
    rw [List.max?, List.map_cons, List.max?, Option.getD_some, Option.getD_some, toNat_foldl_max]

theorem checkedAdd_eq_some {a b c : UInt64} :
    checkedAdd a b = some c ↔ a.toNat + b.toNat ≤ MAX ∧ c.toNat = a.toNat + b.toNat := by
  unfold checkedAdd
  split_ifs with fits
  · rw [Option.some.injEq, ← UInt64.toNat_inj, toNat_add_of_le fits, eq_comm]
    simp [fits]
  · simp [fits]

theorem checkedAdd_eq_none {a b : UInt64} : checkedAdd a b = none ↔ MAX < a.toNat + b.toNat := by
  unfold checkedAdd
  split_ifs with fits <;> simp [fits]
  omega

theorem checkedAdd_le_iff {a b c limit : UInt64} (added : checkedAdd a b = some c) :
    c ≤ limit ↔ a.toNat + b.toNat ≤ limit.toNat := by
  rw [UInt64.le_iff_toNat_le, (checkedAdd_eq_some.mp added).2]

theorem not_le_of_checkedAdd_eq_none {a b : UInt64} (limit : UInt64)
    (overflow : checkedAdd a b = none) : ¬a.toNat + b.toNat ≤ limit.toNat := by
  have exceeds := checkedAdd_eq_none.mp overflow
  have bound := toNat_le_MAX limit
  omega

/-- A sum of `u64`s, as an iterator's `sum` computes it in release builds, wraps. -/
theorem toNat_sum (l : List UInt64) : l.sum.toNat = (l.map UInt64.toNat).sum % 2 ^ 64 := by
  induction l with
  | nil => rfl
  | cons a rest ih => rw [List.sum_cons, UInt64.toNat_add, ih, List.map_cons, List.sum_cons,
      Nat.add_mod_mod]

def complement (x : Nat) : Nat := MAX - x

/-- `u64::next_power_of_two` where it does not overflow. -/
def nextPowerOfTwo (n : Nat) : Nat := 2 ^ Nat.clog 2 n

/-- `u64::checked_next_power_of_two`: the least power of two at least `n`, or `None` when it
does not fit a `u64` (that is, when `n > 2 ^ 63`). -/
def checkedNextPowerOfTwo (n : Nat) : Option Nat :=
  ((List.range 64).find? (fun k => n ≤ 2 ^ k)).map (2 ^ ·)

/-- `u64::leading_zeros` of a value below `2 ^ 64`. -/
def leadingZeros (x : Nat) : Nat :=
  if x = 0 then 64 else 63 - x.log2

theorem checkedNextPowerOfTwo_eq_some {n : Nat} (fits : n ≤ 2 ^ 63) :
    checkedNextPowerOfTwo n = some (2 ^ Nat.clog 2 n) := by
  have bound : Nat.clog 2 n < 64 := by
    have := (Nat.clog_le_iff_le_pow (b := 2) (by decide)).mpr fits
    omega
  have found : (List.range 64).find? (fun k => decide (n ≤ 2 ^ k)) = some (Nat.clog 2 n) := by
    rw [List.find?_range_eq_some]
    refine ⟨by simpa using Nat.le_pow_clog (by decide) n, List.mem_range.mpr bound, ?_⟩
    intro j below
    have := (Nat.clog_le_iff_le_pow (b := 2) (by decide) (x := n) (y := j)).not.mp (by omega)
    simpa using this
  simp [checkedNextPowerOfTwo, found]

theorem checkedNextPowerOfTwo_eq_none {n : Nat} (big : 2 ^ 63 < n) : checkedNextPowerOfTwo n = none := by
  have none : (List.range 64).find? (fun k => decide (n ≤ 2 ^ k)) = none := by
    rw [List.find?_range_eq_none]
    intro i below
    have : 2 ^ i ≤ 2 ^ 63 := Nat.pow_le_pow_right (by decide) (by omega)
    simp only [Bool.not_eq_eq_eq_not, Bool.not_true, decide_eq_false_iff_not,
      Nat.not_le]
    omega
  simp [checkedNextPowerOfTwo, none]

theorem two_pow_clog_lt {n : Nat} (pos : 0 < n) : 2 ^ Nat.clog 2 n < 2 * n := by
  rcases Nat.lt_or_ge 1 n with big | one
  · have below := Nat.pow_pred_clog_lt_self (by decide : 1 < 2) big
    have positive : 0 < Nat.clog 2 n := Nat.clog_pos (by decide) big
    have split : 2 ^ Nat.clog 2 n = 2 * 2 ^ (Nat.clog 2 n).pred := by
      rw [← Nat.pow_succ', Nat.succ_pred_eq_of_pos positive]
    omega
  · have : n = 1 := by omega
    subst this
    simp

theorem leadingZeros_two_pow (k : Nat) : leadingZeros (2 ^ k) = 63 - k := by
  simp [leadingZeros, Nat.log2_two_pow]

/-- The low `depth` bits cleared: `index & !((1 << depth) - 1)` on a `u64`. -/
theorem and_not_mask {index depth : Nat} (fits : index < 2 ^ 64) (small : depth ≤ 64) :
    index &&& complement (2 ^ depth - 1) = index / 2 ^ depth * 2 ^ depth := by
  apply Nat.eq_of_testBit_eq
  intro i
  have cleared : complement (2 ^ depth - 1) = (2 ^ (64 - depth) - 1) * 2 ^ depth := by
    have : 2 ^ 64 = 2 ^ (64 - depth) * 2 ^ depth := by rw [← Nat.pow_add]; congr 1; omega
    have pos : 0 < 2 ^ depth := Nat.two_pow_pos depth
    rw [complement, MAX, this, Nat.sub_mul, Nat.one_mul]
    omega
  rw [cleared, Nat.testBit_and, Nat.testBit_mul_two_pow, Nat.testBit_mul_two_pow,
    Nat.testBit_two_pow_sub_one, Nat.testBit_div_two_pow]
  by_cases low : depth ≤ i
  · have shift : i - depth + depth = i := by omega
    rw [shift]
    by_cases high : i < 64
    · simp [low, show i - depth < 64 - depth by omega]
    · have : index.testBit i = false := Nat.testBit_lt_two_pow (lt_of_lt_of_le fits
        (Nat.pow_le_pow_right (by decide) (by omega)))
      simp [this]
  · simp [low]

theorem or_mask (index depth : Nat) :
    index ||| (2 ^ depth - 1) = index / 2 ^ depth * 2 ^ depth + (2 ^ depth - 1) := by
  have below : 2 ^ depth - 1 < 2 ^ depth := Nat.sub_lt (Nat.two_pow_pos depth) (by decide)
  rw [Nat.mul_comm, Nat.two_pow_add_eq_or_of_lt below]
  apply Nat.eq_of_testBit_eq
  intro i
  rw [Nat.testBit_or, Nat.testBit_or, Nat.testBit_two_pow_mul, Nat.testBit_div_two_pow,
    Nat.testBit_two_pow_sub_one]
  by_cases low : depth ≤ i
  · rw [show i - depth + depth = i by omega]
    simp [low]
  · simp [show i < depth by omega]

end MobileCoin.U64
