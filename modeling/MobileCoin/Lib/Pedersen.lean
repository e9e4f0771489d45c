import Mathlib

/-!
# Pedersen commitments over independent generators

The algebraic model of a group of prime order with one blinding generator `G` and one value
generator `H t` for each asset `t`: the free module over the scalars on those generators, as
functions from `Option T` to the scalars, `none` standing for `G` and `some t` for `H t`. A
commitment to `value` of asset `t` is `value • H t + blinding • G`. The generators are
independent, so a point's coefficient at `H t` reads off what it commits to of asset `t`, also
of any sum of commitments: an identity between sums of commitments splits into one identity
per asset.
-/

namespace MobileCoin.Pedersen

variable {T R : Type*} [DecidableEq T]

section Generators

variable [CommRing R]

/-- The blinding generator `G`. -/
def blindingBase : Option T → R := Pi.single none 1

/-- The value generator `H t` of asset `t`. -/
def base (t : T) : Option T → R := Pi.single (some t) 1

def commit (t : T) (value blinding : R) : Option T → R := value • base t + blinding • blindingBase

@[simp] theorem blindingBase_some (t : T) : (blindingBase : Option T → R) (some t) = 0 := by
  simp [blindingBase]

@[simp] theorem base_some (t t' : T) : (base t : Option T → R) (some t') = if t' = t then 1 else 0 := by
  simp [base, Pi.single_apply]

@[simp] theorem commit_some (t t' : T) (value blinding : R) :
    commit t value blinding (some t') = if t' = t then value else 0 := by
  simp [commit]

@[simp] theorem commit_none (t : T) (value blinding : R) :
    commit t value blinding none = blinding := by
  simp [commit, base, blindingBase]

theorem some_eq_of_sub_eq_smul {x y : Option T → R} {k : R} (differ : x - y = k • blindingBase)
    (t : T) : x (some t) = y (some t) := by
  have at_t := congrFun differ (some t)
  simp only [Pi.sub_apply, Pi.smul_apply, blindingBase_some, smul_zero] at at_t
  exact sub_eq_zero.mp at_t

/-- A point that commits to a value of asset `t` below `bound`. -/
def InRange (bound : ℕ) (t : T) (x : Option T → R) : Prop :=
  ∃ value < bound, ∃ blinding : R, x = commit t (value : R) blinding

end Generators

/-! ### Values as natural numbers -/

variable {q : ℕ}

theorem natCast_inj_of_lt {a b : ℕ} (small : a < q) (small' : b < q)
    (same : (a : ZMod q) = b) : a = b := by
  rw [ZMod.natCast_eq_natCast_iff', Nat.mod_eq_of_lt small, Nat.mod_eq_of_lt small'] at same
  exact same

theorem InRange.val_some {bound : ℕ} {t : T} {x : Option T → ZMod q}
    (inRange : InRange bound t x) (t' : T) :
    (x (some t')).val = if t' = t then (x (some t)).val else 0 := by
  obtain ⟨value, below, blinding, rfl⟩ := inRange
  by_cases same : t' = t
  · rw [if_pos same, same]
  · rw [if_neg same, commit_some, if_neg same, ZMod.val_zero]

theorem InRange.val_lt {bound : ℕ} {t : T} {x : Option T → ZMod q} (fits : bound ≤ q)
    (inRange : InRange bound t x) : (x (some t)).val < bound := by
  obtain ⟨value, below, blinding, rfl⟩ := inRange
  rw [commit_some, if_pos rfl, ZMod.val_natCast_of_lt (Nat.lt_of_lt_of_le below fits)]
  exact below

/-- The value of asset `t` committed to by the points of a list that declare asset `t`. -/
def declaredValue (t : T) (points : List ((Option T → ZMod q) × T)) : ℕ :=
  ((points.filter (·.2 = t)).map fun p => (p.1 (some t)).val).sum

@[simp] theorem declaredValue_nil (t : T) : declaredValue t ([] : List ((Option T → ZMod q) × T)) = 0 :=
  rfl

theorem declaredValue_cons (t : T) (x : Option T → ZMod q) (t' : T)
    (points : List ((Option T → ZMod q) × T)) :
    declaredValue t ((x, t') :: points) =
      (if t' = t then (x (some t)).val else 0) + declaredValue t points := by
  by_cases same : t' = t
  · simp [declaredValue, same]
  · simp [declaredValue, same]

/-- When every point commits to its declared asset, the coefficient at `H t` of their sum is the
value of asset `t` they declare. -/
theorem sum_some_eq_declaredValue [NeZero q] {bound : ℕ} (fits : bound ≤ q) (t : T) :
    ∀ {points : List ((Option T → ZMod q) × T)}, (∀ p ∈ points, InRange bound p.2 p.1) →
      (points.map (·.1)).sum (some t) = (declaredValue t points : ZMod q)
  | [], _ => by simp
  | (x, t') :: rest, inRange => by
    have head := (inRange (x, t') List.mem_cons_self).val_some t
    have tail := sum_some_eq_declaredValue fits t
      fun p member => inRange p (List.mem_cons_of_mem _ member)
    rw [List.map_cons, List.sum_cons, Pi.add_apply, tail, declaredValue_cons, Nat.cast_add]
    congr 1
    by_cases same : t' = t
    · rw [if_pos same, same, ZMod.natCast_zmod_val]
    · rw [if_neg same, Nat.cast_zero, ← ZMod.val_eq_zero, head, if_neg (Ne.symm same)]

theorem declaredValue_congr (t : T) :
    ∀ {xs ys : List (Option T → ZMod q)} {tokens : List T},
      List.Forall₂ (fun x y => x (some t) = y (some t)) xs ys →
        declaredValue t (xs.zip tokens) = declaredValue t (ys.zip tokens)
  | [], [], _, .nil => rfl
  | _ :: _, _ :: _, [], .cons _ _ => rfl
  | x :: xs, y :: ys, t' :: tokens, .cons same rest => by
    rw [List.zip_cons_cons, List.zip_cons_cons, declaredValue_cons, declaredValue_cons, same,
      declaredValue_congr t rest]

theorem declaredValue_le {bound : ℕ} (fits : bound ≤ q) (t : T) :
    ∀ {points : List ((Option T → ZMod q) × T)}, (∀ p ∈ points, InRange bound p.2 p.1) →
      declaredValue t points ≤ points.length * bound
  | [], _ => by simp
  | (x, t') :: rest, inRange => by
    have tail := declaredValue_le fits t
      fun p member => inRange p (List.mem_cons_of_mem _ member)
    rw [declaredValue_cons, List.length_cons, Nat.succ_mul]
    have head : (if t' = t then (x (some t)).val else 0) ≤ bound := by
      by_cases same : t' = t
      · rw [if_pos same, ← same]
        exact Nat.le_of_lt ((inRange (x, t') List.mem_cons_self).val_lt fits)
      · rw [if_neg same]
        exact Nat.zero_le _
    omega

end MobileCoin.Pedersen
