import Mathlib
import MobileCoin.Lib.Table

/-!
# `mc_util_vec_map::VecMap`

A map kept in two `heapless::Vec`s of capacity `N`, keys and values at the same positions. The
two vectors are one list of pairs here. A mutable reference into the values, as
`get_mut_or_insert_with` returns it, is its position and the value it points at; writing through
it is `setValue`.

The table a map denotes is `get`. A map reached from `default` by `get_mut_or_insert_with` and
writes has distinct keys (`Distinct`), and on such maps the writes are `Table.put` and `sort` does
not change the table.
-/

namespace MobileCoin.Util

inductive VecMapError
  | capacityExceeded
  deriving DecidableEq, Repr

structure VecMap (K V : Type) (N : Nat) where
  entries : List (K × V)
  deriving DecidableEq, Repr

namespace VecMap

variable {K V : Type} {N : Nat}

instance : Inhabited (VecMap K V N) := ⟨⟨[]⟩⟩

def len (m : VecMap K V N) : Nat := m.entries.length

def keys (m : VecMap K V N) : List K := m.entries.map Prod.fst

/-- Writing `value` through the reference at position `idx`. -/
def setValue (m : VecMap K V N) (idx : Nat) (value : V) : VecMap K V N :=
  ⟨m.entries.modify idx fun e => (e.1, value)⟩

/-- `VecMap::sort`: the pairs ordered by key. The Rust sorts the positions with the stable
`sort_by_key` and reads the pairs off in that order, as a stable merge sort of the pairs does. -/
def sort [Ord K] (m : VecMap K V N) : VecMap K V N :=
  ⟨m.entries.mergeSort fun a b => (compare a.1 b.1).isLE⟩

/-- The keys are distinct. -/
def Distinct (m : VecMap K V N) : Prop := m.keys.Nodup

theorem distinct_default : (default : VecMap K V N).Distinct := List.nodup_nil

@[simp] theorem keys_default : (default : VecMap K V N).keys = [] := rfl

theorem keys_setValue (m : VecMap K V N) (idx : Nat) (value : V) :
    (m.setValue idx value).keys = m.keys :=
  Table.map_fst_modify_snd idx value

theorem sort_perm [Ord K] (m : VecMap K V N) : m.sort.entries.Perm m.entries :=
  List.mergeSort_perm _ _

theorem distinct_sort [Ord K] {m : VecMap K V N} (distinct : m.Distinct) : m.sort.Distinct :=
  distinct.perm ((sort_perm m).map Prod.fst).symm

theorem mem_keys_sort [Ord K] {m : VecMap K V N} {k : K} : k ∈ m.sort.keys ↔ k ∈ m.keys :=
  ((sort_perm m).map Prod.fst).mem_iff

section Get

variable [DecidableEq K]

def get (m : VecMap K V N) (key : K) : Option V := m.entries.lookup key

/-- The position of the first pair with `key`, and its value: the Rust's
`keys.iter().position(|k| k == key)` followed by `&mut values[idx]`. -/
def position (key : K) : List (K × V) → Option (Nat × V)
  | [] => none
  | (k, v) :: rest => if k = key then some (0, v) else (position key rest).map fun p => (p.1 + 1, p.2)

/-- `get_mut_or_insert_with`: the reference to the value of `key`, after pushing `(key, val)`
when the key is absent; pushing onto a full vector fails. -/
def getMutOrInsertWith (m : VecMap K V N) (key : K) (val : V) :
    Except VecMapError (VecMap K V N × Nat × V) :=
  match position key m.entries with
  | some (idx, stored) => .ok (m, idx, stored)
  | none =>
    if m.len < N then .ok (⟨m.entries ++ [(key, val)]⟩, m.len, val)
    else .error .capacityExceeded

@[simp] theorem get_default (key : K) : (default : VecMap K V N).get key = none := rfl

theorem position_eq_some {key : K} {entries : List (K × V)} {idx : Nat} {stored : V}
    (found : position key entries = some (idx, stored)) : entries[idx]? = some (key, stored) := by
  induction entries generalizing idx stored with
  | nil => simp [position] at found
  | cons entry rest ih =>
    obtain ⟨k, v⟩ := entry
    unfold position at found
    split_ifs at found with same
    · simp only [Option.some.injEq, Prod.mk.injEq] at found
      obtain ⟨rfl, rfl⟩ := found
      simp [same]
    · obtain ⟨⟨idx', stored'⟩, later, shifted⟩ := Option.map_eq_some_iff.mp found
      simp only [Prod.mk.injEq] at shifted
      obtain ⟨rfl, rfl⟩ := shifted
      exact ih later

theorem position_eq_none {key : K} {entries : List (K × V)} (absent : position key entries = none) :
    key ∉ entries.map Prod.fst := by
  induction entries with
  | nil => simp
  | cons entry rest ih =>
    obtain ⟨k, v⟩ := entry
    unfold position at absent
    split_ifs at absent with same
    simp only [List.map_cons, List.mem_cons, not_or]
    exact ⟨Ne.symm same, ih (Option.map_eq_none_iff.mp absent)⟩

/-- What a successful `get_mut_or_insert_with` and a write through its reference do: the
reference held the key's value, or `val` for a new key; the write puts the new value in the
table; the keys stay distinct, and the map grows by the key when it was absent. -/
theorem getMutOrInsertWith_ok {m m' : VecMap K V N} {key : K} {val : V} {idx : Nat} {stored : V}
    (distinct : m.Distinct) (ok : m.getMutOrInsertWith key val = .ok (m', idx, stored))
    (value : V) :
    stored = (m.get key).getD val ∧ (m'.setValue idx value).get = Table.put m.get key value ∧
      (m'.setValue idx value).Distinct ∧
      (∀ k, k ∈ (m'.setValue idx value).keys ↔ k = key ∨ k ∈ m.keys) ∧
      (m.len ≤ N → m'.len ≤ N) := by
  unfold getMutOrInsertWith at ok
  split at ok
  · rename_i idx' stored' found
    simp only [Except.ok.injEq, Prod.mk.injEq] at ok
    obtain ⟨rfl, rfl, rfl⟩ := ok
    have atIdx := position_eq_some found
    have present : key ∈ m.keys := List.mem_map.mpr ⟨_, List.mem_of_getElem? atIdx, rfl⟩
    refine ⟨?_, Table.lookup_modify distinct atIdx value, ?_, ?_, id⟩
    · have inTable : m.get key = some stored' :=
        (Table.lookup_eq_some_iff_mem distinct).mpr (List.mem_of_getElem? atIdx)
      simp [inTable]
    · rw [Distinct, keys_setValue]
      exact distinct
    · intro k
      rw [keys_setValue]
      constructor
      · exact Or.inr
      · rintro (rfl | member)
        · exact present
        · exact member
  · rename_i absent
    split_ifs at ok with room
    simp only [Except.ok.injEq, Prod.mk.injEq] at ok
    obtain ⟨rfl, rfl, rfl⟩ := ok
    have fresh := position_eq_none absent
    have atEnd : (m.entries ++ [(key, val)])[m.len]? = some (key, val) := by
      simp [len]
    have distinct' : ((m.entries ++ [(key, val)]).map Prod.fst).Nodup := by
      simp only [List.map_append, List.map_cons, List.map_nil]
      rw [List.nodup_append]
      refine ⟨distinct, List.nodup_singleton _, ?_⟩
      intro k member k' single same
      rw [List.mem_singleton] at single
      subst single same
      exact fresh member
    have notFound : m.get key = none := Table.lookup_eq_none_iff.mpr fresh
    refine ⟨by simp [notFound], ?_, ?_, ?_, fun _ => ?_⟩
    · have written := Table.lookup_modify distinct' atEnd value
      rw [Table.lookup_append_of_not_mem fresh, Table.put_put] at written
      exact written
    · rw [Distinct, keys_setValue]
      exact distinct'
    · intro k
      rw [keys_setValue]
      simp [keys, or_comm]
    · unfold len at room ⊢
      rw [List.length_append, List.length_singleton]
      omega

theorem getMutOrInsertWith_eq_error {m : VecMap K V N} {key : K} {val : V} {e : VecMapError} :
    m.getMutOrInsertWith key val = .error e ↔ key ∉ m.keys ∧ N ≤ m.len := by
  unfold getMutOrInsertWith
  split
  · rename_i found
    have present : key ∈ m.keys :=
      List.mem_map.mpr ⟨_, List.mem_of_getElem? (position_eq_some found), rfl⟩
    simp [present]
  · rename_i absent
    have fresh := position_eq_none absent
    split_ifs with room
    · simp; omega
    · simp [keys, fresh]; omega

theorem get_sort [Ord K] {m : VecMap K V N} (distinct : m.Distinct) : m.sort.get = m.get :=
  (Table.lookup_perm distinct (sort_perm m).symm).symm

end Get

end VecMap

end MobileCoin.Util
