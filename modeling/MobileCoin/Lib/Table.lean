import Mathlib

/-!
# Key-value tables

An LMDB database seen inside one write transaction: a finite map from keys to values, with
the two write modes LMDB offers. `put` overwrites; `putNoOverwrite` fails with `KeyExist`
when the key is present. The same tables are read off association lists.
-/

namespace MobileCoin.Table

variable {K V : Type*} [DecidableEq K]

def put (table : K → Option V) (key : K) (value : V) : K → Option V :=
  Function.update table key (some value)

/-- `put` with `WriteFlags::NO_OVERWRITE`; `none` is the `KeyExist` error. -/
def putNoOverwrite (table : K → Option V) (key : K) (value : V) : Option (K → Option V) :=
  if (table key).isSome then none else some (put table key value)

@[simp] theorem put_same (table : K → Option V) (key : K) (value : V) :
    put table key value key = some value := by
  simp [put]

@[simp] theorem put_other (table : K → Option V) {key other : K} (value : V) (differs : other ≠ key) :
    put table key value other = table other := by
  simp [put, differs]

@[simp] theorem put_put (table : K → Option V) (key : K) (value value' : V) :
    put (put table key value) key value' = put table key value' := by
  simp [put]

theorem put_apply (table : K → Option V) (key : K) (value : V) (other : K) :
    put table key value other = if other = key then some value else table other := by
  by_cases same : other = key
  · subst same; simp
  · simp [same]

theorem putNoOverwrite_eq_some {table table' : K → Option V} {key : K} {value : V} :
    putNoOverwrite table key value = some table' ↔ table key = none ∧ table' = put table key value := by
  unfold putNoOverwrite
  cases h : table key <;> simp [eq_comm]

/-- A table from each key to its first position in a list, after one more key that is not in
the list yet. -/
theorem idxOf?_append_of_not_mem {keys : List K} {key : K} (fresh : key ∉ keys) (other : K) :
    (keys ++ [key]).idxOf? other = put (fun k => keys.idxOf? k) key keys.length other := by
  rw [put_apply]
  unfold List.idxOf?
  rw [List.findIdx?_append]
  by_cases same : other = key
  · subst same
    have absent : keys.findIdx? (· == other) = none := by
      rw [List.findIdx?_eq_none_iff]
      intro k member
      have differs : k ≠ other := fun equal => fresh (equal ▸ member)
      simpa using differs
    simp [absent]
  · have miss : [key].findIdx? (· == other) = none := by simp [Ne.symm same]
    simp [miss, same]

/-! ### Association lists

A list of pairs read as a table through `List.lookup`, the value of the first pair with the key.
When the keys are distinct the table does not depend on the order of the pairs. -/

section Assoc

variable {entries entries' : List (K × V)}

theorem lookup_cons_of_ne {key k : K} (differs : key ≠ k) (v : V) (rest : List (K × V)) :
    ((k, v) :: rest).lookup key = rest.lookup key := by
  simp [List.lookup_cons, beq_false_of_ne differs]

theorem lookup_eq_none_iff {key : K} : entries.lookup key = none ↔ key ∉ entries.map Prod.fst := by
  induction entries with
  | nil => simp
  | cons entry rest ih =>
    obtain ⟨k, v⟩ := entry
    by_cases same : key = k
    · subst same
      simp
    · simp [lookup_cons_of_ne same, ih, same]

theorem lookup_eq_some_iff_mem (distinct : (entries.map Prod.fst).Nodup) {key : K} {value : V} :
    entries.lookup key = some value ↔ (key, value) ∈ entries := by
  induction entries with
  | nil => simp
  | cons entry rest ih =>
    obtain ⟨k, v⟩ := entry
    rw [List.map_cons, List.nodup_cons] at distinct
    obtain ⟨fresh, distinct⟩ := distinct
    by_cases same : key = k
    · subst same
      have absent : (key, value) ∉ rest := fun member => fresh (List.mem_map.mpr ⟨_, member, rfl⟩)
      simp [absent, eq_comm]
    · simp [lookup_cons_of_ne same, ih distinct, same]

theorem lookup_perm (distinct : (entries.map Prod.fst).Nodup) (perm : entries.Perm entries') :
    (entries.lookup ·) = (entries'.lookup ·) := by
  have distinct' : (entries'.map Prod.fst).Nodup := distinct.perm (perm.map Prod.fst)
  funext key
  apply Option.ext
  intro value
  rw [lookup_eq_some_iff_mem distinct, lookup_eq_some_iff_mem distinct', perm.mem_iff]

theorem lookup_append_of_not_mem {key : K} (fresh : key ∉ entries.map Prod.fst) (value : V) :
    ((entries ++ [(key, value)]).lookup ·) = put (entries.lookup ·) key value := by
  funext other
  rw [List.lookup_append, put_apply]
  by_cases same : other = key
  · subst same
    simp [lookup_eq_none_iff.mpr fresh]
  · rw [lookup_cons_of_ne same]
    simp [same]

omit [DecidableEq K] in
theorem map_fst_modify_snd (idx : Nat) (value : V) :
    (entries.modify idx (fun e => (e.1, value))).map Prod.fst = entries.map Prod.fst := by
  apply List.ext_getElem?
  intro j
  simp only [List.getElem?_map, List.getElem?_modify]
  cases entries[j]? <;> by_cases idx = j <;> simp_all

theorem lookup_modify (distinct : (entries.map Prod.fst).Nodup) {idx : Nat} {key : K} {old : V}
    (found : entries[idx]? = some (key, old)) (value : V) :
    ((entries.modify idx (fun e => (e.1, value))).lookup ·) = put (entries.lookup ·) key value := by
  induction entries generalizing idx with
  | nil => simp at found
  | cons entry rest ih =>
    obtain ⟨k, v⟩ := entry
    rw [List.map_cons, List.nodup_cons] at distinct
    obtain ⟨fresh, distinct⟩ := distinct
    funext other
    rw [put_apply]
    cases idx with
    | zero =>
      simp only [List.getElem?_cons_zero, Option.some.injEq, Prod.mk.injEq] at found
      obtain ⟨rfl, rfl⟩ := found
      by_cases same : other = k
      · subst same
        simp [List.modify]
      · simp [List.modify, lookup_cons_of_ne same, same]
    | succ idx =>
      rw [List.getElem?_cons_succ] at found
      have inRest : key ∈ rest.map Prod.fst := List.mem_map.mpr ⟨_, List.mem_of_getElem? found, rfl⟩
      have differs : k ≠ key := fun same => fresh (same ▸ inRest)
      have later := congrFun (ih distinct found) other
      rw [put_apply] at later
      rw [List.modify_succ_cons]
      by_cases same : other = k
      · subst same
        simp [differs]
      · simp [lookup_cons_of_ne same, later]

end Assoc

/-! ### Writes along a list of keys

A total table written at a list of keys, the `i`-th value at the `i`-th key, one pair after the
other, as a loop over the keys and values written in place does. With distinct keys each key ends
up holding its own value and every other key keeps its old one. -/

section WriteAll

variable {keys : List K} {values : List V}

def writeAll (table : K → V) (keys : List K) (values : List V) : K → V :=
  (keys.zip values).foldl (fun table entry => Function.update table entry.1 entry.2) table

theorem writeAll_cons (table : K → V) (key : K) (value : V) (keys : List K) (values : List V) :
    writeAll table (key :: keys) (value :: values) =
      writeAll (Function.update table key value) keys values := rfl

theorem writeAll_of_not_mem (table : K → V) {key : K} (absent : key ∉ keys) :
    writeAll table keys values key = table key := by
  induction keys generalizing table values with
  | nil => rfl
  | cons k rest ih =>
    cases values with
    | nil => rfl
    | cons v vs =>
      rw [List.mem_cons, not_or] at absent
      rw [writeAll_cons, ih _ absent.2, Function.update_of_ne absent.1]

theorem writeAll_getElem (table : K → V) (distinct : keys.Nodup) {i : Nat} (inside : i < keys.length)
    (given : i < values.length) : writeAll table keys values keys[i] = values[i] := by
  induction keys generalizing table values i with
  | nil => simp at inside
  | cons k rest ih =>
    cases values with
    | nil => simp at given
    | cons v vs =>
      rw [List.nodup_cons] at distinct
      rw [writeAll_cons]
      cases i with
      | zero => simp [writeAll_of_not_mem _ distinct.1]
      | succ i =>
        simp only [List.getElem_cons_succ]
        exact ih _ distinct.2 (by simpa using inside) (by simpa using given)

theorem writeAll_congr {table table' : K → V} {key : K} (same : table key = table' key) :
    writeAll table keys values key = writeAll table' keys values key := by
  induction keys generalizing table table' values with
  | nil => exact same
  | cons k rest ih =>
    cases values with
    | nil => exact same
    | cons v vs =>
      rw [writeAll_cons, writeAll_cons]
      apply ih
      by_cases here : key = k
      · subst here
        simp
      · simp [Function.update_of_ne here, same]

theorem writeAll_drop (table : K → V) {key : K} (n : Nat) (absent : key ∉ keys.take n) :
    writeAll table (keys.drop n) (values.drop n) key = writeAll table keys values key := by
  induction n generalizing keys values table with
  | zero => rfl
  | succ n ih =>
    cases keys with
    | nil => simp [writeAll]
    | cons k rest =>
      cases values with
      | nil => simp [writeAll]
      | cons v vs =>
        rw [List.take_succ_cons, List.mem_cons, not_or] at absent
        rw [List.drop_succ_cons, List.drop_succ_cons, writeAll_cons, ih table absent.2]
        exact writeAll_congr (Function.update_of_ne absent.1 _ _).symm

end WriteAll

end MobileCoin.Table
