import Mathlib

/-!
# Nonces from wrapping counters

A nonce made of a key and a `u64` counter that goes up by one, wrapping at `2 ^ 64`, each time
the key is used. The counters of one key are distinct as long as it is used at most `2 ^ 64`
times, and the nonces are distinct when, for every key, its counters are.
-/

namespace MobileCoin.Counter

/-- Each counter of the list is the one before it plus one, wrapping at `2 ^ 64`. -/
def Consecutive (counters : List UInt64) : Prop :=
  counters.IsChain fun counter next => next = counter + 1

theorem Consecutive.getElem {counters : List UInt64} (consecutive : Consecutive counters) {i : Nat}
    (inside : i < counters.length) : counters[i] = counters[0] + i.toUInt64 := by
  induction i with
  | zero => simp
  | succ i ih =>
    rw [List.IsChain.getElem consecutive i inside, ih (by omega), add_assoc]
    congr 1
    simp

/-- At most `2 ^ 64` consecutive counters are distinct. -/
theorem Consecutive.nodup {counters : List UInt64} (consecutive : Consecutive counters)
    (few : counters.length ≤ 2 ^ 64) : counters.Nodup := by
  rw [List.nodup_iff_injective_get]
  intro ⟨i, earlier⟩ ⟨j, later⟩ same
  simp only [List.get_eq_getElem, consecutive.getElem earlier, consecutive.getElem later] at same
  have wrapped := congrArg UInt64.toNat same
  simp only [UInt64.toNat_add, Nat.toUInt64_eq, UInt64.toNat_ofNat'] at wrapped
  rw [Fin.mk.injEq]
  omega

theorem Consecutive.append_singleton {counters : List UInt64} (consecutive : Consecutive counters)
    {next : UInt64} (follows : ∀ last ∈ counters.getLast?, next = last + 1) :
    Consecutive (counters ++ [next]) :=
  List.isChain_append.mpr ⟨consecutive, List.isChain_singleton next, fun last isLast first isFirst => by
    rw [List.head?_singleton, Option.mem_some_iff] at isFirst
    rw [← isFirst]
    exact follows last isLast⟩

theorem nodup_of_filter {α K : Type} [DecidableEq K] (nonce : α → K × UInt64) {l : List α}
    (distinct : ∀ key, ((l.filter fun a => (nonce a).1 = key).map fun a => (nonce a).2).Nodup) :
    (l.map nonce).Nodup := by
  induction l with
  | nil => exact List.nodup_nil
  | cons a rest ih =>
    rw [List.map_cons, List.nodup_cons]
    refine ⟨fun repeated => ?_, ih fun key => (distinct key).sublist
      (((List.sublist_cons_self a rest).filter _).map _)⟩
    obtain ⟨b, member, same⟩ := List.mem_map.mp repeated
    -- `a` and `b` share a key, so their counters sit in the list of that key
    have keyed := distinct (nonce a).1
    rw [List.filter_cons_of_pos (by simp), List.map_cons, List.nodup_cons] at keyed
    exact keyed.1 (List.mem_map.mpr ⟨b, List.mem_filter.mpr ⟨member, by simp [same]⟩, by rw [same]⟩)

end MobileCoin.Counter
