import MobileCoin.Lib.Except

/-!
# Inserting keys into a set of used keys

The loop `for key in keys { if !used.insert(key) { return Err(..) } }`, over a `HashSet` or a
`BTreeSet` (a list here, since only membership is read): each key goes into the set, and a key
already in it ends the loop with an error built from that key. The loop succeeds exactly when
its keys are distinct and none was in the set before, and the set then holds them all. When the
keys come item by item from a list of items, one set serving all of them, the keys of all the
items together have to be distinct.
-/

namespace MobileCoin

variable {κ ε β : Type}

theorem foldlM_flatMap {σ : Type} {f : σ → κ → Except ε σ} {keys : β → List κ} (items : List β) :
    ∀ init : σ, (items.flatMap keys).foldlM f init =
      items.foldlM (fun acc item => (keys item).foldlM f acc) init := by
  induction items with
  | nil => intro init; rfl
  | cons item items ih =>
    intro init
    rw [List.flatMap_cons, List.foldlM_append, List.foldlM_cons]
    congr 1
    funext acc
    exact ih acc

variable [DecidableEq κ] (duplicate : κ → ε)

/-- One turn of the loop: the set after the insertion, or the error for a key already there. -/
def insertFresh (used : List κ) (key : κ) : Except ε (List κ) :=
  if key ∈ used then .error (duplicate key) else .ok (key :: used)

/-- The loop over the keys of each item in turn, with one set for all of them. -/
def insertAllFresh (keys : β → List κ) (used : List κ) (items : List β) : Except ε (List κ) :=
  items.foldlM (fun used item => (keys item).foldlM (insertFresh duplicate) used) used

variable {duplicate}

theorem insertFresh_eq_ok {used used' : List κ} {key : κ} :
    insertFresh duplicate used key = .ok used' ↔ key ∉ used ∧ used' = key :: used := by
  unfold insertFresh
  split <;> simp_all [eq_comm]

theorem foldlM_insertFresh_eq_ok : ∀ {keys used used' : List κ},
    keys.foldlM (insertFresh duplicate) used = .ok used' ↔
      keys.Nodup ∧ keys.Disjoint used ∧ used' = keys.reverse ++ used
  | [], used, used' => by simp [eq_comm]
  | key :: keys, used, used' => by
    rw [foldlM_cons_ok]
    constructor
    · rintro ⟨mid, inserted, rest⟩
      obtain ⟨fresh, rfl⟩ := insertFresh_eq_ok.mp inserted
      obtain ⟨distinct, disjoint, rfl⟩ := foldlM_insertFresh_eq_ok.mp rest
      obtain ⟨notLater, disjoint⟩ := List.disjoint_cons_right.mp disjoint
      refine ⟨List.nodup_cons.mpr ⟨notLater, distinct⟩,
        List.disjoint_cons_left.mpr ⟨fresh, disjoint⟩, by simp⟩
    · rintro ⟨distinct, disjoint, rfl⟩
      obtain ⟨notLater, distinct⟩ := List.nodup_cons.mp distinct
      obtain ⟨fresh, disjoint⟩ := List.disjoint_cons_left.mp disjoint
      refine ⟨key :: used, insertFresh_eq_ok.mpr ⟨fresh, rfl⟩,
        foldlM_insertFresh_eq_ok.mpr ⟨distinct, List.disjoint_cons_right.mpr ⟨notLater, disjoint⟩, ?_⟩⟩
      simp

@[simp] theorem insertAllFresh_nil {keys : β → List κ} {used : List κ} :
    insertAllFresh duplicate keys used [] = .ok used := rfl

theorem insertAllFresh_cons_eq_ok {keys : β → List κ} {used used' : List κ} {item : β}
    {items : List β} :
    insertAllFresh duplicate keys used (item :: items) = .ok used' ↔
      ∃ mid, (keys item).foldlM (insertFresh duplicate) used = .ok mid ∧
        insertAllFresh duplicate keys mid items = .ok used' :=
  foldlM_cons_ok

theorem insertAllFresh_eq_ok {keys : β → List κ} {used used' : List κ} {items : List β} :
    insertAllFresh duplicate keys used items = .ok used' ↔
      (items.flatMap keys).Nodup ∧ (items.flatMap keys).Disjoint used ∧
        used' = (items.flatMap keys).reverse ++ used := by
  rw [insertAllFresh, ← foldlM_flatMap, foldlM_insertFresh_eq_ok]

end MobileCoin
