import Mathlib

/-!
# The first element of a list with a property

A search that stops at its first hit (`iter().find`, `iter_mut().find`, a loop that returns
from inside) is described by where the element it finds stands: the list splits around it,
and nothing before it has the property. Two searches of one list for the same property find
the same element; a search for a property that another found element also has finds that
element or one before it. Searches of two lists related position by position, for a property
the relation keeps, find related elements.
-/

namespace MobileCoin

variable {α : Type*}

theorem find?_zipIdx_eq_some {p : α → Bool} {a : α} {i : Nat} {l : List α} {n : Nat} :
    ((l.zipIdx n).find? fun e => p e.1) = some (a, i) ↔
      ∃ pre post, l = pre ++ a :: post ∧ i = n + pre.length ∧ p a = true ∧
        ∀ b ∈ pre, p b = false := by
  induction l generalizing n with
  | nil => simp
  | cons b rest ih =>
    rw [List.zipIdx_cons, List.find?_cons]
    cases hit : p b with
    | true =>
      simp only [Option.some.injEq, Prod.mk.injEq]
      constructor
      · rintro ⟨rfl, rfl⟩
        exact ⟨[], rest, rfl, rfl, hit, by simp⟩
      · rintro ⟨pre, post, shape, position, found, before⟩
        cases pre with
        | nil =>
          obtain ⟨rfl, -⟩ := List.cons.inj shape
          exact ⟨rfl, by simpa using position.symm⟩
        | cons c pre =>
          have same : b = c := (List.cons.inj shape).1
          rw [same, before c List.mem_cons_self] at hit
          cases hit
    | false =>
      simp only
      rw [ih]
      constructor
      · rintro ⟨pre, post, rfl, rfl, found, before⟩
        refine ⟨b :: pre, post, rfl, by simp only [List.length_cons]; omega, found, ?_⟩
        intro c member
        rcases List.mem_cons.mp member with rfl | later
        · exact hit
        · exact before c later
      · rintro ⟨pre, post, shape, position, found, before⟩
        cases pre with
        | nil =>
          obtain ⟨rfl, -⟩ := List.cons.inj shape
          rw [found] at hit
          cases hit
        | cons c pre =>
          obtain ⟨rfl, rfl⟩ := List.cons.inj shape
          refine ⟨pre, post, rfl, by simp only [List.length_cons] at position; omega, found, ?_⟩
          exact fun d member => before d (List.mem_cons_of_mem _ member)

theorem find?_zipIdx_of_find? {p : α → Bool} {a : α} {l : List α} (found : l.find? p = some a) :
    ∃ i, ((l.zipIdx 0).find? fun e => p e.1) = some (a, i) := by
  obtain ⟨holds, pre, post, shape, before⟩ := List.find?_eq_some_iff_append.mp found
  refine ⟨0 + pre.length, find?_zipIdx_eq_some.mpr ⟨pre, post, shape, rfl, holds, ?_⟩⟩
  intro b member
  simpa using before b member

theorem first_eq_or_mem {p : α → Prop} {a first : α} {pre post pre' post' : List α}
    (shape : pre ++ a :: post = pre' ++ first :: post') (holds : p a)
    (before : ∀ b ∈ pre', ¬p b) : first = a ∨ first ∈ pre := by
  induction pre' generalizing pre with
  | nil =>
    cases pre with
    | nil => exact .inl (List.cons.inj shape).1.symm
    | cons c pre => exact .inr ((List.cons.inj shape).1 ▸ List.mem_cons_self)
  | cons c pre' ih =>
    cases pre with
    | nil =>
      have same : a = c := (List.cons.inj shape).1
      exact absurd (same ▸ holds) (before c List.mem_cons_self)
    | cons d pre =>
      obtain ⟨-, rest⟩ := List.cons.inj shape
      have later := ih rest fun b member => before b (List.mem_cons_of_mem c member)
      exact later.imp_right (List.mem_cons_of_mem d)

theorem find?_key_eq_of_nodup {K : Type*} [DecidableEq K] {key : α → K} {l : List α} {a : α}
    (distinct : (l.map key).Nodup) (member : a ∈ l) : l.find? (fun b => key b = key a) = some a := by
  induction l with
  | nil => exact absurd member List.not_mem_nil
  | cons b rest ih =>
    rw [List.map_cons, List.nodup_cons] at distinct
    rcases List.mem_cons.mp member with rfl | later
    · exact List.find?_cons_of_pos (by simp)
    · -- `b` has another key than `a`, which sits further on
      have other : key b ≠ key a := fun same =>
        distinct.1 (same ▸ List.mem_map_of_mem later)
      rw [List.find?_cons_of_neg (by simpa using other)]
      exact ih distinct.2 later

section Related

variable {β : Type*} {R : α → β → Prop}

theorem Forall₂.exists_of_mem_right : ∀ {l : List α} {r : List β}, List.Forall₂ R l r →
    ∀ b ∈ r, ∃ a ∈ l, R a b
  | _, _, .nil, _, member => absurd member List.not_mem_nil
  | _, _, .cons related rest, b, member => by
    rcases List.mem_cons.mp member with rfl | later
    · exact ⟨_, List.mem_cons_self, related⟩
    · obtain ⟨a, found, holds⟩ := Forall₂.exists_of_mem_right rest b later
      exact ⟨a, List.mem_cons_of_mem _ found, holds⟩

theorem find?_forall₂ {p : α → Bool} {q : β → Bool} (same : ∀ a b, R a b → q b = p a) :
    ∀ {l : List α} {r : List β}, List.Forall₂ R l r → Option.Rel R (l.find? p) (r.find? q)
  | _, _, .nil => .none
  | a :: _, b :: _, .cons related rest => by
    rw [List.find?_cons, List.find?_cons, same a b related]
    cases p a
    · exact find?_forall₂ same rest
    · exact .some related

end Related

end MobileCoin
