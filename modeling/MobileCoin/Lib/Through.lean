import Mathlib.Logic.Relation
import MobileCoin.Lib.Except

/-!
# A component threaded through a fallible computation

A computation in `Except ε' α` that holds a component of state `σ` and calls it: each result
carries the component's state (`part`), reached from the state it started from by steps `R`, and
each error that is the component's (`inj e`) was raised by a state so reached (`Fails`). The rules
follow the shape of the computation: `pure`, `throw` of an error that is not the component's,
`bind`, one call of the component, and `foldlM`. An invariant of the steps then holds of every
result and of the state behind every error.
-/

namespace MobileCoin

open Relation

variable {σ ε ε' α β γ : Type} {R : σ → σ → Prop} {Fails : σ → ε → Prop} {inj : ε → ε'}

variable (R Fails inj) in
/-- The results of `c`, started with the component at `s`, carry states `R`-reached from `s`, and
its errors `inj e` come from states so reached that fail with `e`. -/
def Through (s : σ) (part : α → σ) (c : Except ε' α) : Prop :=
  (∀ a, c = .ok a → ReflTransGen R s (part a)) ∧
    ∀ e, c = .error (inj e) → ∃ t, ReflTransGen R s t ∧ Fails t e

variable {s : σ} {part : α → σ}

theorem Through.pure {a : α} (steps : ReflTransGen R s (part a)) :
    Through R Fails inj s part (pure a) := by
  refine ⟨fun b returned => ?_, fun e failed => ?_⟩
  · cases returned
    exact steps
  · cases failed

theorem Through.throw {x : ε'} (other : ∀ e, x ≠ inj e) :
    Through R Fails inj s part (throw x : Except ε' α) := by
  refine ⟨fun b returned => ?_, fun e failed => ?_⟩
  · cases returned
  · cases failed
    exact absurd rfl (other e)

/-- A computation that never calls the component and never fails as it. -/
theorem Through.of_ne_error {c : Except ε' α} (other : ∀ e, c ≠ .error (inj e)) :
    Through R Fails inj s (fun _ => s) c :=
  ⟨fun _ _ => .refl, fun e failed => absurd failed (other e)⟩

theorem Through.bind {part' : β → σ} {x : Except ε' α} {f : α → Except ε' β}
    (first : Through R Fails inj s part x)
    (rest : ∀ a, x = .ok a → Through R Fails inj (part a) part' (f a)) :
    Through R Fails inj s part' (x >>= f) := by
  refine ⟨fun b returned => ?_, fun e failed => ?_⟩
  · obtain ⟨a, ran, returned⟩ := bind_ok returned
    exact (first.1 a ran).trans ((rest a ran).1 b returned)
  · rcases bind_error_iff.mp failed with failed | ⟨a, ran, failed⟩
    · exact first.2 e failed
    · obtain ⟨t, steps, fails⟩ := (rest a ran).2 e failed
      exact ⟨t, (first.1 a ran).trans steps, fails⟩

/-- One call of the component, its errors wrapped as the component's by an injective `inj`. -/
theorem Through.call (injective : Function.Injective inj) {call : Except ε β} {next : β → σ}
    (steps : ∀ b, call = .ok b → ReflTransGen R s (next b))
    (fails : ∀ e, call = .error e → Fails s e) :
    Through R Fails inj s next (call.mapError inj) := by
  refine ⟨fun b returned => steps b (mapError_eq_ok.mp returned), fun e failed => ?_⟩
  cases called : call with
  | ok b =>
    rw [called] at failed
    cases failed
  | error e' =>
    rw [called] at failed
    -- the error is the call's own, so it is raised at the start
    have same : e' = e := injective (Except.error.inj failed)
    exact ⟨s, .refl, same ▸ fails e' called⟩

/-- A fold whose every turn threads the component threads it through the whole fold. -/
theorem Through.foldlM {f : α → γ → Except ε' α}
    (each : ∀ a g, Through R Fails inj (part a) part (f a g)) :
    ∀ (l : List γ) (a : α), Through R Fails inj (part a) part (l.foldlM f a)
  | [], a => Through.pure .refl
  | g :: l, a => by
    rw [List.foldlM_cons]
    exact (each a g).bind fun b _ => Through.foldlM each l b

/-- What an invariant of the steps says of a threaded computation: it holds of every result,
and of the state behind every error that is the component's. -/
theorem Through.invariant {I : σ → Prop} (keeps : ∀ {t t'}, I t → R t t' → I t') {c : Except ε' α}
    (through : Through R Fails inj s part c) (holds : I s) :
    (∀ a, c = .ok a → I (part a)) ∧ ∀ e, c = .error (inj e) → ∃ t, I t ∧ Fails t e := by
  have reach : ∀ {t}, ReflTransGen R s t → I t := by
    intro t steps
    induction steps with
    | refl => exact holds
    | tail _ step before => exact keeps before step
  refine ⟨fun a returned => reach (through.1 a returned), fun e failed => ?_⟩
  obtain ⟨t, steps, fails⟩ := through.2 e failed
  exact ⟨t, reach steps, fails⟩

end MobileCoin
