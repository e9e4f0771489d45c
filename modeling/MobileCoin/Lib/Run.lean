import MobileCoin.Lib.Except

/-!
# Runs of a fallible state machine

A state machine whose step can fail, and that emits a list of outputs at each step. A run
takes the steps in order and concatenates their outputs; the first failure ends it. A relation
between states that every step keeps and that composes, every run keeps; an output a step emits
about its own end state, and that the relation carries forward, holds of the end of the run.
-/

namespace MobileCoin

variable {σ ι ω ε : Type}

def runSteps (step : σ → ι → Except ε (σ × List ω)) : σ → List ι → Except ε (σ × List ω)
  | s, [] => pure (s, [])
  | s, i :: rest => do
    let (s₁, out) ← step s i
    let (s₂, outs) ← runSteps step s₁ rest
    pure (s₂, out ++ outs)

variable {step : σ → ι → Except ε (σ × List ω)}

@[simp] theorem runSteps_nil (s : σ) : runSteps step s [] = .ok (s, []) := rfl

theorem runSteps_cons_ok {s s' : σ} {i : ι} {rest : List ι} {outs : List ω} :
    runSteps step s (i :: rest) = .ok (s', outs) ↔
      ∃ s₁ out outs', step s i = .ok (s₁, out) ∧ runSteps step s₁ rest = .ok (s', outs') ∧
        outs = out ++ outs' := by
  simp only [runSteps, bind_ok_iff, pure_eq_ok, Except.ok.injEq, Prod.mk.injEq]
  constructor
  · rintro ⟨⟨s₁, out⟩, first, ⟨s₂, outs'⟩, later, same, rfl⟩
    exact ⟨s₁, out, outs', first, same ▸ later, rfl⟩
  · rintro ⟨s₁, out, outs', first, later, rfl⟩
    exact ⟨(s₁, out), first, (s', outs'), later, rfl, rfl⟩

section Keeps

variable {R : σ → σ → Prop} (refl : ∀ s, R s s) (trans : ∀ {a b c}, R a b → R b c → R a c)
  (keeps : ∀ {s i s' out}, step s i = .ok (s', out) → R s s')
include refl trans keeps

/-- Every run keeps a reflexive, transitive relation that every step keeps. -/
theorem runSteps_keeps : ∀ {inputs : List ι} {s s' : σ} {outs : List ω},
    runSteps step s inputs = .ok (s', outs) → R s s'
  | [], s, s', outs, ran => by
    rw [runSteps_nil, Except.ok.injEq, Prod.mk.injEq] at ran
    exact ran.1 ▸ refl s
  | i :: rest, s, s', outs, ran => by
    obtain ⟨s₁, out, outs', first, later, -⟩ := runSteps_cons_ok.mp ran
    exact trans (keeps first) (runSteps_keeps later)

/-- What each step's outputs say of the step's end state, and the relation carries forward, the
outputs of a run say of its end state. -/
theorem runSteps_outputs {Q : ω → σ → Prop} (emits : ∀ {s i s' out}, step s i = .ok (s', out) →
      ∀ o ∈ out, Q o s')
    (carried : ∀ {o a b}, Q o a → R a b → Q o b) :
    ∀ {inputs : List ι} {s s' : σ} {outs : List ω},
      runSteps step s inputs = .ok (s', outs) → ∀ o ∈ outs, Q o s'
  | [], s, s', outs, ran => by
    rw [runSteps_nil, Except.ok.injEq, Prod.mk.injEq] at ran
    rw [← ran.2]
    exact nofun
  | i :: rest, s, s', outs, ran => by
    obtain ⟨s₁, out, outs', first, later, rfl⟩ := runSteps_cons_ok.mp ran
    intro o emitted
    rcases List.mem_append.mp emitted with now | afterwards
    · exact carried (emits first o now) (runSteps_keeps refl trans keeps later)
    · exact runSteps_outputs emits carried later o afterwards

end Keeps

section Invariant

variable {I : σ → Prop} (keeps : ∀ {s i s' out}, I s → step s i = .ok (s', out) → I s')
include keeps

/-- An invariant of every step from a state that has it holds at the end of every run. -/
theorem runSteps_invariant {inputs : List ι} {s s' : σ} {outs : List ω} (holds : I s)
    (ran : runSteps step s inputs = .ok (s', outs)) : I s' :=
  runSteps_keeps (R := fun a b => I a → I b) (fun _ => id) (fun first second => second ∘ first)
    (fun stepped before => keeps before stepped) ran holds

/-- What every step from a state with the invariant emits, every run from one emits. -/
theorem runSteps_outputs_of_invariant {Q : ω → Prop}
    (emits : ∀ {s i s' out}, I s → step s i = .ok (s', out) → ∀ o ∈ out, Q o) :
    ∀ {inputs : List ι} {s s' : σ} {outs : List ω}, I s →
      runSteps step s inputs = .ok (s', outs) → ∀ o ∈ outs, Q o
  | [], s, s', outs, _, ran => by
    rw [runSteps_nil, Except.ok.injEq, Prod.mk.injEq] at ran
    rw [← ran.2]
    exact nofun
  | i :: rest, s, s', outs, holds, ran => by
    obtain ⟨s₁, out, outs', first, later, rfl⟩ := runSteps_cons_ok.mp ran
    intro o emitted
    rcases List.mem_append.mp emitted with now | afterwards
    · exact emits holds first o now
    · exact runSteps_outputs_of_invariant emits (keeps holds first) later o afterwards

/-- The outputs of a run ascend along `R` when those of every step do and start above each output
that may come before them: the last one emitted, or, while nothing has been, one that the state
`Follows`. -/
theorem runSteps_isChain {R : ω → ω → Prop} {Follows : σ → ω → Prop}
    (ascends : ∀ {s i s' out}, I s → step s i = .ok (s', out) →
      out.IsChain R ∧ ∀ p, Follows s p → ∀ o ∈ out.head?, R p o)
    (carries : ∀ {s i s' out}, I s → step s i = .ok (s', out) →
      ∀ p, (out.getLast? = some p ∨ out = [] ∧ Follows s p) → Follows s' p) :
    ∀ {inputs : List ι} {s s' : σ} {outs : List ω}, I s →
      runSteps step s inputs = .ok (s', outs) →
        outs.IsChain R ∧ ∀ p, Follows s p → ∀ o ∈ outs.head?, R p o
  | [], s, s', outs, _, ran => by
    rw [runSteps_nil, Except.ok.injEq, Prod.mk.injEq] at ran
    rw [← ran.2]
    exact ⟨List.isChain_nil, fun _ _ _ none => nomatch none⟩
  | i :: rest, s, s', outs, holds, ran => by
    obtain ⟨s₁, out, outs', first, later, rfl⟩ := runSteps_cons_ok.mp ran
    obtain ⟨stepChain, stepHead⟩ := ascends holds first
    obtain ⟨restChain, restHead⟩ := runSteps_isChain ascends carries (keeps holds first) later
    refine ⟨stepChain.append restChain fun p last => restHead p
      (carries holds first p (Or.inl (Option.mem_def.mp last))), fun p follows => ?_⟩
    cases out with
    | nil => exact restHead p (carries holds first p (Or.inr ⟨rfl, follows⟩))
    | cons o _ => exact stepHead p follows

end Invariant

end MobileCoin
