/-
# Two runs of a fallible program

`TwoRuns R x y`: the computations `x` and `y` end in the same fault, or both return and `R`
relates what they return. Related computations followed by related continuations are related
(`TwoRuns.bind`), so a relation of states is carried through a program step by step, and
through a list of calls (`TwoRuns.trace_eq`): whatever an observer that `R` cannot deceive
sees of the calls is the same.

Key definitions: `TwoRuns`, `trace`.
Key theorems: `TwoRuns.bind`, `TwoRuns.same_bind`, `TwoRuns.trace_eq`.
-/
import Mathlib.Tactic.Common

universe u

variable {φ : Type*} {α β γ δ : Type u}

inductive TwoRuns (R : α → β → Prop) : Except φ α → Except φ β → Prop
  | error (f : φ) : TwoRuns R (.error f) (.error f)
  | ok {a : α} {b : β} : R a b → TwoRuns R (.ok a) (.ok b)

namespace TwoRuns

variable {R : α → β → Prop} {S : γ → δ → Prop}

theorem bind {x : Except φ α} {y : Except φ β} {f : α → Except φ γ} {g : β → Except φ δ}
    (h : TwoRuns R x y) (hfg : ∀ a b, R a b → TwoRuns S (f a) (g b)) : TwoRuns S (x >>= f) (y >>= g) := by
  cases h with
  | error e => exact .error e
  | ok hab => exact hfg _ _ hab

/-- A first step that both have in common. -/
theorem same_bind {x : Except φ α} {f : α → Except φ γ} {g : α → Except φ δ}
    (hfg : ∀ a, TwoRuns S (f a) (g a)) : TwoRuns S (x >>= f) (x >>= g) := by
  cases x with
  | error e => exact .error e
  | ok a => exact hfg a

end TwoRuns

/-- What an observer sees of a list of calls, each made in the state the one before it left;
a call that faults is the last. -/
def trace {κ ω : Type*} {σ : Type u} (call : κ → σ → Except φ σ) (observe : σ → ω) : σ → List κ → List (Except φ ω)
  | _, [] => []
  | s, k :: ks =>
    match call k s with
    | .ok t => .ok (observe t) :: trace call observe t ks
    | .error f => [.error f]

/-- States that the calls keep related, and that look the same, have the same trace. -/
theorem TwoRuns.trace_eq {κ ω : Type*} {σ : Type u} {call : κ → σ → Except φ σ} {observe : σ → ω} {R : σ → σ → Prop}
    (keep : ∀ k s t, R s t → TwoRuns R (call k s) (call k t)) (same : ∀ s t, R s t → observe s = observe t)
    {ks : List κ} : ∀ {s t : σ}, R s t → trace call observe s ks = trace call observe t ks := by
  induction ks with
  | nil => exact fun _ => rfl
  | cons k ks ih =>
    intro s t h
    unfold trace
    generalize call k s = x, call k t = y, keep k s t h = hk
    cases hk with
    | error f => rfl
    | ok hR =>
      dsimp only
      rw [same _ _ hR, ih hR]
