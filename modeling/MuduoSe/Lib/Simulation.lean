/-
# A system that runs inside another

A program is often put together of parts that were looked at by themselves: a step of the whole is
a few steps of a part, possibly none, seen through a view of the state. Then a run of the whole is a
run of the part, and what holds in every run of the part holds there.

Key definitions: `System.Shows`.
Key theorems: `Shows.run`.
-/
import MuduoSe.Lib.System

namespace System

variable {σ ε φ σ' ε' φ' : Type*}

/-- In the states with the invariant `I`, what `M` does is some steps of `N`. -/
structure Shows (M : System σ ε φ) (N : System σ' ε' φ') (I : σ → Prop) (view : σ → σ') : Prop where
  keep : ∀ {s t e}, I s → M.guard s e → M.step s e = .ok t → I t
  step : ∀ {s t e}, I s → M.guard s e → M.step s e = .ok t → ∃ fs, N.Run (view s) fs (view t)

variable {M : System σ ε φ} {N : System σ' ε' φ'} {I : σ → Prop} {view : σ → σ'} {s t : σ} {es : List ε}

/-- A run of the whole is a run of the part. -/
theorem Shows.run (h : M.Shows N I view) (hr : M.Run s es t) (hs : I s) :
    I t ∧ ∃ fs, N.Run (view s) fs (view t) := by
  induction hr with
  | nil s => exact ⟨hs, [], .nil _⟩
  | cons hg hstep _ ih =>
    obtain ⟨fs, hfs⟩ := h.step hs hg hstep
    obtain ⟨ht, gs, hgs⟩ := ih (h.keep hs hg hstep)
    exact ⟨ht, fs ++ gs, hfs.append hgs⟩

end System
