/-
# Fallible transition systems

A program that reacts to its environment: `guard` says which events the
environment may deliver in a state, `step` is what the program does on one, or
the fault it runs into. A run is a list of events that were all delivered where
they could be and all handled without a fault; an invariant is proved of one
step and holds of every run (`Run.invariant`).

What is asked of every step of a program, also of one that ends in a fault, is
said with `Always`: the first step of the events, and, if it leads anywhere, the
rest of them from there.

Key definitions: `System`, `System.Run`, `System.exec`, `System.Always`.
Key theorems: `Run.invariant`, `Run.history`, `Run.foldl`, `Run.append`, `Run.split`, `exec_iff`,
`always_congr`, `always_iff_forall`.
-/
import Mathlib.Data.List.Induction
import Mathlib.Tactic.Common

/-- A program driven by the events of its environment. -/
structure System (σ ε φ : Type*) where
  /-- The events the environment can deliver in a state. -/
  guard : σ → ε → Prop
  /-- What the program does on an event. -/
  step : σ → ε → Except φ σ

namespace System

variable {σ ε φ : Type*} (M : System σ ε φ)

/-- `Run s es t`: from `s`, the events `es` are all possible, none of them
faults, and they lead to `t`. -/
inductive Run : σ → List ε → σ → Prop
  | nil (s : σ) : Run s [] s
  | cons {s t u : σ} {e : ε} {es : List ε} :
      M.guard s e → M.step s e = .ok t → Run t es u → Run s (e :: es) u

variable {M}

theorem Run.single {s t : σ} {e : ε} (hg : M.guard s e) (hs : M.step s e = .ok t) : M.Run s [e] t :=
  .cons hg hs (.nil t)

theorem Run.append {s t u : σ} {es fs : List ε} (h : M.Run s es t) (h' : M.Run t fs u) :
    M.Run s (es ++ fs) u := by
  induction h with
  | nil => exact h'
  | cons hg hs _ ih => exact .cons hg hs (ih h')

/-- A run of two event lists, one after the other, passes a state between them. -/
theorem Run.split {s u : σ} : ∀ {es fs : List ε}, M.Run s (es ++ fs) u →
    ∃ t, M.Run s es t ∧ M.Run t fs u
  | [], _, h => ⟨s, .nil s, h⟩
  | _ :: _, _, .cons hg hs h =>
    let ⟨t, h1, h2⟩ := h.split
    ⟨t, .cons hg hs h1, h2⟩

/-- What the first state has and every step keeps, the last state has. -/
theorem Run.invariant {I : σ → Prop}
    (keep : ∀ {s t e}, I s → M.guard s e → M.step s e = .ok t → I t)
    {s t : σ} {es : List ε} (h : M.Run s es t) (h0 : I s) : I t := by
  induction h with
  | nil => exact h0
  | cons hg hs _ ih => exact ih (keep h0 hg hs)

/-- What holds of the events so far and the state they led to. -/
theorem Run.history {s : σ} {P : List ε → σ → Prop} (h0 : P [] s)
    (keep : ∀ {es t e u}, M.Run s es t → P es t → M.guard t e → M.step t e = .ok u → P (es ++ [e]) u)
    {es : List ε} {t : σ} (h : M.Run s es t) : P es t := by
  induction es using List.reverseRecOn generalizing t with
  | nil =>
    cases h
    exact h0
  | append_singleton es e ih =>
    obtain ⟨u, hu, he⟩ := h.split
    cases he with
    | cons hg hs hn =>
      cases hn
      exact keep hu (ih hu) hg hs

/-- A view of the state that every step moves by itself: after a run, it was moved by the events
one after the other. -/
theorem Run.foldl {α : Type*} {I : σ → Prop} {view : σ → α} {move : α → ε → α}
    (keep : ∀ {s t e}, I s → M.guard s e → M.step s e = .ok t → I t ∧ view t = move (view s) e)
    {s t : σ} {es : List ε} (h : M.Run s es t) (h0 : I s) : view t = es.foldl move (view s) := by
  induction h with
  | nil => rfl
  | cons hg hs _ ih =>
    obtain ⟨hi, hv⟩ := keep h0 hg hs
    rw [List.foldl_cons, ← hv]
    exact ih hi

/-- The program is deterministic: the events decide where a run ends. -/
theorem Run.unique {s t u : σ} {es : List ε} (h : M.Run s es t) (h' : M.Run s es u) : t = u := by
  induction h with
  | nil => cases h'; rfl
  | cons _ hs _ ih =>
    cases h' with
    | cons _ hs' h' =>
      rw [hs, Except.ok.injEq] at hs'
      subst hs'
      exact ih h'

variable (M)

/-- The state the events lead to, if they are a run. -/
def exec [∀ s e, Decidable (M.guard s e)] : σ → List ε → Option σ
  | s, [] => some s
  | s, e :: es =>
    if M.guard s e then
      match M.step s e with
      | .ok t => exec t es
      | .error _ => none
    else none

theorem exec_iff [∀ s e, Decidable (M.guard s e)] {t : σ} :
    ∀ {es : List ε} {s : σ}, M.exec s es = some t ↔ M.Run s es t
  | [], s => by
    rw [exec, Option.some.injEq]
    exact ⟨fun h => h ▸ .nil s, fun h => by cases h; rfl⟩
  | e :: es, s => by
    rw [exec]
    constructor
    · intro h
      split_ifs at h with hg
      cases hs : M.step s e with
      | ok u => rw [hs] at h; exact .cons hg hs (exec_iff.mp h)
      | error f => rw [hs] at h; cases h
    · rintro (_ | ⟨hg, hs, h⟩)
      rw [if_pos hg, hs]
      exact exec_iff.mpr h

/-- A run with a given outcome, by evaluation. -/
theorem exec_map_iff [∀ s e, Decidable (M.guard s e)] {α : Type*} {f : σ → α} {a : α} {es : List ε}
    {s : σ} : (M.exec s es).map f = some a ↔ ∃ t, M.Run s es t ∧ f t = a := by
  rw [Option.map_eq_some_iff]
  simp only [exec_iff]

/-- `P` holds of every state and event met on the events `es` from `s` on, as far
as the program gets. -/
def Always (P : σ → ε → Prop) : σ → List ε → Prop
  | _, [] => True
  | s, e :: es => P s e ∧ ∀ t, M.step s e = .ok t → Always P t es

variable {M}

theorem always_of_forall {P : σ → ε → Prop} (h : ∀ s e, P s e) : ∀ (es : List ε) (s : σ), M.Always P s es
  | [], _ => trivial
  | e :: es, s => ⟨h s e, fun t _ => always_of_forall h es t⟩

/-- Deciding a property of every step: run the events and decide it at each. -/
instance decidableAlways {P : σ → ε → Prop} [∀ s e, Decidable (P s e)] :
    (s : σ) → (es : List ε) → Decidable (M.Always P s es)
  | _, [] => isTrue trivial
  | s, e :: es =>
    match h : M.step s e with
    | .ok t =>
      have := decidableAlways (P := P) t es
      decidable_of_iff (P s e ∧ M.Always P t es) (and_congr_right fun _ =>
        ⟨fun ha u hu => by rw [h, Except.ok.injEq] at hu; exact hu ▸ ha, fun ha => ha t h⟩)
    | .error _ =>
      decidable_of_iff (P s e) (iff_self_and.mpr fun _ u hu => by rw [h] at hu; cases hu)

/-- Every step of a run was possible and led on. -/
theorem Run.always {s t : σ} {es : List ε} (h : M.Run s es t) :
    M.Always (fun s e => M.guard s e ∧ ∃ t, M.step s e = .ok t) s es := by
  induction h with
  | nil => trivial
  | cons hg hs _ ih =>
    refine ⟨⟨hg, _, hs⟩, ?_⟩
    intro u hu
    rw [hs, Except.ok.injEq] at hu
    exact hu ▸ ih

/-- A property of every step of a run and one more. -/
theorem Run.always_snoc {P : σ → ε → Prop} {s t : σ} {es : List ε} {e : ε} (h : M.Run s es t) :
    M.Always P s (es ++ [e]) ↔ M.Always P s es ∧ P t e := by
  induction h with
  | nil => simp [Always]
  | cons hg hs _ ih =>
    simp only [List.cons_append, Always, hs, Except.ok.injEq, forall_eq', ih, and_assoc]

/-- A property of the steps that the events alone decide, where the events that have it keep
the invariant `I` and do not fault. -/
theorem always_iff_forall {I : σ → Prop} {P : σ → ε → Prop} {Q : ε → Prop}
    (keep : ∀ {s e}, I s → Q e → ∃ t, M.step s e = .ok t ∧ I t)
    (agree : ∀ {s e}, I s → (P s e ↔ Q e)) :
    ∀ {es : List ε} {s : σ}, I s → (M.Always P s es ↔ ∀ e ∈ es, Q e)
  | [], _, _ => by simp [Always]
  | e :: es, s, h => by
    rw [Always, agree h, List.forall_mem_cons]
    apply and_congr_right
    intro hq
    obtain ⟨t, ht, hi⟩ := keep h hq
    rw [ht]
    simp only [Except.ok.injEq, forall_eq']
    exact always_iff_forall keep agree hi

/-- Two properties that agree on every state with the invariant `I` agree along
the events, if a step with one of them keeps `I`. -/
theorem always_congr {I : σ → Prop} {G P Q : σ → ε → Prop}
    (keep : ∀ {s t e}, I s → G s e → Q s e → M.step s e = .ok t → I t)
    (agree : ∀ {s e}, I s → G s e → (P s e ↔ Q s e)) :
    ∀ {es : List ε} {s : σ}, I s → M.Always G s es → (M.Always P s es ↔ M.Always Q s es)
  | [], _, _, _ => Iff.rfl
  | e :: es, s, h, hg => by
    simp only [Always]
    rw [agree h hg.1]
    constructor
    · rintro ⟨hq, hr⟩
      exact ⟨hq, fun t ht => (always_congr keep agree (keep h hg.1 hq ht) (hg.2 t ht)).mp (hr t ht)⟩
    · rintro ⟨hq, hr⟩
      exact ⟨hq, fun t ht => (always_congr keep agree (keep h hg.1 hq ht) (hg.2 t ht)).mpr (hr t ht)⟩

end System
