/-
# Quitting the loop of another thread

`threadfunc` publishes the pointer to its loop before `loop()` stores `false` to `quit_`; a `quit()`
that stores `true` in between is erased, and the loop runs on.

* `quit_kept_iff`: before that store no quit is lost; and after it none ever is, and the loop ends,
  if and only if no quit had been asked for when it was made.
* `quit_erased`: a `quit()` right after `start()`.

A quit is asked for from its store on; `Asked` says that `quit_` tells just that, which every step
keeps but a late store of `false`.

Key definitions: `Looper.Kept`, `Looper.Asked`, `Looper.Quits`.
Key theorems: `asked_step`, `quits_step`, `loop_ends`, `quit_kept_iff`.
-/
import MuduoSe.Net.EventLoop

namespace MuduoSe

/-- `quit_` is still to be initialised by `loop()`. -/
def LoopPc.early : LoopPc → Bool
  | .created | .published | .entering => true
  | _ => false

/-- A step of the thread of the loop. -/
def LoopEvent.ofLoop {ι F : Type} : LoopEvent ι F → Bool
  | .started | .push _ _ | .quit _ | .wake _ => false
  | _ => true

namespace Looper

variable {ι F : Type}

/-- After a `quit()` has completed, `quit_` is true. -/
def Kept (s : Looper ι F) : Prop := s.quitDone = true → s.loop.quit_ = true

/-- `quit_` is true if and only if a `quit()` has stored that. -/
def Asked (s : Looper ι F) : Prop :=
  s.loop.quit_ = true ↔ s.quitDone = true ∨ ∃ i, s.thread i = .quitting

/-- The loop will not begin another iteration. -/
def Quits (s : Looper ι F) : Prop := s.pc.early = false ∧ s.loop.quit_ = true

theorem start_asked : (start : Looper ι F).Asked := by
  unfold Asked start EventLoop.new
  simp

variable [DecidableEq ι] {s t : Looper ι F}

theorem asked_step (h : s.Asked) {ev : LoopEvent ι F} (hg : looper.guard s ev)
    (hinit : ev = .init → s.loop.quit_ = false) (hs : looper.step s ev = .ok t) : t.Asked := by
  cases ev with
  | init =>
    cases hs
    have hquit := hinit rfl
    unfold Asked at h ⊢
    rw [hquit] at h
    exact h
  | test =>
    rcases test_inv hs with ⟨-, rfl⟩ | ⟨-, rfl⟩
    · exact h
    · exact h
  | run =>
    obtain ⟨x, xs, -, rfl⟩ := run_inv hg hs
    exact h
  | quitHere =>
    cases hs
    exact iff_of_true rfl (.inl rfl)
  | push i f =>
    cases hs
    refine h.trans (or_congr_right (exists_congr fun j => ?_))
    dsimp only
    by_cases hj : j = i
    · subst hj
      simp [hg.2]
    · rw [Function.update_of_ne hj]
  | quit i =>
    cases hs
    exact iff_of_true rfl (.inr ⟨i, Function.update_self _ _ _⟩)
  | wake i =>
    cases hs
    refine h.trans ?_
    dsimp only
    rw [Bool.or_eq_true, beq_iff_eq]
    constructor
    · rintro (hdone | ⟨j, hj⟩)
      · exact .inl (.inl hdone)
      · by_cases hji : j = i
        · exact .inl (.inr (hji ▸ hj))
        · exact .inr ⟨j, (Function.update_of_ne hji _ _).trans hj⟩
    · rintro ((hdone | hi) | ⟨j, hj⟩)
      · exact .inl hdone
      · exact .inr ⟨i, hi⟩
      · by_cases hji : j = i
        · rw [hji, Function.update_self] at hj
          cases hj
        · exact .inr ⟨j, (Function.update_of_ne hji _ _).symm.trans hj⟩
  | _ =>
    cases hs
    exact h

theorem late_step (h : s.pc.early = false) {ev : LoopEvent ι F} (hg : looper.guard s ev)
    (hs : looper.step s ev = .ok t) : t.pc.early = false := by
  cases ev with
  | publish =>
    rw [show s.pc = .created from hg] at h
    cases h
  | enter =>
    rw [show s.pc = .published from hg] at h
    cases h
  | test =>
    rcases test_inv hs with ⟨-, rfl⟩ | ⟨-, rfl⟩
    · rfl
    · rfl
  | run =>
    obtain ⟨x, xs, -, rfl⟩ := run_inv hg hs
    exact h
  | init | poll _ | handlread | swap | endPend | leave =>
    cases hs
    rfl
  | _ =>
    cases hs
    exact h

/-- After `loop()` has stored `false`, nothing does. -/
theorem quits_step (h : s.Quits) {ev : LoopEvent ι F} (hg : looper.guard s ev)
    (hs : looper.step s ev = .ok t) : t.Quits ∧ t.iterations = s.iterations := by
  have hlate := late_step h.1 hg hs
  have hquit := h.2
  cases ev with
  | init =>
    rw [Quits, show s.pc = .entering from hg] at h
    cases h.1
  | test =>
    rcases test_inv hs with ⟨-, rfl⟩ | ⟨hnot, -⟩
    · exact ⟨⟨hlate, hquit⟩, rfl⟩
    · exact absurd hquit hnot
  | run =>
    obtain ⟨x, xs, -, rfl⟩ := run_inv hg hs
    exact ⟨⟨hlate, hquit⟩, rfl⟩
  | quitHere | quit _ =>
    cases hs
    exact ⟨⟨hlate, rfl⟩, rfl⟩
  | _ =>
    cases hs
    exact ⟨⟨hlate, hquit⟩, rfl⟩

/-! ### The end of the loop -/

/-- Left to itself, the loop ends. -/
def Ends (s : Looper ι F) : Prop :=
  ∃ fs t, (∀ e ∈ fs, e.ofLoop = true) ∧ looper.Run s fs t ∧ t.pc = .ended

theorem Ends.of_step (h : t.Ends) (ev : LoopEvent ι F) (hev : ev.ofLoop = true)
    (hg : looper.guard s ev) (hs : looper.step s ev = .ok t) : s.Ends := by
  obtain ⟨fs, u, hfs, hrun, hpc⟩ := h
  exact ⟨ev :: fs, u, List.forall_mem_cons.mpr ⟨hev, hfs⟩, .cons hg hs hrun, hpc⟩

theorem leaving_ends (hpc : s.pc = .leaving) : s.Ends := by
  have hend : Ends { s with pc := .ended, loop := { s.loop with looping_ := false } } :=
    ⟨[], _, fun _ he => absurd he List.not_mem_nil, .nil _, rfl⟩
  exact hend.of_step .leave rfl hpc rfl

theorem test_ends (hpc : s.pc = .test) (hquit : s.loop.quit_ = true) : s.Ends := by
  have hend : Ends { s with pc := .leaving } := leaving_ends rfl
  exact hend.of_step .test rfl hpc (if_pos hquit)

theorem pend_ends : ∀ (xs : List (ι × F)) {s : Looper ι F}, s.loop.temp = xs → s.pc = .pend →
    s.loop.quit_ = true → s.Ends
  | [], s, htemp, hpc, hquit => by
    have hend : Ends { s with pc := .test, loop := { s.loop with dopendfunc_ := false } } :=
      test_ends rfl hquit
    exact hend.of_step .endPend rfl ⟨hpc, htemp⟩ rfl
  | x :: xs, s, htemp, hpc, hquit => by
    have hend : Ends { s with loop := { s.loop with temp := xs }, executed := s.executed ++ [x] } :=
      pend_ends xs rfl hpc hquit
    refine hend.of_step .run rfl ⟨hpc, by simp [htemp]⟩ ?_
    unfold looper
    dsimp only
    rw [htemp]

theorem swap_ends (hpc : s.pc = .handle false) (hquit : s.loop.quit_ = true) : s.Ends := by
  have hend : Ends { s with pc := .pend, loop := s.loop.swap } := pend_ends _ rfl rfl hquit
  exact hend.of_step .swap rfl hpc rfl

/-- **A loop that has been told to quit ends.** -/
theorem loop_ends (h : s.Quits) : s.Ends := by
  obtain ⟨hlate, hquit⟩ := h
  rcases hpc : s.pc with _ | _ | _ | _ | _ | wake | _ | _ | _
  case test => exact test_ends hpc hquit
  case poll =>
    have hend : Ends { s with pc := .handle false } := swap_ends rfl hquit
    exact hend.of_step (.poll false) rfl ⟨hpc, by simp⟩ rfl
  case handle =>
    rcases wake with _ | _
    · exact swap_ends hpc hquit
    · have hend : Ends { s with pc := .handle false, loop := s.loop.handlread } :=
        swap_ends rfl hquit
      exact hend.of_step .handlread rfl hpc rfl
  case pend => exact pend_ends _ rfl hpc hquit
  case leaving => exact leaving_ends hpc
  case ended => exact ⟨[], s, fun _ he => absurd he List.not_mem_nil, .nil s, hpc⟩
  all_goals
    rw [hpc] at hlate
    cases hlate

end Looper

/-! ### Every run -/

open Looper

variable {ι F : Type} [DecidableEq ι] {s t : Looper ι F}

/-- Before `loop()` has stored `false`, nothing has. -/
theorem early_asked {es : List (LoopEvent ι F)} (h : looper.Run .start es s)
    (hearly : s.pc.early = true) : s.Asked := by
  revert hearly
  refine h.invariant (I := fun s => s.pc.early = true → s.Asked) ?_ fun _ => start_asked
  intro s t ev hi hg hs ht
  have hs' : s.pc.early = true := by
    by_contra hlate
    rw [late_step (Bool.eq_false_iff.mpr hlate) hg hs] at ht
    cases ht
  apply asked_step (hi hs') hg _ hs
  rintro rfl
  cases hs
  cases ht

/-- After it has, no quit is lost. -/
theorem late_asked {fs : List (LoopEvent ι F)} (h : looper.Run s fs t) (hlate : s.pc.early = false)
    (hs : s.Asked) : t.pc.early = false ∧ t.Asked := by
  refine h.invariant (I := fun s => s.pc.early = false ∧ s.Asked) ?_ ⟨hlate, hs⟩
  intro s t ev hi hg ht
  refine ⟨late_step hi.1 hg ht, asked_step hi.2 hg ?_ ht⟩
  rintro rfl
  rw [show s.pc = .entering from hg] at hi
  cases hi.1

theorem quits_run {fs : List (LoopEvent ι F)} (h : looper.Run s fs t) (hs : s.Quits) :
    t.Quits ∧ t.iterations = s.iterations := by
  refine h.invariant (I := fun u => u.Quits ∧ u.iterations = s.iterations) ?_ ⟨hs, rfl⟩
  intro u v ev hi hg hv
  obtain ⟨hquits, heq⟩ := quits_step hi.1 hg hv
  exact ⟨hquits, heq.trans hi.2⟩

/-- **When a quit is not erased.** Until `loop()` stores `false`, no quit is lost. After that store
none ever is, and a quit that has completed ends the loop, if and only if no `quit()` had stored
`true` before it. -/
theorem quit_kept_iff {es : List (LoopEvent ι F)} (h : looper.Run .start es s) :
    (s.pc.early = true → s.Kept) ∧
    (looper.guard s .init → ∀ t, looper.step s .init = .ok t →
      ((∀ fs u, looper.Run t fs u → u.Kept ∧ (u.quitDone = true →
          u.Ends ∧ ∀ gs v, looper.Run u gs v → v.iterations = u.iterations)) ↔
        s.loop.quit_ = false)) := by
  constructor
  · intro hearly hdone
    exact (early_asked h hearly).mpr (.inl hdone)
  · intro hg t ht
    have hasked := early_asked h (by rw [show s.pc = .entering from hg]; rfl)
    constructor
    · intro hall
      rw [← Bool.not_eq_true]
      intro hquit
      cases ht
      rcases hasked.mp hquit with hdone | ⟨i, hi⟩
      · exact Bool.false_ne_true ((hall [] _ (.nil _)).1 hdone)
      · -- The thread that has stored `true` completes its call.
        have hwake : looper.guard { s with pc := .test, loop := { s.loop with quit_ := false } }
            (.wake i) := by
          show s.thread i ≠ .out
          rw [hi]
          decide
        have hkept := (hall [.wake i] _ (.single hwake rfl)).1
        refine Bool.false_ne_true (hkept ?_)
        show (s.quitDone || s.thread i == .quitting) = true
        rw [hi, Bool.or_eq_true]
        exact .inr rfl
    · intro hquit fs u hfs
      obtain ⟨hlate, hu⟩ := late_asked hfs (by cases ht; rfl) (asked_step hasked hg (fun _ => hquit) ht)
      refine ⟨fun hdone => hu.mpr (.inl hdone), ?_⟩
      intro hdone
      have hquits : u.Quits := ⟨hlate, hu.mpr (.inl hdone)⟩
      exact ⟨loop_ends hquits, fun gs v hgs => (quits_run hgs hquits).2⟩

/-- `start()` returns, and only then another thread quits. -/
def quitLater : List (LoopEvent Unit Unit) :=
  [.publish, .enter, .started]

theorem quit_kept_iff_quitLater : ∃ s t, looper.Run .start quitLater s ∧
    looper.step s .init = .ok t ∧ ∀ fs u, looper.Run t fs u → u.Kept := by
  have hrun : ((looper.exec .start quitLater).map fun s => (s.pc, s.loop.quit_)) =
      some (.entering, false) := by
    decide +kernel
  obtain ⟨s, hs, hview⟩ := looper.exec_map_iff.mp hrun
  obtain ⟨hpc, hquit⟩ := Prod.mk.inj hview
  refine ⟨s, _, hs, rfl, ?_⟩
  intro fs u hu
  exact (((quit_kept_iff hs).2 hpc _ rfl).mpr hquit fs u hu).1

/-- A thread gets the pointer from `start()` and quits before `loop()` is called. -/
def quitEarly : List (LoopEvent Unit Unit) :=
  [.publish, .started, .quit (), .wake (), .enter, .init, .test]

/-- **The quit is erased**: it has completed, and the loop begins an iteration. -/
theorem quit_erased : ∃ s, looper.Run .start quitEarly s ∧ s.quitDone = true ∧
    s.loop.quit_ = false ∧ s.iterations = 1 ∧ ¬s.Kept := by
  have hrun : ((looper.exec .start quitEarly).map fun s => (s.quitDone, s.loop.quit_, s.iterations)) =
      some (true, false, 1) := by
    decide +kernel
  obtain ⟨s, hs, hview⟩ := looper.exec_map_iff.mp hrun
  obtain ⟨hdone, hquit, hiter⟩ : s.quitDone = true ∧ s.loop.quit_ = false ∧ s.iterations = 1 := by
    simpa only [Prod.mk.injEq] using hview
  refine ⟨s, hs, hdone, hquit, hiter, ?_⟩
  intro hkept
  rw [hkept hdone] at hquit
  cases hquit

end MuduoSe
