/-
# Functors from other threads

* `functors_in_order`: the functors that were run, those that were swapped and those that are still
  pending are the pushed ones, in the order of the pushes; and when the loop is about to poll with a
  functor pending, the eventfd is readable or the thread that pushed it has still to wake the loop.

The second part is `Awake`. It holds except between the handlers of the active channels and the swap:
there the eventfd has been drained, and the swap is still to come.

Key definitions: `Looper.Awake`, `Looper.Queued`, `LoopEvent.besides`.
Key theorems: `looper_queued`, `looper_besides`, `functors_in_order`.
-/
import MuduoSe.Net.EventLoop

namespace MuduoSe

/-- The thread of the loop runs code that may call the loop. -/
def LoopPc.calls : LoopPc → Bool
  | .published | .handle _ | .pend | .ended => true
  | _ => false

def LoopPc.handles : LoopPc → Bool
  | .handle _ => true
  | _ => false

/-- A step of the thread of the loop itself, outside of the handlers. -/
def LoopEvent.outside {ι F : Type} : LoopEvent ι F → Bool
  | .publish | .enter | .init | .test | .poll _ | .handlread | .swap | .endPend | .leave => true
  | _ => false

/-- The queue of functors is left as it is, but for the swap. -/
def LoopEvent.besides {ι F : Type} : LoopEvent ι F → Bool
  | .push _ _ | .run => false
  | _ => true

theorem EventLoop.wake_pos {ι F : Type} (l : EventLoop ι F) : 0 < l.wake.eventfd_ := by
  unfold EventLoop.wake
  dsimp only
  split_ifs with h
  · omega
  · unfold eventfdMax at h
    omega

namespace Looper

variable {ι F : Type}

/-- For every pending functor, the loop has been woken or will be. -/
def Awake (s : Looper ι F) : Prop :=
  ∀ x ∈ s.loop.pendfunclists_, 0 < s.loop.eventfd_ ∨ s.thread x.1 = .pushed

structure Queued (s : Looper ι F) : Prop where
  order : s.executed ++ s.loop.temp ++ s.loop.pendfunclists_ = s.pushed
  taken : s.pc ≠ .pend → s.loop.temp = []
  awake : s.pc ≠ .handle false → s.Awake

theorem start_queued : (start : Looper ι F).Queued := by
  refine ⟨rfl, fun _ => rfl, ?_⟩
  intro _ x hx
  exact absurd hx List.not_mem_nil

variable {s t : Looper ι F}

/-- A step of the loop thread on its way to `poll`, that leaves the queue and the eventfd alone. -/
theorem Queued.frame (h : s.Queued) (hpc : s.pc ≠ .handle false) (htemp : s.loop.temp = [])
    (hl : t.loop.pendfunclists_ = s.loop.pendfunclists_ ∧ t.loop.temp = s.loop.temp ∧
      t.loop.eventfd_ = s.loop.eventfd_)
    (ht : t.thread = s.thread) (hlog : t.pushed = s.pushed ∧ t.executed = s.executed) : t.Queued := by
  obtain ⟨hpend, htemp', hfd⟩ := hl
  refine ⟨?_, fun _ => htemp'.trans htemp, ?_⟩
  · rw [hlog.1, hlog.2, hpend, htemp']
    exact h.order
  · intro _ x hx
    rw [hfd, ht]
    exact h.awake hpc x (hpend ▸ hx)

theorem Queued.wake (h : s.Queued) (thread : ι → CallPc) (quitDone : Bool) :
    Queued { s with loop := s.loop.wake, thread := thread, quitDone := quitDone } := by
  refine ⟨h.order, h.taken, ?_⟩
  intro _ x _
  exact .inl s.loop.wake_pos

theorem Queued.handlread (h : s.Queued) (hpc : s.pc = .handle true) :
    Queued { s with pc := .handle false, loop := s.loop.handlread } := by
  refine ⟨h.order, fun _ => h.taken (by rw [hpc]; decide), ?_⟩
  intro hne
  exact absurd rfl hne

theorem Queued.swap (h : s.Queued) (hpc : s.pc = .handle false) :
    Queued { s with pc := .pend, loop := s.loop.swap } := by
  refine ⟨?_, fun hne => absurd rfl hne, ?_⟩
  · have horder := h.order
    rw [h.taken (by rw [hpc]; decide), List.append_nil] at horder
    show s.executed ++ s.loop.pendfunclists_ ++ [] = s.pushed
    rw [List.append_nil, horder]
  · intro _ x hx
    exact absurd hx List.not_mem_nil

variable [DecidableEq ι]

/-- A thread that is out of its calls is not the one that has pushed. -/
theorem update_pushed {thread : ι → CallPc} {i j : ι} (hi : thread i = .out) (hj : thread j = .pushed)
    (pc : CallPc) : Function.update thread i pc j = .pushed := by
  have hne : j ≠ i := by
    rintro rfl
    rw [hi] at hj
    cases hj
  rw [Function.update_of_ne hne, hj]

theorem Queued.push (h : s.Queued) {i : ι} (hi : s.thread i = .out) (f : F) :
    Queued { s with
      loop := s.loop.push i f
      thread := Function.update s.thread i .pushed
      pushed := s.pushed ++ [(i, f)] } := by
  refine ⟨?_, h.taken, ?_⟩
  · show s.executed ++ s.loop.temp ++ (s.loop.pendfunclists_ ++ [(i, f)]) = s.pushed ++ [(i, f)]
    rw [← List.append_assoc, h.order]
  · intro hpc x hx
    rcases List.mem_append.mp (show x ∈ s.loop.pendfunclists_ ++ [(i, f)] from hx) with hx | hx
    · exact (h.awake hpc x hx).imp_right fun hthread => update_pushed hi hthread _
    · obtain rfl := List.mem_singleton.mp hx
      exact .inr (Function.update_self _ _ _)

theorem Queued.quit (h : s.Queued) {i : ι} (hi : s.thread i = .out) :
    Queued { s with
      loop := { s.loop with quit_ := true }
      thread := Function.update s.thread i .quitting } := by
  refine ⟨h.order, h.taken, ?_⟩
  intro hpc x hx
  exact (h.awake hpc x hx).imp_right fun hthread => update_pushed hi hthread _

end Looper

open Looper

variable {ι F : Type} [DecidableEq ι]

theorem looper_step {s t : Looper ι F} (h : s.Queued) {ev : LoopEvent ι F} (hg : looper.guard s ev)
    (hs : looper.step s ev = .ok t) : t.Queued := by
  cases ev with
  | publish =>
    cases hs
    have hpc : s.pc = .created := hg
    exact h.frame (by simp [hpc]) (h.taken (by simp [hpc])) ⟨rfl, rfl, rfl⟩ rfl ⟨rfl, rfl⟩
  | started =>
    cases hs
    exact ⟨h.order, h.taken, h.awake⟩
  | enter =>
    cases hs
    have hpc : s.pc = .published := hg
    exact h.frame (by simp [hpc]) (h.taken (by simp [hpc])) ⟨rfl, rfl, rfl⟩ rfl ⟨rfl, rfl⟩
  | init =>
    cases hs
    have hpc : s.pc = .entering := hg
    exact h.frame (by simp [hpc]) (h.taken (by simp [hpc])) ⟨rfl, rfl, rfl⟩ rfl ⟨rfl, rfl⟩
  | test =>
    have hpc : s.pc = .test := hg
    rcases test_inv hs with ⟨-, rfl⟩ | ⟨-, rfl⟩
    · exact h.frame (by simp [hpc]) (h.taken (by simp [hpc])) ⟨rfl, rfl, rfl⟩ rfl ⟨rfl, rfl⟩
    · exact h.frame (by simp [hpc]) (h.taken (by simp [hpc])) ⟨rfl, rfl, rfl⟩ rfl ⟨rfl, rfl⟩
  | poll wake =>
    cases hs
    have hpc : s.pc = .poll := hg.1
    exact h.frame (by simp [hpc]) (h.taken (by simp [hpc])) ⟨rfl, rfl, rfl⟩ rfl ⟨rfl, rfl⟩
  | handlread =>
    cases hs
    exact h.handlread hg
  | quitHere =>
    cases hs
    exact ⟨h.order, h.taken, h.awake⟩
  | swap =>
    cases hs
    exact h.swap hg
  | run =>
    obtain ⟨x, xs, hxs, rfl⟩ := run_inv hg hs
    refine ⟨?_, fun hne => absurd hg.1 hne, h.awake⟩
    have horder := h.order
    rw [hxs] at horder
    simpa using horder
  | endPend =>
    cases hs
    exact h.frame (by simp [hg.1]) hg.2 ⟨rfl, rfl, rfl⟩ rfl ⟨rfl, rfl⟩
  | leave =>
    cases hs
    have hpc : s.pc = .leaving := hg
    exact h.frame (by simp [hpc]) (h.taken (by simp [hpc])) ⟨rfl, rfl, rfl⟩ rfl ⟨rfl, rfl⟩
  | push i f =>
    cases hs
    exact h.push hg.2 f
  | quit i =>
    cases hs
    exact h.quit hg.2
  | wake i =>
    cases hs
    exact h.wake _ _

theorem looper_queued {es : List (LoopEvent ι F)} {s : Looper ι F} (h : looper.Run .start es s) :
    s.Queued :=
  h.invariant (fun hi hg hs => looper_step hi hg hs) start_queued

/-! ### Steps of a loop that something runs in -/

/-- A step that neither queues nor runs a functor. -/
theorem looper_besides {l : Looper ι F} {ev : LoopEvent ι F} (h : l.Queued) (hev : ev.besides = true)
    (hg : looper.guard l ev) :
    ∃ m, looper.step l ev = .ok m ∧ m.Queued ∧ m.executed = l.executed ∧ m.pushed = l.pushed ∧
      m.loop.temp ++ m.loop.pendfunclists_ = l.loop.temp ++ l.loop.pendfunclists_ ∧
      (ev.outside = false → m.pc = l.pc) := by
  have hstep : ∃ m, looper.step l ev = .ok m ∧ m.executed = l.executed ∧ m.pushed = l.pushed ∧
      (ev.outside = false → m.pc = l.pc) := by
    cases ev with
    | push i f => cases hev
    | run => cases hev
    | test =>
      by_cases hquit : l.loop.quit_ = true
      · exact ⟨_, if_pos hquit, rfl, rfl, fun h => Bool.noConfusion h⟩
      · exact ⟨_, if_neg hquit, rfl, rfl, fun h => Bool.noConfusion h⟩
    | _ => exact ⟨_, rfl, rfl, rfl, fun h => by first | rfl | exact Bool.noConfusion h⟩
  obtain ⟨m, hm, hexecuted, hpushed, hpc⟩ := hstep
  have hq := looper_step h hg hm
  refine ⟨m, hm, hq, hexecuted, hpushed, ?_, hpc⟩
  have horder := hq.order
  rw [hexecuted, hpushed, ← h.order, List.append_assoc, List.append_assoc] at horder
  exact List.append_cancel_left horder

/-- The next functor is taken. -/
theorem looper_run {l : Looper ι F} (h : l.Queued) (hg : looper.guard l .run) : ∃ x xs m, l.loop.temp = x :: xs ∧
    looper.step l .run = .ok m ∧ m.Queued ∧ m.pc = l.pc ∧ m.pushed = l.pushed ∧
      m.executed = l.executed ++ [x] ∧
      l.loop.temp ++ l.loop.pendfunclists_ = x :: (m.loop.temp ++ m.loop.pendfunclists_) := by
  obtain ⟨x, xs, hxs⟩ := List.exists_cons_of_ne_nil hg.2
  have hstep : looper.step l .run = .ok
      { l with loop := { l.loop with temp := xs }, executed := l.executed ++ [x] } := by
    unfold looper
    dsimp only
    rw [hxs]
  exact ⟨x, xs, _, hxs, hstep, looper_step h hg hstep, rfl, rfl, rfl, by rw [hxs]; rfl⟩

/-- **Functors are run in the order in which they were pushed, none twice, and none is left asleep.** -/
theorem functors_in_order {es : List (LoopEvent ι F)} {s : Looper ι F}
    (h : looper.Run .start es s) :
    s.executed ++ s.loop.temp ++ s.loop.pendfunclists_ = s.pushed ∧
    (s.pushed.Nodup → s.executed.Nodup) ∧
    (s.pc = .poll → ∀ x ∈ s.loop.pendfunclists_, 0 < s.loop.eventfd_ ∨ s.thread x.1 = .pushed) := by
  have hq := looper_queued h
  refine ⟨hq.order, ?_, ?_⟩
  · intro hnodup
    rw [← hq.order, List.append_assoc] at hnodup
    exact (List.nodup_append.mp hnodup).1
  · intro hpc
    apply hq.awake
    rw [hpc]
    decide

/-- Two threads push while the loop is draining, swapping and running. -/
def pushers : List (LoopEvent (Fin 2) ℕ) :=
  [.publish, .started, .enter, .init, .test, .push 0 10, .wake 0, .poll true, .push 1 20, .handlread,
    .wake 1, .swap, .push 0 11, .run, .run, .endPend, .test]

theorem functors_in_order_pushers : ∃ s, looper.Run .start pushers s ∧ s.pc = .poll ∧
    s.loop.pendfunclists_ = [(0, 11)] ∧ s.executed = [(0, 10), (1, 20)] ∧
    s.executed ++ s.loop.temp ++ s.loop.pendfunclists_ = s.pushed ∧
    ∀ x ∈ s.loop.pendfunclists_, 0 < s.loop.eventfd_ ∨ s.thread x.1 = .pushed := by
  have hrun : ((looper.exec .start pushers).map fun s =>
      (s.pc, s.loop.pendfunclists_, s.executed)) = some (.poll, [(0, 11)], [(0, 10), (1, 20)]) := by
    decide +kernel
  obtain ⟨s, hs, hview⟩ := looper.exec_map_iff.mp hrun
  obtain ⟨hpc, hpend, hexec⟩ : s.pc = .poll ∧ s.loop.pendfunclists_ = [(0, 11)] ∧
      s.executed = [(0, 10), (1, 20)] := by
    simpa only [Prod.mk.injEq] using hview
  obtain ⟨horder, -, hawake⟩ := functors_in_order hs
  exact ⟨s, hs, hpc, hpend, hexec, horder, hawake hpc⟩

end MuduoSe
