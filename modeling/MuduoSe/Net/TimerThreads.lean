/-
# Timers that other threads add and cancel

`EventLoop::runat`, `runafter`, `runevery` and `cancel` may be called in any thread: `runinloop` calls
the function of the queue at once in the thread of the loop, and queues it as a functor in any other.
`TimerLoop` is both at once, the loop with the threads that call it (`looper`) and its timers
(`timers`); a functor is run by the loop's thread in `dopendfunc`, a batch of `handleRead` among the
handlers of the active channels, and the callbacks and functors that the loop runs may add and cancel.

* `timer_loop_parts`: a run of both is a run of the loop and a run of the timers, so what holds of
  either alone holds here: a functor that adds a node finds it constructed and not yet added.

Key definitions: `TimerCall`, `TimerLoop`, `timerLoop`, `TimerLoop.Linked`.
Key theorems: `timer_loop_step`, `shows_looper`, `shows_timers`, `timer_loop_parts`.
-/
import MuduoSe.Lib.Simulation
import MuduoSe.Net.EventLoopWake
import MuduoSe.Net.TimerRefine

namespace MuduoSe

/-- What other threads hand to `runinloop`. -/
inductive TimerCall
  /-- `bind(&TimerQueue::addTimeNodeInLoop, this, newnode)` -/
  | add (t : Addr)
  /-- `bind(&TimerQueue::delTimeNodeInLoop, this, t)` -/
  | del (t : TimeId)
  /-- Any other functor. What it does in the loop are events of a run. -/
  | other
  deriving DecidableEq, Repr

/-- What the thread of the loop may do with the timers where it is, besides adding one. A node of
another loop can be constructed at any time. -/
def TimerEvent.here (pc : LoopPc) : TimerEvent → Bool
  | .del _ => pc.calls
  | .beginRead _ _ => pc.handles
  | .run | .endRead _ | .other => true
  | _ => false

structure TimerLoop (ι : Type) where
  threads : Looper ι TimerCall
  timerqueue_ : Timers
  /-- The node that a thread has constructed in `addTimeNode` and not yet handed over. -/
  newnode : ι → Option Addr

inductive TimerLoopEvent (ι : Type)
  /-- A step of the loop that runs no functor, or a `quit` or a `wake` of a thread. -/
  | loop (ev : LoopEvent ι TimerCall)
  /-- `new timenode(f, when, interval)` in the thread `i`; its id is `t`. -/
  | construct (i : ι) (t : TimeId) (when : Time) (interval : Int)
  /-- `runinloop` of `addTimeNodeInLoop`, in the thread `i`. -/
  | handOver (i : ι)
  /-- `cancel(t)` in the thread `i`. -/
  | cancel (i : ι) (t : TimeId)
  /-- `addTimeNode` in the thread of the loop, with the times of its `resetfd`. -/
  | addHere (t : TimeId) (when : Time) (interval : Int) (r : ResetTimes)
  /-- `cancel` in the thread of the loop, a step of `handleRead`, or a node of another loop. -/
  | here (ev : TimerEvent)
  /-- The next functor, with the times of its `resetfd`. -/
  | run (r : ResetTimes)

/-- A functor on the timers. -/
def TimerCall.run (f : TimerCall) (s : Timers) (r : ResetTimes) : Res Timers :=
  match f with
  | .add t => timers.step s (.add t r)
  | .del t => timers.step s (.del t)
  | .other => .ok s

namespace TimerLoop

variable {ι : Type}

def start (size : Int) : TimerLoop ι := ⟨.start, .start size, fun _ => none⟩

/-- The functors that were not run yet. -/
def waiting (s : TimerLoop ι) : List (ι × TimerCall) := s.threads.loop.temp ++ s.threads.loop.pendfunclists_

/-- The nodes that functors add. -/
def adds (fs : List (ι × TimerCall)) : List Addr :=
  fs.filterMap fun x => match x.2 with
    | .add t => some t
    | _ => none

end TimerLoop

section

variable {ι : Type} [DecidableEq ι]

/-- A loop, its timers and the threads that call it. -/
def timerLoop : System (TimerLoop ι) (TimerLoopEvent ι) Fault where
  guard s
    | .loop ev => ev.besides = true ∧ looper.guard s.threads ev ∧ (ev.outside = true → s.timerqueue_.batch = none)
    | .construct i t when interval => s.threads.started = true ∧ s.threads.thread i = .out ∧
      s.newnode i = none ∧ timers.guard s.timerqueue_ (.construct t when interval)
    | .handOver i => (s.newnode i).isSome = true ∧ looper.guard s.threads (.push i .other)
    | .cancel i _ => s.newnode i = none ∧ looper.guard s.threads (.push i .other)
    | .addHere t when interval _ => s.threads.pc.calls = true ∧ s.timerqueue_.inLoop ∧
      timers.guard s.timerqueue_ (.construct t when interval)
    | .here ev => ev.here s.threads.pc = true ∧ timers.guard s.timerqueue_ ev
    | .run _ => looper.guard s.threads .run
  step s
    | .loop ev => do
      let l ← looper.step s.threads ev
      return { s with threads := l }
    | .construct i t when interval => do
      let u ← timers.step s.timerqueue_ (.construct t when interval)
      return { s with timerqueue_ := u, newnode := Function.update s.newnode i (some t.own_timenode_) }
    | .handOver i =>
      match s.newnode i with
      | some p => do
        let l ← looper.step s.threads (.push i (.add p))
        return { s with threads := l, newnode := Function.update s.newnode i none }
      | none => .error .dangling
    | .cancel i t => do
      let l ← looper.step s.threads (.push i (.del t))
      return { s with threads := l }
    | .addHere t when interval r => do
      let u ← timers.step s.timerqueue_ (.construct t when interval)
      let u ← timers.step u (.add t.own_timenode_ r)
      return { s with timerqueue_ := u }
    | .here ev => do
      let u ← timers.step s.timerqueue_ ev
      return { s with timerqueue_ := u }
    | .run r =>
      match s.threads.loop.temp with
      | (_, f) :: _ => do
        let l ← looper.step s.threads .run
        let u ← f.run s.timerqueue_ r
        return { s with threads := l, timerqueue_ := u }
      | [] => .error .pastEnd

instance (s : TimerLoop ι) : (ev : TimerLoopEvent ι) → Decidable (timerLoop.guard s ev)
  | .loop _ => inferInstanceAs (Decidable (_ ∧ _ ∧ (_ → _)))
  | .construct _ _ _ _ => inferInstanceAs (Decidable (_ ∧ _ ∧ _ ∧ _))
  | .handOver i | .cancel i _ => inferInstanceAs (Decidable (_ ∧ looper.guard s.threads (.push i .other)))
  | .addHere _ _ _ _ => inferInstanceAs (Decidable (_ ∧ _ ∧ _))
  | .run _ => inferInstanceAs (Decidable (looper.guard s.threads .run))
  | .here ev => inferInstanceAs (Decidable (_ ∧ timers.guard s.timerqueue_ ev))

end

/-! ### The queue of functors -/

namespace TimerLoop

variable {ι : Type} {fs gs : List (ι × TimerCall)} {x : ι × TimerCall} {p : Addr}

theorem adds_append : adds (fs ++ gs) = adds fs ++ adds gs := List.filterMap_append

theorem adds_cons : adds (x :: fs) = adds [x] ++ adds fs := List.filterMap_append (l := [x])

theorem mem_adds : p ∈ adds fs ↔ ∃ i, (i, .add p) ∈ fs := by
  unfold adds
  rw [List.mem_filterMap]
  constructor
  · rintro ⟨⟨i, f⟩, hin, hf⟩
    cases f with
    | add t =>
      cases hf
      exact ⟨i, hin⟩
    | del t => cases hf
    | other => cases hf
  · rintro ⟨i, hin⟩
    exact ⟨_, hin, rfl⟩

end TimerLoop

namespace TimerLoop

/-! ### What every step keeps -/

section

variable {ι : Type}

/-- A node that is pending is in the hands of one call or of one functor. -/
structure Linked (s : TimerLoop ι) : Prop where
  queue : s.threads.Queued
  tracked : s.timerqueue_.Tracked
  nodup : (adds s.waiting).Nodup
  queued : ∀ p ∈ adds s.waiting, p ∈ s.timerqueue_.pending
  made : ∀ i p, s.newnode i = some p →
    p ∈ s.timerqueue_.pending ∧ p ∉ adds s.waiting ∧ ∀ j, s.newnode j = some p → j = i
  owned : ∀ p ∈ s.timerqueue_.pending, p ∈ adds s.waiting ∨ ∃ i, s.newnode i = some p
  batch : s.timerqueue_.batch.isSome = true → s.threads.pc.handles = true

theorem start_linked (size : Int) : (start size : TimerLoop ι).Linked where
  queue := Looper.start_queued
  tracked := Timers.start_tracked size
  nodup := List.nodup_nil
  queued p hp := absurd hp List.not_mem_nil
  made i p h := by cases h
  owned p hp := absurd hp List.not_mem_nil
  batch h := by cases h

variable {s : TimerLoop ι}

/-- A step of the timers that neither constructs nor adds. -/
theorem Linked.setTimers (h : s.Linked) {u : Timers} (hu : u.Tracked) (hpending : u.pending = s.timerqueue_.pending)
    (hbatch : u.batch.isSome = true → s.threads.pc.handles = true) : Linked { s with timerqueue_ := u } where
  queue := h.queue
  tracked := hu
  nodup := h.nodup
  queued p hp := by
    rw [hpending]
    exact h.queued p hp
  made i p hp := by
    rw [hpending]
    exact h.made i p hp
  owned p hp := by
    rw [hpending] at hp
    exact h.owned p hp
  batch := hbatch

/-- A step of the loop that leaves the functors. -/
theorem Linked.setLooper (h : s.Linked) {l : Looper ι TimerCall} (hl : l.Queued)
    (hadds : adds (l.loop.temp ++ l.loop.pendfunclists_) = adds s.waiting)
    (hbatch : s.timerqueue_.batch.isSome = true → l.pc.handles = true) : Linked { s with threads := l } where
  queue := hl
  tracked := h.tracked
  nodup := by
    show (adds (l.loop.temp ++ l.loop.pendfunclists_)).Nodup
    rw [hadds]
    exact h.nodup
  queued p hp := by
    have hp : p ∈ adds (l.loop.temp ++ l.loop.pendfunclists_) := hp
    rw [hadds] at hp
    exact h.queued p hp
  made i p hp := by
    obtain ⟨hpending, hout, hone⟩ := h.made i p hp
    refine ⟨hpending, ?_, hone⟩
    show p ∉ adds (l.loop.temp ++ l.loop.pendfunclists_)
    rw [hadds]
    exact hout
  owned p hp := by
    show p ∈ adds (l.loop.temp ++ l.loop.pendfunclists_) ∨ _
    rw [hadds]
    exact h.owned p hp
  batch := hbatch

end

section

variable {ι : Type} [DecidableEq ι]

/-- `t` is what the loop and the timers of `s` have become by steps of their own. -/
structure Joint (s t : TimerLoop ι) : Prop where
  linked : t.Linked
  loops : ∃ fs, looper.Run s.threads fs t.threads
  times : ∃ gs, timers.Run s.timerqueue_ gs t.timerqueue_

variable {s : TimerLoop ι}

omit [DecidableEq ι] in
/-- What the timers can do, they do. -/
theorem Linked.next (h : s.Linked) {ev : TimerEvent} (hg : timers.guard s.timerqueue_ ev) :
    ∃ u, timers.step s.timerqueue_ ev = .ok u ∧ u.Tracked ∧ s.timerqueue_.Moved ev u := by
  obtain ⟨u, hu, hmoved, -⟩ := timers_moved h.tracked.good hg
  exact ⟨u, hu, (life_step h.tracked hg hu).1, hmoved⟩

omit [DecidableEq ι] in
/-- A node that is not constructed is in nobody's hands. -/
theorem Linked.free (h : s.Linked) {p : Addr} (hp : p ∉ s.timerqueue_.queue.heap) : p ∉ s.timerqueue_.pending := by
  intro hin
  obtain ⟨n, hn⟩ := h.tracked.good.queue.live p (List.mem_append_right _ hin)
  exact hp (Std.ExtTreeMap.mem_iff_isSome_getElem?.mpr (by rw [hn]; rfl))

theorem Linked.loop (h : s.Linked) {ev : LoopEvent ι TimerCall} (hev : ev.besides = true)
    (hg : looper.guard s.threads ev) (hidle : ev.outside = true → s.timerqueue_.batch = none) :
    ∃ t, timerLoop.step s (.loop ev) = .ok t ∧ Joint s t := by
  obtain ⟨m, hm, hq, -, -, hwaiting, hpc⟩ := looper_besides h.queue hev hg
  have hstep : timerLoop.step s (.loop ev) = .ok { s with threads := m } := by
    unfold timerLoop
    dsimp only
    rw [hm, ok_bind, res_pure]
  refine ⟨_, hstep, h.setLooper hq (congrArg adds hwaiting) ?_, ⟨_, .single hg hm⟩, [], .nil _⟩
  intro hb
  cases hof : ev.outside with
  | true =>
    rw [hidle hof] at hb
    cases hb
  | false =>
    rw [hpc hof]
    exact h.batch hb

theorem Linked.construct (h : s.Linked) {i : ι} {t : TimeId} {when : Time} {interval : Int}
    (hi : s.newnode i = none) (hg : timers.guard s.timerqueue_ (.construct t when interval)) :
    ∃ u, timerLoop.step s (.construct i t when interval) = .ok u ∧ Joint s u := by
  obtain ⟨u, hu, htracked, hmoved⟩ := h.next hg
  have hnew := h.free hg.2.1
  have hstep : timerLoop.step s (.construct i t when interval) = .ok
      { s with timerqueue_ := u, newnode := Function.update s.newnode i (some t.own_timenode_) } := by
    unfold timerLoop
    dsimp only
    rw [hu, ok_bind, res_pure]
  obtain ⟨hpending, hbatch⟩ : u.pending = t.own_timenode_ :: s.timerqueue_.pending ∧
      u.batch = s.timerqueue_.batch := by
    cases hmoved
    exact ⟨rfl, rfl⟩
  refine ⟨_, hstep, ⟨h.queue, htracked, h.nodup, ?_, ?_, ?_, ?_⟩, ⟨[], .nil _⟩, ⟨_, .single hg hu⟩⟩
  · intro p hp
    show p ∈ u.pending
    rw [hpending]
    exact List.mem_cons_of_mem _ (h.queued p hp)
  · intro j p hp
    dsimp only at hp ⊢
    rw [hpending]
    by_cases hj : j = i
    · rw [hj, Function.update_self, Option.some.injEq] at hp
      rw [← hp]
      refine ⟨List.mem_cons_self, fun hin => hnew (h.queued _ hin), fun k hk => ?_⟩
      by_cases hki : k = i
      · rw [hki, hj]
      · rw [Function.update_of_ne hki] at hk
        exact absurd (h.made k _ hk).1 hnew
    · rw [Function.update_of_ne hj] at hp
      obtain ⟨hin, hout, hone⟩ := h.made j p hp
      refine ⟨List.mem_cons_of_mem _ hin, hout, fun k hk => ?_⟩
      by_cases hki : k = i
      · rw [hki, Function.update_self, Option.some.injEq] at hk
        exact absurd (hk ▸ hin) hnew
      · rw [Function.update_of_ne hki] at hk
        exact hone k hk
  · intro p hp
    have hp : p ∈ u.pending := hp
    dsimp only
    rw [hpending, List.mem_cons] at hp
    rcases hp with rfl | hp
    · exact .inr ⟨i, Function.update_self ..⟩
    · rcases h.owned p hp with hin | ⟨j, hj⟩
      · exact .inl hin
      · have hne : j ≠ i := by
          rintro rfl
          rw [hi] at hj
          cases hj
        exact .inr ⟨j, by rw [Function.update_of_ne hne]; exact hj⟩
  · intro hb
    rw [show u.batch = s.timerqueue_.batch from hbatch] at hb
    exact h.batch hb

/-- `runinloop` in the thread `i`. -/
theorem Linked.push (h : s.Linked) {i : ι} (hg : looper.guard s.threads (.push i .other)) (f : TimerCall) :
    ∃ l, looper.step s.threads (.push i f) = .ok l ∧ l.Queued ∧ l.pc = s.threads.pc ∧
      looper.Run s.threads [.push i f] l ∧ l.loop.temp ++ l.loop.pendfunclists_ = s.waiting ++ [(i, f)] :=
  have hg : looper.guard s.threads (.push i f) := hg
  ⟨_, rfl, looper_step h.queue hg rfl, rfl, .single hg rfl, (List.append_assoc _ _ _).symm⟩

theorem Linked.handOver (h : s.Linked) {i : ι} {p : Addr} (hp : s.newnode i = some p)
    (hg : looper.guard s.threads (.push i .other)) :
    ∃ t, timerLoop.step s (.handOver i) = .ok t ∧ Joint s t := by
  obtain ⟨l, hl, hq, hpc, hrun, hwaiting⟩ := h.push hg (.add p)
  obtain ⟨hpending, hout, hone⟩ := h.made i p hp
  have hstep : timerLoop.step s (.handOver i) = .ok
      { s with threads := l, newnode := Function.update s.newnode i none } := by
    unfold timerLoop
    dsimp only
    rw [hp]
    dsimp only
    rw [hl, ok_bind, res_pure]
  have hadds : adds (l.loop.temp ++ l.loop.pendfunclists_) = adds s.waiting ++ [p] := by
    rw [hwaiting, adds_append]
    rfl
  refine ⟨_, hstep, ⟨hq, h.tracked, ?_, ?_, ?_, ?_, ?_⟩, ⟨_, hrun⟩, [], .nil _⟩
  · show (adds (l.loop.temp ++ l.loop.pendfunclists_)).Nodup
    rw [hadds]
    exact List.nodup_append.mpr ⟨h.nodup, List.nodup_singleton _, fun a ha b hb => by
      rw [List.mem_singleton.mp hb]
      exact fun hap => hout (hap ▸ ha)⟩
  · intro q hq'
    have hq' : q ∈ adds (l.loop.temp ++ l.loop.pendfunclists_) := hq'
    rw [hadds, List.mem_append, List.mem_singleton] at hq'
    rcases hq' with hq' | rfl
    · exact h.queued q hq'
    · exact hpending
  · intro j q hj
    dsimp only at hj ⊢
    have hne : j ≠ i := by
      rintro rfl
      rw [Function.update_self] at hj
      cases hj
    rw [Function.update_of_ne hne] at hj
    obtain ⟨hin, hout', hone'⟩ := h.made j q hj
    refine ⟨hin, ?_, fun k hk => ?_⟩
    · show q ∉ adds (l.loop.temp ++ l.loop.pendfunclists_)
      rw [hadds, List.mem_append, List.mem_singleton, not_or]
      refine ⟨hout', ?_⟩
      rintro rfl
      exact hne (hone j hj)
    · by_cases hk' : k = i
      · rw [hk', Function.update_self] at hk
        cases hk
      · rw [Function.update_of_ne hk'] at hk
        exact hone' k hk
  · intro q hq'
    show q ∈ adds (l.loop.temp ++ l.loop.pendfunclists_) ∨ ∃ j, Function.update s.newnode i none j = some q
    rw [hadds, List.mem_append, List.mem_singleton]
    rcases h.owned q hq' with hin | ⟨j, hj⟩
    · exact .inl (.inl hin)
    · by_cases hji : j = i
      · rw [hji, hp, Option.some.injEq] at hj
        exact .inl (.inr hj.symm)
      · exact .inr ⟨j, by rw [Function.update_of_ne hji]; exact hj⟩
  · intro hb
    rw [show l.pc = s.threads.pc from hpc]
    exact h.batch hb

theorem Linked.cancel (h : s.Linked) {i : ι} (hg : looper.guard s.threads (.push i .other)) (t : TimeId) :
    ∃ u, timerLoop.step s (.cancel i t) = .ok u ∧ Joint s u := by
  obtain ⟨l, hl, hq, hpc, hrun, hwaiting⟩ := h.push hg (.del t)
  have hstep : timerLoop.step s (.cancel i t) = .ok { s with threads := l } := by
    unfold timerLoop
    dsimp only
    rw [hl, ok_bind, res_pure]
  refine ⟨_, hstep, h.setLooper hq ?_ ?_, ⟨_, hrun⟩, [], .nil _⟩
  · rw [hwaiting, adds_append]
    exact List.append_nil _
  · rw [hpc]
    exact h.batch

theorem Linked.addHere (h : s.Linked) {t : TimeId} {when : Time} {interval : Int} (hin : s.timerqueue_.inLoop)
    (hg : timers.guard s.timerqueue_ (.construct t when interval)) (r : ResetTimes) :
    ∃ u, timerLoop.step s (.addHere t when interval r) = .ok u ∧ Joint s u := by
  obtain ⟨u, hu, htracked, hmoved⟩ := h.next hg
  obtain ⟨hpending, hbatch⟩ : u.pending = t.own_timenode_ :: s.timerqueue_.pending ∧
      u.batch = s.timerqueue_.batch := by
    cases hmoved
    exact ⟨rfl, rfl⟩
  have hadd : timers.guard u (.add t.own_timenode_ r) := by
    refine ⟨by rw [hpending]; exact List.mem_cons_self, ?_⟩
    unfold Timers.inLoop
    rw [hbatch]
    exact hin
  obtain ⟨v, hv, hmoved', -⟩ := timers_moved htracked.good hadd
  obtain ⟨hpending', hbatch'⟩ : v.pending = u.pending.erase t.own_timenode_ ∧ v.batch = u.batch := by
    cases hmoved'
    exact ⟨rfl, rfl⟩
  have hstep : timerLoop.step s (.addHere t when interval r) = .ok { s with timerqueue_ := v } := by
    unfold timerLoop
    dsimp only
    rw [hu, ok_bind, hv, ok_bind, res_pure]
  refine ⟨_, hstep, h.setTimers (life_step htracked hadd hv).1 ?_ ?_, ⟨[], .nil _⟩, _, .cons hg hu (.single hadd hv)⟩
  · rw [hpending', hpending, List.erase_cons_head]
  · rw [hbatch', hbatch]
    exact h.batch

theorem Linked.here (h : s.Linked) {ev : TimerEvent} (hev : ev.here s.threads.pc = true)
    (hg : timers.guard s.timerqueue_ ev) :
    ∃ t, timerLoop.step s (.here ev) = .ok t ∧ Joint s t := by
  obtain ⟨u, hu, htracked, hmoved⟩ := h.next hg
  have hstep : timerLoop.step s (.here ev) = .ok { s with timerqueue_ := u } := by
    unfold timerLoop
    dsimp only
    rw [hu, ok_bind, res_pure]
  have hkept : u.pending = s.timerqueue_.pending ∧ (u.batch.isSome = true → s.threads.pc.handles = true) := by
    cases hmoved with
    | construct => cases hev
    | other => exact ⟨rfl, h.batch⟩
    | add => cases hev
    | delWaiting => exact ⟨rfl, h.batch⟩
    | delOther => exact ⟨rfl, h.batch⟩
    | beginRead => exact ⟨rfl, fun _ => hev⟩
    | run hb => exact ⟨rfl, fun _ => h.batch (by rw [hb]; rfl)⟩
    | endRead => exact ⟨rfl, fun hb => Bool.noConfusion hb⟩
  exact ⟨_, hstep, h.setTimers htracked hkept.1 hkept.2, ⟨[], .nil _⟩, _, .single hg hu⟩

omit [DecidableEq ι] in
/-- No batch is being run where functors are. -/
theorem Linked.idle (h : s.Linked) (hpc : s.threads.pc = .pend) : s.timerqueue_.batch = none := by
  rcases hb : s.timerqueue_.batch with _ | b
  · rfl
  · have hhandles := h.batch (by rw [hb]; rfl)
    rw [hpc] at hhandles
    cases hhandles

omit [DecidableEq ι] in
theorem Linked.inLoop (h : s.Linked) (hpc : s.threads.pc = .pend) : s.timerqueue_.inLoop := by
  intro b hb
  rw [h.idle hpc] at hb
  cases hb

theorem Linked.run (h : s.Linked) (hg : looper.guard s.threads .run) (r : ResetTimes) :
    ∃ t, timerLoop.step s (.run r) = .ok t ∧ Joint s t := by
  obtain ⟨⟨i, f⟩, xs, l, hxs, hl, hq, hpc, -, -, hwaiting⟩ := looper_run h.queue hg
  have hinLoop := h.inLoop hg.1
  have hwaiting : s.waiting = (i, f) :: (l.loop.temp ++ l.loop.pendfunclists_) := hwaiting
  have hstep : ∀ u, f.run s.timerqueue_ r = .ok u →
      timerLoop.step s (.run r) = .ok { s with threads := l, timerqueue_ := u } := by
    intro u hu
    unfold timerLoop
    dsimp only
    rw [hxs]
    dsimp only
    rw [hl, ok_bind, hu, ok_bind, res_pure]
  have hloops : ∃ fs, looper.Run s.threads fs l := ⟨_, .single hg hl⟩
  have hbatch : s.timerqueue_.batch.isSome = true → l.pc.handles = true := by
    rw [hpc]
    exact h.batch
  cases f with
  | other =>
    refine ⟨_, hstep _ rfl, h.setLooper hq ?_ hbatch, hloops, [], .nil _⟩
    rw [hwaiting, adds_cons]
    rfl
  | del t =>
    have hdel : timers.guard s.timerqueue_ (.del t) := hinLoop
    obtain ⟨u, hu, htracked, hmoved⟩ := h.next hdel
    obtain ⟨hpending, hbatch'⟩ : u.pending = s.timerqueue_.pending ∧ u.batch = s.timerqueue_.batch := by
      cases hmoved <;> exact ⟨rfl, rfl⟩
    have hset := h.setLooper hq (by rw [hwaiting, adds_cons]; rfl) hbatch
    refine ⟨_, hstep u hu, hset.setTimers htracked hpending ?_, hloops, _, .single hdel hu⟩
    rw [hbatch']
    exact hbatch
  | add p =>
    have hadds : adds s.waiting = p :: adds (l.loop.temp ++ l.loop.pendfunclists_) := by
      rw [hwaiting, adds_cons]
      rfl
    have hadd : timers.guard s.timerqueue_ (.add p r) :=
      ⟨h.queued p (by rw [hadds]; exact List.mem_cons_self), hinLoop⟩
    obtain ⟨u, hu, htracked, hmoved⟩ := h.next hadd
    obtain ⟨hpending, hbatch'⟩ : u.pending = s.timerqueue_.pending.erase p ∧ u.batch = s.timerqueue_.batch := by
      cases hmoved
      exact ⟨rfl, rfl⟩
    have hnodup := h.nodup
    rw [hadds, List.nodup_cons] at hnodup
    refine ⟨_, hstep u hu, ⟨hq, htracked, hnodup.2, ?_, ?_, ?_, ?_⟩, hloops, _, .single hadd hu⟩
    · intro q hq'
      have hne : q ≠ p := by
        rintro rfl
        exact hnodup.1 hq'
      show q ∈ u.pending
      rw [hpending, List.mem_erase_of_ne hne]
      exact h.queued q (by rw [hadds]; exact List.mem_cons_of_mem _ hq')
    · intro j q hj
      obtain ⟨hin, hout, hone⟩ := h.made j q hj
      rw [hadds, List.mem_cons, not_or] at hout
      refine ⟨?_, hout.2, hone⟩
      show q ∈ u.pending
      rw [hpending, List.mem_erase_of_ne hout.1]
      exact hin
    · intro q hq'
      have hq' : q ∈ u.pending := hq'
      show q ∈ adds (l.loop.temp ++ l.loop.pendfunclists_) ∨ _
      have hnodup' : s.timerqueue_.pending.Nodup := (List.nodup_append.mp h.tracked.good.queue.nodup).2.1
      rw [hpending, hnodup'.mem_erase_iff] at hq'
      have howned := h.owned q hq'.2
      rw [hadds, List.mem_cons, or_assoc] at howned
      exact howned.resolve_left hq'.1
    · intro hb
      rw [show u.batch = s.timerqueue_.batch from hbatch'] at hb
      exact hbatch hb

/-- **What the loop's thread or another can do, it does, and the loop and the timers each run as they
do alone.** -/
theorem timer_loop_step (h : s.Linked) {e : TimerLoopEvent ι} (hg : timerLoop.guard s e) :
    ∃ t, timerLoop.step s e = .ok t ∧ Joint s t := by
  cases e with
  | loop ev => exact h.loop hg.1 hg.2.1 hg.2.2
  | construct i t when interval => exact h.construct hg.2.2.1 hg.2.2.2
  | handOver i =>
    obtain ⟨p, hp⟩ := Option.isSome_iff_exists.mp hg.1
    exact h.handOver hp hg.2
  | cancel i t => exact h.cancel hg.2 t
  | addHere t when interval r => exact h.addHere hg.2.1 hg.2.2 r
  | run r => exact h.run hg r
  | here ev => exact h.here hg.1 hg.2

/-- The loop with its timers runs as the loop does. -/
theorem shows_looper : (timerLoop (ι := ι)).Shows looper Linked threads where
  keep h hg hs := by
    obtain ⟨u, hu, hjoint⟩ := timer_loop_step h hg
    rw [hs, Except.ok.injEq] at hu
    exact hu ▸ hjoint.linked
  step h hg hs := by
    obtain ⟨u, hu, hjoint⟩ := timer_loop_step h hg
    rw [hs, Except.ok.injEq] at hu
    exact hu ▸ hjoint.loops

/-- And as the timers do. -/
theorem shows_timers : (timerLoop (ι := ι)).Shows timers Linked timerqueue_ where
  keep := shows_looper.keep
  step h hg hs := by
    obtain ⟨u, hu, hjoint⟩ := timer_loop_step h hg
    rw [hs, Except.ok.injEq] at hu
    exact hu ▸ hjoint.times

/-- What a run of the loop with its timers has led to. -/
structure Whole (size : Int) (s : TimerLoop ι) : Prop where
  loop : ∃ fs, looper.Run .start fs s.threads
  times : ∃ gs, timers.Run (.start size) gs s.timerqueue_
  /-- A node that was constructed and not added is in the hands of one functor or of one call. -/
  hands : ∀ p, p ∈ s.timerqueue_.pending ↔ p ∈ adds s.waiting ∨ ∃ i, s.newnode i = some p
  one_functor : (adds s.waiting).Nodup
  one_call : ∀ i p, s.newnode i = some p → p ∉ adds s.waiting ∧ ∀ j, s.newnode j = some p → j = i
  /-- Nothing that can happen next ends in a fault. -/
  returns : ∀ e, timerLoop.guard s e → ∃ t, timerLoop.step s e = .ok t

theorem run_linked {size : Int} {es : List (TimerLoopEvent ι)} (h : timerLoop.Run (.start size) es s) : s.Linked :=
  (shows_looper.run h (start_linked size)).1

end

end TimerLoop

open TimerLoop

section

variable {ι : Type} [DecidableEq ι] {size : Int} {es : List (TimerLoopEvent ι)} {s : TimerLoop ι}

/-- **Timers that are added and cancelled in any threads.** -/
theorem timer_loop_parts (h : timerLoop.Run (.start size) es s) : s.Whole size := by
  have hlinked := run_linked h
  refine ⟨(shows_looper.run h (start_linked size)).2, (shows_timers.run h (start_linked size)).2, ?_, hlinked.nodup,
    fun i p hp => (hlinked.made i p hp).2, ?_⟩
  · intro p
    constructor
    · exact hlinked.owned p
    · rintro (hp | ⟨i, hi⟩)
      · exact hlinked.queued p hp
      · exact (hlinked.made i p hi).1
  · intro e he
    obtain ⟨t, ht, -⟩ := timer_loop_step hlinked he
    exact ⟨t, ht⟩

end

/-- Two threads add a timer each; one has not handed it over yet. -/
def handing : List (TimerLoopEvent ℕ) :=
  [.loop .publish, .loop .started, .construct 0 ⟨7, 1⟩ 500 0, .construct 1 ⟨8, 2⟩ 600 0, .handOver 1]

theorem timer_loop_parts_handing : ∃ s, timerLoop.Run (.start 0) handing s ∧ adds s.waiting = [8] ∧
    s.newnode 0 = some 7 ∧ s.Whole 0 := by
  have hrun : (timerLoop.exec (.start 0) handing).map (fun s => (adds s.waiting, s.newnode 0)) =
      some ([8], some 7) := by
    decide +kernel
  obtain ⟨s, hs, hview⟩ := timerLoop.exec_map_iff.mp hrun
  obtain ⟨hadds, hnew⟩ := Prod.mk.inj hview
  exact ⟨s, hs, hadds, hnew, timer_loop_parts hs⟩

end MuduoSe
