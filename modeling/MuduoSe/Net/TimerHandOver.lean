/-
# Cancels from other threads

`EventLoop::cancel` of a timer that another thread has added: in the thread of the loop at once, in any
other as a functor behind those that are queued. Functors are run in the order in which they were
queued, so what counts is whether the functor that adds the timer comes first.

* `cancel_behind_add`: a cancel that is queued behind the functor that adds its timer is final, once
  the loop has run it.
* `cancel_effect`: any other cancel ends its timer if the timer was added before, and is lost if not: a
  functor still in the queue adds it all the same.

Key definitions: `Timers.Coming`, `TimerLoop.Behind`, `TimerLoop.Doomed`, `TimerLoop.Ended`.
Key theorems: `Coming.step`, `Behind.step`, `Doomed.step`, `cancel_behind_add`, `cancel_effect`.
-/
import MuduoSe.Net.TimerCancel
import MuduoSe.Net.TimerIds
import MuduoSe.Net.TimerThreads

namespace MuduoSe

open TimerLoop

/-- A timer that is made stays so until it is added. -/
theorem Life.made_step {l : Life} {t : TimeId} {when : Time} {interval : Int} (h : l.stage = .made when interval)
    {ev : TimerEvent} (hev : ev.adds ≠ some t.own_timenode_) :
    ∃ when interval, (l.step t ev).stage = .made when interval := by
  obtain ⟨stage, deferred, batch, runs⟩ := l
  obtain rfl : stage = .made when interval := h
  unfold Life.step
  cases ev with
  | construct u when' interval' =>
    dsimp only
    split_ifs
    · exact ⟨_, _, rfl⟩
    · exact ⟨_, _, rfl⟩
  | other => exact ⟨_, _, rfl⟩
  | run => exact ⟨_, _, rfl⟩
  | beginRead now cut => exact ⟨_, _, rfl⟩
  | add p r =>
    dsimp only
    rw [if_neg fun hp => hev (congrArg some hp)]
    exact ⟨_, _, rfl⟩
  | del u =>
    dsimp only
    split_ifs
    · exact ⟨_, _, rfl⟩
    · exact ⟨_, _, rfl⟩
  | endRead clock =>
    cases batch with
    | none => exact ⟨_, _, rfl⟩
    | some now => exact ⟨_, _, rfl⟩

theorem Life.made_add {l : Life} {t : TimeId} {when : Time} {interval : Int} (h : l.stage = .made when interval)
    (r : ResetTimes) : (l.step t (.add t.own_timenode_ r)).stage = .waiting when interval := by
  unfold Life.step
  dsimp only
  rw [h]
  dsimp only
  rw [if_pos rfl]

namespace Timers

variable {s s' : Timers} {t : TimeId}

/-- The timer was constructed; it is still to be added, or was. -/
def Coming (s : Timers) (t : TimeId) : Prop :=
  t.key ∈ s.added ∨ ∃ when interval, s.stage t = .made when interval

theorem stage_waiting (h : s.Tracked) {e : Time} {interval : Int} (ht : s.stage t = .waiting e interval) :
    t.key ∈ s.queue.indexlist_ ∧ t.key ∈ s.added := by
  rcases hn : s.nodeOf t with _ | n
  · rw [stage_none hn] at ht
    cases ht
  · rw [stage_some hn] at ht
    obtain ⟨hheap, hi⟩ := nodeOf_eq_some.mp hn
    have hpend : t.own_timenode_ ∉ s.pending := by
      intro hin
      rw [stageOf_pending hin] at ht
      cases ht
    have hdel : t.own_timenode_ ∉ ptrs s.queue.deltimelist := by
      intro hin
      rw [stageOf_del hin hpend] at ht
      split_ifs at ht
    have hheld : t.own_timenode_ ∉ s.held := by
      unfold held
      rw [List.mem_append, not_or]
      exact ⟨hdel, hpend⟩
    have hentered := h.entered _ n hheap hpend
    rw [hi] at hentered
    exact ⟨(h.good.queue.index_iff _ _).mpr ⟨hheld, n, hheap, hi⟩, hentered⟩

/-- What adds a timer to the log is the step that adds its node. -/
theorem Moved.added {ev : TimerEvent} (h : s.Moved ev s') (hout : t.key ∉ s.added) (hin : t.key ∈ s'.added) :
    ev.adds = some t.own_timenode_ := by
  cases h with
  | add =>
    rcases List.mem_cons.mp hin with hkey | hin
    · exact congrArg some (congrArg Prod.snd hkey).symm
    · exact absurd hin hout
  | _ => exact absurd hin hout

/-- A timer that is still to be added is not lost, and waits as soon as it is added. -/
theorem Coming.step (h : s.Coming t) (hs : s.Tracked) {ev : TimerEvent} (hg : timers.guard s ev)
    (ht : timers.step s ev = .ok s') : s'.Coming t ∧
      (ev.adds = some t.own_timenode_ → t.key ∈ s'.added ∧ (t.key ∉ s.added → t.key ∈ s'.queue.indexlist_)) := by
  obtain ⟨htracked, hlife⟩ := life_step hs hg ht
  rcases h with hadded | ⟨when, interval, hmade⟩
  · have hin := (logs_grow ht).1.subset hadded
    exact ⟨.inl hin, fun _ => ⟨hin, fun hout => absurd hadded hout⟩⟩
  · have hmade : (s.life t).stage = .made when interval := hmade
    have hstage : s'.stage t = ((s.life t).step t ev).stage := congrArg Life.stage (hlife t)
    by_cases hev : ev.adds = some t.own_timenode_
    · obtain ⟨r, rfl⟩ : ∃ r, ev = .add t.own_timenode_ r := by
        cases ev with
        | add p r => exact ⟨r, by rw [Option.some.inj hev]⟩
        | _ => cases hev
      rw [Life.made_add hmade] at hstage
      obtain ⟨hindex, hadded⟩ := stage_waiting htracked hstage
      exact ⟨.inl hadded, fun _ => ⟨hadded, fun _ => hindex⟩⟩
    · obtain ⟨when', interval', hmade'⟩ := Life.made_step hmade hev
      exact ⟨.inr ⟨_, _, hstage.trans hmade'⟩, fun h => absurd h hev⟩

/-- In a step that adds it, it comes to wait. -/
theorem Coming.waits (h : s.Coming t) (hs : s.Tracked) {ev : TimerEvent} (hg : timers.guard s ev)
    (ht : timers.step s ev = .ok s') (hout : t.key ∉ s.added) (hin : t.key ∈ s'.added) :
    t.key ∈ s'.queue.indexlist_ :=
  ((h.step hs hg ht).2 ((hs.good.moved hg ht).1.added hout hin)).2 hout

end Timers

namespace TimerLoop

variable {ι : Type} [DecidableEq ι] {s u : TimerLoop ι} {t : TimeId} {i j : ι} {m n : ℕ} {e : TimerLoopEvent ι}
  {es : List (TimerLoopEvent ι)}

/-- The functor that is run, and what it makes of the timers. -/
theorem run_inv (h : s.Linked) {r : ResetTimes} (hg : timerLoop.guard s (.run r))
    (hs : timerLoop.step s (.run r) = .ok u) :
    ∃ x xs, s.threads.loop.temp = x :: xs ∧ u.threads.pushed = s.threads.pushed ∧
      u.threads.executed = s.threads.executed ++ [x] ∧ x.2.run s.timerqueue_ r = .ok u.timerqueue_ := by
  obtain ⟨x, xs, l, hxs, hl, -, -, hpushed, hexecuted, -⟩ := looper_run h.queue hg
  unfold timerLoop at hs
  dsimp only at hs
  rw [hxs] at hs
  dsimp only at hs
  rw [hl, ok_bind] at hs
  obtain ⟨v, hv, hs⟩ := bind_ok hs
  obtain rfl := Except.ok.inj hs
  exact ⟨x, xs, hxs, hpushed, hexecuted, hv⟩

/-- What a step does with the queue: it runs the functor that was pushed first of those that are left, or none. -/
theorem step_functors (h : s.Linked) (hg : timerLoop.guard s e) (hs : timerLoop.step s e = .ok u) :
    s.threads.pushed <+: u.threads.pushed ∧ (u.threads.executed = s.threads.executed ∨
      ∃ r x, u.threads.executed = s.threads.executed ++ [x] ∧
        s.threads.pushed[s.threads.executed.length]? = some x ∧ x ∈ s.waiting ∧ s.threads.pc = .pend ∧
        x.2.run s.timerqueue_ r = .ok u.timerqueue_) := by
  unfold timerLoop at hs
  cases e with
  | loop ev =>
    obtain ⟨l, hl, -, hexecuted, hpushed, -⟩ := looper_besides h.queue hg.1 hg.2.1
    dsimp only at hs
    rw [hl] at hs
    obtain rfl := Except.ok.inj hs
    exact ⟨by rw [hpushed], .inl hexecuted⟩
  | construct i t when interval =>
    obtain ⟨v, -, hs⟩ := bind_ok hs
    obtain rfl := Except.ok.inj hs
    exact ⟨List.prefix_rfl, .inl rfl⟩
  | handOver i =>
    dsimp only at hs
    split at hs
    · obtain ⟨l, hl, hs⟩ := bind_ok hs
      obtain rfl := Except.ok.inj hs
      cases hl
      exact ⟨List.prefix_append _ _, .inl rfl⟩
    · cases hs
  | cancel i t =>
    obtain ⟨l, hl, hs⟩ := bind_ok hs
    obtain rfl := Except.ok.inj hs
    cases hl
    exact ⟨List.prefix_append _ _, .inl rfl⟩
  | addHere t when interval r =>
    obtain ⟨v, -, hs⟩ := bind_ok hs
    obtain ⟨w, -, hs⟩ := bind_ok hs
    obtain rfl := Except.ok.inj hs
    exact ⟨List.prefix_rfl, .inl rfl⟩
  | here ev =>
    obtain ⟨v, -, hs⟩ := bind_ok hs
    obtain rfl := Except.ok.inj hs
    exact ⟨List.prefix_rfl, .inl rfl⟩
  | run r =>
    obtain ⟨x, xs, hxs, hpushed, hexecuted, hv⟩ := run_inv h hg hs
    refine ⟨by rw [hpushed], .inr ⟨r, x, hexecuted, ?_, ?_, hg.1, hv⟩⟩
    · rw [← h.queue.order, hxs, List.append_assoc, List.getElem?_append_right le_rfl, Nat.sub_self]
      rfl
    · unfold waiting
      rw [hxs]
      exact List.mem_cons_self

/-- A cancel that the thread of the loop executes. -/
theorem step_del (h : s.Linked)
    (he : e = .here (.del t) ∨ ∃ r j, e = .run r ∧ s.threads.loop.temp.head? = some (j, .del t))
    (hg : timerLoop.guard s e) (hs : timerLoop.step s e = .ok u) :
    timers.guard s.timerqueue_ (.del t) ∧ timers.step s.timerqueue_ (.del t) = .ok u.timerqueue_ := by
  rcases he with rfl | ⟨r, j, rfl, hhead⟩
  · obtain ⟨v, hv, hs⟩ := bind_ok hs
    obtain rfl := Except.ok.inj hs
    exact ⟨hg.2, hv⟩
  · obtain ⟨x, xs, hxs, -, -, hv⟩ := run_inv h hg hs
    rw [hxs] at hhead
    obtain rfl := Option.some.inj hhead
    exact ⟨h.inLoop hg.1, hv⟩

/-- What the steps of the timers keep, a step of the loop with its timers keeps. -/
theorem step_timers (h : s.Linked) (hg : timerLoop.guard s e) (hs : timerLoop.step s e = .ok u)
    {J : Timers → Prop} (hJ : J s.timerqueue_)
    (keep : ∀ {a b ev}, J a → timers.guard a ev → timers.step a ev = .ok b → J b) : J u.timerqueue_ := by
  obtain ⟨fs, hfs⟩ := shows_timers.step h hg hs
  exact hfs.invariant keep hJ

theorem coming_step (h : s.Linked) (ht : s.timerqueue_.Coming t) (hg : timerLoop.guard s e)
    (hs : timerLoop.step s e = .ok u) : u.timerqueue_.Coming t := by
  have hboth : u.timerqueue_.Tracked ∧ u.timerqueue_.Coming t := by
    refine step_timers h hg hs (J := fun a => a.Tracked ∧ a.Coming t) ⟨h.tracked, ht⟩ ?_
    rintro a b ev ⟨hta, hca⟩ hga hsa
    exact ⟨(life_step hta hga hsa).1, (hca.step hta hga hsa).1⟩
  exact hboth.2

/-- The step that adds a timer leaves it waiting. -/
theorem added_waits (h : s.Linked) (ht : s.timerqueue_.Coming t) (hg : timerLoop.guard s e)
    (hs : timerLoop.step s e = .ok u) (hout : t.key ∉ s.timerqueue_.added) (hin : t.key ∈ u.timerqueue_.added) :
    t.key ∈ u.timerqueue_.queue.indexlist_ := by
  cases e with
  | loop ev =>
    obtain ⟨l, -, hs⟩ := bind_ok hs
    obtain rfl := Except.ok.inj hs
    exact absurd hin hout
  | construct i v when interval =>
    obtain ⟨w, hw, hs⟩ := bind_ok hs
    obtain rfl := Except.ok.inj hs
    exact ht.waits h.tracked hg.2.2.2 hw hout hin
  | handOver i =>
    unfold timerLoop at hs
    dsimp only at hs
    split at hs
    · obtain ⟨l, -, hs⟩ := bind_ok hs
      obtain rfl := Except.ok.inj hs
      exact absurd hin hout
    · cases hs
  | cancel i v =>
    obtain ⟨l, -, hs⟩ := bind_ok hs
    obtain rfl := Except.ok.inj hs
    exact absurd hin hout
  | addHere v when interval r =>
    obtain ⟨w, hw, hs⟩ := bind_ok hs
    obtain ⟨x, hx, hs⟩ := bind_ok hs
    obtain rfl := Except.ok.inj hs
    have hmoved := (h.tracked.good.moved hg.2.2 hw).1
    have htracked := (life_step h.tracked hg.2.2 hw).1
    have hcoming := (ht.step h.tracked hg.2.2 hw).1
    have hadd : timers.guard w (.add v.own_timenode_ r) := by
      cases hmoved
      exact ⟨List.mem_cons_self, hg.2.1⟩
    have hout' : t.key ∉ w.added := by
      cases hmoved
      exact hout
    exact hcoming.waits htracked hadd hx hout' hin
  | here ev =>
    obtain ⟨w, hw, hs⟩ := bind_ok hs
    obtain rfl := Except.ok.inj hs
    exact ht.waits h.tracked hg.2 hw hout hin
  | run r =>
    obtain ⟨⟨i, f⟩, xs, hxs, -, -, hv⟩ := run_inv h hg hs
    cases f with
    | add p =>
      have hp : p ∈ adds s.waiting := by
        refine mem_adds.mpr ⟨i, ?_⟩
        unfold waiting
        rw [hxs]
        exact List.mem_cons_self
      have hguard : timers.guard s.timerqueue_ (.add p r) := ⟨h.queued p hp, h.inLoop hg.1⟩
      exact ht.waits h.tracked hguard hv hout hin
    | del v =>
      have hguard : timers.guard s.timerqueue_ (.del v) := h.inLoop hg.1
      exact ht.waits h.tracked hguard hv hout hin
    | other =>
      rw [← Except.ok.inj hv] at hin
      exact absurd hin hout

/-- The functor at the place `n` of the pushed ones adds the timer `t`. -/
structure Behind (s : TimerLoop ι) (n : ℕ) (i : ι) (t : TimeId) : Prop where
  linked : s.Linked
  coming : s.timerqueue_.Coming t
  pushed : s.threads.pushed[n]? = some (i, .add t.own_timenode_)
  added : n < s.threads.executed.length → t.key ∈ s.timerqueue_.added

omit [DecidableEq ι] in
theorem pushed_at {x : ι × TimerCall} (hpre : s.threads.pushed <+: u.threads.pushed)
    (hx : s.threads.pushed[n]? = some x) : u.threads.pushed[n]? = some x := by
  obtain ⟨rest, hrest⟩ := hpre
  obtain ⟨hlt, -⟩ := List.getElem?_eq_some_iff.mp hx
  rw [← hrest, List.getElem?_append_left hlt, hx]

theorem Behind.step (h : s.Behind n i t) (hg : timerLoop.guard s e) (hs : timerLoop.step s e = .ok u) :
    u.Behind n i t := by
  obtain ⟨hpre, hrun⟩ := step_functors h.linked hg hs
  have hkept : t.key ∈ s.timerqueue_.added → t.key ∈ u.timerqueue_.added := by
    intro hin
    refine step_timers h.linked hg hs (J := fun a => t.key ∈ a.added) hin ?_
    intro a b ev ha _ hsa
    exact (logs_grow hsa).1.subset ha
  refine ⟨shows_looper.keep h.linked hg hs, coming_step h.linked h.coming hg hs, pushed_at hpre h.pushed,
    fun hlt => ?_⟩
  rcases hrun with hsame | ⟨r, x, hmore, hx, hwaits, hpc, hstep⟩
  · rw [hsame] at hlt
    exact hkept (h.added hlt)
  · rw [hmore, List.length_append, List.length_singleton, Nat.lt_succ_iff_lt_or_eq] at hlt
    rcases hlt with hlt | rfl
    · exact hkept (h.added hlt)
    · -- the functor is run now
      rw [h.pushed, Option.some.injEq] at hx
      subst hx
      have hguard : timers.guard s.timerqueue_ (.add t.own_timenode_ r) :=
        ⟨h.linked.queued _ (mem_adds.mpr ⟨i, hwaits⟩), h.linked.inLoop hpc⟩
      exact ((h.coming.step h.linked.tracked hguard hstep).2 rfl).1

/-- Behind it, at the place `m`, is a functor that cancels `t`. -/
structure Doomed (s : TimerLoop ι) (n m : ℕ) (i j : ι) (t : TimeId) : Prop extends Behind s n i t where
  lt : n < m
  cancel : s.threads.pushed[m]? = some (j, .del t)
  final : m < s.threads.executed.length → ∃ c, s.timerqueue_.Over t c

theorem over_step {c : ℕ} (h : s.Linked) (hover : s.timerqueue_.Over t c) (hg : timerLoop.guard s e)
    (hs : timerLoop.step s e = .ok u) : u.timerqueue_.Over t c := by
  refine step_timers h hg hs (J := fun a => a.Over t c) hover ?_
  intro a b ev ha hga hsa
  exact ha.step hga hsa

theorem Doomed.step (h : s.Doomed n m i j t) (hg : timerLoop.guard s e) (hs : timerLoop.step s e = .ok u) :
    u.Doomed n m i j t := by
  obtain ⟨hpre, hrun⟩ := step_functors h.linked hg hs
  refine ⟨h.toBehind.step hg hs, h.lt, pushed_at hpre h.cancel, fun hlt => ?_⟩
  have hkept : (∃ c, s.timerqueue_.Over t c) → ∃ c, u.timerqueue_.Over t c := by
    rintro ⟨c, hover⟩
    exact ⟨c, over_step h.linked hover hg hs⟩
  rcases hrun with hsame | ⟨r, x, hmore, hx, -, hpc, hstep⟩
  · rw [hsame] at hlt
    exact hkept (h.final hlt)
  · rw [hmore, List.length_append, List.length_singleton, Nat.lt_succ_iff_lt_or_eq] at hlt
    rcases hlt with hlt | rfl
    · exact hkept (h.final hlt)
    · -- the timer was added before
      rw [h.cancel, Option.some.injEq] at hx
      subst hx
      exact ⟨_, h.linked.tracked.over (h.added h.lt) (h.linked.inLoop hpc) hstep⟩

omit [DecidableEq ι] in
theorem Linked.executed_le (h : s.Linked) : s.threads.executed.length ≤ s.threads.pushed.length := by
  rw [← h.queue.order, List.length_append, List.length_append]
  omega

/-- A call that has constructed the timer hands it over. -/
theorem behind_handOver (h : s.Linked) (hmade : s.newnode i = some t.own_timenode_)
    (ht : (s.timerqueue_.nodeOf t).isSome = true) (hr : timerLoop.Run s [.handOver i] u) :
    u.Behind s.threads.pushed.length i t := by
  obtain _ | ⟨hg, hs, _ | _⟩ := hr
  have hlinked := shows_looper.keep h hg hs
  obtain ⟨n, hn⟩ := Option.isSome_iff_exists.mp ht
  have hcoming : s.timerqueue_.Coming t :=
    .inr ⟨_, _, (Timers.stage_some hn).trans (Timers.stageOf_pending (h.made i _ hmade).1)⟩
  unfold timerLoop at hs
  dsimp only at hs
  rw [hmade] at hs
  obtain ⟨l, hl, hs⟩ := bind_ok hs
  obtain rfl := Except.ok.inj hs
  cases hl
  refine ⟨hlinked, hcoming, List.getElem?_concat_length .., fun hlt => ?_⟩
  have hle : s.threads.executed.length ≤ s.threads.pushed.length := h.executed_le
  exact absurd hlt (not_lt.mpr hle)

theorem Behind.cancel (h : s.Behind n i t) (hr : timerLoop.Run s [.cancel j t] u) :
    u.Doomed n s.threads.pushed.length i j t ∧ u.threads.pushed.length = s.threads.pushed.length + 1 := by
  obtain _ | ⟨hg, hs, _ | _⟩ := hr
  have hbehind := h.step hg hs
  unfold timerLoop at hs
  obtain ⟨l, hl, hs⟩ := bind_ok hs
  obtain rfl := Except.ok.inj hs
  cases hl
  obtain ⟨hlt, -⟩ := List.getElem?_eq_some_iff.mp h.pushed
  refine ⟨⟨hbehind, hlt, List.getElem?_concat_length .., fun hran => ?_⟩, List.length_append⟩
  have hle : s.threads.executed.length ≤ s.threads.pushed.length := h.linked.executed_le
  exact absurd hran (not_lt.mpr hle)

/-- The timer `t` is over: it does not wait, and no batch runs it any more. -/
structure Ended (s : TimerLoop ι) (t : TimeId) : Prop where
  added : t.key ∈ s.timerqueue_.added
  not_waiting : ∀ {es : List (TimerLoopEvent ι)} {u : TimerLoop ι}, timerLoop.Run s es u →
    t.key ∉ u.timerqueue_.queue.indexlist_
  not_run : ∀ {es es' : List (TimerLoopEvent ι)} {u v : TimerLoop ι}, timerLoop.Run s es u →
    u.timerqueue_.batch = none → timerLoop.Run u es' v →
      v.timerqueue_.ran.count t.key = u.timerqueue_.ran.count t.key

theorem ended_of_over {c : ℕ} (h : s.Linked) (hover : s.timerqueue_.Over t c) : s.Ended t := by
  have hkeep : ∀ {es : List (TimerLoopEvent ι)} {u : TimerLoop ι}, timerLoop.Run s es u →
      u.Linked ∧ u.timerqueue_.Over t c := by
    intro es u hr
    refine hr.invariant (I := fun s => s.Linked ∧ s.timerqueue_.Over t c) ?_ ⟨h, hover⟩
    rintro a b e ⟨ha, hova⟩ hg hs
    exact ⟨shows_looper.keep ha hg hs, over_step ha hova hg hs⟩
  refine ⟨hover.added, fun hr => (hkeep hr).2.not_waiting, fun hr hidle hr' => ?_⟩
  obtain ⟨hu, hovu⟩ := hkeep hr
  obtain ⟨-, gs, hgs⟩ := shows_timers.run hr' hu
  exact hovu.not_run hidle hgs

end TimerLoop

section

variable {ι : Type} [DecidableEq ι] {size : Int}

/-- **A cancel that is queued behind the functor of its timer is final**, once the loop has run it: the
thread `i` has constructed the timer `t` and hands it over, then `j` cancels it. -/
theorem cancel_behind_add {es₁ es₂ es₃ : List (TimerLoopEvent ι)} {s₁ s₂ s₃ s₄ s₅ : TimerLoop ι} {i j : ι}
    {t : TimeId} (h₁ : timerLoop.Run (.start size) es₁ s₁) (hmade : s₁.newnode i = some t.own_timenode_)
    (ht : (s₁.timerqueue_.nodeOf t).isSome = true) (hadd : timerLoop.Run s₁ [.handOver i] s₂)
    (h₂ : timerLoop.Run s₂ es₂ s₃) (hcancel : timerLoop.Run s₃ [.cancel j t] s₄)
    (h₃ : timerLoop.Run s₄ es₃ s₅) (hran : s₄.threads.pushed.length ≤ s₅.threads.executed.length) :
    s₅.Ended t := by
  have hbehind : s₃.Behind s₁.threads.pushed.length i t :=
    h₂.invariant (I := fun v => v.Behind s₁.threads.pushed.length i t) (fun hi hg hs => hi.step hg hs)
      (behind_handOver (run_linked h₁) hmade ht hadd)
  obtain ⟨hdoomed, hlen⟩ := hbehind.cancel hcancel
  have hend : s₅.Doomed s₁.threads.pushed.length s₃.threads.pushed.length i j t :=
    h₃.invariant (I := fun v => v.Doomed s₁.threads.pushed.length s₃.threads.pushed.length i j t)
      (fun hi hg hs => hi.step hg hs) hdoomed
  obtain ⟨c, hover⟩ := hend.final (by omega)
  exact ended_of_over hend.linked hover

/-- One thread adds a timer, and another one cancels it before the loop runs either functor. -/
def inQueue : List (TimerLoopEvent ℕ) :=
  [.loop .publish, .loop .started, .construct 0 ⟨7, 1⟩ 500 0, .handOver 0, .loop (.wake 0), .cancel 1 ⟨7, 1⟩,
    .loop .enter, .loop .init, .loop .test, .loop (.poll true), .loop .handlread, .loop .swap, .run ⟨100, 101⟩,
    .run ⟨102, 103⟩]

theorem cancel_behind_add_inQueue : ∃ s₁ s₂ s₃ s₄ s₅ : TimerLoop ℕ,
    timerLoop.Run (.start 0) (inQueue.take 3) s₁ ∧ timerLoop.Run s₁ [.handOver 0] s₂ ∧
    timerLoop.Run s₂ [.loop (.wake 0)] s₃ ∧ timerLoop.Run s₃ [.cancel 1 ⟨7, 1⟩] s₄ ∧
    timerLoop.Run s₄ (inQueue.drop 6) s₅ ∧ s₅.Ended ⟨7, 1⟩ := by
  have hmade : (timerLoop.exec (.start 0) (inQueue.take 3)).map
      (fun s => (s.newnode 0, (s.timerqueue_.nodeOf ⟨7, 1⟩).isSome)) = some (some 7, true) := by
    decide +kernel
  have hcancelled : (timerLoop.exec (.start 0) (inQueue.take 3 ++ ([.handOver 0] ++
      ([.loop (.wake 0)] ++ [.cancel 1 ⟨7, 1⟩])))).map (fun s => s.threads.pushed.length) = some 2 := by
    decide +kernel
  have hall : (timerLoop.exec (.start 0) ((inQueue.take 3 ++ ([.handOver 0] ++
      ([.loop (.wake 0)] ++ [.cancel 1 ⟨7, 1⟩]))) ++ inQueue.drop 6)).map
        (fun s => s.threads.executed.length) = some 2 := by
    decide +kernel
  obtain ⟨s₁, h₁, hview⟩ := timerLoop.exec_map_iff.mp hmade
  obtain ⟨s₄, h₄, hpushed⟩ := timerLoop.exec_map_iff.mp hcancelled
  obtain ⟨s₅, h₅, hexecuted⟩ := timerLoop.exec_map_iff.mp hall
  obtain ⟨t₁, h₁', h₄'⟩ := h₄.split
  obtain rfl := h₁.unique h₁'
  obtain ⟨s₂, h₂, h₄'⟩ := h₄'.split
  obtain ⟨s₃, h₃, h₄'⟩ := h₄'.split
  obtain ⟨t₄, h₄'', h₅'⟩ := h₅.split
  obtain rfl := h₄.unique h₄''
  obtain ⟨hnew, hnode⟩ := Prod.mk.inj hview
  exact ⟨s₁, s₂, s₃, s₄, s₅, h₁, h₂, h₃, h₄', h₅',
    cancel_behind_add h₁ hnew hnode h₂ h₃ h₄' h₅' (by rw [hpushed, hexecuted])⟩

end

/-- A callback cancels the timer of a thread that has not handed it over yet. -/
def early : List (TimerLoopEvent ℕ) :=
  [.loop .publish, .loop .started, .construct 0 ⟨7, 1⟩ 500 0, .loop .enter, .loop .init, .loop .test,
    .loop (.poll false)]

end MuduoSe
