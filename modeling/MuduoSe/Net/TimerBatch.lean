/-
# One `handleRead`

A batch is the timers of `list_` that are due at the reading of `getExpired`. While its callbacks
are run, `deltimelist` and its nodes stay as they are, whatever the callbacks and the other threads
do to the queue (`During`); at its end each node is inserted again or left to be deleted.

* `batch_runs_due`: a batch runs the timers that are due, in their order, each once and none before
  its time; what its callbacks add waits for the next one; a timer that does not repeat is not run
  again; one that repeats and was never cancelled waits for its next time.
* `paced_iff`: `getExpired` ignores its argument and reads the clock itself, but `fflash` restarts
  from the argument. A timer that expired between the two readings comes back too early.

Key definitions: `TimerQueue.due`, `During`, `RunsDue`, `Clocked.Paced`, `Clocked.Ripe`.
Key theorems: `During.step`, `batch_runs_due`, `paced_iff`.
-/
import MuduoSe.Net.TimerArm
import MuduoSe.Net.TimerCancel

namespace MuduoSe

open TimerQueue

namespace TimerQueue

/-- The entries of `list_` that `getExpired` moves out. -/
def due (q : TimerQueue) (cut : Time) : List Entry := q.list_.toList.filter (expired cut)

/-- The timer of an entry. -/
def timerOf (q : TimerQueue) (e : Entry) : INDEX := ((q.heap[e.2]?.map TimeNode.index_).getD 0, e.2)

variable {q : TimerQueue} {held : List Addr} {cut : Time} {e : Entry}

theorem mem_due : e ∈ q.due cut ↔ e ∈ q.list_ ∧ e.1 < cut := by
  unfold due
  rw [List.mem_filter, Std.ExtTreeSet.mem_toList, expired_iff]

theorem timerOf_eq {n : TimeNode} (hn : q.heap[e.2]? = some n) : q.timerOf e = (n.index_, e.2) := by
  unfold timerOf
  rw [hn]
  rfl

theorem due_sorted (q : TimerQueue) (cut : Time) : (q.due cut).Pairwise fun e f => e.1 ≤ f.1 := by
  have hord : q.list_.toList.Pairwise fun e f => pairCmp e f = .lt := Std.ExtTreeSet.ordered_toList
  have hle : q.list_.toList.Pairwise fun e f => e.1 ≤ f.1 := by
    apply hord.imp
    intro e f hlt
    rcases (pairCmp_lt e f).mp hlt with hlt | ⟨heq, -⟩
    · exact le_of_lt hlt
    · exact le_of_eq heq
  exact hle.filter _

/-- A due entry owns a node that no one holds, and has its expiration. -/
theorem Good.due_node (h : q.Good held) (he : e ∈ q.due cut) :
    e.2 ∉ held ∧ ∃ n : TimeNode, q.heap[e.2]? = some n ∧ n.expiration_ = e.1 :=
  (h.list_iff e.1 e.2).mp (mem_due.mp he).1

theorem Good.due_nodup (h : q.Good held) (cut : Time) : ((q.due cut).map q.timerOf).Nodup := by
  have hnodes : ((q.due cut).map (·.2)).Nodup := h.nodup_nodes.sublist (List.filter_sublist.map _)
  have hsnd : ((q.due cut).map q.timerOf).map (·.2) = (q.due cut).map (·.2) := by
    rw [List.map_map]
    rfl
  exact List.Nodup.of_map (·.2) (hsnd ▸ hnodes)

end TimerQueue

/-! ### While the callbacks are run -/

/-- The rest of `handleRead`. -/
def TimerEvent.endsRead : TimerEvent → Bool
  | .endRead _ => true
  | _ => false

/-- In the batch that began in `s₀` at `now` and `cut`, `i` callbacks have been started. -/
structure During (s₀ : Timers) (now cut : Time) (i : ℕ) (s : Timers) : Prop where
  good : s.Good
  batch : s.batch = some (now, i)
  del : s.queue.deltimelist = s₀.queue.due cut
  nodes : ∀ e ∈ s₀.queue.due cut, s.queue.heap[e.2]? = s₀.queue.heap[e.2]?
  ran : s.ran = (((s₀.queue.due cut).take i).map s₀.queue.timerOf).reverse ++ s₀.ran
  added : ∃ new : List INDEX, s.added = new ++ s₀.added ∧ ∀ k ∈ new, ∀ e ∈ s₀.queue.due cut, e.2 ≠ k.2

section

variable {s₀ s s' : Timers} {now cut : Time} {i : ℕ}

/-- The nodes of a batch are held, and alive. -/
theorem During.held (h : During s₀ now cut i s) {e : Entry} (he : e ∈ s₀.queue.due cut) :
    e.2 ∈ ptrs s.queue.deltimelist ∧ ∃ n : TimeNode, s.queue.heap[e.2]? = some n := by
  have hin : e ∈ s.queue.deltimelist := h.del ▸ he
  have hptr : e.2 ∈ ptrs s.queue.deltimelist :=
    mem_ptrs.mpr ⟨h.good.full (by rw [h.batch]; rfl) e hin, e, hin, rfl⟩
  exact ⟨hptr, h.good.queue.live e.2 (List.mem_append_left _ hptr)⟩

theorem During.begin (h : s₀.Good) (hg : timers.guard s₀ (.beginRead now cut))
    (hs : timers.step s₀ (.beginRead now cut) = .ok s) : During s₀ now cut 0 s := by
  obtain ⟨hmoved, hgood⟩ := h.moved hg hs
  cases hmoved with
  | @beginRead _ _ q _ hdel hheap _ _ =>
    refine ⟨hgood, rfl, hdel, ?_, rfl, [], rfl, fun _ hk => absurd hk List.not_mem_nil⟩
    intro e he
    have hout : e.2 ∉ ptrs s₀.queue.deltimelist := fun hin =>
      (h.queue.due_node he).1 (List.mem_append_left _ hin)
    exact (hheap e.2).trans (if_neg hout)

/-- What touches neither the batch nor its nodes. -/
theorem During.frame (h : During s₀ now cut i s) (hgood : s'.Good) (hbatch : s'.batch = s.batch)
    (hdel : s'.queue.deltimelist = s.queue.deltimelist) (hran : s'.ran = s.ran)
    (hnodes : ∀ p ∈ ptrs s.queue.deltimelist, s'.queue.heap[p]? = s.queue.heap[p]?)
    (hadded : s'.added = s.added) : During s₀ now cut i s' := by
  refine ⟨hgood, hbatch.trans h.batch, hdel.trans h.del, ?_, hran.trans h.ran, hadded ▸ h.added⟩
  intro e he
  rw [hnodes e.2 (h.held he).1, h.nodes e he]

/-- One more callback. -/
theorem During.started (h : During s₀ now cut i s) (hg : timers.guard s .run)
    (hs : timers.step s .run = .ok s') : During s₀ now cut (i + 1) s' := by
  obtain ⟨hmoved, hgood⟩ := h.good.moved hg hs
  cases hmoved with
  | @run e now' i' n hb hi hn =>
    obtain ⟨rfl, rfl⟩ : now = now' ∧ i = i' := by
      rw [h.batch] at hb
      cases hb
      exact ⟨rfl, rfl⟩
    rw [h.del] at hi
    have hin : e ∈ s₀.queue.due cut := List.mem_of_getElem? hi
    have hn₀ : s₀.queue.heap[e.2]? = some n := (h.nodes e hin).symm.trans hn
    refine ⟨hgood, rfl, h.del, h.nodes, ?_, h.added⟩
    show (n.index_, e.2) :: s.ran = _
    rw [List.take_add_one, hi, List.map_append, List.reverse_append, h.ran, ← timerOf_eq hn₀]
    rfl

/-- **A callback and what else happens meanwhile leave the batch alone.** -/
theorem During.step (h : During s₀ now cut i s) {ev : TimerEvent} (hg : timers.guard s ev)
    (hs : timers.step s ev = .ok s') (hev : ev.endsRead = false) : ∃ j, During s₀ now cut j s' := by
  obtain ⟨hmoved, hgood⟩ := h.good.moved hg hs
  cases hmoved with
  | @construct t when interval _ hfree _ =>
    refine ⟨i, h.frame hgood rfl rfl rfl ?_ rfl⟩
    intro p hp
    obtain ⟨n, hn⟩ := h.good.queue.live p (List.mem_append_left _ hp)
    have hne : p ≠ t.own_timenode_ := by
      intro heq
      rw [heq, hfree] at hn
      cases hn
    exact (heap_insert s.queue.heap _ _ p).trans (if_neg hne)
  | other => exact ⟨i, h.frame hgood rfl rfl rfl (fun _ _ => rfl) rfl⟩
  | @add p c n armed hp hn =>
    obtain ⟨new, hnew, hapart⟩ := h.added
    refine ⟨i, hgood, h.batch, h.del, h.nodes, h.ran, (n.index_, p) :: new, ?_, ?_⟩
    · show (n.index_, p) :: s.added = _
      rw [hnew]
      rfl
    · intro k hk e he
      rcases List.mem_cons.mp hk with rfl | hk
      · -- It was pending, and the nodes of the batch are not.
        intro heq
        have heq : e.2 = p := heq
        exact h.good.pending_out hp (heq ▸ (h.held he).1)
      · exact hapart k hk e he
  | @delWaiting t n _ _ hout =>
    refine ⟨i, h.frame hgood rfl rfl rfl ?_ rfl⟩
    intro p hp
    have hne : p ≠ t.own_timenode_ := fun heq => hout (heq ▸ List.mem_append_left _ hp)
    exact (heap_erase s.queue.heap _ p).trans (if_neg hne)
  | delOther _ => exact ⟨i, h.frame hgood rfl rfl rfl (fun _ _ => rfl) rfl⟩
  | beginRead hidle _ _ _ _ =>
    rw [h.batch] at hidle
    cases hidle
  | run _ _ _ => exact ⟨i + 1, h.started hg hs⟩
  | endRead _ _ _ => cases hev

theorem During.run (h : During s₀ now cut i s) {body : List TimerEvent} (hr : timers.Run s body s')
    (hbody : ∀ ev ∈ body, ev.endsRead = false) : ∃ j, During s₀ now cut j s' := by
  induction hr generalizing i with
  | nil => exact ⟨i, h⟩
  | cons hg hs _ ih =>
    obtain ⟨j, hj⟩ := h.step hg hs (hbody _ List.mem_cons_self)
    exact ih hj fun ev hev => hbody ev (List.mem_cons_of_mem _ hev)

/-- The callback that is started next is that of a due timer. -/
theorem During.next_due (h : During s₀ now cut i s) {e : Entry} (he : s.next = some e) :
    e ∈ s₀.queue.due cut := by
  obtain ⟨_, _, _, _, _, hi, -⟩ := h.good.run he
  exact h.del ▸ List.mem_of_getElem? hi

/-- The loop ends when all of them have been run. -/
theorem During.all (h : During s₀ now cut i s) (hend : s.next = none) :
    s.ran = ((s₀.queue.due cut).map s₀.queue.timerOf).reverse ++ s₀.ran := by
  have hlen : (s₀.queue.due cut).length ≤ i := by
    unfold Timers.next at hend
    rw [h.batch] at hend
    rw [← h.del]
    exact List.getElem?_eq_none_iff.mp hend
  rw [h.ran, List.take_of_length_le hlen]

end

/-! ### Cancels and the clock -/

theorem Life.step_deferred {l : Life} {t : TimeId} {ev : TimerEvent} (h : (l.step t ev).deferred = true) :
    l.deferred = true ∨ ev = .del t := by
  by_cases hev : ev = .del t
  · exact .inr hev
  · left
    obtain ⟨stage, deferred, batch, runs⟩ := l
    cases ev with
    | construct u when interval =>
      unfold Life.step at h
      dsimp only at h
      split_ifs at h <;> exact h
    | other => exact h
    | add p now =>
      unfold Life.step at h
      dsimp only at h
      split at h
      · split_ifs at h <;> exact h
      · exact h
    | del u =>
      have hu : u ≠ t := fun hu => hev (by rw [hu])
      unfold Life.step at h
      dsimp only at h
      rwa [if_neg hu] at h
    | beginRead now cut =>
      unfold Life.step at h
      dsimp only at h
      split at h
      · split_ifs at h <;> exact h
      · exact h
    | run => exact h
    | endRead r =>
      unfold Life.step at h
      dsimp only at h
      split at h <;> exact h

/-- A deferred cancel was executed once. -/
theorem del_of_deferred {size : Int} {es : List TimerEvent} {s : Timers}
    (h : timers.Run (.start size) es s) {t : TimeId} (ht : t.key ∈ s.queue.waitdeltimelist) :
    .del t ∈ es := by
  refine h.history (P := fun es s => t.key ∈ s.queue.waitdeltimelist → .del t ∈ es) ?_ ?_ ht
  · intro hin
    exact absurd hin Std.ExtTreeSet.not_mem_empty
  · intro es s ev s' hrun ih hg hs hin
    have hlife := (life_step (timers_tracked hrun) hg hs).2 t
    rw [Timers.deferred_iff, hlife] at hin
    rcases Life.step_deferred hin with hin | rfl
    · exact List.mem_append_left _ (ih (Timers.deferred_iff.mpr hin))
    · exact List.mem_append_right _ List.mem_cons_self

theorem clock_le {s s' : Clocked} {es : List TimerEvent} (h : clocked.Run s es s') : s.clock ≤ s'.clock := by
  induction h with
  | nil => exact le_refl _
  | cons hg hs _ ih =>
    refine le_trans ?_ ih
    rw [(clocked_ok hs).2]
    exact le_getLastD hg.2

/-! ### The whole batch -/

/-- What the batch of `s` with the readings `now` and `cut` comes to in `s'`, when `body` is what
happened between its two ends and `before` what happened before. -/
structure RunsDue (before : List TimerEvent) (s : Clocked) (now cut : Time) (body : List TimerEvent)
    (s' : Clocked) : Prop where
  /-- The due timers are those of `list_` that expire before `cut`. -/
  due_iff : ∀ e, e ∈ s.queue.due cut ↔ e ∈ s.queue.list_ ∧ e.1 < cut
  node : ∀ e ∈ s.queue.due cut, ∃ n : TimeNode, s.queue.heap[e.2]? = some n ∧ n.expiration_ = e.1
  sorted : (s.queue.due cut).Pairwise fun e f => e.1 ≤ f.1
  /-- They are run in their order, each once, and nothing else. -/
  ran : s'.state.ran = ((s.queue.due cut).map s.queue.timerOf).reverse ++ s.state.ran
  once : ((s.queue.due cut).map s.queue.timerOf).Nodup
  /-- When a callback is started, the clock has passed its timer's expiration. -/
  in_time : ∀ {first rest : List TimerEvent} {u : Clocked}, body = first ++ .run :: rest →
    clocked.Run s (.beginRead now cut :: first) u →
      ∃ e ∈ u.state.next, e ∈ s.queue.due cut ∧ e.1 < u.clock
  /-- What was added meanwhile is not run. -/
  later : ∃ new : List INDEX, s'.state.added = new ++ s.state.added ∧
    ∀ k ∈ new, k ∉ (s.queue.due cut).map s.queue.timerOf
  one_shot : ∀ e ∈ s.queue.due cut, ∀ n ∈ s.queue.heap[e.2]?, n.repeat_ = false →
    ∀ {es : List TimerEvent} {s'' : Clocked}, clocked.Run s' es s'' →
      s''.state.ran.count (s.queue.timerOf e) = s'.state.ran.count (s.queue.timerOf e)
  again : ∀ e ∈ s.queue.due cut, ∀ n ∈ s.queue.heap[e.2]?, n.repeat_ = true →
    .del ⟨e.2, n.index_⟩ ∉ before ++ body →
      s'.queue.heap[e.2]? = some { n with expiration_ := now + MS n.interval_ } ∧
        (now + MS n.interval_, e.2) ∈ s'.queue.list_

/-- The end of a batch starts no callback and adds no timer. -/
theorem During.closed {s₀ s s' : Timers} {now cut : Time} {r : ResetTimes} {i : ℕ} (h : During s₀ now cut i s)
    (hs : timers.step s (.endRead r) = .ok s') : s'.ran = s.ran ∧ s'.added = s.added := by
  obtain ⟨q, t, -, rfl, ht, -⟩ := h.good.endRead h.batch r
  rw [← Except.ok.inj (ht.symm.trans hs)]
  exact ⟨rfl, rfl⟩

/-- The end of a batch, for one of its timers that does not repeat. -/
theorem During.one_shot {s₀ s s' : Timers} {now cut : Time} {r : ResetTimes} {i : ℕ} (h : During s₀ now cut i s)
    (htracked : s.Tracked) (hg : timers.guard s (.endRead r))
    (hs : timers.step s (.endRead r) = .ok s') {e : Entry} (he : e ∈ s₀.queue.due cut) {n : TimeNode}
    (hn : s₀.queue.heap[e.2]? = some n) (hrep : n.repeat_ = false) :
    s'.Over ⟨e.2, n.index_⟩ (s'.runs ⟨e.2, n.index_⟩) ∧ s'.batch = none := by
  obtain ⟨htracked', -⟩ := life_step htracked hg hs
  obtain ⟨q, s'', hflash, rfl, hs'', -⟩ := h.good.endRead h.batch r
  obtain rfl := Except.ok.inj (hs''.symm.trans hs)
  have hptr : e.2 ∈ ptrs s.queue.deltimelist := (h.held he).1
  have hout : e.2 ∉ s.pending := fun hp => h.good.pending_out hp hptr
  have hn : s.queue.heap[e.2]? = some n := (h.nodes e he).trans hn
  have hnot : ¬TimerQueue.again { s.queue with calling := false } n e.2 := by
    intro ha
    have hrep' := ha.1
    rw [hrep] at hrep'
    cases hrep'
  obtain ⟨hn', hptr'⟩ := hflash.rest e.2 n hptr hn hnot
  refine ⟨⟨htracked', htracked'.entered e.2 n hn' hout, ?_, rfl⟩, rfl⟩
  have hnode : Timers.nodeOf { s with queue := q, batch := none } ⟨e.2, n.index_⟩ = some n :=
    Timers.nodeOf_eq_some.mpr ⟨hn', rfl⟩
  have hstage : Timers.stage { s with queue := q, batch := none } ⟨e.2, n.index_⟩ = .absent :=
    (Timers.stage_some hnode).trans (Timers.stageOf_del hptr' hout)
  unfold Life.Cancelled
  rw [show (Timers.life _ _).stage = _ from hstage]
  trivial

/-- The end of a batch, for one of its timers that is inserted again. -/
theorem During.again {s₀ s s' : Timers} {now cut : Time} {r : ResetTimes} {i : ℕ} (h : During s₀ now cut i s)
    (hs : timers.step s (.endRead r) = .ok s') {e : Entry} (he : e ∈ s₀.queue.due cut) {n : TimeNode}
    (hn : s₀.queue.heap[e.2]? = some n) (hrep : n.repeat_ = true)
    (hwait : (n.index_, e.2) ∉ s.queue.waitdeltimelist) :
    s'.queue.heap[e.2]? = some { n with expiration_ := now + MS n.interval_ } ∧
      (now + MS n.interval_, e.2) ∈ s'.queue.list_ := by
  obtain ⟨q, s'', hflash, rfl, hs'', hgood⟩ := h.good.endRead h.batch r
  obtain rfl := Except.ok.inj (hs''.symm.trans hs)
  have hptr : e.2 ∈ ptrs s.queue.deltimelist := (h.held he).1
  have hn : s.queue.heap[e.2]? = some n := (h.nodes e he).trans hn
  obtain ⟨hn', hptr'⟩ := hflash.again e.2 n hptr hn ⟨hrep, hwait⟩
  have hrestart : n.restart now = { n with expiration_ := now + MS n.interval_ } := by
    unfold TimeNode.restart
    rw [if_pos hrep]
  rw [hrestart] at hn'
  have hout : e.2 ∉ Timers.held { s with queue := q, batch := none } := by
    intro hin
    rcases List.mem_append.mp hin with hin | hin
    · exact hptr' hin
    · exact h.good.pending_out hin hptr
  exact ⟨hn', (hgood.queue.list_iff _ e.2).mpr ⟨hout, _, hn', rfl⟩⟩

theorem clocked_of_timers {s : Clocked} {ev : TimerEvent} {t : Timers} (h : timers.step s.state ev = .ok t) :
    clocked.step s ev = .ok ⟨t, ev.readings.getLastD s.clock⟩ := by
  unfold clocked
  dsimp only
  rw [h]
  rfl

/-- The rest of a batch in which nothing else happens. -/
theorem During.returns {s₀ : Timers} {now cut : Time} {r : ResetTimes} (hend : cut ≤ r.now)
    (hset : r.now ≤ r.settime) {k i : ℕ} {u : Clocked} (h : During s₀ now cut i u.state) (hc : u.clock = cut)
    (hk : i + k = (s₀.queue.due cut).length) :
    ∃ s', clocked.Run u (List.replicate k .run ++ [.endRead r]) s' := by
  induction k generalizing i u with
  | zero =>
    have hguard : timers.guard u.state (.endRead r) := by
      refine ⟨by rw [h.batch]; rfl, ?_⟩
      unfold Timers.next
      rw [h.batch, Option.bind_some, h.del]
      exact List.getElem?_eq_none_iff.mpr (le_of_eq hk.symm)
    obtain ⟨t, ht, -⟩ := timers_step h.good hguard
    refine ⟨_, .single ⟨hguard, ?_⟩ (clocked_of_timers ht)⟩
    rw [hc]
    simp [TimerEvent.readings, hend, hset, hend.trans hset]
  | succ k ih =>
    have hguard : timers.guard u.state .run := by
      show u.state.next.isSome = true
      have hlt : i < (s₀.queue.due cut).length := by omega
      unfold Timers.next
      rw [h.batch, Option.bind_some, h.del, List.getElem?_eq_getElem hlt]
      rfl
    obtain ⟨t, ht, -⟩ := timers_step h.good hguard
    obtain ⟨s', hs'⟩ := ih (u := ⟨t, u.clock⟩) (h.started hguard ht) hc (by omega)
    exact ⟨s', .cons ⟨hguard, List.pairwise_singleton _ _⟩ (clocked_of_timers ht) hs'⟩

theorem handleRead_returns {s : Clocked} (h : s.state.Good) (hidle : s.state.batch = none)
    {now cut : Time} {r : ResetTimes} (hnow : s.clock ≤ now) (hcut : now ≤ cut) (hend : cut ≤ r.now)
    (hset : r.now ≤ r.settime) :
    ∃ s', clocked.Run s (.beginRead now cut :: (List.replicate (s.queue.due cut).length .run ++
      [.endRead r])) s' := by
  have hguard : timers.guard s.state (.beginRead now cut) := hidle
  obtain ⟨t, ht, -⟩ := timers_step h hguard
  obtain ⟨s', hs'⟩ := During.returns (u := ⟨t, cut⟩) hend hset (During.begin h hguard ht) rfl (Nat.zero_add _)
  refine ⟨s', .cons ⟨hguard, ?_⟩ (clocked_of_timers ht) hs'⟩
  simp [TimerEvent.readings, hnow, hcut, hnow.trans hcut]

/-- A callback is started after the readings of its batch, hence after its timer's expiration. -/
theorem During.in_time {s₀ : Timers} {now cut : Time} {i : ℕ} {v s₂ u : Clocked}
    {first rest : List TimerEvent} (h : During s₀ now cut i v.state) (hclock : v.clock = cut)
    (hmid : clocked.Run v (first ++ .run :: rest) s₂) (hu : clocked.Run v first u)
    (hbody : ∀ ev ∈ first ++ .run :: rest, ev.endsRead = false) :
    ∃ e ∈ u.state.next, e ∈ s₀.queue.due cut ∧ e.1 < u.clock := by
  have hfirst : ∀ ev ∈ first, ev.endsRead = false := fun ev hev =>
    hbody ev (List.mem_append_left _ hev)
  obtain ⟨j, hj⟩ := h.run (clocked_run hu) hfirst
  have hnext : u.state.next.isSome = true := by
    obtain ⟨w, hw, hwrest⟩ := hmid.split
    obtain rfl := hw.unique hu
    obtain _ | ⟨hgrun, -, -⟩ := hwrest
    exact hgrun.1
  obtain ⟨e, he⟩ := Option.isSome_iff_exists.mp hnext
  have hdue := hj.next_due he
  have hlt : e.1 < v.clock := hclock ▸ (mem_due.mp hdue).2
  exact ⟨e, he, hdue, lt_of_lt_of_le hlt (clock_le hu)⟩

/-- **Each batch runs the due timers.** From any reachable state: a batch can be run to its end, and
however it is run, it is one of the timers that are due. -/
theorem batch_runs_due {size : Int} {c : Time} {es : List TimerEvent} {s : Clocked}
    (h : clocked.Run (.start size c) es s) :
    (s.state.batch = none → ∀ (now cut : Time) (r : ResetTimes), s.clock ≤ now → now ≤ cut → cut ≤ r.now →
      r.now ≤ r.settime → ∃ s', clocked.Run s (.beginRead now cut :: (List.replicate (s.queue.due cut).length .run ++
        [.endRead r])) s') ∧
    ∀ now cut r body s', (∀ ev ∈ body, TimerEvent.endsRead ev = false) →
      clocked.Run s (.beginRead now cut :: (body ++ [.endRead r])) s' → RunsDue es s now cut body s' := by
  have htracked := timers_tracked (clocked_run h)
  have hgood := htracked.good
  refine ⟨fun hidle now cut r hnow hcut hend hset => handleRead_returns hgood hidle hnow hcut hend hset, ?_⟩
  intro now cut r body s' hbody hrun
  have hrun : clocked.Run s ([.beginRead now cut] ++ (body ++ [.endRead r])) s' := hrun
  obtain ⟨s₁, hbegin, hrest⟩ := hrun.split
  obtain ⟨s₂, hmid, hlast⟩ := hrest.split
  have hduring : During s.state now cut 0 s₁.state := by
    obtain _ | ⟨hg, hs, _ | _⟩ := hbegin
    exact During.begin hgood hg.1 (clocked_ok hs).1
  obtain ⟨i, hi⟩ := hduring.run (clocked_run hmid) hbody
  obtain ⟨hg, hs⟩ : timers.guard s₂.state (.endRead r) ∧
      timers.step s₂.state (.endRead r) = .ok s'.state := by
    obtain _ | ⟨hg, hs, _ | _⟩ := hlast
    exact ⟨hg.1, (clocked_ok hs).1⟩
  have htracked₂ : s₂.state.Tracked := by
    have hall := (h.append (hbegin.append hmid))
    exact timers_tracked (clocked_run hall)
  obtain ⟨hran, hadded⟩ := hi.closed hs
  refine ⟨fun e => mem_due, ?_, due_sorted _ _, ?_, hgood.queue.due_nodup cut, ?_, ?_, ?_, ?_⟩
  · intro e he
    exact (hgood.queue.due_node he).2
  · rw [hran]
    exact hi.all hg.2
  · rintro first rest u rfl hu
    have hu : clocked.Run s ([.beginRead now cut] ++ first) u := hu
    obtain ⟨v, hv, hvu⟩ := hu.split
    obtain rfl := hv.unique hbegin
    have hclock : v.clock = cut := by
      obtain _ | ⟨-, hs, _ | _⟩ := hbegin
      exact (clocked_ok hs).2
    exact hduring.in_time hclock hmid hvu hbody
  · obtain ⟨new, hnew, hapart⟩ := hi.added
    refine ⟨new, hadded.trans hnew, ?_⟩
    intro k hk hin
    obtain ⟨e, he, rfl⟩ := List.mem_map.mp hin
    exact hapart _ hk e he rfl
  · intro e he n hn hrep es' s'' hlater
    obtain ⟨hover, hidle⟩ := hi.one_shot htracked₂ hg hs he hn hrep
    rw [timerOf_eq hn]
    exact hover.not_run hidle (clocked_run hlater)
  · intro e he n hn hrep hdel
    refine hi.again hs he hn hrep ?_
    intro hwait
    have hall : .del ⟨e.2, n.index_⟩ ∈ es ++ ([.beginRead now cut] ++ body) :=
      del_of_deferred (t := ⟨e.2, n.index_⟩) (clocked_run (h.append (hbegin.append hmid))) hwait
    apply hdel
    rcases List.mem_append.mp hall with hin | hin
    · exact List.mem_append_left _ hin
    · rcases List.mem_append.mp hin with hin | hin
      · rw [List.mem_singleton] at hin
        cases hin
      · exact List.mem_append_right _ hin

/-- Two timers that expire together. -/
def pair : List TimerEvent :=
  [.construct ⟨1, 1⟩ 5000 7, .construct ⟨2, 2⟩ 5000 0, .add 2 ⟨1000, 1001⟩, .add 1 ⟨1002, 1003⟩]

/-- In the callback of the first, a third is added that is due at once. -/
def pairBody : List TimerEvent := [.run, .construct ⟨3, 3⟩ 4000 0, .add 3 ⟨6002, 6003⟩, .run]

theorem batch_runs_due_pair : ∃ s s', clocked.Run (.start 0 1) pair s ∧
    s'.state.ran = [(2, 2), (1, 1)] ∧ s'.queue.list_.toList = [(4000, 3), (13000, 1)] ∧
    RunsDue pair s 6000 6001 pairBody s' := by
  have hpair : ((clocked.exec (.start 0 1) pair).map fun s => s.state.batch) = some none := by
    decide +kernel
  have hread : ((clocked.exec (.start 0 1)
      (pair ++ (.beginRead 6000 6001 :: (pairBody ++ [.endRead ⟨6003, 6004⟩])))).map
      fun s => (s.state.ran, s.queue.list_.toList)) = some ([(2, 2), (1, 1)], [(4000, 3), (13000, 1)]) := by
    decide +kernel
  obtain ⟨s, hs, -⟩ := clocked.exec_map_iff.mp hpair
  obtain ⟨s', hs', hview⟩ := clocked.exec_map_iff.mp hread
  obtain ⟨u, hu, hrest⟩ := hs'.split
  obtain rfl := hs.unique hu
  obtain ⟨hran, hlist⟩ := Prod.mk.inj hview
  exact ⟨s, s', hs, hran, hlist, (batch_runs_due hs).2 6000 6001 ⟨6003, 6004⟩ pairBody s' (by decide) hrest⟩

/-! ### The pace of a repeating timer -/

namespace Clocked

/-- What `handleRead` inserts again is to expire an interval after it did before, or later. -/
def Paced (s : Clocked) : TimerEvent → Prop
  | .endRead r => ∀ t, clocked.step s (.endRead r) = .ok t → ∀ e ∈ t.queue.list_,
    e ∉ s.queue.list_ → ∀ n ∈ s.queue.heap[e.2]?, n.expiration_ + MS n.interval_ ≤ e.1
  | _ => True

/-- The timers of the batch that go on had expired at the reading of `handleRead`, not only at
that of `getExpired`. -/
def Ripe (s : Clocked) : TimerEvent → Prop
  | .endRead _ => ∀ b ∈ s.state.batch, ∀ e ∈ s.queue.deltimelist, ∀ n ∈ s.queue.heap[e.2]?,
    s.queue.again n e.2 → n.expiration_ ≤ b.1
  | _ => True

instance (s : Clocked) : (ev : TimerEvent) → Decidable (s.Ripe ev)
  | .construct _ _ _ | .other | .add _ _ | .del _ | .beginRead _ _ | .run => isTrue trivial
  | .endRead _ => inferInstanceAs (Decidable (∀ b ∈ s.state.batch, ∀ e ∈ s.queue.deltimelist,
      ∀ n ∈ s.queue.heap[e.2]?, s.queue.again n e.2 → n.expiration_ ≤ b.1))

/-- **What one batch does to the pace of its timers.** -/
theorem paced_iff_ripe {s : Clocked} (h : s.state.Good) {ev : TimerEvent} (hg : clocked.guard s ev) :
    s.Paced ev ↔ s.Ripe ev := by
  cases ev with
  | endRead r =>
    obtain ⟨⟨now, i⟩, hb⟩ := Option.isSome_iff_exists.mp hg.1.1
    obtain ⟨q, s', -, rfl, hs, hmem, -⟩ := h.endRead_cases hb r
    unfold Paced Ripe
    dsimp only
    rw [clocked_of_timers hs, hb]
    simp only [Except.ok.injEq, forall_eq', Option.mem_some_iff]
    constructor
    · intro hpaced e he n hn hagain
      have hptr : e.2 ∈ ptrs s.queue.deltimelist := mem_ptrs.mpr ⟨h.queue.ne_zero hn, e, he, rfl⟩
      have hin : ((n.restart now).expiration_, e.2) ∈ q.list_ :=
        (hmem _ e.2).mpr (.inr ⟨n, hptr, hn, hagain, rfl⟩)
      have hout : ((n.restart now).expiration_, e.2) ∉ s.queue.list_ := fun hold =>
        h.apart hold he
      have hle := hpaced _ hin hout n hn
      unfold TimeNode.restart at hle
      rw [if_pos hagain.1] at hle
      dsimp only at hle
      unfold Time at *
      omega
    · intro hripe e he hout n hn
      rcases (hmem e.1 e.2).mp he with hold | ⟨m, hptr, hm, hagain, heq⟩
      · exact absurd hold hout
      · obtain rfl : m = n := Option.some.inj (hm.symm.trans hn)
        obtain ⟨-, f, hf, hfe⟩ := mem_ptrs.mp hptr
        have hle := hripe f hf m (by rw [hfe, hm]; rfl) (hfe ▸ hagain)
        rw [← heq]
        unfold TimeNode.restart
        rw [if_pos hagain.1]
        dsimp only
        unfold Time at *
        omega
  | _ => exact Iff.rfl

end Clocked

/-- **When no repeating timer comes back before its interval has passed.** In every run, each batch
keeps the pace if and only if no timer that it inserts again has expired after the reading of
`handleRead`. -/
theorem paced_iff {size : Int} {c : Time} {es : List TimerEvent}
    (hg : clocked.Always clocked.guard (.start size c) es) :
    clocked.Always Clocked.Paced (.start size c) es ↔ clocked.Always Clocked.Ripe (.start size c) es := by
  refine System.always_congr (I := fun s => s.state.Good) (G := clocked.guard) ?_ ?_ (Timers.start_good size) hg
  · intro s t ev h hg _ hs
    exact (h.moved hg.1 (clocked_ok hs).1).2
  · intro s ev h hg
    exact Clocked.paced_iff_ripe h hg

theorem paced_iff_beat : clocked.Always Clocked.Paced (.start 0 1)
    [.construct ⟨1, 1⟩ 5000 7, .add 1 ⟨1000, 1001⟩, .beginRead 6000 6001, .run, .endRead ⟨6002, 6003⟩,
      .beginRead 13001 13002, .run, .endRead ⟨13003, 13004⟩] :=
  (paced_iff (by decide +kernel)).mpr (by decide +kernel)

/-- A timer for every 7 microseconds that expires between the two readings: it is inserted again for
13000 instead of 13500 or later. -/
theorem not_paced : ¬∀ (size : Int) (c : Time) (es : List TimerEvent),
    clocked.Always clocked.guard (.start size c) es → clocked.Always Clocked.Paced (.start size c) es := by
  intro h
  have hrun : ((clocked.exec (.start 0 1)
      [.construct ⟨1, 1⟩ 6500 7, .add 1 ⟨1000, 1001⟩, .beginRead 6000 7000, .run]).map
      fun s => decide (clocked.guard s (.endRead ⟨7001, 7002⟩) ∧ ¬s.Ripe (.endRead ⟨7001, 7002⟩))) = some true := by
    decide +kernel
  obtain ⟨s, hs, hview⟩ := clocked.exec_map_iff.mp hrun
  obtain ⟨hg, hripe⟩ := of_decide_eq_true hview
  have hpaced := h 0 1 ([.construct ⟨1, 1⟩ 6500 7, .add 1 ⟨1000, 1001⟩, .beginRead 6000 7000, .run] ++
    [.endRead ⟨7001, 7002⟩]) (by decide +kernel)
  rw [hs.always_snoc] at hpaced
  exact hripe ((Clocked.paced_iff_ripe (timers_good (clocked_run hs)) hg).mp hpaced.2)

end MuduoSe
