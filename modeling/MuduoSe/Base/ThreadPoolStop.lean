/-
# The end of a thread pool

`~threadPool` stores `false` to `running`, calls `notify_all` and joins the workers.

* `drained_iff`: when the joins have returned, every committed task has been run if and only if at
  the store `queue_` was no longer than the number of workers that had passed
  `while(this->running)` and not taken a task: each of these takes at most one more.
* `asleep_iff`: no worker is left among the waiters if and only if at `notify_all` no worker was
  between its test of the predicate and the waiters; the store and the notification do not take
  `mutex_`.
* `task_left`, `worker_asleep`: one worker is enough for either.

Key definitions: `Stopped`, `ThreadPool.Roused`.
Key theorems: `stopped_step`, `roused_step`, `drained_iff`, `asleep_iff`.
-/
import MuduoSe.Base.ThreadPool

namespace MuduoSe

variable {ι κ Task : Type} [Fintype ι]

/-! ### The tasks that are left -/

section

variable {s t u : ThreadPool ι κ Task}

namespace ThreadPool

/-- The pool was stopped when `s` was the state; its workers will take what they would have taken
then. -/
structure Stopped (s t : ThreadPool ι κ Task) : Prop where
  good : t.Good
  running : t.running = false
  enough : t.queue_.length ≤ Threads.count Worker.past t.worker ↔
    s.queue_.length ≤ Threads.count Worker.past s.worker

/-- A step that takes nothing, and after which as many workers are in the loop. -/
theorem Stopped.keep (h : Stopped s t) (hgood : u.Good) (hrun : u.running = t.running)
    (hqueue : u.queue_ = t.queue_)
    (hcount : Threads.count Worker.past u.worker = Threads.count Worker.past t.worker) :
    Stopped s u := by
  refine ⟨hgood, hrun.trans h.running, ?_⟩
  rw [hqueue, hcount]
  exact h.enough

variable [DecidableEq ι]

theorem past_move {i : ι} {w : Worker Task} (hw : w.past = (t.worker i).past) :
    Threads.count Worker.past (t.move i w).worker = Threads.count Worker.past t.worker :=
  Threads.count_update_same hw

end ThreadPool

open ThreadPool

variable [DecidableEq ι] [DecidableEq κ]

/-- **A worker that goes on after the store takes one task, or finds none.** -/
theorem stopped_step (h : Stopped s t) {ev : PoolEvent ι κ Task} (hg : pool.guard t ev)
    (hu : pool.step t ev = .ok u) : Stopped s u := by
  have hrun := h.running
  obtain ⟨u', hu', hgood⟩ := pool_step h.good hg
  rw [hu, Except.ok.injEq] at hu'
  subst hu'
  have hdtor : t.dtor ≠ .alive := by
    rw [Ne, ← h.good.running, hrun]
    decide
  cases ev with
  | testRunning i =>
    have hi : t.worker i = .top := hg
    cases hu
    exact h.keep hgood rfl rfl (past_move (by rw [hi, hrun]; rfl))
  | lock i =>
    cases hu
    exact h.keep hgood rfl rfl (past_move (by rcases hg.1 with hi | hi <;> rw [hi] <;> rfl))
  | predicate i =>
    have hi : t.worker i = .testing := hg
    cases hu
    exact h.keep hgood rfl rfl (past_move (by split_ifs <;> rw [hi] <;> rfl))
  | block i =>
    have hi : t.worker i = .sleepy := hg
    cases hu
    exact h.keep hgood rfl rfl (past_move (by rw [hi]; rfl))
  | spurious i =>
    have hi : t.worker i = .waiting := hg
    cases hu
    exact h.keep hgood rfl rfl (past_move (by rw [hi]; rfl))
  | take i =>
    have hi : t.worker i = .ready := hg
    have henough := h.enough
    rcases ThreadPool.take_inv hu with ⟨hqueue, rfl⟩ | ⟨task, queue, hqueue, rfl⟩
    · refine ⟨hgood, hrun, ?_⟩
      rw [← henough, hqueue]
      refine iff_of_true ?_ (Nat.zero_le _)
      show t.queue_.length ≤ _
      rw [hqueue]
      exact Nat.zero_le _
    · refine ⟨hgood, hrun, ?_⟩
      have hcount := Threads.count_update Worker.past t.worker i (.running task)
      rw [hi, show (Worker.ready : Worker Task).past.toNat = 1 from rfl,
        show (Worker.running task).past.toNat = 0 from rfl] at hcount
      rw [← henough, hqueue]
      show queue.length ≤ Threads.count _ (Function.update t.worker i (.running task)) ↔
        queue.length + 1 ≤ _
      omega
  | task i =>
    obtain ⟨task, hi, rfl⟩ := ThreadPool.task_inv hu
    exact h.keep hgood rfl rfl (past_move (by rw [hi]; rfl))
  | commit k task => exact absurd hg.1 hdtor
  | notifyOne k woken =>
    cases woken with
    | none =>
      cases hu
      exact h.keep hgood rfl rfl rfl
    | some i =>
      have hi : t.worker i = .waiting := hg.2
      cases hu
      exact h.keep hgood rfl rfl (past_move (by rw [hi]; rfl))
  | store => exact absurd hg.1 hdtor
  | notifyAll =>
    cases hu
    exact h.keep hgood rfl rfl (Threads.count_congr fun i => (t.worker i).notified_past)
  | join =>
    cases hu
    exact h.keep hgood rfl rfl rfl

/-- **When the pool completes what it has accepted.** The condition is on the state in which the
destructor stores `false` to `running`. -/
theorem drained_iff {es fs : List (PoolEvent ι κ Task)} (h : pool.Run .start es s)
    (hrun : pool.Run s (.store :: fs) t) (hjoined : t.dtor = .joined) :
    (t.executed.Perm t.accepted ∧ t.queue_ = []) ↔
      s.queue_.length ≤ Threads.count Worker.past s.worker := by
  have hstopped : Stopped s t := by
    cases hrun with
    | cons hg hs hfs =>
      refine hfs.invariant (I := Stopped s) (fun hi hg hu => stopped_step hi hg hu) ?_
      obtain ⟨u, hu, hgood⟩ := pool_step (pool_good h) hg
      rw [hs, Except.ok.injEq] at hu
      subst hu
      cases hs
      exact ⟨hgood, rfl, Iff.rfl⟩
  have hexited := hstopped.good.joined hjoined
  have htasks := hstopped.good.tasks
  have hcount : Threads.count Worker.past t.worker = 0 := by
    rw [Threads.count_eq_zero]
    intro i
    rw [hexited i]
    rfl
  simp only [hexited, Worker.taken, Finset.sum_const_zero, add_zero] at htasks
  rw [← hstopped.enough, hcount, Nat.le_zero, List.length_eq_zero_iff, ← Multiset.coe_eq_coe, ← htasks]
  constructor
  · exact fun hdone => hdone.2
  · intro hempty
    rw [hempty]
    exact ⟨(add_zero _).symm, rfl⟩

/-- The only worker is in the loop when a task is committed. -/
def oneTask : List (PoolEvent Unit Unit ℕ) :=
  [.testRunning (), .commit () 1, .notifyOne () none]

theorem drained_iff_oneTask : ∃ s t, pool.Run .start oneTask s ∧
    pool.Run s [.store, .notifyAll, .lock (), .predicate (), .take (), .task (), .testRunning (), .join] t ∧
    t.executed.Perm t.accepted ∧ t.queue_ = [] := by
  have hone : ((pool.exec .start oneTask).map fun s =>
      decide (s.queue_.length ≤ Threads.count Worker.past s.worker)) = some true := by
    decide +kernel
  have hall : ((pool.exec .start (oneTask ++ [.store, .notifyAll, .lock (), .predicate (), .take (),
      .task (), .testRunning (), .join])).map fun t => t.dtor) = some .joined := by
    decide +kernel
  obtain ⟨s, hs, henough⟩ := pool.exec_map_iff.mp hone
  obtain ⟨t, ht, hjoined⟩ := pool.exec_map_iff.mp hall
  obtain ⟨s', hs', hst⟩ := ht.split
  obtain rfl : s = s' := hs.unique hs'
  exact ⟨s, t, hs, hst, (drained_iff hs hst hjoined).mpr (of_decide_eq_true henough)⟩

/-- One worker, which has taken the first of two tasks when the pool is destroyed. -/
def twoTasks : List (PoolEvent Unit Unit ℕ) :=
  [.testRunning (), .commit () 1, .notifyOne () none, .commit () 2, .notifyOne () none, .lock (),
    .predicate (), .take (), .store, .notifyAll, .task (), .testRunning (), .join]

/-- **A committed task is never run**: the joins have returned, and it is still in `queue_`. -/
theorem task_left : ∃ t, pool.Run .start twoTasks t ∧ t.dtor = .joined ∧ t.accepted = [1, 2] ∧
    t.executed = [1] ∧ t.queue_ = [2] := by
  have hrun : ((pool.exec .start twoTasks).map fun t =>
      (t.dtor, t.accepted, t.executed, t.queue_)) = some (.joined, [1, 2], [1], [2]) := by
    decide +kernel
  obtain ⟨t, ht, hview⟩ := pool.exec_map_iff.mp hrun
  refine ⟨t, ht, ?_⟩
  simpa only [Prod.mk.injEq] using hview

end

/-! ### The workers that are left asleep -/

section

variable [DecidableEq ι] {s t : ThreadPool ι κ Task}

/-- The pool was stopped; no worker waits, or is about to. -/
structure ThreadPool.Roused (s : ThreadPool ι κ Task) : Prop where
  running : s.running = false
  roused : ∀ i, s.worker i ≠ .sleepy ∧ s.worker i ≠ .waiting

omit [Fintype ι] in
theorem ThreadPool.Roused.move (h : s.Roused) {i : ι} {w : Worker Task}
    (hw : w ≠ .sleepy ∧ w ≠ .waiting) {m : Option ι} {queue executed : List Task} :
    Roused { s.move i w with mutex_ := m, queue_ := queue, executed := executed } := by
  refine ⟨h.running, ?_⟩
  intro j
  show Function.update s.worker i w j ≠ .sleepy ∧ Function.update s.worker i w j ≠ .waiting
  by_cases hj : j = i
  · rw [hj, Function.update_self]
    exact hw
  · rw [Function.update_of_ne hj]
    exact h.roused j

variable [DecidableEq κ]

omit [Fintype ι] in
/-- **When the pool is stopped, the predicate of `wait` is true**, and no worker goes to sleep. -/
theorem roused_step (h : s.Roused) {ev : PoolEvent ι κ Task} (hg : pool.guard s ev)
    (hs : pool.step s ev = .ok t) : t.Roused := by
  cases ev with
  | testRunning i =>
    cases hs
    exact h.move (by split_ifs <;> simp)
  | lock i =>
    cases hs
    exact h.move (by simp)
  | predicate i =>
    cases hs
    rw [if_pos (.inl h.running)]
    exact h.move (by simp)
  | block i => exact absurd hg (h.roused i).1
  | spurious i => exact absurd hg (h.roused i).2
  | take i =>
    rcases ThreadPool.take_inv hs with ⟨-, rfl⟩ | ⟨task, queue, -, rfl⟩
    · exact h.move (by simp)
    · exact h.move (by simp)
  | task i =>
    obtain ⟨task, -, rfl⟩ := ThreadPool.task_inv hs
    exact h.move (by simp)
  | commit k task =>
    cases hs
    exact ⟨h.running, h.roused⟩
  | notifyOne k woken =>
    cases woken with
    | none =>
      cases hs
      exact ⟨h.running, h.roused⟩
    | some i => exact absurd hg.2 (h.roused i).2
  | store =>
    cases hs
    exact ⟨rfl, h.roused⟩
  | notifyAll =>
    cases hs
    exact ⟨h.running, fun i => Worker.notified_ne (h.roused i).1⟩
  | join =>
    cases hs
    exact ⟨h.running, h.roused⟩

/-- **When the destructor leaves no worker asleep.** The condition is on the state in which it calls
`notify_all`; no notification follows that one. -/
theorem asleep_iff {es : List (PoolEvent ι κ Task)} (h : pool.Run .start es s)
    (hg : pool.guard s .notifyAll) :
    (∀ fs u, pool.Run s (.notifyAll :: fs) u → ∀ i, u.worker i ≠ .waiting) ↔
      ∀ i, s.worker i ≠ .sleepy := by
  constructor
  · intro hall i hi
    -- The worker joins the waiters after the notification.
    have hblock : (s.worker i).notified = .sleepy := by rw [hi]; rfl
    refine hall [.block i] _ (.cons hg rfl (.single hblock rfl)) i ?_
    exact Function.update_self _ _ _
  · intro hawake fs u hrun i
    have hroused : u.Roused := by
      cases hrun with
      | cons _ hs hfs =>
        refine hfs.invariant (fun hi hg hs => roused_step hi hg hs) ?_
        cases hs
        refine ⟨?_, fun j => Worker.notified_ne (hawake j)⟩
        have hstopped : s.dtor = .stopped := hg
        rw [← Bool.not_eq_true, (pool_good h).running, hstopped]
        decide
    exact (hroused.roused i).2

/-- The only worker waits when the pool is destroyed. -/
def dozing : List (PoolEvent Unit Unit ℕ) :=
  [.testRunning (), .lock (), .predicate (), .block (), .store]

theorem asleep_iff_dozing : ∃ s, pool.Run .start dozing s ∧ s.worker () = .waiting ∧
    ∀ fs u, pool.Run s (.notifyAll :: fs) u → u.worker () ≠ .waiting := by
  have hrun : ((pool.exec .start dozing).map fun s => (s.dtor, s.worker ())) =
      some (.stopped, .waiting) := by
    decide +kernel
  obtain ⟨s, hs, hview⟩ := pool.exec_map_iff.mp hrun
  obtain ⟨hdtor, hworker⟩ := Prod.mk.inj hview
  refine ⟨s, hs, hworker, ?_⟩
  intro fs u hu
  refine (asleep_iff hs hdtor).mpr ?_ fs u hu ()
  rintro ⟨⟩
  rw [hworker]
  simp

/-- The only worker has found the predicate false; before it joins the waiters, the destructor
stores and notifies. -/
def missed : List (PoolEvent Unit Unit ℕ) :=
  [.testRunning (), .lock (), .predicate (), .store, .notifyAll, .block ()]

/-- **The worker is left asleep**: nobody will notify it, and the join does not return. -/
theorem worker_asleep : ∃ s, pool.Run .start missed s ∧ s.dtor = .notified ∧ s.running = false ∧
    s.notifying () = false ∧ s.worker () = .waiting := by
  have hrun : ((pool.exec .start missed).map fun s =>
      (s.dtor, s.running, s.notifying (), s.worker ())) = some (.notified, false, false, .waiting) := by
    decide +kernel
  obtain ⟨s, hs, hview⟩ := pool.exec_map_iff.mp hrun
  refine ⟨s, hs, ?_⟩
  simpa only [Prod.mk.injEq] using hview

end

end MuduoSe
