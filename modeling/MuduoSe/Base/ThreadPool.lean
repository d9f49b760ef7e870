/-
# threadPool

`base/threadpool.h` and `base/threadpool.cc`: a pool after `start()`, with any finite number of
workers `ι`, any number of threads `κ` that call `commit`, and the thread that destroys the pool. A
step is one action on what they share; a worker's critical section is several, from taking `mutex_`
on, since the destructor does not take it.

`condition_.wait` with a predicate tests it while it holds `mutex_`; if it is false, the worker
joins the waiters and releases `mutex_` at once. A waiter can be woken without a notification. The
destructor runs after the calls of `commit` have returned, as the C++ object requires.

A `Task` is what a future waits for. What `commit` throws when the pool does not run is left out: no
call of it begins after the destructor.

Key definitions: `Worker`, `ThreadPool`, `pool`.
Key theorems: `pool_step`, `pool_good`.
-/
import Mathlib.Algebra.Order.Group.Multiset
import MuduoSe.Base.Buffer
import MuduoSe.Lib.Threads

namespace MuduoSe

/-- Where a worker is. -/
inductive Worker (Task : Type)
  /-- At `while(this->running)`. -/
  | top
  /-- At the lock. -/
  | locking
  /-- At the predicate, with `mutex_`. -/
  | testing
  /-- The predicate was false; it has `mutex_` and is about to join the waiters. -/
  | sleepy
  | waiting
  /-- No longer among the waiters, without `mutex_`. -/
  | woken
  /-- The predicate was true; it has `mutex_`. -/
  | ready
  /-- At `task()`. -/
  | running (task : Task)
  | exited
  deriving DecidableEq, Repr

namespace Worker

variable {Task : Type}

/-- It has `mutex_`. -/
def holds : Worker Task → Bool
  | .testing | .sleepy | .ready => true
  | _ => false

/-- It has passed `while(this->running)`, and has not taken a task. -/
def past : Worker Task → Bool
  | .locking | .testing | .sleepy | .waiting | .woken | .ready => true
  | _ => false

/-- The task that it has taken. -/
def taken : Worker Task → Multiset Task
  | .running task => {task}
  | _ => 0

/-- It is at `task()`. -/
def busy : Worker Task → Bool
  | .running _ => true
  | _ => false

/-- What `notify_all` makes of it. -/
def notified : Worker Task → Worker Task
  | .waiting => .woken
  | w => w

theorem notified_holds (w : Worker Task) : w.notified.holds = w.holds := by
  cases w <;> rfl

theorem notified_past (w : Worker Task) : w.notified.past = w.past := by
  cases w <;> rfl

theorem notified_ne {w : Worker Task} (hw : w ≠ .sleepy) : w.notified ≠ .sleepy ∧ w.notified ≠ .waiting := by
  cases w with
  | sleepy => exact absurd rfl hw
  | _ => simp [notified]

theorem notified_taken (w : Worker Task) : w.notified.taken = w.taken := by
  cases w <;> rfl

end Worker

/-- Where the destructor is. -/
inductive Dtor
  | alive
  /-- `running` is false. -/
  | stopped
  /-- `notify_all` was called. -/
  | notified
  | joined
  deriving DecidableEq, Repr

structure ThreadPool (ι κ Task : Type) where
  running : Bool
  queue_ : List Task
  /-- The worker that holds `mutex_`; the other critical sections are one step. -/
  mutex_ : Option ι
  worker : ι → Worker Task
  /-- A call of `commit` has yet to notify. -/
  notifying : κ → Bool
  dtor : Dtor
  /-- What was committed, and what was run. -/
  accepted : List Task
  executed : List Task

inductive PoolEvent (ι κ Task : Type)
  /-- `while(this->running)` -/
  | testRunning (i : ι)
  | lock (i : ι)
  /-- The predicate of `wait`. -/
  | predicate (i : ι)
  /-- The worker joins the waiters. -/
  | block (i : ι)
  /-- A waiter is woken without a notification. -/
  | spurious (i : ι)
  /-- The rest of the critical section. -/
  | take (i : ι)
  /-- `task()` -/
  | task (i : ι)
  /-- `commit` up to its `notify_one`. -/
  | commit (k : κ) (task : Task)
  /-- `condition_.notify_one()`, with the worker that it wakes. -/
  | notifyOne (k : κ) (woken : Option ι)
  /-- `running.store(false)` -/
  | store
  /-- `condition_.notify_all()` -/
  | notifyAll
  /-- The last `join` returns. -/
  | join

namespace ThreadPool

variable {ι κ Task : Type}

/-- The pool after `start()`. -/
def start : ThreadPool ι κ Task := ⟨true, [], none, fun _ => .top, fun _ => false, .alive, [], []⟩

/-- Worker `i` goes on to `w`. -/
def move [DecidableEq ι] (s : ThreadPool ι κ Task) (i : ι) (w : Worker Task) : ThreadPool ι κ Task :=
  { s with worker := Function.update s.worker i w }

end ThreadPool

section

variable {ι κ Task : Type} [DecidableEq ι]

/-- The workers, the callers of `commit` and the destructor. -/
def pool [DecidableEq κ] : System (ThreadPool ι κ Task) (PoolEvent ι κ Task) Fault where
  guard s
    | .testRunning i => s.worker i = .top
    | .lock i => (s.worker i = .locking ∨ s.worker i = .woken) ∧ s.mutex_ = none
    | .predicate i => s.worker i = .testing
    | .block i => s.worker i = .sleepy
    | .spurious i => s.worker i = .waiting
    | .take i => s.worker i = .ready
    | .task i => (s.worker i).busy = true
    | .commit k _ => s.dtor = .alive ∧ s.notifying k = false ∧ s.mutex_ = none
    | .notifyOne k woken => s.notifying k = true ∧
      match woken with
      | some i => s.worker i = .waiting
      | none => ∀ i, s.worker i ≠ .waiting
    | .store => s.dtor = .alive ∧ ∀ k, s.notifying k = false
    | .notifyAll => s.dtor = .stopped
    | .join => s.dtor = .notified ∧ ∀ i, s.worker i = .exited
  step s
    | .testRunning i => .ok (s.move i (if s.running then .locking else .exited))
    | .lock i => .ok { s.move i .testing with mutex_ := some i }
    | .predicate i =>
      .ok (s.move i (if s.running = false ∨ s.queue_ ≠ [] then .ready else .sleepy))
    | .block i => .ok { s.move i .waiting with mutex_ := none }
    | .spurious i => .ok (s.move i .woken)
    | .take i =>
      if s.running = false ∧ s.queue_ = [] then .ok { s.move i .exited with mutex_ := none }
      else
        match s.queue_ with
        | task :: queue => .ok { s.move i (.running task) with mutex_ := none, queue_ := queue }
        | [] => .error .pastEnd
    | .task i =>
      match s.worker i with
      | .running task => .ok { s.move i .top with executed := s.executed ++ [task] }
      | _ => .error .pastEnd
    | .commit k task =>
      .ok { s with
        queue_ := s.queue_ ++ [task]
        notifying := Function.update s.notifying k true
        accepted := s.accepted ++ [task] }
    | .notifyOne k woken =>
      let s := { s with notifying := Function.update s.notifying k false }
      match woken with
      | some i => .ok (s.move i .woken)
      | none => .ok s
    | .store => .ok { s with running := false, dtor := .stopped }
    | .notifyAll => .ok { s with worker := fun i => (s.worker i).notified, dtor := .notified }
    | .join => .ok { s with dtor := .joined }

instance [DecidableEq κ] [Fintype ι] [Fintype κ] [DecidableEq Task] (s : ThreadPool ι κ Task) :
    (ev : PoolEvent ι κ Task) → Decidable (pool.guard s ev)
  | .testRunning _ | .predicate _ | .block _ | .spurious _ | .take _ | .task _ | .notifyAll =>
    inferInstanceAs (Decidable (_ = _))
  | .lock _ => inferInstanceAs (Decidable ((_ ∨ _) ∧ _ = none))
  | .commit _ _ => inferInstanceAs (Decidable (_ ∧ _ ∧ _ = none))
  | .notifyOne _ (some _) => inferInstanceAs (Decidable (_ ∧ _))
  | .notifyOne _ none | .store | .join => inferInstanceAs (Decidable (_ ∧ ∀ _, _))

/-! ### What a step does -/

namespace ThreadPool

variable [DecidableEq κ] {s t : ThreadPool ι κ Task} {i : ι}

theorem take_inv (hs : pool.step s (.take i) = .ok t) :
    (s.queue_ = [] ∧ t = { s.move i .exited with mutex_ := none }) ∨
      ∃ task queue, s.queue_ = task :: queue ∧
        t = { s.move i (.running task) with mutex_ := none, queue_ := queue } := by
  unfold pool at hs
  dsimp only at hs
  split_ifs at hs with hstop
  · cases hs
    exact .inl ⟨hstop.2, rfl⟩
  · split at hs <;> rename_i hqueue <;> cases hs
    exact .inr ⟨_, _, hqueue, rfl⟩

theorem task_inv (hs : pool.step s (.task i) = .ok t) :
    ∃ task, s.worker i = .running task ∧
      t = { s.move i .top with executed := s.executed ++ [task] } := by
  unfold pool at hs
  dsimp only at hs
  split at hs <;> rename_i hi <;> cases hs
  exact ⟨_, hi, rfl⟩

end ThreadPool

/-! ### The lock -/

/-- `mutex_` is held by the one worker that is in its critical section. -/
def Mutexed (m : Option ι) (worker : ι → Worker Task) : Prop :=
  ∀ i, m = some i ↔ (worker i).holds = true

namespace Mutexed

variable {m : Option ι} {worker : ι → Worker Task} {i : ι} {w : Worker Task}

theorem same (h : Mutexed m worker) (hw : w.holds = (worker i).holds) :
    Mutexed m (Function.update worker i w) := by
  intro j
  rw [h j]
  by_cases hj : j = i
  · rw [hj, Function.update_self, hw]
  · rw [Function.update_of_ne hj]

theorem acquire (h : Mutexed none worker) (hw : w.holds = true) :
    Mutexed (some i) (Function.update worker i w) := by
  intro j
  by_cases hj : j = i
  · rw [hj, Function.update_self]
    exact iff_of_true rfl hw
  · rw [Function.update_of_ne hj, ← h j]
    simp [Ne.symm hj]

theorem release (h : Mutexed m worker) (hi : (worker i).holds = true) (hw : w.holds = false) :
    Mutexed none (Function.update worker i w) := by
  intro j
  by_cases hj : j = i
  · rw [hj, Function.update_self, hw]
    simp
  · rw [Function.update_of_ne hj, ← h j, (h i).mpr hi]
    simp [Ne.symm hj]

end Mutexed

/-! ### Every step -/

variable [Fintype ι]

namespace ThreadPool

/-- What holds of a pool at any time. -/
structure Good (s : ThreadPool ι κ Task) : Prop where
  mutex : Mutexed s.mutex_ s.worker
  /-- A worker that is to take a task finds one, unless the pool was stopped. -/
  ready : ∀ i, s.worker i = .ready → s.running = false ∨ s.queue_ ≠ []
  running : s.running = true ↔ s.dtor = .alive
  /-- A committed task was run, was taken by a worker, or is in `queue_`. -/
  tasks : (s.executed : Multiset Task) + ∑ i, (s.worker i).taken + s.queue_ = s.accepted
  joined : s.dtor = .joined → ∀ i, s.worker i = .exited

variable {s : ThreadPool ι κ Task} {i : ι} {w : Worker Task}

/-- A step of one worker. -/
theorem Good.move (h : s.Good) {m : Option ι} {queue executed : List Task} (hi : s.worker i ≠ .exited)
    (hmutex : Mutexed m (Function.update s.worker i w))
    (hready : ∀ j, Function.update s.worker i w j = .ready → s.running = false ∨ queue ≠ [])
    (htasks : (executed : Multiset Task) + w.taken + queue =
      (s.executed : Multiset Task) + (s.worker i).taken + s.queue_) :
    Good { s.move i w with mutex_ := m, queue_ := queue, executed := executed } := by
  refine ⟨hmutex, hready, h.running, ?_, ?_⟩
  · have hsum := Threads.sum_update Worker.taken s.worker i w
    have hall := h.tasks
    dsimp only [ThreadPool.move]
    apply add_right_cancel (b := (s.worker i).taken)
    calc (executed : Multiset Task) + ∑ j, (Function.update s.worker i w j).taken + queue +
          (s.worker i).taken
        = executed + queue + (∑ j, (Function.update s.worker i w j).taken + (s.worker i).taken) := by
          abel
      _ = (executed + w.taken + queue) + ∑ j, (s.worker j).taken := by
          rw [hsum]
          abel
      _ = s.executed + ∑ j, (s.worker j).taken + s.queue_ + (s.worker i).taken := by
          rw [htasks]
          abel
      _ = s.accepted + (s.worker i).taken := by
          rw [hall]
  · intro hj
    exact absurd (h.joined hj i) hi

/-- A step of one worker that keeps the lock and takes or runs nothing. -/
theorem Good.go (h : s.Good) (hi : s.worker i ≠ .exited) (hholds : w.holds = (s.worker i).holds)
    (htaken : w.taken = (s.worker i).taken) (hready : w = .ready → s.running = false ∨ s.queue_ ≠ []) :
    (s.move i w).Good := by
  apply h.move hi (h.mutex.same hholds)
  · intro j hj
    by_cases hji : j = i
    · rw [hji, Function.update_self] at hj
      exact hready hj
    · rw [Function.update_of_ne hji] at hj
      exact h.ready j hj
  · rw [htaken]

/-- No other worker is in its critical section. -/
theorem Good.alone (h : s.Good) (hi : (s.worker i).holds = true) (hw : w ≠ .ready) (j : ι) :
    Function.update s.worker i w j ≠ .ready := by
  by_cases hji : j = i
  · rw [hji, Function.update_self]
    exact hw
  · rw [Function.update_of_ne hji]
    intro hj
    have hmi := (h.mutex i).mpr hi
    have hmj := (h.mutex j).mpr (by rw [hj]; rfl)
    rw [hmi] at hmj
    exact hji (Option.some.inj hmj).symm

end ThreadPool

variable [DecidableEq κ]

/-- **Whatever can happen next, the code goes on**: no worker finds `queue_` empty. -/
theorem pool_step {s : ThreadPool ι κ Task} (h : s.Good) {ev : PoolEvent ι κ Task}
    (hg : pool.guard s ev) : ∃ t, pool.step s ev = .ok t ∧ t.Good := by
  cases ev with
  | testRunning i =>
    have hi : s.worker i = .top := hg
    refine ⟨_, rfl, h.go (by simp [hi]) ?_ ?_ ?_⟩
    · split_ifs <;> rw [hi] <;> rfl
    · split_ifs <;> rw [hi] <;> rfl
    · split_ifs <;> simp
  | lock i =>
    obtain ⟨hi, hm⟩ := hg
    have hfree : s.worker i ≠ .exited ∧ (s.worker i).taken = 0 := by
      rcases hi with hi | hi
      · simp [hi, Worker.taken]
      · simp [hi, Worker.taken]
    refine ⟨_, rfl, h.move hfree.1 (Mutexed.acquire (hm ▸ h.mutex) rfl) ?_ ?_⟩
    · intro j hj
      by_cases hji : j = i
      · rw [hji, Function.update_self] at hj
        cases hj
      · rw [Function.update_of_ne hji] at hj
        exact h.ready j hj
    · rw [hfree.2]
      rfl
  | predicate i =>
    have hi : s.worker i = .testing := hg
    refine ⟨_, rfl, h.go (by simp [hi]) ?_ ?_ ?_⟩
    · split_ifs <;> rw [hi] <;> rfl
    · split_ifs <;> rw [hi] <;> rfl
    · intro hw
      split_ifs at hw with htest
      exact htest
  | block i =>
    have hi : s.worker i = .sleepy := hg
    have hholds : (s.worker i).holds = true := by rw [hi]; rfl
    refine ⟨_, rfl, h.move (by simp [hi]) (h.mutex.release hholds rfl) ?_ ?_⟩
    · intro j hj
      exact absurd hj (h.alone hholds (by simp) j)
    · rw [hi]
      rfl
  | spurious i =>
    have hi : s.worker i = .waiting := hg
    exact ⟨_, rfl, h.go (by simp [hi]) (by rw [hi]; rfl) (by rw [hi]; rfl) (by simp)⟩
  | take i =>
    have hi : s.worker i = .ready := hg
    have hholds : (s.worker i).holds = true := by rw [hi]; rfl
    unfold pool
    dsimp only
    split_ifs with hstop
    · refine ⟨_, rfl, h.move (by simp [hi]) (h.mutex.release hholds rfl) ?_ ?_⟩
      · intro j hj
        exact absurd hj (h.alone hholds (by simp) j)
      · rw [hi]
        rfl
    · have hne : s.queue_ ≠ [] := by
        intro hempty
        rcases h.ready i hi with hrun | hne
        · exact hstop ⟨hrun, hempty⟩
        · exact hne hempty
      obtain ⟨task, queue, hqueue⟩ := List.exists_cons_of_ne_nil hne
      rw [hqueue]
      refine ⟨_, rfl, h.move (by simp [hi]) (h.mutex.release hholds rfl) ?_ ?_⟩
      · intro j hj
        exact absurd hj (h.alone hholds (by simp) j)
      · rw [hi, hqueue, ← Multiset.cons_coe, ← Multiset.singleton_add]
        show (s.executed + {task} + queue : Multiset Task) = s.executed + 0 + ({task} + queue)
        abel
  | task i =>
    have hi : ∃ task, s.worker i = .running task := by
      have hbusy : (s.worker i).busy = true := hg
      cases hw : s.worker i with
      | running task => exact ⟨task, rfl⟩
      | _ =>
        rw [hw] at hbusy
        cases hbusy
    obtain ⟨task, hi⟩ := hi
    unfold pool
    dsimp only
    rw [hi]
    refine ⟨_, rfl, h.move (by simp [hi]) (h.mutex.same (by rw [hi]; rfl)) ?_ ?_⟩
    · intro j hj
      by_cases hji : j = i
      · rw [hji, Function.update_self] at hj
        cases hj
      · rw [Function.update_of_ne hji] at hj
        exact h.ready j hj
    · rw [hi, ← Multiset.coe_add, Multiset.coe_singleton]
      show (s.executed + {task} + 0 + s.queue_ : Multiset Task) = s.executed + {task} + s.queue_
      abel
  | commit k task =>
    refine ⟨_, rfl, h.mutex, fun _ _ => .inr (by simp), h.running, ?_, h.joined⟩
    dsimp only
    rw [← Multiset.coe_add, ← Multiset.coe_add, ← h.tasks]
    abel
  | notifyOne k woken =>
    have hquiet : ThreadPool.Good { s with notifying := Function.update s.notifying k false } :=
      ⟨h.mutex, h.ready, h.running, h.tasks, h.joined⟩
    cases woken with
    | none => exact ⟨_, rfl, hquiet⟩
    | some i =>
      have hi : s.worker i = .waiting := hg.2
      exact ⟨_, rfl, hquiet.go (by simp [hi]) (by simp [hi, Worker.holds]) (by simp [hi, Worker.taken])
        (by simp)⟩
  | store =>
    refine ⟨_, rfl, h.mutex, fun _ _ => .inl rfl, by simp, h.tasks, ?_⟩
    rintro ⟨⟩
  | notifyAll =>
    have hdtor : s.dtor = .stopped := hg
    have hrun : s.running ≠ true := by rw [Ne, h.running, hdtor]; simp
    refine ⟨_, rfl, ?_, ?_, by simp [hrun], ?_, ?_⟩
    · intro i
      rw [h.mutex i, ← Worker.notified_holds]
    · exact fun _ _ => .inl (Bool.eq_false_iff.mpr hrun)
    · rw [← h.tasks]
      simp only [Worker.notified_taken]
    · rintro ⟨⟩
  | join =>
    have hrun : s.running ≠ true := by rw [Ne, h.running, hg.1]; simp
    exact ⟨_, rfl, h.mutex, h.ready, by simp [hrun], h.tasks, fun _ => hg.2⟩

omit [DecidableEq ι] [DecidableEq κ] in
theorem start_good : (ThreadPool.start : ThreadPool ι κ Task).Good := by
  refine ⟨?_, ?_, iff_of_true rfl rfl, ?_, ?_⟩
  · intro i
    simp [ThreadPool.start, Worker.holds]
  · rintro i ⟨⟩
  · simp [ThreadPool.start, Worker.taken]
  · rintro ⟨⟩

/-- What holds of every pool that runs. -/
theorem pool_good {es : List (PoolEvent ι κ Task)} {s : ThreadPool ι κ Task}
    (h : pool.Run .start es s) : s.Good := by
  apply h.invariant _ start_good
  intro s t ev hs hg ht
  obtain ⟨t', ht', hgood⟩ := pool_step hs hg
  rw [ht, Except.ok.injEq] at ht'
  exact ht' ▸ hgood

end

end MuduoSe
