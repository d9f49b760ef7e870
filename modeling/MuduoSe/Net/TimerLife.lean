/-
# One timer at a time

What a timer goes through does not depend on the other timers: it is made, it waits for its
time, it is due in a batch, and it is absent again or waits for its next time (`Life.step`).
`Timers.life` is the life that the queue gives it: its node tells which timer it is and when
it is next due, the lists tell where it stands.

Not in a timer's life: the order in which the callbacks of a batch are run.

Key definitions: `Stage`, `Life`, `Life.step`, `Timers.life`.
-/
import MuduoSe.Net.TimerRuns

namespace MuduoSe

/-! ### A timer by itself -/

inductive Stage
  /-- Not made yet, finished, or cancelled. -/
  | absent
  | made (when : Time) (interval : Int)
  | waiting (expiration : Time) (interval : Int)
  | due (interval : Int)
  deriving DecidableEq, Repr

structure Life where
  stage : Stage
  /-- A cancel of it was deferred. -/
  deferred : Bool
  /-- The time of the batch that is run. -/
  batch : Option Time
  /-- How often its callback was run, one that the batch is still to run included. -/
  runs : ℕ
  deriving DecidableEq, Repr

/-- What the batch of a time leaves of a timer. -/
def Stage.afterBatch (now : Time) (deferred : Bool) : Stage → Stage
  | .due interval =>
    if 0 < interval ∧ deferred = false then .waiting (now + MS interval) interval else .absent
  | stage => stage

/-- What an event does to the timer `t`. -/
def Life.step (t : TimeId) (l : Life) : TimerEvent → Life
  | .construct u when interval => if u = t then { l with stage := .made when interval } else l
  | .other => l
  | .add p _ =>
    match l.stage with
    | .made when interval =>
      if p = t.own_timenode_ then { l with stage := .waiting when interval } else l
    | _ => l
  | .del u =>
    if u = t then
      match l.stage with
      | .waiting _ _ => { l with stage := .absent }
      | _ => { l with deferred := l.deferred || l.batch.isSome }
    else l
  | .beginRead now cut =>
    match l.stage with
    | .waiting e interval =>
      if e < cut then { l with stage := .due interval, batch := some now, runs := l.runs + 1 }
      else { l with batch := some now }
    | _ => { l with batch := some now }
  | .run => l
  | .endRead _ =>
    match l.batch with
    | some now => { l with stage := l.stage.afterBatch now l.deferred, batch := none }
    | none => l

/-! ### A timer of the queue -/

namespace Timers

/-- The node of a timer, if it is alive. -/
def nodeOf (s : Timers) (t : TimeId) : Option TimeNode :=
  s.queue.heap[t.own_timenode_]?.filter fun n => n.index_ = t.index_

/-- What a timer with this node is. -/
def stageOf (s : Timers) (p : Addr) (n : TimeNode) : Stage :=
  if p ∈ s.pending then .made n.expiration_ n.interval_
  else if p ∈ ptrs s.queue.deltimelist then if s.batch.isSome then .due n.interval_ else .absent
  else .waiting n.expiration_ n.interval_

def stage (s : Timers) (t : TimeId) : Stage :=
  match s.nodeOf t with
  | some n => s.stageOf t.own_timenode_ n
  | none => .absent

/-- How often the batch is still to run the callback of the node at an address. -/
def toRun (s : Timers) (p : Addr) : ℕ :=
  match s.batch with
  | some (_, i) => ((s.queue.deltimelist.drop i).map (·.2)).count p
  | none => 0

def runs (s : Timers) (t : TimeId) : ℕ :=
  s.ran.count t.key + if (s.nodeOf t).isSome then s.toRun t.own_timenode_ else 0

/-- What the queue makes of a timer. -/
def life (s : Timers) (t : TimeId) : Life :=
  ⟨s.stage t, t.key ∈ s.queue.waitdeltimelist, s.batch.map (·.1), s.runs t⟩

variable {s s' : Timers} {t : TimeId} {p : Addr} {n : TimeNode}

theorem nodeOf_eq_some : s.nodeOf t = some n ↔
    s.queue.heap[t.own_timenode_]? = some n ∧ n.index_ = t.index_ := by
  unfold nodeOf
  rw [Option.filter_eq_some_iff, decide_eq_true_eq]

theorem nodeOf_eq_none : s.nodeOf t = none ↔
    ∀ n : TimeNode, s.queue.heap[t.own_timenode_]? = some n → n.index_ ≠ t.index_ := by
  rw [Option.eq_none_iff_forall_ne_some]
  constructor
  · intro h n hn hi
    exact h n (nodeOf_eq_some.mpr ⟨hn, hi⟩)
  · intro h n hn
    obtain ⟨hn, hi⟩ := nodeOf_eq_some.mp hn
    exact h n hn hi

theorem nodeOf_congr (h : s'.queue.heap[t.own_timenode_]? = s.queue.heap[t.own_timenode_]?) :
    s'.nodeOf t = s.nodeOf t := by
  unfold nodeOf
  rw [h]

theorem stage_some (h : s.nodeOf t = some n) : s.stage t = s.stageOf t.own_timenode_ n := by
  unfold stage
  rw [h]

theorem stage_none (h : s.nodeOf t = none) : s.stage t = .absent := by
  unfold stage
  rw [h]

theorem runs_some (h : s.nodeOf t = some n) :
    s.runs t = s.ran.count t.key + s.toRun t.own_timenode_ := by
  unfold runs
  rw [h]
  rfl

theorem runs_none (h : s.nodeOf t = none) : s.runs t = s.ran.count t.key := by
  unfold runs
  rw [h]
  rfl

/-- A node that no entry of the batch owns is not run any more. -/
theorem toRun_out (hp : p ≠ 0) (h : p ∉ ptrs s.queue.deltimelist) : s.toRun p = 0 := by
  unfold toRun
  rcases s.batch with _ | ⟨now, i⟩
  · rfl
  · apply List.count_eq_zero_of_not_mem
    intro hin
    obtain ⟨e, he, rfl⟩ := List.mem_map.mp hin
    exact h (mem_ptrs.mpr ⟨hp, e, List.mem_of_mem_drop he, rfl⟩)

theorem toRun_idle (h : s.batch = none) : s.toRun p = 0 := by
  unfold toRun
  rw [h]

theorem runs_idle (hidle : s.batch = none) : s.runs t = s.ran.count t.key := by
  unfold runs
  rw [toRun_idle hidle, ite_self, Nat.add_zero]

theorem stageOf_congr (hp : p ∈ s'.pending ↔ p ∈ s.pending)
    (hd : p ∈ ptrs s'.queue.deltimelist ↔ p ∈ ptrs s.queue.deltimelist)
    (hb : s'.batch.isSome = s.batch.isSome) : s'.stageOf p n = s.stageOf p n := by
  unfold stageOf
  simp only [hp, hd, hb]

theorem stageOf_pending (h : p ∈ s.pending) : s.stageOf p n = .made n.expiration_ n.interval_ := by
  unfold stageOf
  rw [if_pos h]

theorem stageOf_waiting (h : p ∉ s.held) : s.stageOf p n = .waiting n.expiration_ n.interval_ := by
  unfold held at h
  rw [List.mem_append, not_or] at h
  unfold stageOf
  rw [if_neg h.2, if_neg h.1]

theorem stageOf_del (hd : p ∈ ptrs s.queue.deltimelist) (hp : p ∉ s.pending) :
    s.stageOf p n = if s.batch.isSome then .due n.interval_ else .absent := by
  unfold stageOf
  rw [if_neg hp, if_pos hd]

theorem life_eq {l : Life} (hstage : s.stage t = l.stage)
    (hdeferred : t.key ∈ s.queue.waitdeltimelist ↔ l.deferred = true)
    (hbatch : s.batch.map (·.1) = l.batch) (hruns : s.runs t = l.runs) : s.life t = l := by
  obtain ⟨stage, deferred, batch, runs⟩ := l
  unfold life
  dsimp only at hstage hdeferred hbatch hruns
  rw [hstage, hbatch, hruns, Life.mk.injEq]
  exact ⟨rfl, by rw [Bool.eq_iff_iff, decide_eq_true_eq, hdeferred], rfl, rfl⟩

theorem deferred_iff : t.key ∈ s.queue.waitdeltimelist ↔ (s.life t).deferred = true :=
  decide_eq_true_iff.symm

/-- What leaves a timer as it is. -/
theorem life_congr (hnode : s'.nodeOf t = s.nodeOf t)
    (hstage : ∀ n, s.nodeOf t = some n → s'.stageOf t.own_timenode_ n = s.stageOf t.own_timenode_ n)
    (hwait : t.key ∈ s'.queue.waitdeltimelist ↔ t.key ∈ s.queue.waitdeltimelist)
    (hbatch : s'.batch = s.batch) (hran : s'.ran = s.ran)
    (hdel : s'.queue.deltimelist = s.queue.deltimelist) : s'.life t = s.life t := by
  have htoRun : s'.toRun t.own_timenode_ = s.toRun t.own_timenode_ := by
    unfold toRun
    rw [hbatch, hdel]
  apply life_eq
  · unfold stage
    rw [hnode]
    rcases hn : s.nodeOf t with _ | n
    · exact (stage_none hn).symm
    · exact (hstage n hn).trans (stage_some hn).symm
  · exact hwait.trans deferred_iff
  · rw [hbatch]
    rfl
  · unfold runs
    rw [hnode, hran, htoRun]
    rfl

end Timers

end MuduoSe
