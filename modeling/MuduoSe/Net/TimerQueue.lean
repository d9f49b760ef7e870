/-
# TimerQueue: the timers of a loop

`net/TimerQueue.h`, `net/TimerQueue.cc` and `net/TimeId.h`. A `time_point` is its number of
nanoseconds since the epoch, the address of a `timenode` a number, and 0 the null pointer;
`heap` holds the nodes that are alive, so following any other pointer is the fault
`dangling`. A `std::set` of pairs is a `Std.ExtTreeSet` in the order of pairs, and `begin()`
its first element. The readings of `Clock::now()` are arguments, and so is the time at which
`resetfd` calls `timerfd_settime`: the `itimerspec` is relative, and counts from then.

An `Entry` owns its node: a set that drops one deletes the node, and a released entry is
one with the null pointer. `func_` is left out; what a callback does to the queue are
events of a run.

`Timers` is the queue of one loop with what is around it: nodes that were constructed and
wait for the loop to add them, the batch that `handleRead` is running, and what has
been added and run so far.

Key definitions: `TimerQueue.insert`, `TimerQueue.delTimeNodeInLoop`,
`TimerQueue.getExpired`, `TimerQueue.fflash`, `timers`.
-/
import MuduoSe.Base.Buffer

namespace MuduoSe

/-- A `timestamp1`; that it is an `int64_t` matters only to `resetfd`. -/
abbrev Time := Int

/-- When `resetfd` reads the clock, and when it then calls `timerfd_settime`. -/
structure ResetTimes where
  now : Time
  settime : Time
  deriving DecidableEq, Repr

/-- A `timenode*`. -/
abbrev Addr := ℕ

/-- The order of `std::pair`. -/
def pairCmp : Int × ℕ → Int × ℕ → Ordering := compareLex (compareOn Prod.fst) (compareOn Prod.snd)

instance : Std.TransCmp pairCmp :=
  inferInstanceAs (Std.TransCmp (compareLex (compareOn Prod.fst) (compareOn Prod.snd)))

theorem pairCmp_eq (a b : Int × ℕ) : pairCmp a b = .eq ↔ a = b := by
  simp [pairCmp, compareLex, compareOn, Ordering.then_eq_eq, Prod.ext_iff]

theorem pairCmp_lt (a b : Int × ℕ) : pairCmp a b = .lt ↔ a.1 < b.1 ∨ a.1 = b.1 ∧ a.2 < b.2 := by
  simp [pairCmp, compareLex, compareOn, Ordering.then_eq_lt, Int.compare_eq_lt, Nat.compare_eq_lt]

instance : Std.LawfulEqCmp pairCmp where
  eq_of_compare h := (pairCmp_eq _ _).mp h

/-- A `std::set` of pairs. -/
abbrev PairSet := Std.ExtTreeSet (Int × ℕ) pairCmp

/-- `std::pair<timestamp1, std::unique_ptr<timenode>>` -/
abbrev Entry := Time × Addr

/-- `std::pair<int64_t, timenode*>` -/
abbrev INDEX := Int × Addr

structure TimeId where
  own_timenode_ : Addr
  index_ : Int
  deriving DecidableEq, Repr

/-- The pair that the queue looks up for an id. -/
def TimeId.key (t : TimeId) : INDEX := (t.index_, t.own_timenode_)

structure TimeNode where
  expiration_ : Time
  interval_ : Int
  repeat_ : Bool
  index_ : Int
  deriving DecidableEq, Repr

/-- `MS(n)`: microseconds. -/
def MS (n : Int) : Time := 1000 * n

def Kmicseconds : Int := 1000000

/-- `timenode::restart`. -/
def TimeNode.restart (n : TimeNode) (now : Time) : TimeNode :=
  if n.repeat_ then { n with expiration_ := now + MS n.interval_ } else { n with expiration_ := 0 }

/-- The time of an `itimerspec`. -/
structure Timespec where
  tv_sec : Int
  tv_nsec : Int
  deriving DecidableEq, Repr

/-- `size_` and `heap` belong to all queues; `armed` is the last call of `timerfd_settime`, with
the times of its `resetfd`. -/
structure TimerQueue where
  size_ : Int
  heap : Std.ExtTreeMap Addr TimeNode compare
  list_ : PairSet
  indexlist_ : PairSet
  deltimelist : List Entry
  waitdeltimelist : PairSet
  calling : Bool
  armed : Option (ResetTimes × Timespec)
  deriving DecidableEq

namespace TimerQueue

/-- The constructor; `size` timenodes have been constructed before. -/
def new (size : Int) : TimerQueue := ⟨size, ∅, ∅, ∅, [], ∅, false, none⟩

/-- The node at an address. -/
def deref (q : TimerQueue) (p : Addr) : Res TimeNode :=
  match q.heap[p]? with
  | some n => .ok n
  | none => .error .dangling

/-- `new timenode(f, when, interval)` at the address `p`. -/
def newTimeNode (q : TimerQueue) (p : Addr) (when : Time) (interval : Int) : TimerQueue :=
  { q with
    size_ := q.size_ + 1
    heap := q.heap.insert p ⟨when, interval, 0 < interval, q.size_ + 1⟩ }

def insert (q : TimerQueue) (timer : Addr) : Res (Bool × TimerQueue) := do
  let n ← q.deref timer
  let flag := match q.list_.toList.head? with
    | none => true
    | some e => decide (n.expiration_ < e.1)
  -- If the entry is there already, `emplace` drops its own and deletes the node with it.
  let q := if (n.expiration_, timer) ∈ q.list_ then { q with heap := q.heap.erase timer }
    else { q with list_ := q.list_.insert (n.expiration_, timer) }
  let n ← q.deref timer
  return (flag, { q with indexlist_ := q.indexlist_.insert (n.index_, timer) })

/-- `resetfd(fd_, t)`. The difference is an `int64_t`, and wraps where it overflows. -/
def resetfd (q : TimerQueue) (t : Time) (r : ResetTimes) : TimerQueue :=
  let diff := ((t - r.now).bmod (2 ^ 64)).tdiv 1000
  let diff := if diff < 100 then 100 else diff
  { q with armed := some (r, ⟨diff.tdiv Kmicseconds, diff.tmod Kmicseconds * 1000⟩) }

/-- `addTimeNodeInLoop(t)`. -/
def addTimeNodeInLoop (q : TimerQueue) (t : Addr) (r : ResetTimes) : Res TimerQueue := do
  let (flag, q) ← q.insert t
  if flag then
    let n ← q.deref t
    return q.resetfd n.expiration_ r
  else return q

def delTimeNodeInLoop (q : TimerQueue) (t : TimeId) : Res TimerQueue :=
  let d := t.key
  if d ∈ q.indexlist_ then do
    let n ← q.deref d.2
    let temp := (n.expiration_, d.2)
    if temp ∈ q.list_ then
      return { q with
        heap := q.heap.erase d.2
        list_ := q.list_.erase temp
        indexlist_ := q.indexlist_.erase d }
    else .error .pastEnd
  else if q.calling then return { q with waitdeltimelist := q.waitdeltimelist.insert d }
  else return q

/-- The last loop of `getExpired`. -/
def eraseIndices : List Entry → TimerQueue → Res TimerQueue
  | [], q => .ok q
  | e :: es, q => do
    let n ← q.deref e.2
    eraseIndices es { q with indexlist_ := q.indexlist_.erase (n.index_, e.2) }

/-- Whether an entry stands before `lower_bound` of the time `now`. -/
def expired (now : Time) (e : Entry) : Bool := pairCmp e (now, 0) == .lt

/-- `deltimelist.clear()`: the nodes it still owns are deleted. -/
def clear (q : TimerQueue) : TimerQueue :=
  { q with heap := q.deltimelist.foldl (fun h e => h.erase e.2) q.heap, deltimelist := [] }

/-- `getExpired`, where `Clock::now()` returns `now`. -/
def getExpired (q : TimerQueue) (now : Time) : Res TimerQueue :=
  let q := q.clear
  let q := { q with
    deltimelist := q.list_.toList.filter (expired now)
    list_ := .ofList (q.list_.toList.filter (!expired now ·)) pairCmp }
  q.eraseIndices q.deltimelist

/-- One turn of the loop of `fflash`: the entry after it and the queue. -/
def flashEntry (now : Time) (e : Entry) (q : TimerQueue) : Res (Entry × TimerQueue) := do
  let n ← q.deref e.2
  if n.repeat_ ∧ (n.index_, e.2) ∉ q.waitdeltimelist then
    let q := { q with heap := q.heap.insert e.2 (n.restart now) }
    let (_, q) ← q.insert e.2
    return ((e.1, 0), q)
  else return (e, q)

/-- The loop of `fflash`. -/
def flashEntries (now : Time) : List Entry → TimerQueue → Res (List Entry × TimerQueue)
  | [], q => .ok ([], q)
  | e :: es, q => do
    let (e, q) ← flashEntry now e q
    let (es, q) ← flashEntries now es q
    return (e :: es, q)

/-- The expiration of the first node of `list_`, or a `timestamp1()`. -/
def earliest (q : TimerQueue) : Res Time :=
  match q.list_.toList.head? with
  | some e => do
    let n ← q.deref e.2
    return n.expiration_
  | none => return 0

/-- `fflash(now)`. -/
def fflash (q : TimerQueue) (now : Time) (r : ResetTimes) : Res TimerQueue := do
  let (es, q) ← flashEntries now q.deltimelist q
  let q := { q with deltimelist := es }
  let t ← q.earliest
  return if t ≠ 0 then q.resetfd t r else q

end TimerQueue

/-! ### Runs of a loop's timers -/

structure Timers where
  queue : TimerQueue
  /-- Constructed and handed to `runinloop`, not yet added. -/
  pending : List Addr
  /-- In `handleRead`: its `now`, and how many callbacks have been started. -/
  batch : Option (Time × ℕ)
  /-- The timers that were added. -/
  added : List INDEX
  /-- The timers whose callbacks were run. -/
  ran : List INDEX
  deriving DecidableEq

inductive TimerEvent
  /-- `addTimeNode` constructs a node at a free address; its id is `t`. -/
  | construct (t : TimeId) (when : Time) (interval : Int)
  /-- A node of another loop is constructed. -/
  | other
  /-- `addTimeNodeInLoop`. -/
  | add (t : Addr) (r : ResetTimes)
  /-- `delTimeNodeInLoop`. -/
  | del (t : TimeId)
  /-- `handleRead` up to its loop, with its two readings of the clock. -/
  | beginRead (now cut : Time)
  /-- The next callback of the batch is started. -/
  | run
  /-- The rest of `handleRead`. -/
  | endRead (r : ResetTimes)
  deriving DecidableEq, Repr

namespace Timers

def start (size : Int) : Timers := ⟨.new size, [], none, [], []⟩

/-- Code of the loop thread can run: no batch, or one of its callbacks is running. -/
def inLoop (s : Timers) : Prop := ∀ b ∈ s.batch, 0 < b.2

/-- The callback that is run next. -/
def next (s : Timers) : Option Entry := s.batch.bind fun b => s.queue.deltimelist[b.2]?

instance (s : Timers) : Decidable s.inLoop := inferInstanceAs (Decidable (∀ b ∈ s.batch, 0 < b.2))

end Timers

/-- What can happen around a queue. -/
def timers : System Timers TimerEvent Fault where
  guard s
    | .construct t _ _ =>
      t.own_timenode_ ≠ 0 ∧ t.own_timenode_ ∉ s.queue.heap ∧ t.index_ = s.queue.size_ + 1
    | .other => True
    | .add t _ => t ∈ s.pending ∧ s.inLoop
    | .del _ => s.inLoop
    | .beginRead _ _ => s.batch = none
    | .run => s.next.isSome
    | .endRead _ => s.batch.isSome ∧ s.next = none
  step s
    | .construct t when interval =>
      .ok { s with
        queue := s.queue.newTimeNode t.own_timenode_ when interval
        pending := t.own_timenode_ :: s.pending }
    | .other => .ok { s with queue := { s.queue with size_ := s.queue.size_ + 1 } }
    | .add t r => do
      let n ← s.queue.deref t
      let q ← s.queue.addTimeNodeInLoop t r
      return { s with queue := q, pending := s.pending.erase t, added := (n.index_, t) :: s.added }
    | .del t => do
      let q ← s.queue.delTimeNodeInLoop t
      return { s with queue := q }
    | .beginRead now cut => do
      let q ← s.queue.getExpired cut
      return { s with queue := { q with calling := true }, batch := some (now, 0) }
    | .run =>
      match s.batch, s.next with
      | some (now, i), some e => do
        let n ← s.queue.deref e.2
        return { s with batch := some (now, i + 1), ran := (n.index_, e.2) :: s.ran }
      | _, _ => .error .pastEnd
    | .endRead r =>
      match s.batch with
      | some (now, _) => do
        let q ← { s.queue with calling := false }.fflash now r
        return { s with queue := q, batch := none }
      | none => .ok s

instance (s : Timers) : (ev : TimerEvent) → Decidable (timers.guard s ev)
  | .construct _ _ _ => inferInstanceAs (Decidable (_ ∧ _ ∧ _))
  | .other => inferInstanceAs (Decidable True)
  | .add _ _ => inferInstanceAs (Decidable (_ ∧ _))
  | .del _ => inferInstanceAs (Decidable (Timers.inLoop _))
  | .beginRead _ _ => inferInstanceAs (Decidable (_ = _))
  | .run => inferInstanceAs (Decidable (_ = _))
  | .endRead _ => inferInstanceAs (Decidable (_ ∧ _ = _))

end MuduoSe
