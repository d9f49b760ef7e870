/-
# EventLoop: a loop and the threads that call it

`net/EventLoop.h`, `net/EventLoop.cc` and `net/EventLoopThread.cc`. A `Looper` is the thread of a
loop, at some point of its code, with any number `ι` of other threads that call `runinloop` and
`quit` with the pointer that `start()` returned. Each step is one action on what the threads share:
a store to a flag, a critical section of `mutex_`, a write or a read of the eventfd.

The callbacks of other channels, and the functors, run in the loop thread: `quit()` is the only
thing they do to the loop (`runinloop` there calls its argument at once). `eventHandle_` is read by
`removeChannel` only and is left out.

Nothing here says how long the object lives: behind `loop()` a `Looper` takes calls as before, and they
come to nothing. That `threadfunc` destroys its loop there is in `TcpSend`, where it matters.

Key definitions: `EventLoop.wake`, `EventLoop.handlread`, `EventLoop.swap`, `looper`.
-/
import Mathlib.Logic.Function.Basic
import MuduoSe.Base.Buffer

namespace MuduoSe

/-- A loop, and the functors that `dopendfunc` has taken and not yet run. A functor is kept with the
thread that pushed it. -/
structure EventLoop (ι F : Type) where
  looping_ : Bool
  quit_ : Bool
  /-- The counter of the eventfd. -/
  eventfd_ : ℕ
  dopendfunc_ : Bool
  pendfunclists_ : List (ι × F)
  temp : List (ι × F)

/-- The greatest value of the counter of an eventfd. -/
def eventfdMax : ℕ := 2 ^ 64 - 2

namespace EventLoop

variable {ι F : Type}

def new : EventLoop ι F := ⟨false, false, 0, false, [], []⟩

/-- `wake`: the eventfd is non-blocking, so a write that does not fit fails. -/
def wake (l : EventLoop ι F) : EventLoop ι F :=
  { l with eventfd_ := if l.eventfd_ < eventfdMax then l.eventfd_ + 1 else l.eventfd_ }

/-- `handlread`: a read of the eventfd takes the whole counter. -/
def handlread (l : EventLoop ι F) : EventLoop ι F := { l with eventfd_ := 0 }

/-- `queueloop` up to its `wake`. -/
def push (l : EventLoop ι F) (i : ι) (f : F) : EventLoop ι F :=
  { l with pendfunclists_ := l.pendfunclists_ ++ [(i, f)] }

/-- `dopendfunc` up to its loop. -/
def swap (l : EventLoop ι F) : EventLoop ι F :=
  { l with dopendfunc_ := true, temp := l.pendfunclists_, pendfunclists_ := [] }

end EventLoop

/-- Where the thread of the loop is. -/
inductive LoopPc
  /-- In `threadfunc`, before `loop_` is set. -/
  | created
  /-- Before `loop()`. -/
  | published
  /-- In `loop()`, after `looping_.store(true)`. -/
  | entering
  /-- At `while(!quit_)`. -/
  | test
  /-- Before `poll`. -/
  | poll
  /-- At the handlers of the active channels; `wake`: that of the eventfd is still to be called. -/
  | handle (wake : Bool)
  /-- In the loop of `dopendfunc`. -/
  | pend
  /-- Behind the loop. -/
  | leaving
  | ended
  deriving DecidableEq, Repr

/-- Where another thread is. -/
inductive CallPc
  | out
  /-- In `queueloop`, before `wake`. -/
  | pushed
  /-- In `quit`, before `wake`. -/
  | quitting
  deriving DecidableEq, Repr

structure Looper (ι F : Type) where
  loop : EventLoop ι F
  pc : LoopPc
  /-- `start()` has returned. -/
  started : Bool
  thread : ι → CallPc
  /-- A call of `quit` has completed. -/
  quitDone : Bool
  /-- How many iterations of `loop` have begun. -/
  iterations : ℕ
  pushed : List (ι × F)
  executed : List (ι × F)

inductive LoopEvent (ι F : Type)
  /-- `loop_ = &loop` -/
  | publish
  /-- `start()` returns. -/
  | started
  /-- `looping_.store(true)` -/
  | enter
  /-- `quit_.store(false)` -/
  | init
  /-- `while(!quit_)` -/
  | test
  /-- `poll` returns, with the channel of the eventfd among the active ones or not. -/
  | poll (wake : Bool)
  | handlread
  /-- A callback or a functor calls `quit`. -/
  | quitHere
  | swap
  /-- The next functor. -/
  | run
  /-- The end of `dopendfunc`. -/
  | endPend
  /-- `looping_.store(false)` -/
  | leave
  /-- `queueloop` up to its `wake`. -/
  | push (i : ι) (f : F)
  /-- `quit` up to its `wake`. -/
  | quit (i : ι)
  /-- `wake`, the last step of `queueloop` and of `quit`. -/
  | wake (i : ι)

namespace Looper

variable {ι F : Type}

def start : Looper ι F := ⟨.new, .created, false, fun _ => .out, false, 0, [], []⟩

end Looper

section

variable {ι F : Type} [DecidableEq ι]

/-- The loop thread and the threads that call it. -/
def looper : System (Looper ι F) (LoopEvent ι F) Fault where
  guard s
    | .publish => s.pc = .created
    | .started => s.pc ≠ .created
    | .enter => s.pc = .published
    | .init => s.pc = .entering
    | .test => s.pc = .test
    | .poll wake => s.pc = .poll ∧ (wake = true → 0 < s.loop.eventfd_)
    | .handlread => s.pc = .handle true
    | .quitHere => s.pc = .handle true ∨ s.pc = .handle false ∨ s.pc = .pend
    | .swap => s.pc = .handle false
    | .run => s.pc = .pend ∧ s.loop.temp ≠ []
    | .endPend => s.pc = .pend ∧ s.loop.temp = []
    | .leave => s.pc = .leaving
    | .push i _ | .quit i => s.started = true ∧ s.thread i = .out
    | .wake i => s.thread i ≠ .out
  step s
    | .publish => .ok { s with pc := .published }
    | .started => .ok { s with started := true }
    | .enter => .ok { s with pc := .entering, loop := { s.loop with looping_ := true } }
    | .init => .ok { s with pc := .test, loop := { s.loop with quit_ := false } }
    | .test =>
      if s.loop.quit_ then .ok { s with pc := .leaving }
      else .ok { s with pc := .poll, iterations := s.iterations + 1 }
    | .poll wake => .ok { s with pc := .handle wake }
    | .handlread => .ok { s with pc := .handle false, loop := s.loop.handlread }
    | .quitHere => .ok { s with loop := { s.loop with quit_ := true }, quitDone := true }
    | .swap => .ok { s with pc := .pend, loop := s.loop.swap }
    | .run =>
      match s.loop.temp with
      | x :: xs => .ok { s with loop := { s.loop with temp := xs }, executed := s.executed ++ [x] }
      | [] => .error .pastEnd
    | .endPend => .ok { s with pc := .test, loop := { s.loop with dopendfunc_ := false } }
    | .leave => .ok { s with pc := .ended, loop := { s.loop with looping_ := false } }
    | .push i f =>
      .ok { s with
        loop := s.loop.push i f
        thread := Function.update s.thread i .pushed
        pushed := s.pushed ++ [(i, f)] }
    | .quit i =>
      .ok { s with
        loop := { s.loop with quit_ := true }
        thread := Function.update s.thread i .quitting }
    | .wake i =>
      .ok { s with
        loop := s.loop.wake
        thread := Function.update s.thread i .out
        quitDone := s.quitDone || s.thread i == .quitting }

instance (s : Looper ι F) : (ev : LoopEvent ι F) → Decidable (looper.guard s ev)
  | .publish | .enter | .init | .test | .handlread | .swap | .leave =>
    inferInstanceAs (Decidable (_ = _))
  | .started => inferInstanceAs (Decidable (_ ≠ _))
  | .poll _ => inferInstanceAs (Decidable (_ ∧ (_ → _)))
  | .quitHere => inferInstanceAs (Decidable (_ ∨ _ ∨ _))
  | .run => inferInstanceAs (Decidable (_ ∧ _ ≠ []))
  | .endPend => inferInstanceAs (Decidable (_ ∧ _ = []))
  | .push _ _ | .quit _ => inferInstanceAs (Decidable (_ = _ ∧ _ = _))
  | .wake _ => inferInstanceAs (Decidable (_ ≠ _))

/-! ### What a step does -/

namespace Looper

variable {s t : Looper ι F}

theorem test_inv (hs : looper.step s .test = .ok t) :
    (s.loop.quit_ = true ∧ t = { s with pc := .leaving }) ∨
      (s.loop.quit_ ≠ true ∧ t = { s with pc := .poll, iterations := s.iterations + 1 }) := by
  unfold looper at hs
  dsimp only at hs
  split_ifs at hs with hquit <;> cases hs
  · exact .inl ⟨hquit, rfl⟩
  · exact .inr ⟨hquit, rfl⟩

theorem run_inv (hg : looper.guard s .run) (hs : looper.step s .run = .ok t) :
    ∃ x xs, s.loop.temp = x :: xs ∧
      t = { s with loop := { s.loop with temp := xs }, executed := s.executed ++ [x] } := by
  obtain ⟨x, xs, hxs⟩ := List.exists_cons_of_ne_nil hg.2
  unfold looper at hs
  dsimp only at hs
  rw [hxs] at hs
  cases hs
  exact ⟨x, xs, hxs, rfl⟩

end Looper

end

end MuduoSe
