/-
# BlockingQueue

`base/blockqueue.h`: the unbounded queue, with any finite number of threads `ι`. Other than the
bounded one, `push` unlocks `mutex_` before it calls `notify_one`: in between other threads push and
pop, and threads begin to wait.

* `unbounded_fifo`: `queue_` is first in first out, and no wakeup is lost: where somebody sleeps that
  was not notified, there is for each item a thread that was, or a `push` that is about to notify one.

Key definitions: `BlockingQueue`, `blockingQueue`.
Key theorems: `BlockingQueue.Good.test`, `blockingQueue_step`, `unbounded_fifo`.
-/
import MuduoSe.Base.Buffer
import MuduoSe.Lib.Waiters

namespace MuduoSe

open Waiters

structure BlockingQueue (ι T : Type) where
  queue_ : List T
  thread : ι → Place
  pushed : List T
  popped : List T

inductive BlockingEvent (ι T : Type)
  /-- The critical section of `push`. -/
  | push (i : ι) (x : T)
  /-- `notify_one` behind it. -/
  | notify (i : ι) (wakes : Option ι)
  /-- A call of `pop`. -/
  | pop (i : ι)
  /-- The wait of a `pop` returns. -/
  | resume (i : ι)
  /-- A waiter is woken without a notification. -/
  | spurious (i : ι)

namespace BlockingQueue

variable {ι T : Type}

def start : BlockingQueue ι T := ⟨[], fun _ => .out, [], []⟩

variable [DecidableEq ι]

def move (s : BlockingQueue ι T) (i : ι) (p : Place) : BlockingQueue ι T :=
  { s with thread := Function.update s.thread i p }

/-- `push`, up to the end of its block. -/
def push (s : BlockingQueue ι T) (i : ι) (x : T) : BlockingQueue ι T :=
  { s.move i .owes with queue_ := s.queue_ ++ [x], pushed := s.pushed ++ [x] }

/-- `notify_one` -/
def notifyOne (s : BlockingQueue ι T) (i : ι) : Option ι → BlockingQueue ι T
  | some j => (s.move i .out).move j .notified
  | none => s.move i .out

/-- `pop`, from a test of its predicate on. -/
def test (s : BlockingQueue ι T) (i : ι) : BlockingQueue ι T :=
  match s.queue_ with
  | [] => s.move i .waiting
  | front :: queue => { s.move i .out with queue_ := queue, popped := s.popped ++ [front] }

/-- `wakes` is one of the waiters, and there is none if it is none. -/
def Wakes (s : BlockingQueue ι T) : Option ι → Prop
  | some j => s.thread j = .waiting
  | none => ∀ j, s.thread j ≠ .waiting

instance [Fintype ι] (s : BlockingQueue ι T) : (wakes : Option ι) → Decidable (s.Wakes wakes)
  | some _ => inferInstanceAs (Decidable (_ = _))
  | none => inferInstanceAs (Decidable (∀ _, _))

end BlockingQueue

section

variable {ι T : Type} [DecidableEq ι]

/-- The threads that call `push` and `pop`. -/
def blockingQueue : System (BlockingQueue ι T) (BlockingEvent ι T) Fault where
  guard s
    | .push i _ | .pop i => s.thread i = .out
    | .notify i wakes => s.thread i = .owes ∧ s.Wakes wakes
    | .resume i => (s.thread i).resumes = true
    | .spurious i => s.thread i = .waiting
  step s
    | .push i x => .ok (s.push i x)
    | .notify i wakes => .ok (s.notifyOne i wakes)
    | .pop i | .resume i => .ok (s.test i)
    | .spurious i => .ok (s.move i .woken)

instance [Fintype ι] (s : BlockingQueue ι T) : (ev : BlockingEvent ι T) → Decidable (blockingQueue.guard s ev)
  | .push _ _ | .pop _ | .spurious _ => inferInstanceAs (Decidable (_ = _))
  | .notify _ _ => inferInstanceAs (Decidable (_ ∧ _))
  | .resume _ => inferInstanceAs (Decidable (_ = _))

namespace BlockingQueue

variable [Fintype ι] {s t : BlockingQueue ι T} {i j : ι} {wakes : Option ι}

structure Good (s : BlockingQueue ι T) : Prop where
  order : s.popped ++ s.queue_ = s.pushed
  enough : Enough s.queue_.length s.thread

omit [DecidableEq ι] in
theorem start_good : (start : BlockingQueue ι T).Good := ⟨rfl, enough_zero⟩

theorem Good.push (h : s.Good) (hi : s.thread i = .out) (x : T) : (s.push i x).Good := by
  refine ⟨?_, ?_⟩
  · show s.popped ++ (s.queue_ ++ [x]) = s.pushed ++ [x]
    rw [← List.append_assoc, h.order]
  · refine h.enough.move (by exact nofun) ?_
    rw [hi]
    show (s.queue_ ++ [x]).length + 0 ≤ s.queue_.length + 1
    rw [List.length_append]
    exact le_rfl

theorem Good.notifyOne (h : s.Good) (hi : s.thread i = .owes) (hw : s.Wakes wakes) :
    (s.notifyOne i wakes).Good := by
  cases wakes with
  | some j => exact ⟨h.order, h.enough.deliver hi hw⟩
  | none =>
    refine ⟨h.order, enough_of_nobody fun j hj => ?_⟩
    by_cases hji : j = i
    · subst hji
      rw [show (s.notifyOne j none).thread j = .out from Function.update_self _ _ _] at hj
      cases hj
    · rw [show (s.notifyOne i none).thread j = s.thread j from Function.update_of_ne hji _ _] at hj
      exact hw j hj

/-- A `pop` at its predicate, notified or not. -/
theorem Good.test (h : s.Good) (i : ι) : (s.test i).Good := by
  have horder := h.order
  have henough := h.enough
  unfold BlockingQueue.test
  rcases hq : s.queue_ with _ | ⟨front, queue⟩
  · rw [hq] at horder
    dsimp only
    refine ⟨?_, ?_⟩
    · show s.popped ++ s.queue_ = s.pushed
      rw [hq, horder]
    · show Enough s.queue_.length _
      rw [hq]
      exact enough_zero
  · rw [hq] at horder henough
    dsimp only
    refine ⟨?_, ?_⟩
    · show s.popped ++ [front] ++ queue = s.pushed
      rw [List.append_assoc, ← horder]
      rfl
    · refine henough.move (by exact nofun) ?_
      rw [List.length_cons]
      exact Nat.add_le_add_left (Bool.toNat_le _) _

theorem Good.spurious (h : s.Good) (hi : s.thread i = .waiting) : (s.move i .woken).Good := by
  refine ⟨h.order, h.enough.move (by exact nofun) ?_⟩
  rw [hi]
  exact le_rfl

end BlockingQueue

/-- Whatever can happen next. -/
theorem blockingQueue_step [Fintype ι] {s t : BlockingQueue ι T} (h : s.Good) {ev : BlockingEvent ι T}
    (hg : blockingQueue.guard s ev) (hs : blockingQueue.step s ev = .ok t) : t.Good := by
  cases ev with
  | push i x =>
    cases hs
    exact h.push hg x
  | notify i wakes =>
    cases hs
    exact h.notifyOne hg.1 hg.2
  | pop i | resume i =>
    cases hs
    exact h.test i
  | spurious i =>
    cases hs
    exact h.spurious hg

/-- **`BlockingQueue` is a FIFO, and no wakeup is lost** between the unlock and the notification of a `push`. -/
theorem unbounded_fifo [Fintype ι] {es : List (BlockingEvent ι T)} {s : BlockingQueue ι T}
    (h : blockingQueue.Run .start es s) : s.popped ++ s.queue_ = s.pushed ∧
      ∀ i, s.thread i = .waiting → s.queue_.length ≤ Threads.count Place.answers s.thread := by
  have hgood : s.Good := h.invariant (fun hi hg hs => blockingQueue_step hi hg hs) BlockingQueue.start_good
  exact ⟨hgood.order, hgood.enough⟩

end

/-- Between the unlock and the notification of a `push` its item is taken, and another thread begins to wait. -/
def overtakenPush : List (BlockingEvent (Fin 4) ℕ) :=
  [.pop 0, .push 1 7, .pop 2, .pop 2, .push 3 8, .notify 1 (some 2)]

theorem unbounded_fifo_overtakenPush : ∃ s, blockingQueue.Run .start overtakenPush s ∧ s.thread 0 = .waiting ∧
    s.popped ++ s.queue_ = [7, 8] ∧ s.queue_.length ≤ Threads.count Place.answers s.thread := by
  have hrun : ((blockingQueue.exec .start overtakenPush).map fun s => (s.pushed, s.thread 0)) =
      some ([7, 8], .waiting) := by
    decide +kernel
  obtain ⟨s, hs, hview⟩ := blockingQueue.exec_map_iff.mp hrun
  obtain ⟨hpushed, hwaits⟩ := Prod.mk.inj hview
  obtain ⟨horder, hserved⟩ := unbounded_fifo hs
  exact ⟨s, hs, hwaits, horder.trans hpushed, hserved 0 hwaits⟩

end MuduoSe
