/-
# BoundedBlockingQueue

`base/blockqueue.h`: a queue with any finite number of threads `ι` that call `push` and `pop`. A
critical section of `mutex_` is one step, from the lock, or from the return of a wait, to the unlock
or to the next wait: nobody else sees the queue or is in the way meanwhile. A wait tests its predicate
again after it was woken, by a notification or spuriously; `notify_one` wakes one of the waiters of
its condition if there is one.

* `bounded_fifo`: `queue_` is bounded and first in first out; and where somebody waits without having
  been notified, as many of its kind are notified as there are items, or free places.

The two kinds of waiters are treated alike: a `pop` waits on `noEmpty_` for items, a `push` on
`noFull_` for free places (`supply`).

Key definitions: `blockQueue`, `BlockQueue.supply`, `BlockQueue.Served`.
Key theorems: `Served.done`, `blockQueue_step`, `bounded_fifo`.
-/
import MuduoSe.Base.Buffer
import MuduoSe.Lib.Threads

namespace MuduoSe

/-- A call. -/
inductive Op (T : Type)
  | push (x : T)
  | pop
  deriving DecidableEq, Repr

def Op.isPop {T : Type} : Op T → Bool
  | .push _ => false
  | .pop => true

/-- Where a thread is. -/
inductive Caller (T : Type)
  | out
  /-- Among the waiters of its condition. -/
  | waiting (op : Op T)
  /-- Taken from the waiters by `notify_one`, not yet resumed. -/
  | notified (op : Op T)
  /-- Woken without a notification, not yet resumed. -/
  | woken (op : Op T)
  deriving DecidableEq, Repr

namespace Caller

variable {T : Type}

def waits (pop : Bool) : Caller T → Bool
  | .waiting op => op.isPop == pop
  | _ => false

def isNotified (pop : Bool) : Caller T → Bool
  | .notified op => op.isPop == pop
  | _ => false

/-- The call that the thread has given up to wait. -/
def waitsFor : Caller T → Option (Op T)
  | .waiting op => some op
  | _ => none

/-- What `notify_one` makes of a waiter. -/
def notify : Caller T → Caller T
  | .waiting op => .notified op
  | c => c

/-- The call that the thread resumes. -/
def resumes : Caller T → Option (Op T)
  | .notified op | .woken op => some op
  | _ => none

end Caller

structure BlockQueue (ι T : Type) where
  queue_ : List T
  maxSize_ : ℕ
  thread : ι → Caller T
  pushed : List T
  popped : List T

inductive QueueEvent (ι T : Type)
  /-- A call of `push` or `pop`; `wakes` is the waiter that it notifies. -/
  | call (i : ι) (op : Op T) (wakes : Option ι)
  /-- A wait returns. -/
  | resume (i : ι) (wakes : Option ι)
  /-- A waiter is woken without a notification. -/
  | spurious (i : ι)

namespace BlockQueue

variable {ι T : Type}

def start (maxsize : ℕ) : BlockQueue ι T := ⟨[], maxsize, fun _ => .out, [], []⟩

def full (s : BlockQueue ι T) : Bool := s.queue_.length == s.maxSize_

/-- What the calls of a kind wait for: items, or free places. -/
def supply (s : BlockQueue ι T) (pop : Bool) : ℕ :=
  if pop then s.queue_.length else s.maxSize_ - s.queue_.length

/-- The predicate of the wait is false. -/
def blocks (s : BlockQueue ι T) : Op T → Bool
  | .push _ => s.full
  | .pop => s.queue_.isEmpty

variable [DecidableEq ι]

def move (s : BlockQueue ι T) (i : ι) (c : Caller T) : BlockQueue ι T :=
  { s with thread := Function.update s.thread i c }

/-- `notify_one` -/
def notifyOne (s : BlockQueue ι T) (wakes : Option ι) : BlockQueue ι T :=
  match wakes with
  | some j => s.move j (s.thread j).notify
  | none => s

/-- The critical section of a call, from a test of its predicate on. -/
def critical (s : BlockQueue ι T) (i : ι) (op : Op T) (wakes : Option ι) : BlockQueue ι T :=
  match op with
  | .push x =>
    if s.full then s.move i (.waiting op)
    else
      let s := { s with queue_ := s.queue_ ++ [x], pushed := s.pushed ++ [x] }
      (s.move i .out).notifyOne wakes
  | .pop =>
    match s.queue_ with
    | [] => s.move i (.waiting op)
    | front :: queue =>
      let s := { s with queue_ := queue, popped := s.popped ++ [front] }
      (s.move i .out).notifyOne wakes

/-- `wakes` is a waiter of the condition that the call notifies, and there is none if it is none. A
call that waits notifies nobody. -/
def Wakes (s : BlockQueue ι T) (op : Op T) (wakes : Option ι) : Prop :=
  match wakes with
  | some j => s.blocks op = false ∧ (s.thread j).waits (!op.isPop) = true
  | none => s.blocks op = true ∨ ∀ j, (s.thread j).waits (!op.isPop) = false

instance [Fintype ι] (s : BlockQueue ι T) (op : Op T) :
    (wakes : Option ι) → Decidable (s.Wakes op wakes)
  | some _ => inferInstanceAs (Decidable (_ ∧ _))
  | none => inferInstanceAs (Decidable (_ ∨ ∀ _, _))

end BlockQueue

section

variable {ι T : Type} [DecidableEq ι]

/-- The threads that call `push` and `pop`. -/
def blockQueue : System (BlockQueue ι T) (QueueEvent ι T) Fault where
  guard s
    | .call i op wakes => s.thread i = .out ∧ s.Wakes op wakes
    | .resume i wakes => ∃ op ∈ (s.thread i).resumes, s.Wakes op wakes
    | .spurious i => (s.thread i).waitsFor.isSome = true
  step s
    | .call i op wakes => .ok (s.critical i op wakes)
    | .resume i wakes =>
      match (s.thread i).resumes with
      | some op => .ok (s.critical i op wakes)
      | none => .error .pastEnd
    | .spurious i =>
      match (s.thread i).waitsFor with
      | some op => .ok (s.move i (.woken op))
      | none => .error .pastEnd

instance [DecidableEq T] [Fintype ι] (s : BlockQueue ι T) :
    (ev : QueueEvent ι T) → Decidable (blockQueue.guard s ev)
  | .call _ _ _ => inferInstanceAs (Decidable (_ = _ ∧ _))
  | .resume _ _ => inferInstanceAs (Decidable (∃ op ∈ _, BlockQueue.Wakes s op _))
  | .spurious _ => inferInstanceAs (Decidable (_ = _))

/-! ### The threads in a critical section -/

namespace Caller

/-- The thread is at the predicate of a call. -/
def Runs (c : Caller T) (op : Op T) : Prop := c = .out ∨ c.resumes = some op

variable {c : Caller T} {op : Op T} {b : Bool}

omit [DecidableEq ι] in
theorem eq_waiting (h : c.waitsFor = some op) : c = .waiting op := by
  cases c with
  | waiting op' => rw [Option.some.inj h]
  | _ => cases h

omit [DecidableEq ι] in
theorem Runs.waits (h : c.Runs op) : c.waits b = false := by
  rcases h with rfl | h
  · rfl
  · cases c with
    | waiting op => cases h
    | _ => rfl

omit [DecidableEq ι] in
theorem Runs.isNotified (h : c.Runs op) (hb : op.isPop ≠ b) : c.isNotified b = false := by
  rcases h with rfl | h
  · rfl
  · cases c with
    | notified op' =>
      cases h
      exact beq_eq_false_iff_ne.mpr hb
    | _ => rfl

end Caller

namespace BlockQueue

/-- Where a thread waits without having been notified, as many of its kind are notified as there is
supply for. -/
def Served [Fintype ι] (s : BlockQueue ι T) (b : Bool) : Prop :=
  ∀ i, (s.thread i).waits b = true → s.supply b ≤ Threads.count (Caller.isNotified b) s.thread

variable [Fintype ι] {s : BlockQueue ι T} {i : ι} {op : Op T} {wakes : Option ι} {b : Bool}

omit [DecidableEq ι] [Fintype ι] in
/-- A thread that waits finds no supply. -/
theorem supply_eq_zero (h : s.blocks op = true) : s.supply op.isPop = 0 := by
  cases op with
  | push x =>
    have hfull : s.queue_.length = s.maxSize_ := beq_iff_eq.mp h
    show s.maxSize_ - s.queue_.length = 0
    omega
  | pop =>
    show s.queue_.length = 0
    rw [List.isEmpty_iff.mp h]
    rfl

/-- A call that waits. -/
theorem Served.block (h : s.Served b) (hi : (s.thread i).Runs op) (hblocks : s.blocks op = true) :
    (s.move i (.waiting op)).Served b := by
  intro j hj
  show s.supply b ≤ Threads.count _ (Function.update s.thread i (.waiting op))
  by_cases hb : op.isPop = b
  · rw [← hb, supply_eq_zero hblocks]
    exact Nat.zero_le _
  · rw [Threads.count_update_same (hi.isNotified hb).symm]
    apply h j
    have hji : j ≠ i := by
      rintro rfl
      rw [show (s.move j (.waiting op)).thread j = .waiting op from Function.update_self _ _ _] at hj
      exact hb (beq_iff_eq.mp hj)
    rwa [show (s.move i (.waiting op)).thread j = s.thread j from Function.update_of_ne hji _ _] at hj

theorem count_out (hi : (s.thread i).Runs op) :
    Threads.count (Caller.isNotified b) s.thread ≤
      Threads.count (Caller.isNotified b) (Function.update s.thread i .out) +
        if b = op.isPop then 1 else 0 := by
  have hcount := Threads.count_update (Caller.isNotified b) s.thread i .out
  rw [show (Caller.isNotified b (.out : Caller T)).toNat = 0 from rfl] at hcount
  split_ifs with hb
  · have := Bool.toNat_le (Caller.isNotified b (s.thread i))
    omega
  · rw [hi.isNotified (Ne.symm hb)] at hcount
    exact hcount.ge

/-- **A call that goes through takes one of its own supply, and notifies a thread of the other kind.** -/
theorem Served.done {t : BlockQueue ι T} (h : s.Served b) (hi : (s.thread i).Runs op)
    (hgo : s.blocks op = false) (hw : s.Wakes op wakes)
    (ht : t.thread = ((s.move i .out).notifyOne wakes).thread)
    (hown : b = op.isPop → t.supply b + 1 = s.supply b)
    (hother : b ≠ op.isPop → t.supply b = s.supply b + 1) : t.Served b := by
  have hout := count_out (b := b) hi
  intro j hj
  rw [ht] at hj ⊢
  rcases wakes with _ | k
  · have hj : (Function.update s.thread i .out j).waits b = true := hj
    show _ ≤ Threads.count _ (Function.update s.thread i .out)
    have hji : j ≠ i := by
      rintro rfl
      rw [Function.update_self] at hj
      cases hj
    rw [Function.update_of_ne hji] at hj
    have hsupply := h j hj
    by_cases hb : b = op.isPop
    · rw [if_pos hb] at hout
      have := hown hb
      omega
    · -- Nobody waits for what the call supplies.
      rcases hw with hblocks | hnone
      · rw [hgo] at hblocks
        cases hblocks
      · rw [Bool.eq_not_of_ne hb, hnone j] at hj
        cases hj
  · obtain ⟨-, hk⟩ := hw
    have hki : k ≠ i := by
      rintro rfl
      rw [hi.waits] at hk
      cases hk
    obtain ⟨op', hop', hkind⟩ : ∃ op', s.thread k = .waiting op' ∧ op'.isPop = !op.isPop := by
      cases hc : s.thread k with
      | waiting op' =>
        rw [hc] at hk
        exact ⟨op', rfl, beq_iff_eq.mp hk⟩
      | _ =>
        rw [hc] at hk
        cases hk
    have hthread : ((s.move i .out).notifyOne (some k)).thread =
        Function.update (Function.update s.thread i .out) k (.notified op') := by
      show Function.update (Function.update s.thread i .out) k
        (Function.update s.thread i .out k).notify = _
      rw [Function.update_of_ne hki, hop']
      rfl
    rw [hthread] at hj ⊢
    have hcount := Threads.count_update (Caller.isNotified b) (Function.update s.thread i .out) k
      (.notified op')
    rw [Function.update_of_ne hki, hop', show (Caller.isNotified b (.waiting op')).toNat = 0 from rfl,
      show Caller.isNotified b (.notified op') = (op'.isPop == b) from rfl, hkind] at hcount
    have hjk : j ≠ k := by
      rintro rfl
      rw [Function.update_self] at hj
      cases hj
    rw [Function.update_of_ne hjk] at hj
    have hji : j ≠ i := by
      rintro rfl
      rw [Function.update_self] at hj
      cases hj
    rw [Function.update_of_ne hji] at hj
    have hsupply := h j hj
    by_cases hb : b = op.isPop
    · rw [if_pos hb] at hout
      have := hown hb
      omega
    · have hsum := hother hb
      rw [if_neg hb] at hout
      obtain rfl := Bool.eq_not_of_ne hb
      rw [beq_self_eq_true, Bool.toNat_true] at hcount
      omega

/-! ### Every step -/

structure Good (s : BlockQueue ι T) (maxsize : ℕ) : Prop where
  size : s.maxSize_ = maxsize
  bound : s.queue_.length ≤ s.maxSize_
  order : s.popped ++ s.queue_ = s.pushed
  served : ∀ b, s.Served b

omit [DecidableEq ι] in
theorem start_good (maxsize : ℕ) : (start maxsize : BlockQueue ι T).Good maxsize := by
  refine ⟨rfl, Nat.zero_le _, rfl, ?_⟩
  intro b i hi
  cases hi

omit [Fintype ι] in
/-- A notification touches the threads only. -/
theorem notifyOne_queue (t : BlockQueue ι T) (wakes : Option ι) :
    (t.notifyOne wakes).queue_ = t.queue_ ∧ (t.notifyOne wakes).maxSize_ = t.maxSize_ ∧
      (t.notifyOne wakes).pushed = t.pushed ∧ (t.notifyOne wakes).popped = t.popped := by
  cases wakes with
  | none => exact ⟨rfl, rfl, rfl, rfl⟩
  | some j => exact ⟨rfl, rfl, rfl, rfl⟩

omit [Fintype ι] in
/-- And it reads nothing else. -/
theorem notifyOne_thread {t t' : BlockQueue ι T} (h : t.thread = t'.thread) (wakes : Option ι) :
    (t.notifyOne wakes).thread = (t'.notifyOne wakes).thread := by
  cases wakes with
  | none => exact h
  | some j =>
    show Function.update t.thread j (t.thread j).notify = _
    rw [h]
    rfl

theorem Good.critical {maxsize : ℕ} (h : s.Good maxsize) (hi : (s.thread i).Runs op)
    (hw : s.Wakes op wakes) : (s.critical i op wakes).Good maxsize := by
  have hbound := h.bound
  cases op with
  | push x =>
    unfold BlockQueue.critical
    by_cases hfull : s.full = true
    · dsimp only
      rw [if_pos hfull]
      exact ⟨h.size, h.bound, h.order, fun b => (h.served b).block hi hfull⟩
    · dsimp only
      rw [if_neg hfull]
      have hne : s.queue_.length ≠ s.maxSize_ := fun heq => hfull (beq_iff_eq.mpr heq)
      obtain ⟨hqueue, hmax, hpushed, hpopped⟩ := notifyOne_queue
        (move { s with queue_ := s.queue_ ++ [x], pushed := s.pushed ++ [x] } i .out) wakes
      refine ⟨hmax.trans h.size, ?_, ?_, ?_⟩
      · rw [hqueue, hmax]
        show (s.queue_ ++ [x]).length ≤ s.maxSize_
        rw [List.length_append, List.length_singleton]
        omega
      · rw [hqueue, hpushed, hpopped]
        show s.popped ++ (s.queue_ ++ [x]) = s.pushed ++ [x]
        rw [← List.append_assoc, h.order]
      · intro b
        refine (h.served b).done hi (Bool.eq_false_iff.mpr hfull) hw ?_ ?_ ?_
        · apply notifyOne_thread
          rfl
        · rintro rfl
          unfold supply
          rw [hqueue, hmax]
          show s.maxSize_ - (s.queue_ ++ [x]).length + 1 = s.maxSize_ - s.queue_.length
          rw [List.length_append, List.length_singleton]
          omega
        · intro hb
          obtain rfl : b = true := Bool.eq_not_of_ne hb
          unfold supply
          rw [hqueue]
          exact List.length_append
  | pop =>
    unfold BlockQueue.critical
    rcases hq : s.queue_ with _ | ⟨front, queue⟩
    · dsimp only
      have hblocks : s.blocks .pop = true := List.isEmpty_iff.mpr hq
      exact ⟨h.size, h.bound, h.order, fun b => (h.served b).block hi hblocks⟩
    · dsimp only
      rw [hq, List.length_cons] at hbound
      obtain ⟨hqueue, hmax, hpushed, hpopped⟩ := notifyOne_queue
        (move { s with queue_ := queue, popped := s.popped ++ [front] } i .out) wakes
      refine ⟨hmax.trans h.size, ?_, ?_, ?_⟩
      · rw [hqueue, hmax]
        show queue.length ≤ s.maxSize_
        omega
      · rw [hqueue, hpushed, hpopped]
        show s.popped ++ [front] ++ queue = s.pushed
        rw [← h.order, hq, List.append_assoc, List.singleton_append]
      · intro b
        have hgo : s.blocks .pop = false := by
          show s.queue_.isEmpty = false
          rw [hq]
          rfl
        refine (h.served b).done hi hgo hw ?_ ?_ ?_
        · apply notifyOne_thread
          rfl
        · rintro rfl
          unfold supply
          rw [hqueue, hq]
          rfl
        · intro hb
          obtain rfl : b = false := Bool.eq_not_of_ne hb
          unfold supply
          rw [hqueue, hmax, hq, List.length_cons]
          show s.maxSize_ - queue.length = s.maxSize_ - (queue.length + 1) + 1
          omega

theorem Good.spurious {maxsize : ℕ} (h : s.Good maxsize) (hi : s.thread i = .waiting op) :
    (s.move i (.woken op)).Good maxsize := by
  refine ⟨h.size, h.bound, h.order, ?_⟩
  intro b j hj
  have hji : j ≠ i := by
    rintro rfl
    rw [show (s.move j (.woken op)).thread j = .woken op from Function.update_self _ _ _] at hj
    cases hj
  rw [show (s.move i (.woken op)).thread j = s.thread j from Function.update_of_ne hji _ _] at hj
  show s.supply b ≤ Threads.count _ (Function.update s.thread i (.woken op))
  rw [Threads.count_update_same (by rw [hi]; rfl)]
  exact h.served b j hj

end BlockQueue

/-- **Whatever can happen next, the queue stays a bounded FIFO, and nobody is forgotten.** -/
theorem blockQueue_step [Fintype ι] {maxsize : ℕ} {s t : BlockQueue ι T} (h : s.Good maxsize)
    {ev : QueueEvent ι T} (hg : blockQueue.guard s ev) (hs : blockQueue.step s ev = .ok t) :
    t.Good maxsize := by
  cases ev with
  | call i op wakes =>
    cases hs
    exact h.critical (.inl hg.1) hg.2
  | resume i wakes =>
    obtain ⟨op, hop, hw⟩ := hg
    unfold blockQueue at hs
    dsimp only at hs
    rw [show (s.thread i).resumes = some op from hop] at hs
    cases hs
    exact h.critical (.inr hop) hw
  | spurious i =>
    obtain ⟨op, hop⟩ := Option.isSome_iff_exists.mp hg
    unfold blockQueue at hs
    dsimp only at hs
    rw [hop] at hs
    cases hs
    exact h.spurious (Caller.eq_waiting hop)

/-- **`BoundedBlockingQueue` is a bounded FIFO, and no wakeup is lost.** -/
theorem bounded_fifo [Fintype ι] {maxsize : ℕ} {es : List (QueueEvent ι T)} {s : BlockQueue ι T}
    (h : blockQueue.Run (.start maxsize) es s) :
    s.queue_.length ≤ maxsize ∧ s.popped ++ s.queue_ = s.pushed ∧
    (∀ i, s.thread i = .waiting .pop →
      s.queue_.length ≤ Threads.count (Caller.isNotified true) s.thread) ∧
    ∀ i x, s.thread i = .waiting (.push x) →
      maxsize - s.queue_.length ≤ Threads.count (Caller.isNotified false) s.thread := by
  have hgood : s.Good maxsize :=
    h.invariant (fun hi hg hs => blockQueue_step hi hg hs) (BlockQueue.start_good maxsize)
  rw [← hgood.size]
  refine ⟨hgood.bound, hgood.order, ?_, ?_⟩
  · intro i hi
    exact hgood.served true i (by rw [hi]; rfl)
  · intro i x hi
    exact hgood.served false i (by rw [hi]; rfl)

end

/-- Three consumers wait; another one takes the item that the first was notified of. -/
def barging : List (QueueEvent (Fin 5) ℕ) :=
  [.call 0 .pop none, .call 1 .pop none, .call 4 .pop none, .call 3 (.push 7) (some 0),
    .call 2 .pop none, .call 3 (.push 8) (some 1)]

theorem bounded_fifo_barging : ∃ s, blockQueue.Run (.start 2) barging s ∧ s.queue_ = [8] ∧
    s.thread 4 = .waiting .pop ∧ s.popped ++ s.queue_ = [7, 8] ∧
    s.queue_.length ≤ Threads.count (Caller.isNotified true) s.thread := by
  have hrun : ((blockQueue.exec (.start 2) barging).map fun s => (s.queue_, s.pushed, s.thread 4)) =
      some ([8], [7, 8], .waiting .pop) := by
    decide +kernel
  obtain ⟨s, hs, hview⟩ := blockQueue.exec_map_iff.mp hrun
  obtain ⟨hqueue, hpushed, hwaits⟩ : s.queue_ = [8] ∧ s.pushed = [7, 8] ∧
      s.thread 4 = .waiting .pop := by
    simpa only [Prod.mk.injEq] using hview
  obtain ⟨-, horder, hserved, -⟩ := bounded_fifo hs
  exact ⟨s, hs, hqueue, hwaits, horder.trans hpushed, hserved 4 hwaits⟩

end MuduoSe
