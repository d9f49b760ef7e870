/-
# The threads of the queue test

`test/blockqueue.cc`: `main` makes `n` threads, waits at a latch until each of them has counted down,
pushes `times` texts and a "stop" for each thread, and joins the threads; a thread pops until it gets a
"stop". The queue is a `BoundedBlockingQueue` of the default size, the latch a `CountDownLatch`, and
the steps of all threads are interleaved in any order.

* `queueTest_drains`: nothing is pushed before all threads are there, the texts come out in order, and when
  `main` is through, each text and each "stop" was popped by a thread.

Key definitions: `QueueTest`, `queueTest`, `QueueTest.Good`.
Key theorems: `BlockQueue.critical_cases`, `queueTest_step`, `queueTest_drains`.
-/
import Mathlib.Data.Fintype.Option
import MuduoSe.Base.BlockQueue
import MuduoSe.Base.CountDownLatch

namespace MuduoSe

/-- Where `main` is. -/
inductive MainAt
  /-- At the `i`-th thread, in the constructor. -/
  | create (i : ℕ)
  /-- At `latch_.wait()`. -/
  | wait
  /-- At the `k`-th `queue_.push`. -/
  | push (k : ℕ)
  /-- At the `i`-th thread, in `joinall`. -/
  | join (i : ℕ)
  | ended
  deriving DecidableEq, Repr

/-- Where a thread is in `func`. -/
inductive FuncAt
  | unborn
  /-- At `latch_.countDown()`. -/
  | start
  /-- In the loop, at `queue_.pop()`. -/
  | running
  | ended
  deriving DecidableEq, Repr

namespace FuncAt

def counted : FuncAt → Bool
  | .running | .ended => true
  | _ => false

def isEnded : FuncAt → Bool
  | .ended => true
  | _ => false

end FuncAt

/-- The threads: `none` is `main`. -/
structure QueueTest (n : ℕ) where
  latch_ : Latch (Option (Fin n))
  queue_ : BlockQueue (Option (Fin n)) Bytes
  main : MainAt
  thread : Fin n → FuncAt

inductive TestEvent (n : ℕ)
  /-- `main` makes a thread. -/
  | create
  | countDown (i : Fin n)
  /-- What `main` does at the latch. -/
  | latch (e : LatchEvent (Option (Fin n)))
  /-- What a thread does at the queue. -/
  | queue (e : QueueEvent (Option (Fin n)) Bytes)
  /-- `main` joins a thread. -/
  | join

/-- The thread that an event at a queue is about. -/
def QueueEvent.thread {ι T : Type} : QueueEvent ι T → ι
  | .call i _ _ | .resume i _ | .spurious i => i

def QueueEvent.isSpurious {ι T : Type} : QueueEvent ι T → Bool
  | .spurious _ => true
  | _ => false

namespace QueueTest

def stop : Bytes := bytes "stop"

def hello (i : ℕ) : Bytes := bytes ("hello " ++ toString i)

/-- What `main` pushes, in order. -/
def items (times n : ℕ) : List Bytes := (List.range times).map hello ++ List.replicate n stop

variable {n : ℕ} (times : ℕ)

/-- The head of the loop in the constructor. -/
def atCreate (n i : ℕ) : MainAt := if i < n then .create i else .wait

/-- The head of the loop with `join`. -/
def atJoin (n i : ℕ) : MainAt := if i < n then .join i else .ended

/-- The heads of the loops with `push`. -/
def atPush (n k : ℕ) : MainAt := if k < (items times n).length then .push k else atJoin n 0

def start (n : ℕ) : QueueTest n := ⟨.start n, .start 20, atCreate n 0, fun _ => .unborn⟩

/-- The call of a thread at the queue, where it is at one. -/
def next (s : QueueTest n) : Option (Fin n) → Option (Op Bytes)
  | none =>
    match s.main with
    | .push k => (items times n)[k]?.map .push
    | _ => none
  | some i => if s.thread i = .running then some .pop else none

/-- What a thread does when its call returns. -/
def returns (s : QueueTest n) (i : Option (Fin n)) : QueueTest n :=
  if s.queue_.thread i = .out then
    match i with
    | none =>
      match s.main with
      | .push k => { s with main := atPush times n (k + 1) }
      | _ => s
    | some i =>
      if s.queue_.popped.getLast? = some stop then { s with thread := Function.update s.thread i .ended } else s
  else s

def create (s : QueueTest n) : Res (QueueTest n) :=
  match s.main with
  | .create i =>
    if h : i < n then .ok { s with thread := Function.update s.thread ⟨i, h⟩ .start, main := atCreate n (i + 1) }
    else .error .pastEnd
  | _ => .error .pastEnd

def countDown (s : QueueTest n) (i : Fin n) : Res (QueueTest n) := do
  let latch ← countDownLatch.step s.latch_ (.countDown (some i))
  return { s with latch_ := latch, thread := Function.update s.thread i .running }

def wait (s : QueueTest n) (e : LatchEvent (Option (Fin n))) : Res (QueueTest n) := do
  let latch ← countDownLatch.step s.latch_ e
  return { s with latch_ := latch, main := if latch.thread none = .out then atPush times n 0 else s.main }

def queue (s : QueueTest n) (e : QueueEvent (Option (Fin n)) Bytes) : Res (QueueTest n) := do
  let queue ← blockQueue.step s.queue_ e
  return returns times { s with queue_ := queue } e.thread

/-- `main` is at a thread that has ended. -/
def joinable (s : QueueTest n) : Bool :=
  match s.main with
  | .join i => if h : i < n then (s.thread ⟨i, h⟩).isEnded else false
  | _ => false

def join (s : QueueTest n) : Res (QueueTest n) :=
  match s.main with
  | .join i => .ok { s with main := atJoin n (i + 1) }
  | _ => .error .pastEnd

/-- The event is one at the call that the thread is at. -/
def calls (s : QueueTest n) : QueueEvent (Option (Fin n)) Bytes → Bool
  | .call i op _ => s.next times i == some op
  | _ => true

/-- The event is one of `main` in `wait`. -/
def waits : LatchEvent (Option (Fin n)) → Bool
  | .wait none | .resume none | .spurious none => true
  | _ => false

def isCreate : MainAt → Bool
  | .create _ => true
  | _ => false

end QueueTest

open QueueTest

/-- The test with `n` threads and `times` texts. -/
def queueTest (times n : ℕ) : System (QueueTest n) (TestEvent n) Fault where
  guard s
    | .create => isCreate s.main = true
    | .countDown i => s.thread i = .start ∧ countDownLatch.guard s.latch_ (.countDown (some i))
    | .latch e => (s.main = .wait ∧ waits e = true) ∧ countDownLatch.guard s.latch_ e
    | .queue e => s.calls times e = true ∧ blockQueue.guard s.queue_ e
    | .join => s.joinable = true
  step s
    | .create => s.create
    | .countDown i => s.countDown i
    | .latch e => s.wait times e
    | .queue e => s.queue times e
    | .join => s.join

instance (times n : ℕ) (s : QueueTest n) : (e : TestEvent n) → Decidable ((queueTest times n).guard s e)
  | .create | .join => inferInstanceAs (Decidable (_ = true))
  | .countDown _ => inferInstanceAs (Decidable (_ = _ ∧ _))
  | .latch _ => inferInstanceAs (Decidable ((_ = _ ∧ _) ∧ _))
  | .queue _ => inferInstanceAs (Decidable (_ = true ∧ _))

/-! ### A step at the queue -/

namespace Caller

variable {T : Type}

/-- The call that a thread is in. -/
def op : Caller T → Option (Op T)
  | .out => none
  | .waiting op | .notified op | .woken op => some op

theorem op_of_resumes {c : Caller T} {o : Op T} (h : c.resumes = some o) : c.op = some o := by
  cases c with
  | notified o' | woken o' => exact h
  | _ => cases h

@[simp] theorem notify_op (c : Caller T) : c.notify.op = c.op := by
  cases c <;> rfl

end Caller

namespace BlockQueue

variable {ι T : Type} [DecidableEq ι]

/-- What a critical section does. -/
theorem critical_cases (s : BlockQueue ι T) (i : ι) (op : Op T) (wakes : Option ι) :
    (s.blocks op = true ∧ s.critical i op wakes = s.move i (.waiting op)) ∨
      (s.blocks op = false ∧ (s.critical i op wakes).thread = ((s.move i .out).notifyOne wakes).thread ∧
        ((∃ x, op = .push x ∧ (s.critical i op wakes).queue_ = s.queue_ ++ [x] ∧
          (s.critical i op wakes).pushed = s.pushed ++ [x] ∧ (s.critical i op wakes).popped = s.popped) ∨
        ∃ x, op = .pop ∧ s.queue_ = x :: (s.critical i op wakes).queue_ ∧
          (s.critical i op wakes).pushed = s.pushed ∧ (s.critical i op wakes).popped = s.popped ++ [x])) := by
  cases op with
  | push x =>
    unfold critical
    dsimp only
    by_cases hfull : s.full = true
    · rw [if_pos hfull]
      exact .inl ⟨hfull, rfl⟩
    · rw [if_neg hfull]
      obtain ⟨hqueue, -, hpushed, hpopped⟩ := notifyOne_queue
        (move { s with queue_ := s.queue_ ++ [x], pushed := s.pushed ++ [x] } i .out) wakes
      refine .inr ⟨Bool.eq_false_iff.mpr hfull, ?_, .inl ⟨x, rfl, hqueue, hpushed, hpopped⟩⟩
      apply notifyOne_thread
      rfl
  | pop =>
    unfold critical
    rcases hq : s.queue_ with _ | ⟨front, queue⟩
    · refine .inl ⟨?_, rfl⟩
      show s.queue_.isEmpty = true
      rw [hq]
      rfl
    · obtain ⟨hqueue, -, hpushed, hpopped⟩ := notifyOne_queue
        (move { s with queue_ := queue, popped := s.popped ++ [front] } i .out) wakes
      refine .inr ⟨?_, ?_, .inr ⟨front, rfl, ?_, hpushed, hpopped⟩⟩
      · show s.queue_.isEmpty = false
        rw [hq]
        rfl
      · apply notifyOne_thread
        rfl
      · dsimp only
        rw [hqueue]
        rfl

/-- The thread at which a call goes through is out of it. -/
theorem done_out {s : BlockQueue ι T} {i : ι} {op : Op T} {wakes : Option ι} (hi : (s.thread i).Runs op)
    (hw : s.Wakes op wakes) : ((s.move i .out).notifyOne wakes).thread i = .out := by
  cases wakes with
  | none => exact Function.update_self _ _ _
  | some j =>
    have hji : i ≠ j := by
      rintro rfl
      have hk : (s.thread i).waits (!op.isPop) = true := hw.2
      rw [hi.waits] at hk
      cases hk
    show Function.update (Function.update s.thread i .out) j _ i = .out
    rw [Function.update_of_ne hji, Function.update_self]

/-- And a thread that was in no call is in none. -/
theorem done_op {s : BlockQueue ι T} {i : ι} {wakes : Option ι} (j : ι) :
    (((s.move i .out).notifyOne wakes).thread j).op = if j = i then none else (s.thread j).op := by
  have hout : (Function.update s.thread i .out j).op = if j = i then none else (s.thread j).op := by
    by_cases hji : j = i
    · subst hji
      rw [Function.update_self, if_pos rfl]
      rfl
    · rw [Function.update_of_ne hji, if_neg hji]
  cases wakes with
  | none => exact hout
  | some k =>
    show (Function.update (Function.update s.thread i .out) k _ j).op = _
    by_cases hjk : j = k
    · subst hjk
      rw [Function.update_self, Caller.notify_op]
      exact hout
    · rw [Function.update_of_ne hjk]
      exact hout

/-- A step at the queue is a critical section, or somebody wakes up. -/
theorem step_cases {s t : BlockQueue ι T} {e : QueueEvent ι T} (hg : blockQueue.guard s e)
    (hs : blockQueue.step s e = .ok t) :
    (e.isSpurious = false ∧ ∃ op wakes, (s.thread e.thread).Runs op ∧ s.Wakes op wakes ∧
      t = s.critical e.thread op wakes ∧ (e = .call e.thread op wakes ∨ (s.thread e.thread).op = some op)) ∨
    (e.isSpurious = true ∧ ∃ op, s.thread e.thread = .waiting op ∧ t = s.move e.thread (.woken op)) := by
  cases e with
  | call i op wakes =>
    cases hs
    exact .inl ⟨rfl, op, wakes, .inl hg.1, hg.2, rfl, .inl rfl⟩
  | resume i wakes =>
    obtain ⟨op, hop, hw⟩ := hg
    unfold blockQueue at hs
    dsimp only at hs
    rw [show (s.thread i).resumes = some op from hop] at hs
    cases hs
    exact .inl ⟨rfl, op, wakes, .inr hop, hw, rfl, .inr (Caller.op_of_resumes hop)⟩
  | spurious i =>
    obtain ⟨op, hop⟩ := Option.isSome_iff_exists.mp hg
    unfold blockQueue at hs
    dsimp only at hs
    rw [hop] at hs
    cases hs
    exact .inr ⟨rfl, op, Caller.eq_waiting hop, rfl⟩

theorem move_self {s : BlockQueue ι T} {i : ι} {c : Caller T} : (s.move i c).thread i = c := Function.update_self ..

theorem move_of_ne {s : BlockQueue ι T} {i j : ι} {c : Caller T} (h : j ≠ i) : (s.move i c).thread j = s.thread j :=
  Function.update_of_ne h ..

/-- A thread that only changes its place in its call. -/
theorem move_op {s : BlockQueue ι T} {i : ι} {c : Caller T} (j : ι) :
    ((s.move i c).thread j).op = if j = i then c.op else (s.thread j).op := by
  by_cases hji : j = i
  · rw [hji, move_self, if_pos rfl]
  · rw [move_of_ne hji, if_neg hji]

end BlockQueue

/-! ### What always holds -/

/-- How much `main` has pushed, of `total` items. -/
def MainAt.sent (total : ℕ) : MainAt → ℕ
  | .create _ | .wait => 0
  | .push k => k
  | .join _ | .ended => total

namespace QueueTest

variable {n times : ℕ} {s t : QueueTest n}

/-- How far the threads are. -/
def Phase (times : ℕ) (thread : Fin n → FuncAt) : MainAt → Prop
  | .create i => i < n ∧ ∀ j : Fin n, thread j = .unborn ↔ i ≤ j
  | .wait => ∀ j, thread j ≠ .unborn
  | .push k => k < (items times n).length ∧ ∀ j, (thread j).counted = true
  | .join i => i < n ∧ (∀ j, (thread j).counted = true) ∧ ∀ j : Fin n, j < i → thread j = .ended
  | .ended => ∀ j, thread j = .ended

structure Good (times : ℕ) (s : QueueTest n) : Prop where
  count : s.latch_.count_ + BitVec.ofNat 32 (Threads.count FuncAt.counted s.thread) = BitVec.ofNat 32 n
  shut : s.latch_.Shut
  fifo : s.queue_.Good 20
  pushed : s.queue_.pushed = (items times n).take (s.main.sent (items times n).length)
  /-- A "stop" ends one thread. -/
  stops : Threads.count FuncAt.isEnded s.thread = s.queue_.popped.count stop
  place : ∀ i op, (s.queue_.thread i).op = some op → s.next times i = some op
  /-- Only `main` waits at the latch. -/
  latch : ∀ i, s.latch_.thread i ≠ .out → i = none ∧ s.main = .wait
  phase : Phase times s.thread s.main

/-! ### The calls of the threads -/

theorem next_some_iff {i : Fin n} {op : Op Bytes} :
    s.next times (some i) = some op ↔ s.thread i = .running ∧ op = .pop := by
  unfold next
  dsimp only
  split_ifs with hrunning
  · exact ⟨fun h => ⟨hrunning, (Option.some.inj h).symm⟩, fun h => by rw [h.2]⟩
  · exact ⟨nofun, fun h => absurd h.1 hrunning⟩

theorem next_none_iff {op : Op Bytes} :
    s.next times none = some op ↔ ∃ k x, s.main = .push k ∧ (items times n)[k]? = some x ∧ op = .push x := by
  unfold next
  cases hmain : s.main with
  | push k =>
    dsimp only
    rw [Option.map_eq_some_iff]
    constructor
    · rintro ⟨x, hx, rfl⟩
      exact ⟨k, x, rfl, hx, rfl⟩
    · rintro ⟨k', x, hk, hx, rfl⟩
      cases hk
      exact ⟨x, hx, rfl⟩
  | create i | wait | join i | ended => exact ⟨nofun, fun ⟨_, _, h, _⟩ => nomatch h⟩

/-- Threads that stay at the queue are at their calls. -/
theorem Good.place_of (h : s.Good times) (hqueue : t.queue_ = s.queue_)
    (hmain : ∀ k, s.main = .push k → t.main = .push k) (hthread : ∀ j, s.thread j = .running → t.thread j = .running)
    (i : Option (Fin n)) (op : Op Bytes) (hop : (t.queue_.thread i).op = some op) : t.next times i = some op := by
  rw [hqueue] at hop
  have hnext := h.place i op hop
  cases i with
  | none =>
    obtain ⟨k, x, hk, hx, rfl⟩ := next_none_iff.mp hnext
    exact next_none_iff.mpr ⟨k, x, hmain k hk, hx, rfl⟩
  | some i =>
    obtain ⟨hi, rfl⟩ := next_some_iff.mp hnext
    exact next_some_iff.mpr ⟨hthread i hi, rfl⟩

/-! ### The loops of `main` -/

theorem sent_atCreate (total i : ℕ) : (atCreate n i).sent total = 0 := by
  unfold atCreate
  split_ifs <;> rfl

theorem sent_atJoin (total i : ℕ) : (atJoin n i).sent total = total := by
  unfold atJoin
  split_ifs <;> rfl

theorem sent_atPush {k : ℕ} (hk : k ≤ (items times n).length) :
    (atPush times n k).sent (items times n).length = k := by
  unfold atPush
  split_ifs with hlt
  · rfl
  · rw [sent_atJoin]
    omega

theorem phase_atCreate {thread : Fin n → FuncAt} {i : ℕ} (h : ∀ j : Fin n, thread j = .unborn ↔ i ≤ j) :
    Phase times thread (atCreate n i) := by
  unfold atCreate
  split_ifs with hlt
  · exact ⟨hlt, h⟩
  · intro j hj
    have := (h j).mp hj
    omega

theorem phase_atJoin {thread : Fin n → FuncAt} {i : ℕ} (hcounted : ∀ j, (thread j).counted = true)
    (h : ∀ j : Fin n, j < i → thread j = .ended) : Phase times thread (atJoin n i) := by
  unfold atJoin
  split_ifs with hlt
  · exact ⟨hlt, hcounted, h⟩
  · exact fun j => h j (by omega)

theorem phase_atPush {thread : Fin n → FuncAt} (k : ℕ) (hcounted : ∀ j, (thread j).counted = true) :
    Phase times thread (atPush times n k) := by
  unfold atPush
  split_ifs with hlt
  · exact ⟨hlt, hcounted⟩
  · exact phase_atJoin hcounted fun j hj => absurd hj (Nat.not_lt_zero _)

/-- A thread that was there goes on. -/
theorem phase_update {thread : Fin n → FuncAt} {m : MainAt} (h : Phase times thread m) {i : Fin n} {x : FuncAt}
    (hi : thread i ≠ .unborn) (hx : x.counted = true) (hended : thread i = .ended → x = .ended) :
    Phase times (Function.update thread i x) m := by
  have hother : ∀ {p : FuncAt → Prop} {j : Fin n}, (p (thread i) → p x) → p (thread j) →
      p (Function.update thread i x j) := by
    intro p j hp hj
    by_cases hji : j = i
    · rw [hji] at hj ⊢
      rw [Function.update_self]
      exact hp hj
    · rw [Function.update_of_ne hji]
      exact hj
  have hborn : x ≠ .unborn := fun he => by
    rw [he] at hx
    cases hx
  cases m with
  | create k =>
    refine ⟨h.1, fun j => ?_⟩
    by_cases hji : j = i
    · rw [hji, Function.update_self]
      exact ⟨fun he => absurd he hborn, fun hle => absurd ((h.2 i).mpr hle) hi⟩
    · rw [Function.update_of_ne hji]
      exact h.2 j
  | wait => exact fun j => hother (p := (· ≠ .unborn)) (fun _ => hborn) (h j)
  | push k => exact ⟨h.1, fun j => hother (p := (·.counted = true)) (fun _ => hx) (h.2 j)⟩
  | join k =>
    exact ⟨h.1, fun j => hother (p := (·.counted = true)) (fun _ => hx) (h.2.1 j),
      fun j hj => hother (p := (· = .ended)) hended (h.2.2 j hj)⟩
  | ended => exact fun j => hother (p := (· = .ended)) hended (h j)

/-! ### Each step -/

theorem start_good (times n : ℕ) : (start n).Good times where
  count := by
    have hzero : Threads.count FuncAt.counted (fun _ : Fin n => .unborn) = 0 := Threads.count_eq_zero.mpr fun _ => rfl
    show BitVec.ofNat 32 n + BitVec.ofNat 32 (Threads.count FuncAt.counted (fun _ : Fin n => .unborn)) = _
    rw [hzero, BitVec.add_zero]
  shut := Latch.start_shut n
  fifo := BlockQueue.start_good 20
  pushed := by
    show [] = (items times n).take ((atCreate n 0).sent _)
    rw [sent_atCreate, List.take_zero]
  stops := Threads.count_eq_zero.mpr fun _ => rfl
  place i op h := nomatch h
  latch i hi := absurd rfl hi
  phase := phase_atCreate fun j => ⟨fun _ => Nat.zero_le _, fun _ => rfl⟩

theorem Good.create (h : s.Good times) (hs : s.create = .ok t) : t.Good times := by
  have hphase := h.phase
  have hpushed := h.pushed
  unfold QueueTest.create at hs
  split at hs
  · next i hmain =>
    rw [hmain] at hphase hpushed
    split_ifs at hs with hi
    cases hs
    have hunborn : s.thread ⟨i, hi⟩ = .unborn := (hphase.2 _).mpr le_rfl
    have hmain' : ∀ m, s.main = m → m ≠ .create i → False := fun m hm hne => hne (hm.symm.trans hmain)
    refine ⟨?_, h.shut, h.fifo, ?_, ?_, ?_, ?_, phase_atCreate ?_⟩
    · show _ + BitVec.ofNat 32 (Threads.count _ (Function.update _ _ _)) = _
      rw [Threads.count_update_same (by rw [hunborn]; rfl)]
      exact h.count
    · rw [sent_atCreate]
      exact hpushed
    · show Threads.count _ (Function.update _ _ _) = _
      rw [Threads.count_update_same (by rw [hunborn]; rfl)]
      exact h.stops
    · refine h.place_of rfl (fun k hk => (hmain' _ hk nofun).elim) fun j hj => ?_
      have hne : j ≠ ⟨i, hi⟩ := by
        rintro rfl
        rw [hunborn] at hj
        cases hj
      exact (Function.update_of_ne hne _ _).trans hj
    · intro j hj
      exact (hmain' _ (h.latch j hj).2 nofun).elim
    · intro j
      show Function.update s.thread ⟨i, hi⟩ .start j = .unborn ↔ i + 1 ≤ j
      by_cases hj : j = ⟨i, hi⟩
      · subst hj
        rw [Function.update_self]
        exact ⟨nofun, fun hle => absurd hle (Nat.not_succ_le_self i)⟩
      · have hne : (j : ℕ) ≠ i := fun he => hj (Fin.ext he)
        rw [Function.update_of_ne hj, hphase.2]
        omega
  · cases hs

theorem Good.countDown (h : s.Good times) {i : Fin n} (hi : s.thread i = .start) (hs : s.countDown i = .ok t) :
    t.Good times := by
  cases hs
  have hcounted := Threads.count_update FuncAt.counted s.thread i .running
  rw [hi] at hcounted
  have hne : ∀ j, s.thread j ≠ .start → j ≠ i := fun j hj he => hj (he ▸ hi)
  refine ⟨?_, h.shut.countDown, h.fifo, h.pushed, ?_, ?_, ?_, ?_⟩
  · show s.latch_.countDown.count_ + BitVec.ofNat 32 (Threads.count _ (Function.update _ _ _)) = _
    rw [Latch.countDown_count, show Threads.count FuncAt.counted (Function.update s.thread i .running) =
      1 + Threads.count FuncAt.counted s.thread from hcounted.trans (Nat.add_comm _ _), BitVec.ofNat_add,
      ← BitVec.add_assoc]
    rw [show s.latch_.count_ - 1#32 + BitVec.ofNat 32 1 = s.latch_.count_ from BitVec.sub_add_cancel _ _]
    exact h.count
  · show Threads.count _ (Function.update _ _ _) = _
    rw [Threads.count_update_same (by rw [hi]; rfl)]
    exact h.stops
  · refine h.place_of rfl (fun k hk => hk) fun j hj => ?_
    exact (Function.update_of_ne (hne j (by rw [hj]; exact nofun)) _ _).trans hj
  · intro j hj
    refine h.latch j fun hout => hj ?_
    show s.latch_.countDown.thread j = .out
    unfold Latch.countDown
    dsimp only
    split_ifs
    · show (s.latch_.thread j).notify = .out
      rw [hout]
      rfl
    · exact hout
  · refine phase_update h.phase ?_ rfl fun he => ?_
    · rw [hi]
      exact nofun
    · rw [hi] at he
      cases he

/-- The latch opens when all threads have counted down. -/
theorem Good.opened_iff (h : s.Good times) (hn : n < 2 ^ 31) :
    s.latch_.opened = true ↔ ∀ j, (s.thread j).counted = true := by
  have hle := Threads.count_le FuncAt.counted s.thread
  rw [Fintype.card_fin] at hle
  rw [Latch.opened_iff hn h.count (Nat.le_add_right_of_le hle), ← Threads.card_le_count, Fintype.card_fin]

theorem wait_eq {e : LatchEvent (Option (Fin n))} (hs : s.wait times e = .ok t) :
    ∃ latch, countDownLatch.step s.latch_ e = .ok latch ∧
      t = { s with latch_ := latch, main := if latch.thread none = .out then atPush times n 0 else s.main } := by
  unfold QueueTest.wait at hs
  cases hlatch : countDownLatch.step s.latch_ e with
  | error => rw [hlatch] at hs; cases hs
  | ok latch =>
    rw [hlatch] at hs
    exact ⟨latch, rfl, (Except.ok.inj hs).symm⟩

theorem Good.wait (h : s.Good times) (hn : n < 2 ^ 31) {e : LatchEvent (Option (Fin n))} (hmain : s.main = .wait)
    (he : waits e = true) (hs : s.wait times e = .ok t) : t.Good times := by
  obtain ⟨latch, hlatch, rfl⟩ := wait_eq hs
  -- the count stays, and only `main` moves
  have hstays : latch.count_ = s.latch_.count_ ∧ (∀ j, latch.thread (some j) = s.latch_.thread (some j)) ∧
      (latch.thread none = .out → s.latch_.opened = true) := by
    have hopened : (s.latch_.test none).thread none = .out → s.latch_.opened = true := by
      rw [Latch.test_self]
      split_ifs with hopen
      · exact fun _ => hopen
      · exact nofun
    cases e with
    | countDown i => cases he
    | wait i | resume i =>
      cases i with
      | some i => cases he
      | none =>
        cases hlatch
        exact ⟨rfl, fun j => Latch.test_of_ne (by simp), hopened⟩
    | spurious i =>
      cases i with
      | some i => cases he
      | none =>
        cases hlatch
        refine ⟨rfl, fun j => Latch.move_of_ne (by simp), fun hout => ?_⟩
        rw [Latch.move_self] at hout
        cases hout
  obtain ⟨hcount, hothers, hopen⟩ := hstays
  have hpushed := h.pushed
  have hphase := h.phase
  rw [hmain] at hpushed hphase
  refine ⟨?_, latch_step h.shut hlatch, h.fifo, ?_, h.stops, ?_, ?_, ?_⟩
  · show latch.count_ + _ = _
    rw [hcount]
    exact h.count
  · show s.queue_.pushed = _
    rw [hpushed]
    split_ifs with hout
    · rw [sent_atPush (Nat.zero_le _)]
      rfl
    · rw [hmain]
  · refine h.place_of rfl (fun k hk => ?_) fun j hj => hj
    rw [hmain] at hk
    cases hk
  · intro j hj
    cases j with
    | some j =>
      have hj : latch.thread (some j) ≠ .out := hj
      rw [hothers] at hj
      cases (h.latch _ hj).1
    | none =>
      have hj : latch.thread none ≠ .out := hj
      refine ⟨rfl, ?_⟩
      show (if latch.thread none = .out then _ else _) = _
      rw [if_neg hj, hmain]
  · show Phase times s.thread (if latch.thread none = .out then _ else _)
    split_ifs with hout
    · exact phase_atPush 0 ((h.opened_iff hn).mp (hopen hout))
    · rw [hmain]
      exact hphase

theorem Good.join (h : s.Good times) (hj : s.joinable = true) (hs : s.join = .ok t) : t.Good times := by
  unfold QueueTest.join at hs
  unfold joinable at hj
  have hphase := h.phase
  have hpushed := h.pushed
  split at hs
  · next i hmain =>
    cases hs
    rw [hmain] at hj hphase hpushed
    dsimp only at hj
    split_ifs at hj with hi
    have hended : s.thread ⟨i, hi⟩ = .ended := by
      cases hthread : s.thread ⟨i, hi⟩ with
      | ended => rfl
      | _ =>
        rw [hthread] at hj
        cases hj
    refine ⟨h.count, h.shut, h.fifo, ?_, h.stops, ?_, ?_, ?_⟩
    · rw [sent_atJoin]
      exact hpushed
    · refine h.place_of rfl (fun k hk => ?_) fun j hj => hj
      rw [hmain] at hk
      cases hk
    · intro j hj
      have := (h.latch j hj).2
      rw [hmain] at this
      cases this
    · refine phase_atJoin hphase.2.1 fun j hj => ?_
      rcases Nat.lt_succ_iff_lt_or_eq.mp hj with hlt | heq
      · exact hphase.2.2 j hlt
      · rw [show j = ⟨i, hi⟩ from Fin.ext heq]
        exact hended
  · cases hs

/-! ### A step at the queue -/

theorem returns_stay {i : Option (Fin n)} (h : s.queue_.thread i ≠ .out) : returns times s i = s := if_neg h

theorem returns_main {k : ℕ} (h : s.queue_.thread none = .out) (hmain : s.main = .push k) :
    returns times s none = { s with main := atPush times n (k + 1) } := by
  unfold returns
  rw [if_pos h, hmain]

theorem returns_func {i : Fin n} (h : s.queue_.thread (some i) = .out) : returns times s (some i) =
    if s.queue_.popped.getLast? = some stop then { s with thread := Function.update s.thread i .ended } else s :=
  if_pos h

/-- What a step at the queue leaves. -/
theorem queue_eq {e : QueueEvent (Option (Fin n)) Bytes} (hs : s.queue times e = .ok t) :
    ∃ q, blockQueue.step s.queue_ e = .ok q ∧ t = returns times { s with queue_ := q } e.thread := by
  unfold QueueTest.queue at hs
  cases hq : blockQueue.step s.queue_ e with
  | error => rw [hq] at hs; cases hs
  | ok q =>
    rw [hq] at hs
    exact ⟨q, rfl, (Except.ok.inj hs).symm⟩

/-- A thread moves within its call. -/
theorem Good.moved (h : s.Good times) {q : BlockQueue (Option (Fin n)) Bytes} (hq : q.Good 20)
    (hpushed : q.pushed = s.queue_.pushed) (hpopped : q.popped = s.queue_.popped)
    (hplace : ∀ i op, (q.thread i).op = some op → s.next times i = some op) :
    Good times { s with queue_ := q } :=
  ⟨h.count, h.shut, hq, hpushed.trans h.pushed, h.stops.trans (congrArg _ hpopped.symm), hplace, h.latch, h.phase⟩

/-- The call of `main` goes through. -/
theorem Good.pushes (h : s.Good times) {q : BlockQueue (Option (Fin n)) Bytes} (hq : q.Good 20) {k : ℕ} {x : Bytes}
    (hmain : s.main = .push k) (hx : (items times n)[k]? = some x) (hpushed : q.pushed = s.queue_.pushed ++ [x])
    (hpopped : q.popped = s.queue_.popped)
    (hop : ∀ j, (q.thread j).op = if j = none then none else (s.queue_.thread j).op) :
    Good times { s with queue_ := q, main := atPush times n (k + 1) } := by
  have hphase := h.phase
  have hsent := h.pushed
  rw [hmain] at hphase hsent
  refine ⟨h.count, h.shut, hq, ?_, h.stops.trans (congrArg _ hpopped.symm), ?_, ?_, phase_atPush _ hphase.2⟩
  · show q.pushed = _
    rw [sent_atPush hphase.1, hpushed, hsent]
    show (items times n).take k ++ [x] = _
    rw [List.take_add_one, hx]
    rfl
  · intro i op hi
    rw [hop] at hi
    split_ifs at hi with hnone
    obtain ⟨i, rfl⟩ := Option.ne_none_iff_exists'.mp hnone
    exact next_some_iff.mpr ((next_some_iff (s := s)).mp (h.place _ _ hi))
  · intro i hi
    have := (h.latch i hi).2
    rw [hmain] at this
    cases this

/-- The call of another thread goes through. -/
theorem Good.pops (h : s.Good times) {q : BlockQueue (Option (Fin n)) Bytes} (hq : q.Good 20) {i : Fin n} {x : Bytes}
    (hi : s.thread i = .running) (hpushed : q.pushed = s.queue_.pushed) (hpopped : q.popped = s.queue_.popped ++ [x])
    (hop : ∀ j, (q.thread j).op = if j = some i then none else (s.queue_.thread j).op) :
    Good times (if x = stop then { s with queue_ := q, thread := Function.update s.thread i .ended }
      else { s with queue_ := q }) := by
  have hplace : ∀ j op, (q.thread j).op = some op → j ≠ some i ∧ s.next times j = some op := by
    intro j op hj
    rw [hop] at hj
    split_ifs at hj with hji
    exact ⟨hji, h.place j op hj⟩
  split_ifs with hx
  · have hended := Threads.count_update FuncAt.isEnded s.thread i .ended
    rw [hi] at hended
    refine ⟨?_, h.shut, hq, hpushed.trans h.pushed, ?_, ?_, h.latch, ?_⟩
    · show _ + BitVec.ofNat 32 (Threads.count _ (Function.update _ _ _)) = _
      rw [Threads.count_update_same (by rw [hi]; rfl)]
      exact h.count
    · show Threads.count _ (Function.update _ _ _) = q.popped.count stop
      rw [hpopped, hx, List.count_append, List.count_singleton_self, ← h.stops]
      exact hended
    · intro j op hj
      obtain ⟨hji, hnext⟩ := hplace j op hj
      cases j with
      | none => exact hnext
      | some j =>
        obtain ⟨hrunning, rfl⟩ := next_some_iff.mp hnext
        refine next_some_iff.mpr ⟨?_, rfl⟩
        exact (Function.update_of_ne (fun he => hji (congrArg some he)) _ _).trans hrunning
    · refine phase_update h.phase ?_ rfl fun _ => rfl
      rw [hi]
      exact nofun
  · refine ⟨h.count, h.shut, hq, hpushed.trans h.pushed, ?_, fun j op hj => (hplace j op hj).2, h.latch, h.phase⟩
    show _ = q.popped.count stop
    rw [hpopped, List.count_append, List.count_singleton, if_neg (by simpa using hx)]
    exact h.stops

/-- The call that a thread makes or goes on with is the one that it is at. -/
theorem Good.next_eq (h : s.Good times) {e : QueueEvent (Option (Fin n)) Bytes} (hcalls : s.calls times e = true)
    {op : Op Bytes} {wakes : Option (Option (Fin n))}
    (hcall : e = .call e.thread op wakes ∨ (s.queue_.thread e.thread).op = some op) :
    s.next times e.thread = some op := by
  rcases hcall with he | hop
  · rw [he] at hcalls
    exact beq_iff_eq.mp hcalls
  · exact h.place _ _ hop

/-- What a thread does at the queue. -/
theorem Good.queue (h : s.Good times) {e : QueueEvent (Option (Fin n)) Bytes} (hcalls : s.calls times e = true)
    (hg : blockQueue.guard s.queue_ e) (hs : s.queue times e = .ok t) : t.Good times := by
  obtain ⟨q, hq, rfl⟩ := queue_eq hs
  have hfifo := blockQueue_step h.fifo hg hq
  rcases BlockQueue.step_cases hg hq with ⟨-, op, wakes, hruns, hw, rfl, hcall⟩ | ⟨-, op, hwaits, rfl⟩
  · have hnext := h.next_eq hcalls hcall
    rcases BlockQueue.critical_cases s.queue_ e.thread op wakes with ⟨-, hq⟩ | ⟨hgo, hthread, hdone⟩
    · rw [hq] at hfifo ⊢
      rw [returns_stay (by rw [BlockQueue.move_self]; exact nofun)]
      refine h.moved hfifo rfl rfl fun j op' hj => ?_
      rw [BlockQueue.move_op] at hj
      split_ifs at hj with hji
      · rw [hji, hnext]
        exact hj
      · exact h.place j op' hj
    · have hout := (congrFun hthread e.thread).trans (BlockQueue.done_out hruns hw)
      have hop : ∀ j, ((s.queue_.critical e.thread op wakes).thread j).op =
          if j = e.thread then none else (s.queue_.thread j).op := by
        intro j
        rw [hthread]
        exact BlockQueue.done_op j
      revert hfifo hop hdone hnext hout
      generalize s.queue_.critical e.thread op wakes = q
      intro hfifo hnext hdone hout hop
      cases hthr : e.thread with
      | none =>
        rw [hthr] at hnext hop hout
        obtain ⟨k, x, hmain, hx, rfl⟩ := next_none_iff.mp hnext
        obtain ⟨x', hx', -, hpushed, hpopped⟩ | ⟨x', hx', -⟩ := hdone
        · cases hx'
          rw [returns_main (s := { s with queue_ := q }) hout hmain]
          exact h.pushes hfifo hmain hx hpushed hpopped hop
        · cases hx'
      | some i =>
        rw [hthr] at hnext hop hout
        obtain ⟨hrunning, rfl⟩ := next_some_iff.mp hnext
        obtain ⟨x, hx, -⟩ | ⟨x, -, -, hpushed, hpopped⟩ := hdone
        · cases hx
        · rw [returns_func (s := { s with queue_ := q }) hout]
          have hlast : q.popped.getLast? = some x := by rw [hpopped, List.getLast?_concat]
          have hpops := h.pops hfifo hrunning hpushed hpopped hop
          simp only [hlast, Option.some.injEq]
          exact hpops
  · rw [returns_stay (by rw [BlockQueue.move_self]; exact nofun)]
    refine h.moved hfifo rfl rfl fun j op' hj => ?_
    rw [BlockQueue.move_op] at hj
    split_ifs at hj with hji
    · rw [hji]
      refine h.place _ _ ?_
      rw [hwaits]
      exact hj
    · exact h.place j op' hj

end QueueTest

/-- Whatever can happen next. -/
theorem queueTest_step {n times : ℕ} (hn : n < 2 ^ 31) {s t : QueueTest n} (h : s.Good times) {e : TestEvent n}
    (hg : (queueTest times n).guard s e) (hs : (queueTest times n).step s e = .ok t) : t.Good times := by
  cases e with
  | create => exact h.create hs
  | countDown i => exact h.countDown hg.1 hs
  | latch e => exact h.wait hn hg.1.1 hg.1.2 hs
  | queue e => exact h.queue hg.1 hg.2 hs
  | join => exact h.join hg hs

/-- What `main` pushes has `n` times "stop". -/
theorem QueueTest.count_items (times n : ℕ) : (items times n).count stop = n := by
  have htexts : ((List.range times).map hello).count stop = 0 := by
    rw [List.count_eq_zero]
    intro hmem
    obtain ⟨i, -, hi⟩ := List.mem_map.mp hmem
    have hhead : (hello i).head? = some 104 := by
      unfold hello bytes
      rw [String.toList_append]
      rfl
    rw [hi] at hhead
    cases hhead
  unfold items
  rw [List.count_append, htexts, List.count_replicate_self, Nat.zero_add]

/-- The last "stop" is the last of all. -/
theorem QueueTest.items_concat (times : ℕ) {n : ℕ} (hpos : 0 < n) : ∃ first, items times n = first ++ [stop] := by
  obtain ⟨m, rfl⟩ := Nat.exists_eq_succ_of_ne_zero hpos.ne'
  refine ⟨(List.range times).map hello ++ List.replicate m stop, ?_⟩
  unfold items
  rw [List.replicate_succ', List.append_assoc]

/-- Where all threads got a "stop" and all items were pushed, nothing is left. -/
theorem QueueTest.Good.drained {n times : ℕ} {s : QueueTest n} (h : s.Good times) (hpos : 0 < n)
    (hpushed : s.queue_.pushed = items times n) (hended : ∀ i, s.thread i = .ended) :
    s.queue_.queue_ = [] ∧ s.queue_.popped = items times n := by
  have hcount : n ≤ s.queue_.popped.count stop := by
    rw [← h.stops]
    have hall : Fintype.card (Fin n) ≤ Threads.count FuncAt.isEnded s.thread := by
      refine Threads.card_le_count.mpr fun i => ?_
      rw [hended i]
      rfl
    rwa [Fintype.card_fin] at hall
  have horder := h.fifo.order
  rw [hpushed] at horder
  have hnil : s.queue_.queue_ = [] := by
    by_contra hne
    obtain ⟨first, hfirst⟩ := items_concat times hpos
    obtain ⟨q, y, hq⟩ := List.eq_nil_or_concat _ |>.resolve_left hne
    rw [List.concat_eq_append] at hq
    have hlast : y = stop := by
      rw [hq, hfirst, ← List.append_assoc] at horder
      exact List.singleton_inj.mp (List.append_inj' horder rfl).2
    have htotal := congrArg (List.count stop) horder
    rw [count_items, List.count_append, hq, hlast, List.count_append, List.count_singleton_self] at htotal
    omega
  rw [hnil, List.append_nil] at horder
  exact ⟨hnil, horder⟩

section

variable {times n : ℕ} {es : List (TestEvent n)} {s : QueueTest n}

theorem queueTest_good (hn : n < 2 ^ 31) (h : (queueTest times n).Run (.start n) es s) : s.Good times :=
  h.invariant (fun hi hg hs => queueTest_step hn hi hg hs) (QueueTest.start_good times n)

/-- **The threads get all texts, in order, and each of them one "stop".** -/
theorem queueTest_drains (hn : n < 2 ^ 31) (hpos : 0 < n) (h : (queueTest times n).Run (.start n) es s) :
    s.queue_.popped ++ s.queue_.queue_ <+: items times n ∧
      (s.queue_.pushed ≠ [] → ∀ i, (s.thread i).counted = true) ∧
      (s.main = .ended → s.queue_.popped = items times n ∧ ∀ i, s.thread i = .ended) := by
  have hgood := queueTest_good hn h
  have hphase := hgood.phase
  have hpushed := hgood.pushed
  refine ⟨?_, fun hne => ?_, fun hmain => ?_⟩
  · rw [hgood.fifo.order, hpushed]
    exact List.take_prefix _ _
  · cases hmain : s.main with
    | create i | wait =>
      rw [hmain] at hpushed
      exact absurd hpushed hne
    | push k =>
      rw [hmain] at hphase
      exact hphase.2
    | join i =>
      rw [hmain] at hphase
      exact hphase.2.1
    | ended =>
      rw [hmain] at hphase
      intro i
      rw [hphase i]
      rfl
  · rw [hmain] at hphase hpushed
    refine ⟨(hgood.drained hpos ?_ hphase).2, hphase⟩
    rw [hpushed]
    exact List.take_length

end

/-- The thread of a test with one thread. -/
def single : Fin 1 := 0

/-- One thread and one text: the thread waits first. -/
def oneText : List (TestEvent 1) :=
  [.create, .latch (.wait none), .countDown single, .latch (.resume none), .queue (.call (some single) .pop none),
    .queue (.call none (.push (hello 0)) (some (some single))), .queue (.call none (.push stop) none),
    .queue (.resume (some single) none), .queue (.call (some single) .pop none), .join]

theorem queueTest_drains_oneText : ∃ s, (queueTest 1 1).Run (.start 1) oneText s ∧ s.main = .ended ∧
    s.queue_.popped ++ s.queue_.queue_ <+: items 1 1 ∧
    (s.queue_.pushed ≠ [] → ∀ i, (s.thread i).counted = true) ∧
    (s.main = .ended → s.queue_.popped = items 1 1 ∧ ∀ i, s.thread i = .ended) := by
  have hrun : (((queueTest 1 1).exec (.start 1) oneText).map fun s => s.main) = some .ended := by
    decide +kernel
  obtain ⟨s, hs, hmain⟩ := (queueTest 1 1).exec_map_iff.mp hrun
  exact ⟨s, hs, hmain, queueTest_drains (by decide) (by decide) hs⟩

end MuduoSe
