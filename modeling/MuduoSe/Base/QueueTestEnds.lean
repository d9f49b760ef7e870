/-
# The queue test comes to its end

* `queueTest_ends`: as long as `main` is not through, some thread can go on without a spurious wakeup; and
  there are at most `4 * times + 9 * n + 2` steps, and two more for each spurious wakeup. So the test
  ends, whatever the scheduler does.

A `push` that is asleep finds the queue full, a `pop` finds it empty, and the items have a "stop" for each
thread (`Good.worker_moves`, `Good.progress`). What is left to do is what is not pushed and not popped
yet, twice, as the step that does it may also wake a thread in vain (`left_step`).

Key definitions: `QueueTest.able`, `QueueTest.left`.
Key theorems: `Good.progress`, `left_step`, `queueTest_ends`.
-/
import MuduoSe.Base.QueueTest

namespace MuduoSe

open QueueTest

def TestEvent.isSpurious {n : ℕ} : TestEvent n → Bool
  | .latch (.spurious _) => true
  | .queue e => e.isSpurious
  | _ => false

namespace QueueTest

variable {n times : ℕ} {s t : QueueTest n}

/-! ### Somebody can go on -/

/-- A thread can go on that was not woken for no reason. -/
def Moves (times : ℕ) (s : QueueTest n) : Prop :=
  ∃ e t, e.isSpurious = false ∧ (queueTest times n).guard s e ∧ (queueTest times n).step s e = .ok t

theorem exists_wakes {ι T : Type} (q : BlockQueue ι T) (op : Op T) : ∃ wakes, q.Wakes op wakes := by
  by_cases hblocks : q.blocks op = true
  · exact ⟨none, .inl hblocks⟩
  · by_cases hwaits : ∃ j, (q.thread j).waits (!op.isPop) = true
    · obtain ⟨j, hj⟩ := hwaits
      exact ⟨some j, Bool.eq_false_iff.mpr hblocks, hj⟩
    · exact ⟨none, .inr fun j => Bool.eq_false_iff.mpr fun hj => hwaits ⟨j, hj⟩⟩

/-- A thread at the queue that is not asleep. -/
theorem moves_queue {i : Option (Fin n)} {op : Op Bytes} (hnext : s.next times i = some op)
    (hawake : (s.queue_.thread i).waitsFor = none) : Moves times s := by
  obtain ⟨wakes, hw⟩ := exists_wakes s.queue_ op
  cases hthread : s.queue_.thread i with
  | out => exact ⟨.queue (.call i op wakes), _, rfl, ⟨beq_iff_eq.mpr hnext, hthread, hw⟩, rfl⟩
  | waiting op' =>
    rw [hthread] at hawake
    cases hawake
  | notified op' | woken op' =>
    obtain ⟨wakes', hw'⟩ := exists_wakes s.queue_ op'
    have hresumes : (s.queue_.thread i).resumes = some op' := by rw [hthread]; rfl
    refine ⟨.queue (.resume i wakes'), returns times { s with queue_ := s.queue_.critical i op' wakes' } i, rfl,
      ⟨rfl, op', hresumes, hw'⟩, ?_⟩
    show QueueTest.queue times s (.resume i wakes') = _
    unfold QueueTest.queue blockQueue
    dsimp only
    rw [hresumes]
    rfl

/-- A thread that is asleep is so in its call. -/
theorem waitsFor_op {T : Type} {c : Caller T} {op : Op T} (h : c.waitsFor = some op) : c.op = some op := by
  rw [Caller.eq_waiting h]
  rfl

/-- Where somebody was notified of items, it can go on. -/
theorem Good.notified_moves (h : s.Good times) {b : Bool}
    (hcount : Threads.count (Caller.isNotified b) s.queue_.thread ≠ 0) : ∃ i op, s.next times i = some op ∧
      op.isPop = b ∧ Moves times s := by
  have hsome : ∃ i, Caller.isNotified b (s.queue_.thread i) = true := by
    by_contra hnone
    exact hcount (Threads.count_eq_zero.mpr fun i => Bool.eq_false_iff.mpr fun hi => hnone ⟨i, hi⟩)
  obtain ⟨i, hi⟩ := hsome
  cases hthread : s.queue_.thread i with
  | notified op =>
    rw [hthread] at hi
    have hnext : s.next times i = some op := h.place i op (by rw [hthread]; rfl)
    exact ⟨i, op, hnext, beq_iff_eq.mp hi, moves_queue hnext (by rw [hthread]; rfl)⟩
  | _ =>
    rw [hthread] at hi
    cases hi

/-- **A thread that has not ended can go on, or another one, if there is an item.** -/
theorem Good.worker_moves (h : s.Good times) (hq : s.queue_.queue_ ≠ []) {i : Fin n} (hi : s.thread i = .running) :
    Moves times s := by
  have hnext : s.next times (some i) = some .pop := next_some_iff.mpr ⟨hi, rfl⟩
  cases hwaits : (s.queue_.thread (some i)).waitsFor with
  | none => exact moves_queue hnext hwaits
  | some op =>
    have hop := h.place _ _ (waitsFor_op hwaits)
    rw [hnext] at hop
    cases hop
    have hserved := h.fifo.served true (some i) (by rw [Caller.eq_waiting hwaits]; rfl)
    have hlen : s.queue_.queue_.length ≠ 0 := fun hz => hq (List.eq_nil_of_length_eq_zero hz)
    obtain ⟨-, -, -, -, hmoves⟩ := h.notified_moves (b := true) (by
      show Threads.count (Caller.isNotified true) s.queue_.thread ≠ 0
      have : s.queue_.supply true = s.queue_.queue_.length := rfl
      omega)
    exact hmoves

/-- A thread that has counted down and has not ended. -/
theorem running_of {x : FuncAt} (hcounted : x.counted = true) (hended : x ≠ .ended) : x = .running := by
  cases x with
  | running => rfl
  | ended => exact absurd rfl hended
  | _ => cases hcounted

/-- As long as `main` pushes, some thread is still to get its "stop". -/
theorem Good.not_all_ended (h : s.Good times) (hpos : 0 < n) {k : ℕ} (hmain : s.main = .push k) :
    ∃ i, s.thread i ≠ .ended := by
  by_contra hall
  have hended : ∀ i, FuncAt.isEnded (s.thread i) = true := fun i => by
    rw [not_not.mp fun hi => hall ⟨i, hi⟩]
    rfl
  have hstops := h.stops
  have hcard := Threads.card_le_count.mpr hended
  have hphase := h.phase
  have hpushed := h.pushed
  rw [hmain] at hphase hpushed
  rw [Fintype.card_fin, hstops] at hcard
  obtain ⟨first, hfirst⟩ := items_concat times hpos
  have hlt := hphase.1
  have hpopped : s.queue_.popped.count stop ≤ first.count stop := by
    have hprefix : s.queue_.popped <+: first := by
      rw [hfirst, List.length_append, List.length_singleton] at hlt
      have hpush : s.queue_.popped ++ s.queue_.queue_ = first.take k := by
        rw [h.fifo.order, hpushed]
        show (items times n).take k = _
        rw [hfirst, List.take_append_of_le_length (by omega)]
      exact (List.prefix_append _ _).trans (hpush ▸ List.take_prefix _ _)
    exact hprefix.sublist.count_le _
  have htotal := count_items times n
  rw [hfirst, List.count_append, List.count_singleton_self] at htotal
  omega

/-- **Some thread can go on, until `main` is through.** -/
theorem Good.progress (h : s.Good times) (hn : n < 2 ^ 31) (hpos : 0 < n) (hne : s.main ≠ .ended) :
    Moves times s := by
  have hphase := h.phase
  cases hmain : s.main with
  | create i =>
    rw [hmain] at hphase
    refine ⟨.create, { s with thread := Function.update s.thread ⟨i, hphase.1⟩ .start, main := atCreate n (i + 1) },
      rfl, ?_, ?_⟩
    · show isCreate s.main = true
      rw [hmain]
      rfl
    · show s.create = _
      unfold QueueTest.create
      rw [hmain]
      exact dif_pos hphase.1
  | wait =>
    rw [hmain] at hphase
    cases hthread : s.latch_.thread none with
    | out => exact ⟨.latch (.wait none), _, rfl, ⟨⟨hmain, rfl⟩, hthread⟩, rfl⟩
    | notified | woken =>
      refine ⟨.latch (.resume none), _, rfl, ⟨⟨hmain, rfl⟩, ?_⟩, rfl⟩
      show (s.latch_.thread none).resumes = true
      rw [hthread]
      rfl
    | waiting =>
      -- the latch is shut, and a thread has not counted down
      have hshut := h.shut.asleep none hthread
      obtain ⟨j, hj⟩ : ∃ j, (s.thread j).counted ≠ true := by
        by_contra hall
        have hopened := (h.opened_iff hn).mpr fun j => not_not.mp fun hj => hall ⟨j, hj⟩
        rw [hshut] at hopened
        cases hopened
      have hstart : s.thread j = .start := by
        cases hthr : s.thread j with
        | start => rfl
        | unborn => exact absurd hthr (hphase j)
        | _ =>
          rw [hthr] at hj
          exact absurd rfl hj
      have hout : s.latch_.thread (some j) = .out := by
        by_contra hne
        cases (h.latch _ hne).1
      exact ⟨.countDown j, _, rfl, ⟨hstart, hout⟩, rfl⟩
    | owes => exact absurd hthread (h.shut.owes none)
  | push k =>
    rw [hmain] at hphase
    obtain ⟨x, hx⟩ : ∃ x, (items times n)[k]? = some x := ⟨_, List.getElem?_eq_getElem hphase.1⟩
    have hnext : s.next times none = some (.push x) := next_none_iff.mpr ⟨k, x, hmain, hx, rfl⟩
    cases hwaits : (s.queue_.thread none).waitsFor with
    | none => exact moves_queue hnext hwaits
    | some op =>
      have hop := h.place _ _ (waitsFor_op hwaits)
      rw [hnext] at hop
      cases hop
      have hserved := h.fifo.served false none (by rw [Caller.eq_waiting hwaits]; rfl)
      by_cases hcount : Threads.count (Caller.isNotified false) s.queue_.thread = 0
      · -- the queue is full
        have hfull : s.queue_.queue_ ≠ [] := by
          intro hnil
          have hsupply : s.queue_.supply false = 20 - 0 := by
            show s.queue_.maxSize_ - s.queue_.queue_.length = _
            rw [h.fifo.size, hnil]
            rfl
          omega
        obtain ⟨i, hi⟩ := h.not_all_ended hpos hmain
        exact h.worker_moves hfull (running_of (hphase.2 i) hi)
      · obtain ⟨-, -, -, -, hmoves⟩ := h.notified_moves hcount
        exact hmoves
  | join i =>
    rw [hmain] at hphase
    by_cases hended : s.thread ⟨i, hphase.1⟩ = .ended
    · refine ⟨.join, { s with main := atJoin n (i + 1) }, rfl, ?_, ?_⟩
      · show s.joinable = true
        unfold joinable
        rw [hmain]
        dsimp only
        rw [dif_pos hphase.1, hended]
        rfl
      · show s.join = _
        unfold QueueTest.join
        rw [hmain]
    · refine h.worker_moves ?_ (running_of (hphase.2.1 _) hended)
      intro hnil
      -- all items were popped, so all threads have ended
      have horder := h.fifo.order
      have hpushed := h.pushed
      rw [hmain] at hpushed
      rw [hnil, List.append_nil, hpushed] at horder
      have hstops := h.stops
      rw [horder, show (items times n).take (MainAt.sent _ (.join i)) = items times n from List.take_length,
        count_items] at hstops
      have hall := Threads.card_le_count.mp ((Fintype.card_fin n).trans hstops.symm).le ⟨i, hphase.1⟩
      cases hthread : s.thread ⟨i, hphase.1⟩ with
      | ended => exact hended hthread
      | _ =>
        rw [hthread] at hall
        cases hall
  | ended => exact absurd hmain hne

/-! ### What is left to do -/

/-- The thread is at a call at the queue, and not asleep. -/
def able (times : ℕ) (s : QueueTest n) (i : Option (Fin n)) : Bool :=
  (s.next times i).isSome && (s.queue_.thread i).waitsFor.isNone

/-- The steps of a thread before it comes to the queue, with what they set off. -/
def beforeQueue : FuncAt → ℕ
  | .unborn => 4
  | .start => 3
  | _ => 0

/-- The steps of `main` at the latch. -/
def atLatch (s : QueueTest n) : MainAt → ℕ
  | .create _ | .wait => if s.latch_.thread none = .waiting then 1 else 2
  | _ => 0

def joins (n : ℕ) : MainAt → ℕ
  | .join i => n - i
  | .ended => 0
  | _ => n

/-- How many steps are left, if nobody is woken for no reason. -/
def left (times : ℕ) (s : QueueTest n) : ℕ :=
  2 * ((items times n).length - s.queue_.pushed.length) + 2 * ((items times n).length - s.queue_.popped.length) +
    Threads.count id (able times s) + ∑ i, beforeQueue (s.thread i) + s.atLatch s.main + joins n s.main

theorem joins_atJoin (i : ℕ) : joins n (atJoin n i) = n - i := by
  unfold atJoin
  split_ifs with hlt
  · rfl
  · exact (Nat.sub_eq_zero_of_le (not_lt.mp hlt)).symm

theorem joins_atPush (k : ℕ) : joins n (atPush times n k) = n := by
  unfold atPush
  split_ifs
  · rfl
  · exact joins_atJoin 0

theorem atLatch_atPush (k : ℕ) : t.atLatch (atPush times n k) = 0 := by
  unfold atPush atJoin
  split_ifs <;> rfl

theorem next_congr {i : Fin n} (h : t.thread i = s.thread i) : t.next times (some i) = s.next times (some i) := by
  simp only [next, h]

theorem next_idle {i : Fin n} (h : s.thread i ≠ .running) : s.next times (some i) = none := if_neg h

theorem next_main (h : ∀ k, s.main ≠ .push k) : s.next times none = none := by
  unfold next
  cases hmain : s.main with
  | push k => exact absurd hmain (h k)
  | _ => rfl

theorem able_congr {i : Option (Fin n)} (hnext : t.next times i = s.next times i)
    (hthread : t.queue_.thread i = s.queue_.thread i) : able times t i = able times s i := by
  unfold able
  rw [hnext, hthread]

theorem left_create (hs : s.create = .ok t) (hphase : Phase times s.thread s.main) :
    left times t + 1 ≤ left times s := by
  unfold QueueTest.create at hs
  split at hs
  · next i hmain =>
    rw [hmain] at hphase
    split_ifs at hs with hi
    cases hs
    have hunborn : s.thread ⟨i, hi⟩ = .unborn := (hphase.2 _).mpr le_rfl
    have hsum := Threads.sum_update beforeQueue s.thread ⟨i, hi⟩ .start
    rw [hunborn] at hsum
    have hable : Threads.count id (able times ({ s with
        thread := Function.update s.thread ⟨i, hi⟩ .start, main := atCreate n (i + 1) } : QueueTest n)) =
        Threads.count id (able times s) := by
      refine Threads.count_congr fun j => able_congr ?_ rfl
      cases j with
      | none =>
        rw [next_main (s := s) (by rw [hmain]; exact nofun), next_main]
        show ∀ k, atCreate n (i + 1) ≠ _
        unfold atCreate
        split_ifs <;> exact nofun
      | some j =>
        by_cases hj : j = ⟨i, hi⟩
        · subst hj
          rw [next_idle (s := s) (by rw [hunborn]; exact nofun), next_idle]
          show Function.update s.thread _ .start _ ≠ _
          rw [Function.update_self]
          exact nofun
        · exact next_congr (Function.update_of_ne hj _ _)
    have hlatch : atLatch ({ s with
        thread := Function.update s.thread ⟨i, hi⟩ .start, main := atCreate n (i + 1) } : QueueTest n)
        (atCreate n (i + 1)) = s.atLatch s.main := by
      rw [hmain]
      unfold atCreate
      split_ifs <;> rfl
    have hjoins : joins n (atCreate n (i + 1)) = joins n s.main := by
      rw [hmain]
      unfold atCreate
      split_ifs <;> rfl
    unfold left
    rw [hable, hlatch, hjoins]
    dsimp only
    rw [show beforeQueue .unborn = 4 from rfl, show beforeQueue .start = 3 from rfl] at hsum
    omega
  · cases hs

theorem left_countDown {i : Fin n} (hi : s.thread i = .start) (hs : s.countDown i = .ok t) :
    left times t + 1 ≤ left times s := by
  cases hs
  have hsum := Threads.sum_update beforeQueue s.thread i .running
  rw [hi, show beforeQueue .start = 3 from rfl, show beforeQueue .running = 0 from rfl] at hsum
  let t : QueueTest n := { s with latch_ := s.latch_.countDown, thread := Function.update s.thread i .running }
  have hable : Threads.count id (able times t) ≤ Threads.count id (able times s) + 1 := by
    refine Threads.count_le_succ (some (some i)) fun j => ?_
    by_cases hj : j = some i
    · subst hj
      rw [if_pos rfl]
      exact (Bool.toNat_le _).trans (Nat.le_add_left _ _)
    · rw [if_neg fun he => hj (Option.some.inj he).symm]
      have hnext : t.next times j = s.next times j := by
        cases j with
        | none => rfl
        | some j => exact next_congr (Function.update_of_ne (fun he => hj (congrArg some he)) _ _)
      rw [able_congr hnext rfl]
      exact Nat.le_add_right _ _
  have hlatch : t.atLatch s.main ≤ s.atLatch s.main + 1 := by
    unfold atLatch
    split
    · split_ifs <;> omega
    · split_ifs <;> omega
    · exact Nat.le_succ 0
  show left times t + 1 ≤ _
  have hthread : ∑ j, beforeQueue (t.thread j) = ∑ j, beforeQueue (Function.update s.thread i .running j) := rfl
  unfold left
  rw [hthread]
  show 2 * (_ - s.queue_.pushed.length) + 2 * (_ - s.queue_.popped.length) + _ + _ + t.atLatch s.main +
    joins n s.main + 1 ≤ _
  omega

theorem left_join (hj : s.joinable = true) (hs : s.join = .ok t) : left times t + 1 ≤ left times s := by
  unfold QueueTest.join at hs
  unfold joinable at hj
  split at hs
  · next i hmain =>
    cases hs
    rw [hmain] at hj
    dsimp only at hj
    split_ifs at hj with hi
    have hable : Threads.count id (able times ({ s with main := atJoin n (i + 1) } : QueueTest n)) =
        Threads.count id (able times s) := by
      refine Threads.count_congr fun j => able_congr ?_ rfl
      cases j with
      | none =>
        rw [next_main (s := s) (by rw [hmain]; exact nofun), next_main]
        show ∀ k, atJoin n (i + 1) ≠ _
        unfold atJoin
        split_ifs <;> exact nofun
      | some j => rfl
    have hlatch : atLatch ({ s with main := atJoin n (i + 1) } : QueueTest n) (atJoin n (i + 1)) = 0 := by
      unfold atJoin
      split_ifs <;> rfl
    have hjoins : joins n s.main = n - i := by
      rw [hmain]
      rfl
    unfold left
    rw [hable, hlatch, hjoins]
    dsimp only
    rw [joins_atJoin]
    omega
  · cases hs

/-- `main` at the latch. -/
theorem left_wait {e : LatchEvent (Option (Fin n))} (hmain : s.main = .wait) (he : waits e = true)
    (hg : countDownLatch.guard s.latch_ e) (hs : s.wait times e = .ok t) :
    left times t + (if (TestEvent.latch e).isSpurious then 0 else 1) ≤
      left times s + if (TestEvent.latch e).isSpurious then 1 else 0 := by
  obtain ⟨latch, hlatch, rfl⟩ := wait_eq hs
  let t : QueueTest n :=
    { s with latch_ := latch, main := if latch.thread none = .out then atPush times n 0 else s.main }
  have hable : Threads.count id (able times t) ≤
      Threads.count id (able times s) + if latch.thread none = .out then 1 else 0 := by
    split_ifs with hout
    · refine Threads.count_le_succ (some none) fun j => ?_
      cases j with
      | none =>
        rw [if_pos rfl]
        exact (Bool.toNat_le _).trans (Nat.le_add_left _ _)
      | some j => exact Nat.le_add_right _ _
    · refine (Threads.count_congr fun j => ?_).le
      rw [able_congr (s := s) (t := t) ?_ rfl]
      cases j with
      | none =>
        show QueueTest.next times { s with main := if latch.thread none = .out then _ else s.main } none = _
        rw [if_neg hout]
      | some j => rfl
  have hlatch' : t.atLatch t.main = if latch.thread none = .out then 0
      else if latch.thread none = .waiting then 1 else 2 := by
    show t.atLatch (if latch.thread none = .out then _ else s.main) = _
    split_ifs with hout hwaiting
    · exact atLatch_atPush 0
    · rw [hmain]
      exact if_pos hwaiting
    · rw [hmain]
      exact if_neg hwaiting
  have hjoins : joins n t.main = joins n s.main := by
    show joins n (if latch.thread none = .out then _ else s.main) = _
    split_ifs
    · rw [joins_atPush, hmain]
      rfl
    · rfl
  have hbefore : s.atLatch s.main = if s.latch_.thread none = .waiting then 1 else 2 := by
    rw [hmain]
    rfl
  show left times t + _ ≤ _
  unfold left
  rw [hlatch', hjoins, hbefore]
  show 2 * (_ - s.queue_.pushed.length) + 2 * (_ - s.queue_.popped.length) + _ + ∑ i, beforeQueue (s.thread i) + _ +
    _ + _ ≤ _
  cases e with
  | countDown i => cases he
  | spurious i =>
    cases i with
    | some i => cases he
    | none =>
      cases hlatch
      rw [if_pos (show s.latch_.thread none = .waiting from hg)]
      simp only [Latch.move_self, reduceCtorEq, if_false] at hable ⊢
      simp only [TestEvent.isSpurious, if_true]
      omega
  | wait i | resume i =>
    cases i with
    | some i => cases he
    | none =>
      cases hlatch
      have hawake : s.latch_.thread none ≠ .waiting := fun hw => by
        simp [countDownLatch, hw, Waiters.Place.resumes] at hg
      rw [if_neg hawake]
      rw [Latch.test_self] at hable ⊢
      simp only [TestEvent.isSpurious, Bool.false_eq_true, if_false]
      cases hopened : s.latch_.opened
      · simp only [hopened, Bool.false_eq_true, if_false, reduceCtorEq, if_true] at hable ⊢
        omega
      · simp only [hopened, if_true] at hable ⊢
        omega

/-- A thread goes to sleep, or is woken. -/
theorem count_able {b b' : Bool} {i : Option (Fin n)} (hi : able times s i = b) (hi' : able times t i = b')
    (hother : ∀ j, j ≠ i → able times t j = able times s j) :
    Threads.count id (able times t) + b.toNat = Threads.count id (able times s) + b'.toNat := by
  have hupdate : able times t = Function.update (able times s) i b' := by
    funext j
    by_cases hj : j = i
    · rw [hj, Function.update_self, hi']
    · rw [Function.update_of_ne hj, hother j hj]
  have hcount := Threads.count_update id (able times s) i b'
  rw [← hupdate, hi] at hcount
  exact hcount

/-- Whom a call that goes through does not concern. -/
theorem done_other {ι T : Type} [DecidableEq ι] {q : BlockQueue ι T} {i j : ι} {wakes : Option ι} (hi : j ≠ i)
    (hw : wakes ≠ some j) : ((q.move i .out).notifyOne wakes).thread j = q.thread j := by
  have hout : Function.update q.thread i .out j = q.thread j := Function.update_of_ne hi _ _
  cases wakes with
  | none => exact hout
  | some k => exact (Function.update_of_ne (fun he => hw (congrArg some he.symm)) _ _).trans hout

theorem awake_of_runs {T : Type} {c : Caller T} {op : Op T} (h : c.Runs op) : c.waitsFor = none := by
  rcases h with rfl | h
  · rfl
  · cases c with
    | waiting op' => cases h
    | _ => rfl

theorem able_iff {i : Option (Fin n)} :
    able times s i = true ↔ (∃ op, s.next times i = some op) ∧ (s.queue_.thread i).waitsFor = none := by
  unfold able
  rw [Bool.and_eq_true, Option.isSome_iff_exists, Option.isNone_iff_eq_none]

theorem Good.pushed_le (h : s.Good times) : s.queue_.pushed.length ≤ (items times n).length := by
  rw [h.pushed]
  exact (List.take_prefix _ _).length_le

theorem Good.popped_le (h : s.Good times) : s.queue_.popped.length ≤ (items times n).length := by
  have horder := congrArg List.length h.fifo.order
  rw [List.length_append] at horder
  have := h.pushed_le
  omega

/-- Where a call goes through, at most one other thread is woken. -/
theorem count_done {i : Option (Fin n)} {wakes : Option (Option (Fin n))} (hi : able times s i = true)
    (hthread : t.queue_.thread = ((s.queue_.move i .out).notifyOne wakes).thread)
    (hnext : ∀ j, j ≠ i → t.next times j = s.next times j) :
    Threads.count id (able times t) ≤ Threads.count id (able times s) + 1 := by
  refine Threads.count_le_succ wakes fun j => ?_
  by_cases hj : j = i
  · rw [hj, hi]
    exact (Bool.toNat_le _).trans (Nat.le_add_right _ _)
  · split_ifs with hw
    · exact (Bool.toNat_le _).trans (Nat.le_add_left _ _)
    · rw [able_congr (hnext j hj) (by rw [hthread]; exact done_other hj hw)]
      exact Nat.le_add_right _ _

/-- **What a step at the queue leaves to do.** -/
theorem left_queue (h : s.Good times) {e : QueueEvent (Option (Fin n)) Bytes} (hcalls : s.calls times e = true)
    (hg : blockQueue.guard s.queue_ e) (hs : s.queue times e = .ok t) :
    left times t + (if e.isSpurious then 0 else 1) ≤ left times s + if e.isSpurious then 1 else 0 := by
  have ht := h.queue hcalls hg hs
  obtain ⟨q, hq, rfl⟩ := queue_eq hs
  rcases BlockQueue.step_cases hg hq with ⟨he, op, wakes, hruns, hw, rfl, hcall⟩ | ⟨he, op, hwaits, rfl⟩
  · have hnext := h.next_eq hcalls hcall
    have hable : able times s e.thread = true := able_iff.mpr ⟨⟨op, hnext⟩, awake_of_runs hruns⟩
    rw [he]
    simp only [Bool.false_eq_true, if_false, Nat.add_zero]
    rcases BlockQueue.critical_cases s.queue_ e.thread op wakes with ⟨-, hq⟩ | ⟨hgo, hthread, hdone⟩
    · rw [hq, returns_stay (by rw [BlockQueue.move_self]; exact nofun)]
      have hasleep : able times { s with queue_ := s.queue_.move e.thread (.waiting op) } e.thread = false := by
        refine Bool.eq_false_iff.mpr fun hb => ?_
        have hnone := (able_iff.mp hb).2
        rw [BlockQueue.move_self] at hnone
        cases hnone
      have hcount := count_able hable hasleep fun j hj => able_congr rfl (BlockQueue.move_of_ne hj)
      rw [Bool.toNat_true, Bool.toNat_false] at hcount
      unfold left
      show 2 * (_ - s.queue_.pushed.length) + 2 * (_ - s.queue_.popped.length) + _ + ∑ i, beforeQueue (s.thread i) +
        s.atLatch s.main + joins n s.main + 1 ≤ _
      omega
    · have hout := (congrFun hthread e.thread).trans (BlockQueue.done_out hruns hw)
      revert ht hdone hout hthread
      generalize s.queue_.critical e.thread op wakes = q
      intro ht hthread hdone hout
      cases hthr : e.thread with
      | none =>
        rw [hthr] at hnext hable hthread hout ht
        obtain ⟨k, x, hmain, hx, rfl⟩ := next_none_iff.mp hnext
        obtain ⟨x', -, -, hpushed, hpopped⟩ | ⟨x', hx', -⟩ := hdone
        · rw [returns_main (s := { s with queue_ := q }) hout hmain] at ht ⊢
          have hcount := count_done (t := { s with queue_ := q, main := atPush times n (k + 1) }) hable hthread
            fun j hj => by
              obtain ⟨j, rfl⟩ := Option.ne_none_iff_exists'.mp hj
              rfl
          have hle := ht.pushed_le
          rw [show (_ : QueueTest n).queue_.pushed = s.queue_.pushed ++ [x'] from hpushed, List.length_append,
            List.length_singleton] at hle
          unfold left
          dsimp only at hcount ⊢
          rw [hpushed, hpopped, hmain, atLatch_atPush, joins_atPush, List.length_append, List.length_singleton,
            show joins n (.push k) = n from rfl, show s.atLatch (.push k) = 0 from rfl]
          omega
        · cases hx'
      | some i =>
        rw [hthr] at hnext hable hthread hout ht
        obtain ⟨hrunning, rfl⟩ := next_some_iff.mp hnext
        obtain ⟨x, hx, -⟩ | ⟨x, -, -, hpushed, hpopped⟩ := hdone
        · cases hx
        · rw [returns_func (s := { s with queue_ := q }) hout] at ht ⊢
          have hsum := Threads.sum_update beforeQueue s.thread i .ended
          rw [hrunning, show beforeQueue .running = 0 from rfl, show beforeQueue .ended = 0 from rfl] at hsum
          split_ifs at ht ⊢ with hstop
          · have hcount := count_done (t := { s with queue_ := q, thread := Function.update s.thread i .ended })
              hable hthread fun j hj => by
                cases j with
                | none => rfl
                | some j => exact next_congr (Function.update_of_ne (fun he => hj (congrArg some he)) _ _)
            have hle := ht.popped_le
            rw [show (_ : QueueTest n).queue_.popped = s.queue_.popped ++ [x] from hpopped, List.length_append,
              List.length_singleton] at hle
            unfold left
            dsimp only at hcount ⊢
            rw [hpushed, hpopped, List.length_append, List.length_singleton]
            show _ + _ + _ + _ + s.atLatch s.main + joins n s.main + 1 ≤ _
            omega
          · have hcount := count_done (t := { s with queue_ := q }) hable hthread fun j _ => rfl
            have hle := ht.popped_le
            rw [show (_ : QueueTest n).queue_.popped = s.queue_.popped ++ [x] from hpopped, List.length_append,
              List.length_singleton] at hle
            unfold left
            dsimp only at hcount ⊢
            rw [hpushed, hpopped, List.length_append, List.length_singleton]
            show _ + _ + _ + _ + s.atLatch s.main + joins n s.main + 1 ≤ _
            omega
  · rw [returns_stay (by rw [BlockQueue.move_self]; exact nofun), he]
    have hnext : s.next times e.thread = some op := h.place _ _ (by rw [hwaits]; rfl)
    have hasleep : able times s e.thread = false := by
      refine Bool.eq_false_iff.mpr fun hb => ?_
      have hnone := (able_iff.mp hb).2
      rw [hwaits] at hnone
      cases hnone
    have hable : able times { s with queue_ := s.queue_.move e.thread (.woken op) } e.thread = true :=
      able_iff.mpr ⟨⟨op, hnext⟩, by rw [BlockQueue.move_self]; rfl⟩
    have hcount := count_able hasleep hable fun j hj => able_congr rfl (BlockQueue.move_of_ne hj)
    rw [Bool.toNat_true, Bool.toNat_false] at hcount
    unfold left
    show 2 * (_ - s.queue_.pushed.length) + 2 * (_ - s.queue_.popped.length) + _ + ∑ i, beforeQueue (s.thread i) +
      s.atLatch s.main + joins n s.main + 0 ≤ _ + 1
    omega

/-- **What any step leaves to do.** -/
theorem left_step (h : s.Good times) {e : TestEvent n} (hg : (queueTest times n).guard s e)
    (hs : (queueTest times n).step s e = .ok t) :
    left times t + (if e.isSpurious then 0 else 1) ≤ left times s + if e.isSpurious then 1 else 0 := by
  cases e with
  | create => exact left_create hs h.phase
  | countDown i => exact left_countDown hg.1 hs
  | latch e => exact left_wait hg.1.1 hg.1.2 hg.2 hs
  | queue e => exact left_queue h hg.1 hg.2 hs
  | join => exact left_join hg hs

/-- How often a thread was woken for no reason. -/
def spurious (es : List (TestEvent n)) : ℕ := es.countP TestEvent.isSpurious

theorem left_run (hn : n < 2 ^ 31) {es : List (TestEvent n)} (hrun : (queueTest times n).Run s es t) :
    s.Good times → es.length + left times t ≤ left times s + 2 * spurious es := by
  induction hrun with
  | nil s =>
    intro _
    rw [List.length_nil]
    omega
  | @cons s u t e es hg hs hrun ih =>
    intro h
    have hstep := left_step h hg hs
    have hrest := ih (queueTest_step hn h hg hs)
    have hspurious : spurious (e :: es) = spurious es + if e.isSpurious then 1 else 0 := List.countP_cons
    rw [List.length_cons, hspurious]
    split_ifs at hstep ⊢ <;> omega

theorem left_start (times : ℕ) (hpos : 0 < n) : left times (start n) = 4 * times + 9 * n + 2 := by
  have hmain : (start n).main = .create 0 := if_pos hpos
  have hable : Threads.count id (able times (start n)) = 0 := by
    refine Threads.count_eq_zero.mpr fun i => ?_
    cases i with
    | none =>
      show able times (start n) none = false
      unfold able
      rw [next_main (s := start n) (by rw [hmain]; exact nofun)]
      rfl
    | some i => rfl
  have hsum : ∑ i, beforeQueue ((start n).thread i) = n * 4 := by
    show ∑ _i : Fin n, 4 = n * 4
    rw [Finset.sum_const, Finset.card_univ, Fintype.card_fin]
    rfl
  have hlen : (items times n).length = times + n := by
    unfold items
    rw [List.length_append, List.length_map, List.length_range, List.length_replicate]
  unfold left
  rw [hable, hsum, hlen, hmain]
  show 2 * (times + n - 0) + 2 * (times + n - 0) + 0 + n * 4 + 2 + n = _
  omega

end QueueTest

/-- **The test ends**: somebody can go on until `main` is through, and that not forever. -/
theorem queueTest_ends {times n : ℕ} (hn : n < 2 ^ 31) (hpos : 0 < n) {es : List (TestEvent n)} {s : QueueTest n}
    (h : (queueTest times n).Run (.start n) es s) :
    (s.main = .ended ∨ Moves times s) ∧ es.length ≤ 4 * times + 9 * n + 2 + 2 * spurious es := by
  have hgood := queueTest_good hn h
  refine ⟨or_iff_not_imp_left.mpr fun hne => hgood.progress hn hpos hne, ?_⟩
  have hleft := left_run hn h (QueueTest.start_good times n)
  rw [left_start times hpos] at hleft
  omega

/-- The thread is woken from the wait twice, once for nothing. -/
def wokenTwice : List (TestEvent 1) :=
  [.create, .latch (.wait none), .countDown single, .latch (.resume none), .queue (.call (some single) .pop none),
    .queue (.spurious (some single)), .queue (.resume (some single) none),
    .queue (.call none (.push (hello 0)) (some (some single)))]

theorem queueTest_ends_wokenTwice : ∃ s, (queueTest 1 1).Run (.start 1) wokenTwice s ∧ s.main = .push 1 ∧
    (s.main = .ended ∨ Moves 1 s) ∧ wokenTwice.length ≤ 4 * 1 + 9 * 1 + 2 + 2 * spurious wokenTwice := by
  have hrun : (((queueTest 1 1).exec (.start 1) wokenTwice).map fun s => s.main) = some (.push 1) := by
    decide +kernel
  obtain ⟨s, hs, hmain⟩ := (queueTest 1 1).exec_map_iff.mp hrun
  exact ⟨s, hs, hmain, queueTest_ends (by decide) (by decide) hs⟩

end MuduoSe
