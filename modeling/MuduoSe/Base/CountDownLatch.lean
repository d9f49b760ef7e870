/-
# CountDownLatch

`base/countdownlatch.cc`: any finite number of threads `ι` that call `wait` and `countDown`. `count_` is
an `int`, `countDown` notifies all waiters when it becomes zero, and a critical section of `mutex_` is
one step.

* `latch_opens`: a latch made with `n` lets nobody through before the `n`-th `countDown`, from then on it
  lets everybody through that comes or is woken, and nobody is left asleep. That ends `2 ^ 31` calls later,
  when `count_` wraps around.

Key definitions: `Latch`, `countDownLatch`, `Latch.downs`.
Key theorems: `latch_step`, `count_eq`, `latch_opens`.
-/
import MuduoSe.Base.Buffer
import MuduoSe.Lib.Waiters

namespace MuduoSe

open Waiters

structure Latch (ι : Type) where
  count_ : BitVec 32
  thread : ι → Place

inductive LatchEvent (ι : Type)
  | countDown (i : ι)
  /-- A call of `wait`. -/
  | wait (i : ι)
  /-- The wait on the condition returns. -/
  | resume (i : ι)
  /-- A waiter is woken without a notification. -/
  | spurious (i : ι)
  deriving DecidableEq, Repr

namespace Latch

variable {ι : Type}

def start (count : ℕ) : Latch ι := ⟨BitVec.ofNat 32 count, fun _ => .out⟩

/-- The predicate of the wait, `count_<=0`. -/
def opened (s : Latch ι) : Bool := s.count_.sle 0#32

def notifyAll (s : Latch ι) : Latch ι := { s with thread := fun i => (s.thread i).notify }

def countDown (s : Latch ι) : Latch ι :=
  let s := { s with count_ := s.count_ - 1#32 }
  if s.count_ = 0#32 then s.notifyAll else s

variable [DecidableEq ι]

def move (s : Latch ι) (i : ι) (p : Place) : Latch ι := { s with thread := Function.update s.thread i p }

/-- `wait`, from a test of its predicate on. -/
def test (s : Latch ι) (i : ι) : Latch ι := s.move i (if s.opened then .out else .waiting)

end Latch

section

variable {ι : Type} [DecidableEq ι]

/-- The threads that call `countDown` and `wait`. -/
def countDownLatch : System (Latch ι) (LatchEvent ι) Fault where
  guard s
    | .countDown i | .wait i => s.thread i = .out
    | .resume i => (s.thread i).resumes = true
    | .spurious i => s.thread i = .waiting
  step s
    | .countDown _ => .ok s.countDown
    | .wait i | .resume i => .ok (s.test i)
    | .spurious i => .ok (s.move i .woken)

instance (s : Latch ι) : (ev : LatchEvent ι) → Decidable (countDownLatch.guard s ev)
  | .countDown _ | .wait _ | .spurious _ => inferInstanceAs (Decidable (_ = _))
  | .resume _ => inferInstanceAs (Decidable (_ = _))

namespace Latch

variable {s t : Latch ι} {i j : ι} {p : Place}

@[simp] theorem move_self : (s.move i p).thread i = p := Function.update_self ..

theorem move_of_ne (h : j ≠ i) : (s.move i p).thread j = s.thread j := Function.update_of_ne h ..

theorem test_self : (s.test i).thread i = if s.opened then .out else .waiting := move_self

theorem test_of_ne (h : j ≠ i) : (s.test i).thread j = s.thread j := move_of_ne h

/-- Whoever is asleep waits for something; notifications are part of the critical sections. -/
structure Shut (s : Latch ι) : Prop where
  asleep : ∀ i, s.thread i = .waiting → s.opened = false
  owes : ∀ i, s.thread i ≠ .owes

omit [DecidableEq ι] in
theorem start_shut (n : ℕ) : (start n : Latch ι).Shut := ⟨nofun, nofun⟩

omit [DecidableEq ι] in
/-- A latch that is not open is so after a `countDown` that does not notify. -/
theorem shut_pred {c : BitVec 32} (h : c.sle 0#32 = false) (h0 : c - 1#32 ≠ 0#32) : (c - 1#32).sle 0#32 = false := by
  rw [BitVec.sle_eq_decide, decide_eq_false_iff_not] at h ⊢
  have hne : (c - 1#32).toNat ≠ 0 := fun hz => h0 (BitVec.eq_of_toNat_eq hz)
  rw [BitVec.toInt_eq_toNat_cond] at h ⊢
  rw [BitVec.toNat_sub] at hne ⊢
  have hlt := c.isLt
  simp only [BitVec.toNat_ofNat, BitVec.toInt_zero] at *
  split_ifs at * <;> omega

omit [DecidableEq ι] in
theorem Shut.countDown (h : s.Shut) : s.countDown.Shut := by
  unfold Latch.countDown
  dsimp only
  split_ifs with h0
  · refine ⟨fun i hi => absurd hi (Place.notify_ne _), fun i hi => h.owes i ?_⟩
    have hi : (s.thread i).notify = .owes := hi
    cases hthread : s.thread i with
    | owes => rfl
    | _ =>
      rw [hthread] at hi
      cases hi
  · exact ⟨fun i hi => shut_pred (h.asleep i hi) h0, h.owes⟩

/-- A thread moves, and sleeps only where the latch is shut. -/
theorem Shut.move (h : s.Shut) (hp : p ≠ .owes) (hwaits : p = .waiting → s.opened = false) : (s.move i p).Shut := by
  refine ⟨fun j hj => ?_, fun j => ?_⟩
  · show s.opened = false
    by_cases hji : j = i
    · subst hji
      rw [move_self] at hj
      exact hwaits hj
    · rw [move_of_ne hji] at hj
      exact h.asleep j hj
  · by_cases hji : j = i
    · subst hji
      rwa [move_self]
    · rw [move_of_ne hji]
      exact h.owes j

theorem Shut.test (h : s.Shut) (i : ι) : (s.test i).Shut := by
  unfold Latch.test
  split_ifs with hopened
  · exact h.move nofun nofun
  · exact h.move nofun fun _ => Bool.eq_false_iff.mpr hopened

/-- How many of the events are calls of `countDown`. -/
def downs : List (LatchEvent ι) → ℕ
  | [] => 0
  | .countDown _ :: es => downs es + 1
  | _ :: es => downs es

omit [DecidableEq ι] in
@[simp] theorem countDown_count (s : Latch ι) : s.countDown.count_ = s.count_ - 1#32 := by
  unfold countDown
  dsimp only
  split_ifs
  · rfl
  · rfl

/-- What is left of the count after some events. -/
theorem count_eq {es : List (LatchEvent ι)} (h : countDownLatch.Run s es t) :
    t.count_ + BitVec.ofNat 32 (downs es) = s.count_ := by
  induction h with
  | nil s => exact BitVec.add_zero _
  | @cons s u t e es hg hs hrun ih =>
    cases e with
    | countDown i =>
      cases hs
      rw [countDown_count] at ih
      rw [downs, BitVec.ofNat_add, ← BitVec.add_assoc, ih]
      exact BitVec.sub_add_cancel _ _
    | wait i | resume i | spurious i =>
      cases hs
      exact ih

omit [DecidableEq ι] in
/-- The latch is open from the `n`-th `countDown` on, for `2 ^ 31` further ones. -/
theorem opened_iff {n d : ℕ} (hn : n < 2 ^ 31)
    (hcount : s.count_ + BitVec.ofNat 32 d = BitVec.ofNat 32 n) (hd : d ≤ n + 2 ^ 31) :
    s.opened = true ↔ n ≤ d := by
  have hmod : (s.count_.toNat + d % 2 ^ 32) % 2 ^ 32 = n % 2 ^ 32 := by
    rw [← BitVec.toNat_ofNat d 32, ← BitVec.toNat_add, hcount, BitVec.toNat_ofNat]
  have hlt := s.count_.isLt
  unfold opened
  rw [BitVec.sle_eq_decide, decide_eq_true_iff, BitVec.toInt_eq_toNat_cond]
  simp only [BitVec.toInt_zero]
  split_ifs <;> omega

end Latch

/-- Whatever can happen next. -/
theorem latch_step {s t : Latch ι} (h : s.Shut) {ev : LatchEvent ι} (hs : countDownLatch.step s ev = .ok t) :
    t.Shut := by
  cases ev with
  | countDown i =>
    cases hs
    exact h.countDown
  | wait i | resume i =>
    cases hs
    exact h.test i
  | spurious i =>
    cases hs
    exact h.move nofun nofun

/-- **The latch opens with the `n`-th `countDown`**, and nobody is left asleep at it. -/
theorem latch_opens {n : ℕ} (hn : n < 2 ^ 31) {es : List (LatchEvent ι)} {s : Latch ι}
    (h : countDownLatch.Run (.start n) es s) (hd : Latch.downs es ≤ n + 2 ^ 31) :
    (∀ i, s.thread i = .waiting → Latch.downs es < n) ∧
      ∀ i e t, e = .wait i ∨ e = .resume i → countDownLatch.step s e = .ok t →
        (t.thread i = .out ↔ n ≤ Latch.downs es) := by
  have hopened := Latch.opened_iff (s := s) hn (Latch.count_eq h) hd
  have hshut : s.Shut := h.invariant (I := Latch.Shut) (fun hi _ hs => latch_step hi hs) (Latch.start_shut n)
  refine ⟨fun i hi => ?_, fun i e t he hs => ?_⟩
  · have hclosed := hshut.asleep i hi
    rw [← not_le, ← hopened, hclosed]
    exact Bool.false_ne_true
  · have ht : t = s.test i := by
      rcases he with rfl | rfl
      · exact (Except.ok.inj hs).symm
      · exact (Except.ok.inj hs).symm
    rw [ht, Latch.test_self, ← hopened]
    cases s.opened
    · exact ⟨nofun, nofun⟩
    · exact ⟨fun _ => rfl, fun _ => rfl⟩

end

/-- Two threads wait, one is woken too early, and the second `countDown` lets both go. -/
def twoDowns : List (LatchEvent ℕ) :=
  [.wait 0, .wait 1, .countDown 2, .spurious 1, .resume 1, .countDown 3]

theorem latch_opens_twoDowns : ∃ s, countDownLatch.Run (.start 2) twoDowns s ∧ s.thread 1 = .notified ∧
    (∀ i, s.thread i = .waiting → Latch.downs twoDowns < 2) ∧
      ∀ i e t, e = .wait i ∨ e = .resume i → countDownLatch.step s e = .ok t →
        (t.thread i = .out ↔ 2 ≤ Latch.downs twoDowns) := by
  have hrun : ((countDownLatch.exec (.start 2) twoDowns).map fun s => s.thread 1) = some .notified := by
    decide +kernel
  obtain ⟨s, hs, hview⟩ := countDownLatch.exec_map_iff.mp hrun
  exact ⟨s, hs, hview, latch_opens (by decide) hs (by decide)⟩

end MuduoSe
