/-
# Threads at a condition variable

Threads that wait for the supply of something go to sleep at a condition variable, and whoever adds
to the supply owes a notification until it is delivered to one of them. A thread can also be woken for
no reason.

`Enough`: where somebody is asleep and has not been notified, there are at least as many notified
threads and owed notifications as there is supply. A thread that moves keeps that if it takes as much
of the supply as it was counted for (`Enough.move`); the delivery is two such moves (`Enough.deliver`).

Key definitions: `Waiters.Place`, `Waiters.Enough`.
Key theorems: `Enough.move`, `Enough.deliver`.
-/
import MuduoSe.Lib.Threads

namespace Waiters

inductive Place
  | out
  /-- Asleep, among the waiters of the condition. -/
  | waiting
  /-- Taken from the waiters by a notification, not yet resumed. -/
  | notified
  /-- Woken without a notification, not yet resumed. -/
  | woken
  /-- Has added to the supply, and not yet notified anybody. -/
  | owes
  deriving DecidableEq, Repr

namespace Place

/-- The thread is counted for one unit of the supply. -/
def answers : Place → Bool
  | .notified | .owes => true
  | _ => false

/-- The thread is about to test the predicate of its wait. -/
def resumes : Place → Bool
  | .notified | .woken => true
  | _ => false

/-- What a notification makes of a waiter. -/
def notify : Place → Place
  | .waiting => .notified
  | p => p

theorem notify_ne (p : Place) : p.notify ≠ .waiting := by
  cases p <;> exact nofun

end Place

variable {ι : Type*} [Fintype ι] {n m : ℕ} {f : ι → Place} {i j : ι} {x : Place}

def Enough (n : ℕ) (f : ι → Place) : Prop := ∀ i, f i = .waiting → n ≤ Threads.count Place.answers f

theorem enough_zero : Enough 0 f := fun _ _ => Nat.zero_le _

theorem enough_of_nobody (h : ∀ i, f i ≠ .waiting) : Enough n f := fun i hi => absurd hi (h i)

variable [DecidableEq ι]

/-- **A thread that moves, and what becomes of the supply.** -/
theorem Enough.move (h : Enough n f) (hx : x ≠ .waiting)
    (hle : m + (f i).answers.toNat ≤ n + x.answers.toNat) : Enough m (Function.update f i x) := by
  intro j hj
  have hcount := Threads.count_update Place.answers f i x
  by_cases hji : j = i
  · subst hji
    rw [Function.update_self] at hj
    exact absurd hj hx
  · rw [Function.update_of_ne hji] at hj
    have hsupply := h j hj
    omega

/-- A notification is delivered. -/
theorem Enough.deliver (h : Enough n f) (hi : f i = .owes) (hj : f j = .waiting) :
    Enough n (Function.update (Function.update f i .out) j .notified) := by
  have hne : j ≠ i := by
    rintro rfl
    rw [hi] at hj
    cases hj
  have hnotified : Enough (n + 1) (Function.update f j .notified) := by
    refine h.move (by exact nofun) ?_
    rw [hj]
    exact le_rfl
  have hboth : Enough n (Function.update (Function.update f j .notified) i .out) := by
    refine hnotified.move (by exact nofun) ?_
    rw [Function.update_of_ne hne.symm, hi]
    exact le_rfl
  rwa [Function.update_comm hne] at hboth

end Waiters
