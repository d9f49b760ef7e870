/-
# Threads at places of their code

A family of threads is a function from threads to places. A step of one thread changes the
function at one point; what is summed or counted over all threads changes by that thread's part
(`sum_update`, `count_update`).

Key definitions: `Threads.count`.
Key theorems: `sum_update`, `count_update`, `count_eq_zero`, `card_le_count`.
-/
import Mathlib.Algebra.BigOperators.Group.Finset.Basic
import Mathlib.Algebra.BigOperators.Group.Finset.Piecewise
import Mathlib.Algebra.Order.BigOperators.Group.Finset
import Mathlib.Data.Fintype.Card
import Mathlib.Tactic.Abel

namespace Threads

variable {ι P M : Type*} [Fintype ι]

/-- How many threads are at a place with the property `p`. -/
def count (p : P → Bool) (f : ι → P) : ℕ := ∑ i, (p (f i)).toNat

theorem count_eq_zero {p : P → Bool} {f : ι → P} : count p f = 0 ↔ ∀ i, p (f i) = false := by
  unfold count
  rw [Finset.sum_eq_zero_iff]
  simp

/-- What has the property is not lost or gained. -/
theorem count_congr {p : P → Bool} {f g : ι → P} (h : ∀ i, p (f i) = p (g i)) :
    count p f = count p g := by
  unfold count
  simp only [h]

/-- A thread has the property, or it does not. -/
theorem count_add_not (p : P → Bool) (f : ι → P) : count p f + count (fun x => !p x) f = Fintype.card ι := by
  unfold count
  rw [← Finset.sum_add_distrib, Fintype.card, Finset.card_eq_sum_ones]
  refine Finset.sum_congr rfl fun i _ => ?_
  dsimp only
  cases p (f i) <;> rfl

/-- Among some threads that gain the property there is at most one. -/
theorem count_le_succ {p : P → Bool} {f g : ι → P} [DecidableEq ι] (w : Option ι)
    (h : ∀ i, (p (g i)).toNat ≤ (p (f i)).toNat + if w = some i then 1 else 0) : count p g ≤ count p f + 1 := by
  have hone : ∑ i, (if w = some i then 1 else 0) ≤ 1 := by
    cases w with
    | none => simp
    | some j => simp only [Option.some.injEq, Finset.sum_ite_eq, Finset.mem_univ, if_true, le_refl]
  calc count p g ≤ ∑ i, ((p (f i)).toNat + if w = some i then 1 else 0) := Finset.sum_le_sum fun i _ => h i
    _ = count p f + ∑ i, (if w = some i then 1 else 0) := Finset.sum_add_distrib
    _ ≤ count p f + 1 := Nat.add_le_add_left hone _

theorem count_le (p : P → Bool) (f : ι → P) : count p f ≤ Fintype.card ι :=
  Nat.le_of_add_right_le (count_add_not p f).le

theorem card_le_count {p : P → Bool} {f : ι → P} : Fintype.card ι ≤ count p f ↔ ∀ i, p (f i) = true := by
  have hadd := count_add_not p f
  have hnone : count (fun x => !p x) f = 0 ↔ ∀ i, p (f i) = true := by
    rw [count_eq_zero]
    simp
  rw [← hnone]
  omega

variable [DecidableEq ι]

/-- A sum over all threads when one of them moves. -/
theorem sum_update [AddCommMonoid M] (g : P → M) (f : ι → P) (i : ι) (x : P) :
    ∑ j, g (Function.update f i x j) + g (f i) = ∑ j, g (f j) + g x := by
  rw [← Finset.add_sum_erase _ _ (Finset.mem_univ i), ← Finset.add_sum_erase _ (fun j => g (f j))
    (Finset.mem_univ i), Function.update_self]
  have hrest : ∑ j ∈ Finset.univ.erase i, g (Function.update f i x j) =
      ∑ j ∈ Finset.univ.erase i, g (f j) := by
    refine Finset.sum_congr rfl fun j hj => ?_
    rw [Function.update_of_ne (Finset.ne_of_mem_erase hj)]
  rw [hrest]
  abel

theorem count_update (p : P → Bool) (f : ι → P) (i : ι) (x : P) :
    count p (Function.update f i x) + (p (f i)).toNat = count p f + (p x).toNat :=
  sum_update (fun y => (p y).toNat) f i x

/-- A thread that moves without a change of the property. -/
theorem count_update_same {p : P → Bool} {f : ι → P} {i : ι} {x : P} (h : p x = p (f i)) :
    count p (Function.update f i x) = count p f := by
  have := count_update p f i x
  rw [h] at this
  omega

end Threads
