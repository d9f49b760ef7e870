/-
# Dealing in turn

Something is dealt to `n` places, one after the other and from the last on to the first. Then no
place has got more than one more than another, whenever one looks.

Key definitions: `Dealt`.
Key theorems: `Dealt.next`, `Dealt.even`.
-/
import Mathlib.Tactic.Common

/-- Place `k` is the next, and the places before it have got one more than the others. -/
structure Dealt (count : ℕ → ℕ) (n k : ℕ) : Prop where
  next_lt : k < n
  round : ∃ q, ∀ i < n, count i = if i < k then q + 1 else q

namespace Dealt

variable {count count' : ℕ → ℕ} {n k i j : ℕ}

theorem start (hn : 0 < n) (hcount : ∀ i < n, count i = 0) : Dealt count n 0 :=
  ⟨hn, 0, fun i hi => hcount i hi⟩

theorem next (h : Dealt count n k) (hself : count' k = count k + 1)
    (hother : ∀ i < n, i ≠ k → count' i = count i) : Dealt count' n ((k + 1) % n) := by
  obtain ⟨hk, q, hq⟩ := h
  have hdealt : count' k = q + 1 := by
    rw [hself, hq k hk, if_neg (Nat.lt_irrefl k)]
  have hcount : ∀ i < n, count' i = if i < k + 1 then q + 1 else q := by
    intro i hi
    by_cases hik : i = k
    · rw [hik, if_pos (Nat.lt_succ_self k)]
      exact hdealt
    · rw [hother i hi hik, hq i hi]
      split_ifs <;> omega
  rcases Nat.lt_or_eq_of_le (Nat.succ_le_of_lt hk) with hlt | rfl
  · rw [Nat.mod_eq_of_lt hlt]
    exact ⟨hlt, q, hcount⟩
  · rw [Nat.mod_self]
    refine ⟨Nat.succ_pos k, q + 1, ?_⟩
    intro i hi
    rw [hcount i hi, if_pos hi, if_neg (Nat.not_lt_zero i)]

/-- No place has got more than one more. -/
theorem even (h : Dealt count n k) (hi : i < n) (hj : j < n) : count i ≤ count j + 1 := by
  obtain ⟨-, q, hq⟩ := h
  rw [hq i hi, hq j hj]
  split_ifs <;> omega

end Dealt
