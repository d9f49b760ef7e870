/-
# The first occurrence of a pattern in a list

`search` is `std::search` on lists: where the pattern first occurs. `cut` splits a
list there, into what comes before the pattern and what comes after. Both are
stable under extension: an occurrence that is found stays the first one when more
is appended (`search_append`, `cut_append`), which is what makes reading line by
line from a growing input well defined.

Key definitions: `Cut.search`, `Cut.cut`.
Key theorems: `Cut.search_of_first`, `Cut.cut_append`, `Cut.cut_eq`, `Cut.cut_free`.
-/
import Mathlib.Data.List.Infix
import Mathlib.Tactic.Common

namespace Cut

variable {α : Type*} [DecidableEq α]

/-- Where `pat` first occurs in the list. -/
def search (pat : List α) : List α → Option ℕ
  | [] => if pat = [] then some 0 else none
  | a :: s => if pat <+: a :: s then some 0 else (search pat s).map (· + 1)

/-- The list before and after the first occurrence of `pat`. -/
def cut (pat s : List α) : Option (List α × List α) :=
  (search pat s).map fun k => (s.take k, s.drop (k + pat.length))

variable {pat s t : List α} {k : ℕ}

/-- An occurrence that is found is one. -/
theorem search_drop : ∀ {s : List α} {k : ℕ}, search pat s = some k → pat <+: s.drop k
  | [], k, h => by
    simp only [search] at h
    split_ifs at h with hp
    simp [hp]
  | a :: s, k, h => by
    simp only [search] at h
    split_ifs at h with hp
    · cases h; exact hp
    · obtain ⟨j, hj, rfl⟩ := Option.map_eq_some_iff.mp h
      simpa using search_drop hj

/-- No earlier place is an occurrence. -/
theorem search_first : ∀ {s : List α} {k : ℕ}, search pat s = some k → ∀ j < k, ¬pat <+: s.drop j
  | [], k, h, j, hj => by
    simp only [search] at h
    split_ifs at h with hp
    cases h; omega
  | a :: s, k, h, j, hj => by
    simp only [search] at h
    split_ifs at h with hp
    · cases h; omega
    · obtain ⟨i, hi, rfl⟩ := Option.map_eq_some_iff.mp h
      cases j with
      | zero => exact hp
      | succ j => simpa using search_first hi j (by omega)

/-- The first occurrence is found. -/
theorem search_of_first : ∀ {s : List α} {k : ℕ}, k ≤ s.length → pat <+: s.drop k →
    (∀ j < k, ¬pat <+: s.drop j) → search pat s = some k
  | [], k, hk, h, _ => by
    have hk : k = 0 := by simpa using hk
    subst hk
    simpa [search] using h
  | a :: s, 0, _, h, _ => by
    simp only [search]
    rw [if_pos (by simpa using h)]
  | a :: s, k + 1, hk, h, hn => by
    have h0 : ¬pat <+: a :: s := by simpa using hn 0 (by omega)
    have ih := search_of_first (s := s) (k := k) (by simpa using hk) (by simpa using h)
      fun j hj => by simpa using hn (j + 1) (by omega)
    simp [search, h0, ih]

theorem search_le (h : search pat s = some k) : k + pat.length ≤ s.length ∨ pat = [] := by
  have h1 := (search_drop h).length_le
  rw [List.length_drop] at h1
  rcases Nat.lt_or_ge s.length k with h2 | h2
  · right; exact List.length_eq_zero_iff.mp (by omega)
  · left; omega

/-- An occurrence stays the first one when the list is extended. -/
theorem search_append (h : search pat s = some k) (hp : pat ≠ []) : search pat (s ++ t) = some k := by
  have hk : k + pat.length ≤ s.length := (search_le h).resolve_right hp
  refine search_of_first (by rw [List.length_append]; omega) ?_ fun j hj hpre => ?_
  · rw [List.drop_append_of_le_length (by omega)]
    exact (search_drop h).trans (List.prefix_append _ _)
  · refine search_first h j hj ?_
    rw [List.drop_append_of_le_length (by omega)] at hpre
    exact List.prefix_of_prefix_length_le hpre (List.prefix_append _ _)
      (by rw [List.length_drop]; omega)

/-- The list is put together again from its two parts. -/
theorem cut_eq {a b : List α} (h : cut pat s = some (a, b)) : s = a ++ pat ++ b := by
  obtain ⟨k, hk, he⟩ := Option.map_eq_some_iff.mp h
  simp only [Prod.mk.injEq] at he
  obtain ⟨rfl, rfl⟩ := he
  obtain ⟨r, hr⟩ := search_drop hk
  have : s.drop (k + pat.length) = r := by rw [← List.drop_drop, ← hr, List.drop_left]
  rw [this, List.append_assoc, hr, List.take_append_drop]

theorem cut_length {a b : List α} (h : cut pat s = some (a, b)) :
    s.length = a.length + pat.length + b.length := by
  rw [cut_eq h, List.length_append, List.length_append]

theorem cut_lt {a b : List α} (h : cut pat s = some (a, b)) (hp : pat ≠ []) : b.length < s.length := by
  have h1 := cut_length h
  have h2 := List.length_pos_iff.mpr hp
  omega

/-- A cut stays where it is when the list is extended. -/
theorem cut_append {a b : List α} (h : cut pat s = some (a, b)) (hp : pat ≠ []) :
    cut pat (s ++ t) = some (a, b ++ t) := by
  obtain ⟨k, hk, he⟩ := Option.map_eq_some_iff.mp h
  simp only [Prod.mk.injEq] at he
  obtain ⟨rfl, rfl⟩ := he
  have hle : k + pat.length ≤ s.length := (search_le hk).resolve_right hp
  simp only [cut, search_append hk hp, Option.map_some, Option.some.injEq, Prod.mk.injEq]
  exact ⟨List.take_append_of_le_length (by omega), List.drop_append_of_le_length (by omega)⟩

/-- A list without the first element of the pattern is cut right after it. -/
theorem cut_free {c : α} {pat a b : List α} (h : c ∉ a) :
    cut (c :: pat) (a ++ (c :: pat) ++ b) = some (a, b) := by
  have hs : search (c :: pat) (a ++ (c :: pat) ++ b) = some a.length := by
    refine search_of_first (by simp) ?_ fun j hj hpre => h ?_
    · rw [List.append_assoc, List.drop_left]
      exact List.prefix_append _ _
    · obtain ⟨r, hr⟩ := hpre
      rw [List.append_assoc, List.drop_append_of_le_length hj.le, List.drop_eq_getElem_cons hj,
        List.cons_append, List.cons_append, List.cons.injEq] at hr
      exact hr.1 ▸ List.getElem_mem hj
  simp only [cut, hs, Option.map_some, Option.some.injEq, Prod.mk.injEq]
  constructor
  · rw [List.append_assoc, List.take_left]
  · rw [← List.length_append, List.drop_left]

/-- What stands around the first `c` is determined by the list. -/
theorem free_inj {c : α} {a a' b b' : List α} (h : c ∉ a) (h' : c ∉ a')
    (he : a ++ c :: b = a' ++ c :: b') : a = a' ∧ b = b' := by
  have hcut : ∀ {a b : List α}, c ∉ a → cut [c] (a ++ c :: b) = some (a, b) := by
    intro a b ha
    have hfree : cut [c] (a ++ [c] ++ b) = some (a, b) := cut_free ha
    rwa [List.append_assoc, List.singleton_append] at hfree
  have heq := hcut h (b := b)
  rw [he, hcut h', Option.some.injEq, Prod.mk.injEq] at heq
  exact ⟨heq.1.symm, heq.2.symm⟩

end Cut
