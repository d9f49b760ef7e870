/-
# The descriptors of a process

A process has a table of at most `limit` open files. A call that opens one gets the lowest
descriptor that is free, or `-1` if none is (`open_cases`); a `close` of what is not open does
nothing. What a descriptor stands for is any type: who holds it, say.

`room` is the number of free descriptors: an `open` that succeeds takes one, a `close` of an open
descriptor gives one back.

Key definitions: `Descriptors`, `lowest`, `opened`, `close`, `room`.
Key theorems: `open_cases`, `lowest_eq_none`, `take_room`, `close_room`.
-/
import Mathlib.Algebra.BigOperators.Group.Finset.Basic
import Mathlib.Order.Interval.Finset.Nat
import Mathlib.Tactic.Common

structure Descriptors (κ : Type*) where
  limit : ℕ
  file : ℤ → Option κ
  inside : ∀ {fd : ℤ}, (file fd).isSome = true → 0 ≤ fd ∧ fd < limit

namespace Descriptors

variable {κ : Type*}

/-- No file is open. -/
def empty (limit : ℕ) : Descriptors κ := ⟨limit, fun _ => none, fun h => Bool.noConfusion h⟩

/-- The entry of `fd` becomes `o`. -/
def assign (d : Descriptors κ) (fd : ℤ) (o : Option κ) : Descriptors κ :=
  if h : 0 ≤ fd ∧ fd < d.limit then
    { d with
      file := Function.update d.file fd o
      inside := by
        intro fd' hfd'
        by_cases heq : fd' = fd
        · exact heq ▸ h
        · rw [Function.update_of_ne heq] at hfd'
          exact d.inside hfd' }
  else d

/-- The lowest free descriptor. -/
def lowest (d : Descriptors κ) : Option ℤ :=
  ((List.range d.limit).find? fun n : ℕ => (d.file (n : ℤ)).isNone).map Int.ofNat

/-- A call that opens a file: what it returns, and the table. -/
def opened (d : Descriptors κ) (k : κ) : ℤ × Descriptors κ :=
  match d.lowest with
  | some fd => (fd, d.assign fd (some k))
  | none => (-1, d)

def close (d : Descriptors κ) (fd : ℤ) : Descriptors κ := d.assign fd none

/-- How many descriptors are free. -/
def room (d : Descriptors κ) : ℕ := ((List.range d.limit).filter fun n : ℕ => (d.file (n : ℤ)).isNone).length

variable {d : Descriptors κ} {fd : ℤ} {k : κ} {o : Option κ}

theorem file_eq_none (h : ¬(0 ≤ fd ∧ fd < d.limit)) : d.file fd = none := by
  rw [← Option.not_isSome_iff_eq_none]
  exact fun hsome => h (d.inside hsome)

@[simp] theorem assign_limit : (d.assign fd o).limit = d.limit := by
  unfold assign
  split_ifs <;> rfl

theorem assign_file (h : 0 ≤ fd ∧ fd < d.limit) : (d.assign fd o).file = Function.update d.file fd o := by
  unfold assign
  rw [dif_pos h]

@[simp] theorem close_limit : (d.close fd).limit = d.limit := assign_limit

/-- A `close` of what is not open does nothing. -/
@[simp] theorem close_file : (d.close fd).file = Function.update d.file fd none := by
  unfold close
  by_cases h : 0 ≤ fd ∧ fd < d.limit
  · exact assign_file h
  · unfold assign
    rw [dif_neg h, eq_comm, Function.update_eq_self_iff]
    exact (file_eq_none h).symm

/-- `-1` is no descriptor. -/
theorem close_neg (h : fd < 0) : d.close fd = d := by
  unfold close assign
  rw [dif_neg]
  omega

theorem lowest_eq_some (h : d.lowest = some fd) :
    0 ≤ fd ∧ fd < d.limit ∧ d.file fd = none ∧ ∀ n : ℤ, 0 ≤ n → n < fd → (d.file n).isSome = true := by
  obtain ⟨n, hn, rfl⟩ := Option.map_eq_some_iff.mp h
  obtain ⟨hnone, as, bs, hrange, hbefore⟩ := List.find?_eq_some_iff_append.mp hn
  have hlt : n < d.limit := List.mem_range.mp (List.mem_of_find?_eq_some hn)
  refine ⟨Int.natCast_nonneg n, Int.ofNat_lt.mpr hlt, Option.isNone_iff_eq_none.mp hnone, ?_⟩
  intro m h0 hm
  obtain ⟨m, rfl⟩ := Int.eq_ofNat_of_zero_le h0
  have hm : m < n := Int.ofNat_lt.mp hm
  have hin : m ∈ as := by
    have hsorted : (as ++ n :: bs).Pairwise (· < ·) := hrange ▸ List.pairwise_lt_range
    have hmem : m ∈ as ++ n :: bs := hrange ▸ List.mem_range.mpr (hm.trans hlt)
    rcases List.mem_append.mp hmem with hin | hin
    · exact hin
    · rcases List.mem_cons.mp hin with rfl | hin
      · exact absurd hm (lt_irrefl _)
      · have := (List.pairwise_cons.mp (List.pairwise_append.mp hsorted).2.1).1 m hin
        omega
  have hsome := hbefore m hin
  rw [Bool.not_eq_true', Option.isNone_eq_false_iff] at hsome
  exact hsome

theorem lowest_eq_none : d.lowest = none ↔ ∀ fd : ℤ, 0 ≤ fd → fd < d.limit → (d.file fd).isSome = true := by
  unfold lowest
  rw [Option.map_eq_none_iff, List.find?_eq_none]
  constructor
  · intro h fd h0 hlt
    obtain ⟨n, rfl⟩ := Int.eq_ofNat_of_zero_le h0
    have hn := h n (List.mem_range.mpr (Int.ofNat_lt.mp hlt))
    rw [Bool.not_eq_true, Option.isNone_eq_false_iff] at hn
    exact hn
  · intro h n hn
    rw [Bool.not_eq_true, Option.isNone_eq_false_iff]
    exact h n (Int.natCast_nonneg n) (Int.ofNat_lt.mpr (List.mem_range.mp hn))

/-- **A call that opens a file takes a free descriptor, or fails with the table full.** -/
theorem open_cases (d : Descriptors κ) (k : κ) :
    (∃ fd, d.lowest = some fd ∧ 0 ≤ fd ∧ d.file fd = none ∧ (d.opened k).1 = fd ∧
      (d.opened k).2.file = Function.update d.file fd (some k) ∧ (d.opened k).2.limit = d.limit) ∨
    (d.lowest = none ∧ d.opened k = (-1, d)) := by
  unfold opened
  cases h : d.lowest with
  | none => exact .inr ⟨rfl, rfl⟩
  | some fd =>
    obtain ⟨h0, hlt, hfree, -⟩ := lowest_eq_some h
    exact .inl ⟨fd, rfl, h0, hfree, rfl, assign_file ⟨h0, hlt⟩, assign_limit⟩

/-- What was open stays what it was. -/
theorem opened_keeps {k' : κ} (h : d.file fd = some k') : (d.opened k).2.file fd = some k' := by
  rcases d.open_cases k with ⟨n, -, -, hfree, -, hfile, -⟩ | ⟨-, hsame⟩
  · rw [hfile, Function.update_of_ne, h]
    rintro rfl
    rw [h] at hfree
    cases hfree
  · rw [hsame]
    exact h

theorem opened_self (d : Descriptors κ) (k : κ) :
    (d.opened k).1 = -1 ∨ (d.opened k).2.file (d.opened k).1 = some k := by
  rcases d.open_cases k with ⟨n, -, -, -, hret, hfile, -⟩ | ⟨-, hsame⟩
  · rw [hret, hfile, Function.update_self]
    exact .inr rfl
  · rw [hsame]
    exact .inl rfl

/-- And nothing else is open. -/
theorem opened_back {k' : κ} (h : (d.opened k).2.file fd = some k') :
    (fd = (d.opened k).1 ∧ k' = k) ∨ d.file fd = some k' := by
  rcases d.open_cases k with ⟨n, -, -, -, hret, hfile, -⟩ | ⟨-, hsame⟩
  · rw [hfile] at h
    by_cases hn : fd = n
    · rw [hn, Function.update_self, Option.some.injEq] at h
      exact .inl ⟨hn.trans hret.symm, h.symm⟩
    · rw [Function.update_of_ne hn] at h
      exact .inr h
  · rw [hsame] at h
    exact .inr h

/-! ### How many are free -/

theorem room_eq_sum : d.room = ∑ n ∈ Finset.range d.limit, (d.file n).isNone.toNat := by
  unfold room
  induction d.limit with
  | zero => rfl
  | succ n ih =>
    rw [List.range_succ, List.filter_append, List.length_append, ih, Finset.sum_range_succ,
      List.filter_singleton]
    cases (d.file (n : ℤ)).isNone <;> rfl

theorem room_eq_zero : d.room = 0 ↔ d.lowest = none := by
  rw [room_eq_sum, Finset.sum_eq_zero_iff, lowest_eq_none]
  constructor
  · intro h fd h0 hlt
    obtain ⟨n, rfl⟩ := Int.eq_ofNat_of_zero_le h0
    have hn := h n (Finset.mem_range.mpr (Int.ofNat_lt.mp hlt))
    rw [Bool.toNat_eq_zero, Option.isNone_eq_false_iff] at hn
    exact hn
  · intro h n hn
    rw [Bool.toNat_eq_zero, Option.isNone_eq_false_iff]
    exact h n (Int.natCast_nonneg n) (Int.ofNat_lt.mpr (Finset.mem_range.mp hn))

/-- The entry of one descriptor changes. -/
theorem assign_room (h : 0 ≤ fd ∧ fd < d.limit) :
    (d.assign fd o).room + (d.file fd).isNone.toNat = d.room + o.isNone.toNat := by
  obtain ⟨n, rfl⟩ := Int.eq_ofNat_of_zero_le h.1
  have hn : n ∈ Finset.range d.limit := Finset.mem_range.mpr (Int.ofNat_lt.mp h.2)
  rw [room_eq_sum, room_eq_sum, assign_limit, assign_file h, ← Finset.add_sum_erase _ _ hn,
    ← Finset.add_sum_erase _ (fun m : ℕ => (d.file (m : ℤ)).isNone.toNat) hn, Function.update_self]
  have hrest : ∑ m ∈ (Finset.range d.limit).erase n, (Function.update d.file (n : ℤ) o m).isNone.toNat =
      ∑ m ∈ (Finset.range d.limit).erase n, (d.file m).isNone.toNat := by
    refine Finset.sum_congr rfl fun m hm => ?_
    have hne : (m : ℤ) ≠ n := fun heq => Finset.ne_of_mem_erase hm (Int.ofNat_inj.mp heq)
    rw [Function.update_of_ne hne]
  rw [hrest]
  omega

/-- The lowest free descriptor is taken. -/
theorem take_room (h : d.lowest = some fd) : (d.assign fd (some k)).room + 1 = d.room := by
  obtain ⟨h0, hlt, hfree, -⟩ := lowest_eq_some h
  have hroom := assign_room (o := some k) ⟨h0, hlt⟩
  rw [hfree] at hroom
  exact hroom

theorem close_room (h : (d.file fd).isSome = true) : (d.close fd).room = d.room + 1 := by
  have hroom := assign_room (o := (none : Option κ)) (d.inside h)
  rw [Option.isNone_eq_false_iff.mpr h] at hroom
  exact hroom

end Descriptors
