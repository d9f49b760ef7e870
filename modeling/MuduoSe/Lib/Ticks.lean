/-
# One item per tick

Items arrive one behind the other as a stream; `ticks` are the positions the stream has
reached at each tick. A tick serves the next item if all of it has arrived, and no
second one. An exact item can only be served by a tick that ends where it ends.

`served_iff`: all items are served if and only if every block of items that ends with an
exact item or with the last one has as many ticks between the end of its first item
and its own end as it has items.

Key definitions: `Ticks.Served`, `Ticks.Covered`.
Key theorems: `Ticks.served_iff`.
-/
import Mathlib.Algebra.GroupWithZero.Nat
import Mathlib.Data.List.Count
import Mathlib.Tactic.Common

namespace Ticks

/-- An item takes `size` of the stream. -/
structure Item where
  size : ℕ
  exact : Bool
  deriving DecidableEq, Repr

/-- How much of the stream some items take. -/
def total (items : List Item) : ℕ := (items.map Item.size).sum

/-- From position `o` on, the ticks serve all the items. -/
def Served : ℕ → List Item → List ℕ → Prop
  | _, items, [] => items = []
  | _, [], _ :: _ => True
  | o, i :: items, b :: ticks =>
    if b < o + i.size then Served o (i :: items) ticks
    else (i.exact = true → b = o + i.size) ∧ Served (o + i.size) items ticks

/-- Whether the block of `i` and `mid` ends with an exact item. -/
def endsExact : Item → List Item → Bool
  | i, [] => i.exact
  | _, j :: mid => endsExact j mid

/-- The ticks between `lo` and `hi`, both included. -/
def within (lo hi : ℕ) (ticks : List ℕ) : ℕ := ticks.countP fun b => lo ≤ b && b ≤ hi

/-- Every block that ends with an exact item or with the last one has as many ticks
between the end of its first item and its own end as it has items. -/
def Covered (o : ℕ) (items : List Item) (ticks : List ℕ) : Prop :=
  ∀ pre i mid post, items = pre ++ i :: (mid ++ post) → (post = [] ∨ endsExact i mid = true) →
    mid.length + 1 ≤ within (o + total pre + i.size) (o + total pre + i.size + total mid) ticks

/-- The end of a block does not depend on where it starts. -/
theorem endsExact_append (i j : Item) (pre mid : List Item) :
    endsExact i (pre ++ j :: mid) = endsExact j mid := by
  induction pre generalizing i with
  | nil => rfl
  | cons k pre ih => exact ih k

@[simp] theorem total_nil : total [] = 0 := rfl

@[simp] theorem total_cons (i : Item) (items : List Item) :
    total (i :: items) = i.size + total items := rfl

theorem total_append (a b : List Item) : total (a ++ b) = total a + total b := by
  simp only [total, List.map_append, List.sum_append]

theorem within_cons_in {lo hi b : ℕ} (h1 : lo ≤ b) (h2 : b ≤ hi) (ticks : List ℕ) :
    within lo hi (b :: ticks) = within lo hi ticks + 1 :=
  List.countP_cons_of_pos (by simp [h1, h2])

theorem within_cons_out {lo hi b : ℕ} (h : ¬(lo ≤ b ∧ b ≤ hi)) (ticks : List ℕ) :
    within lo hi (b :: ticks) = within lo hi ticks :=
  List.countP_cons_of_neg (by simpa using h)

theorem within_cons_le (lo hi b : ℕ) (ticks : List ℕ) :
    within lo hi ticks ≤ within lo hi (b :: ticks) := by
  unfold within
  rw [List.countP_cons]
  exact Nat.le_add_right _ _

/-- A lower bound below all ticks can be any other such bound. -/
theorem within_le {lo lo' hi : ℕ} {ticks : List ℕ} (h : ∀ b ∈ ticks, lo ≤ b → lo' ≤ b) :
    within lo hi ticks ≤ within lo' hi ticks := by
  refine List.countP_mono_left fun b hb hp => ?_
  simp only [Bool.and_eq_true, decide_eq_true_eq] at hp ⊢
  exact ⟨h b hb hp.1, hp.2⟩

theorem exists_within {lo hi : ℕ} {ticks : List ℕ} (h : 0 < within lo hi ticks) :
    ∃ b ∈ ticks, lo ≤ b ∧ b ≤ hi := by
  obtain ⟨b, hb, hp⟩ := List.countP_pos_iff.mp h
  simp only [Bool.and_eq_true, decide_eq_true_eq] at hp
  exact ⟨b, hb, hp⟩

variable {o b : ℕ} {i : Item} {items : List Item} {ticks : List ℕ}

/-- A tick inside the first item is in no block. -/
theorem covered_skip (hb : b < o + i.size) :
    Covered o (i :: items) (b :: ticks) ↔ Covered o (i :: items) ticks := by
  have hout : ∀ pre j mid post, i :: items = pre ++ j :: (mid ++ post) →
      within (o + total pre + j.size) (o + total pre + j.size + total mid) (b :: ticks) =
        within (o + total pre + j.size) (o + total pre + j.size + total mid) ticks := by
    intro pre j mid post h
    refine within_cons_out (fun hin => ?_) ticks
    rcases pre with _ | ⟨k, pre⟩
    · obtain rfl : i = j := (List.cons.inj h).1
      rw [total_nil] at hin
      omega
    · obtain rfl : i = k := (List.cons.inj h).1
      rw [total_cons] at hin
      omega
  constructor
  · intro h pre j mid post he hend
    rw [← hout pre j mid post he]
    exact h pre j mid post he hend
  · intro h pre j mid post he hend
    rw [hout pre j mid post he]
    exact h pre j mid post he hend

/-- A tick that serves the first item: the blocks that start there need it, the others
do without it. -/
theorem covered_serve (hb : o + i.size ≤ b) (hle : b ≤ o + i.size + total items)
    (hs : ∀ c ∈ ticks, b ≤ c) :
    Covered o (i :: items) (b :: ticks) ↔
      (i.exact = true → b = o + i.size) ∧ Covered (o + i.size) items ticks := by
  constructor
  · intro h
    refine ⟨fun hex => ?_, fun pre j mid post he hend => ?_⟩
    · have h1 := h [] i [] items rfl (.inr hex)
      obtain ⟨c, hc, hlo, hhi⟩ := exists_within (Nat.lt_of_lt_of_le Nat.one_pos h1)
      rw [total_nil] at hlo hhi
      rcases List.mem_cons.mp hc with rfl | hc
      · omega
      · have := hs c hc
        omega
    · have h1 := h (i :: pre) j mid post (by rw [he, List.cons_append]) hend
      rw [total_cons, ← Nat.add_assoc] at h1
      by_cases hin : o + i.size + total pre + j.size ≤ b ∧
          b ≤ o + i.size + total pre + j.size + total mid
      · -- the whole block from `i` on has this tick and all later ones
        have h2 := h [] i (pre ++ j :: mid) post
          (by rw [he, List.nil_append, List.append_assoc, List.cons_append])
          (by rwa [endsExact_append])
        simp only [total_nil, Nat.add_zero, total_append, total_cons, List.length_append,
          List.length_cons] at h2
        rw [within_cons_in hb (by omega)] at h2
        have h3 : within (o + i.size) (o + i.size + (total pre + (j.size + total mid))) ticks ≤
            within (o + i.size + total pre + j.size)
              (o + i.size + (total pre + (j.size + total mid))) ticks :=
          within_le fun c hc _ => Nat.le_trans hin.1 (hs c hc)
        have hhi : o + i.size + (total pre + (j.size + total mid)) =
            o + i.size + total pre + j.size + total mid := by omega
        rw [hhi] at h2 h3
        omega
      · rwa [within_cons_out hin] at h1
  · rintro ⟨hex, h⟩ pre j mid post he hend
    rcases pre with _ | ⟨k, pre⟩
    · obtain ⟨rfl, htail⟩ := List.cons.inj he
      rcases mid with _ | ⟨k, mid⟩
      · have hbe : b = o + i.size := by
          rcases hend with rfl | hend
          · rw [htail] at hle
            simp only [List.nil_append, total_nil] at hle
            omega
          · exact hex hend
        simp only [total_nil, Nat.add_zero]
        rw [within_cons_in hb (by omega), List.length_nil]
        omega
      · have h1 := h [] k mid post htail hend
        simp only [total_nil, Nat.add_zero, total_cons, ← Nat.add_assoc] at h1 ⊢
        obtain ⟨c, hc, -, hhi⟩ := exists_within (Nat.lt_of_lt_of_le (Nat.succ_pos _) h1)
        have hbc := hs c hc
        have h2 : within (o + i.size + k.size) (o + i.size + k.size + total mid) ticks ≤
            within (o + i.size) (o + i.size + k.size + total mid) ticks :=
          within_le fun c _ hlo => by omega
        rw [within_cons_in hb (by omega), List.length_cons]
        omega
    · obtain ⟨rfl, htail⟩ := List.cons.inj he
      have h1 := h pre j mid post htail hend
      rw [total_cons, ← Nat.add_assoc]
      exact Nat.le_trans h1 (within_cons_le _ _ _ _)

/-- **When one item per tick is enough.** -/
theorem served_iff : ∀ {o : ℕ} {items : List Item} {ticks : List ℕ}, ticks.Pairwise (· ≤ ·) →
    (∀ b ∈ ticks, b ≤ o + total items) → (Served o items ticks ↔ Covered o items ticks)
  | o, [], [], _, _ => by
    refine ⟨fun _ pre i mid post he => ?_, fun _ => rfl⟩
    simp at he
  | o, i :: items, [], _, _ => by
    refine ⟨fun h => (List.cons_ne_nil _ _ h).elim, fun h => ?_⟩
    have h1 := h [] i items [] (by simp) (.inl rfl)
    simp [within] at h1
  | o, [], b :: ticks, _, _ => by
    refine ⟨fun _ pre i mid post he => ?_, fun _ => trivial⟩
    simp at he
  | o, i :: items, b :: ticks, hs, hle => by
    obtain ⟨hb, hs⟩ := List.pairwise_cons.mp hs
    have hle' : ∀ c ∈ ticks, c ≤ o + total (i :: items) := fun c hc =>
      hle c (List.mem_cons_of_mem _ hc)
    have hbt : b ≤ o + i.size + total items := by
      have := hle b List.mem_cons_self
      rw [total_cons] at this
      omega
    rw [Served]
    by_cases hlt : b < o + i.size
    · rw [if_pos hlt, covered_skip hlt]
      exact served_iff hs hle'
    · rw [if_neg hlt, covered_serve (Nat.not_lt.mp hlt) hbt hb,
        served_iff hs fun c hc => by
          have := hle' c hc
          rw [total_cons] at this
          omega]

end Ticks
