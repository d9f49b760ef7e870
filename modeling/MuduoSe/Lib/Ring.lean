/-
# Circular linked lists

Nodes that are linked by a function `next` from each node to the one after it. `RingOf next l` says
that the nodes of `l`, in this order, are linked in a circle; where the circle is cut open to write
it down does not matter (`RingOf.rotate`), and a node can be inserted behind the last
(`RingOf.insert`).

Key definitions: `RingOf`.
Key theorems: `RingOf.snoc_iff`, `RingOf.next_mid`, `RingOf.rotate`, `RingOf.insert`,
`RingOf.iterate`, `RingOf.iterate_from`, `RingOf.next_inj`.
-/
import Mathlib.Data.List.Iterate
import Mathlib.Data.List.Rotate

/-- The nodes of `l`, in this order, are linked in a circle. -/
def RingOf {α : Type*} (next : α → α) (l : List α) : Prop := l.map next = l.rotate 1

namespace RingOf

variable {α : Type*} {next next' : α → α} {l m : List α} {a b c : α}

theorem congr (h : RingOf next l) (hnext : ∀ p ∈ l, next' p = next p) : RingOf next' l := by
  unfold RingOf at *
  rw [← h]
  exact List.map_congr_left hnext

/-- The circle can be cut open anywhere. -/
theorem rotate (h : RingOf next (l ++ m)) : RingOf next (m ++ l) := by
  unfold RingOf at *
  rw [← List.rotate_append_length_eq l m, List.map_rotate, h, List.rotate_rotate, List.rotate_rotate,
    Nat.add_comm]

theorem next_mid (h : RingOf next (l ++ b :: c :: m)) : next b = c := by
  have hmap : ((l ++ b :: c :: m).map next)[l.length]? = ((l ++ b :: c :: m).rotate 1)[l.length]? :=
    congrArg (fun ps => ps[l.length]?) h
  have hlt : l.length + 1 < (l ++ b :: c :: m).length := by
    simp only [List.length_append, List.length_cons]
    omega
  rw [List.getElem?_rotate (Nat.lt_of_succ_lt hlt), Nat.mod_eq_of_lt hlt, List.getElem?_map] at hmap
  simpa using hmap

/-- Every node but the last is linked to the next, and the last to the first. -/
theorem snoc_iff : RingOf next (l ++ [b]) ↔
    l.map next = (l ++ [b]).tail ∧ (l ++ [b]).head? = some (next b) := by
  unfold RingOf
  cases l with
  | nil => simp [eq_comm]
  | cons a l =>
    rw [List.cons_append, List.rotate_cons_succ, List.rotate_zero, ← List.cons_append, List.map_append]
    constructor
    · intro h
      obtain ⟨hinit, hlast⟩ := List.append_inj' h rfl
      exact ⟨hinit, congrArg some (List.singleton_inj.mp hlast).symm⟩
    · rintro ⟨hinit, hlast⟩
      rw [hinit, List.map_singleton, ← Option.some.inj hlast]
      rfl

/-- From a node on, `next` runs through the nodes behind it. -/
theorem iterate_mid : ∀ {m l : List α} {a : α}, RingOf next (l ++ a :: m) →
    List.iterate next a (m.length + 1) = a :: m
  | [], _, _, _ => rfl
  | c :: m, l, a, h => by
    have hnext : next a = c := h.next_mid
    have hm : List.iterate next c (m.length + 1) = c :: m :=
      iterate_mid (l := l ++ [a]) (by simpa using h)
    rw [List.length_cons, List.iterate, hnext, hm]

/-- Once around. -/
theorem iterate (h : RingOf next (a :: l)) : List.iterate next a (a :: l).length = a :: l :=
  iterate_mid (l := []) h

/-- From any node of the circle, once around. -/
theorem iterate_from (h : RingOf next l) (ha : a ∈ l) :
    (List.iterate next a l.length).Perm l ∧ next^[l.length] a = a := by
  have hmap : ∀ k : ℕ, l.map next^[k] = l.rotate k := by
    intro k
    induction k with
    | zero => simp
    | succ k ih =>
      calc l.map next^[k + 1] = (l.map next).map next^[k] := by
            rw [Function.iterate_succ, List.map_map]
        _ = (l.map next^[k]).rotate 1 := by rw [h, List.map_rotate]
        _ = l.rotate (k + 1) := by rw [ih, List.rotate_rotate]
  constructor
  · obtain ⟨l, m, rfl⟩ := List.append_of_mem ha
    have hiter : List.iterate next a (a :: m ++ l).length = a :: m ++ l := (rotate h).iterate
    have hlen : (l ++ a :: m).length = (a :: m ++ l).length := by
      simp only [List.length_append, List.length_cons]
      omega
    have hperm : (a :: m ++ l).Perm (l ++ a :: m) := List.perm_append_comm
    rw [hlen, hiter]
    exact hperm
  · have hid : l.map next^[l.length] = l.map id := by
      rw [hmap, List.rotate_length, List.map_id]
    exact List.map_inj_left.mp hid a ha

theorem next_mem (h : RingOf next l) (ha : a ∈ l) : next a ∈ l := by
  have hmem : next a ∈ l.map next := List.mem_map_of_mem ha
  rw [h] at hmem
  exact List.mem_rotate.mp hmem

/-- Every node is the next of one. -/
theorem exists_next (h : RingOf next l) (ha : a ∈ l) : ∃ b ∈ l, next b = a := by
  have hmem : a ∈ l.map next := by
    rw [h]
    exact List.mem_rotate.mpr ha
  exact List.mem_map.mp hmem

theorem next_inj (h : RingOf next l) (hnodup : l.Nodup) (ha : a ∈ l) (hb : b ∈ l)
    (hab : next a = next b) : a = b := by
  have hmap : (l.map next).Nodup := by
    rw [h]
    exact List.nodup_rotate.mpr hnodup
  exact List.inj_on_of_nodup_map hmap ha hb hab

/-- In a circle of two nodes or more no node is linked to itself. -/
theorem next_ne (h : RingOf next l) (hnodup : l.Nodup) (htwo : 2 ≤ l.length) (ha : a ∈ l) :
    next a ≠ a := by
  obtain ⟨l, m, rfl⟩ := List.append_of_mem ha
  have hrot := rotate h
  have hnodup : (a :: m ++ l).Nodup := (List.perm_append_comm.nodup_iff).mp hnodup
  rcases hml : m ++ l with _ | ⟨b, rest⟩
  · rw [List.append_eq_nil_iff] at hml
    rw [hml.1, hml.2] at htwo
    exact absurd htwo (Nat.not_succ_le_self 1)
  · rw [List.cons_append, hml] at hrot hnodup
    have hnext : next a = b := hrot.next_mid (l := [])
    rw [hnext]
    rintro rfl
    exact (List.nodup_cons.mp hnodup).1 List.mem_cons_self

/-- A node is inserted behind the last. -/
theorem insert (h : RingOf next (l ++ [b])) (hinit : ∀ p ∈ l, next' p = next p) (hb : next' b = c)
    (hc : next' c = next b) : RingOf next' (l ++ [b] ++ [c]) := by
  obtain ⟨htail, hhead⟩ := snoc_iff.mp h
  have hne : l ++ [b] ≠ [] := by simp
  rw [snoc_iff]
  constructor
  · rw [List.map_append, List.map_singleton, hb, List.map_congr_left hinit, htail,
      List.tail_append_of_ne_nil hne]
  · rw [List.head?_append, hhead, hc]
    rfl

end RingOf
