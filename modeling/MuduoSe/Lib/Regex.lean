/-
# Regular expressions that are a row of pieces

The ECMAScript patterns that are a concatenation of literal characters, optional
characters `c?` and captured repetitions `(p*)` of a character class. `exec` matches
one against a whole input, as `regex_match` does, and so needs no `^` and `$`: it
backtracks from left to right, takes an optional character and as many repetitions as
it can first, and returns the captures of the first way to get through.

Where the class of a repetition excludes the literal behind it there is only one way
through (`exec_many_lit`), so such a pattern splits its input at the first occurrence
of the literal.

Key definitions: `Regex.Piece`, `Regex.exec`, `Regex.Matches`.
Key theorems: `Regex.exec_matches`, `Regex.Matches.exec_isSome`, `Regex.exec_many_lit`,
`Regex.exec_many_lits_many`, `Regex.exec_many`, `Regex.exec_opt_many`.
-/
import Mathlib.Data.List.TakeWhile
import Mathlib.Tactic.Common

namespace Regex

/-- One piece of a pattern. -/
inductive Piece (α : Type*)
  /-- The character `c`. -/
  | lit (c : α)
  /-- `c?` -/
  | opt (c : α)
  /-- `(p*)`, captured. -/
  | many (p : α → Bool)

/-- The first success of `f n`, `f (n - 1)`, ..., `f 0`. -/
def firstDown {β : Type*} (f : ℕ → Option β) : ℕ → Option β
  | 0 => f 0
  | n + 1 => (f (n + 1)).or (firstDown f n)

variable {α : Type*}

/-- What a match is: how the pieces and their captures make up the input. -/
inductive Matches : List (Piece α) → List α → List (List α) → Prop
  | nil : Matches [] [] []
  | lit {c : α} {r : List (Piece α)} {s : List α} {caps : List (List α)} :
      Matches r s caps → Matches (.lit c :: r) (c :: s) caps
  | take {c : α} {r : List (Piece α)} {s : List α} {caps : List (List α)} :
      Matches r s caps → Matches (.opt c :: r) (c :: s) caps
  | skip {c : α} {r : List (Piece α)} {s : List α} {caps : List (List α)} :
      Matches r s caps → Matches (.opt c :: r) s caps
  | many {p : α → Bool} {a : List α} {r : List (Piece α)} {s : List α} {caps : List (List α)} :
      (∀ x ∈ a, p x = true) → Matches r s caps → Matches (.many p :: r) (a ++ s) (a :: caps)

/-- A pattern without repetitions for a fixed text. -/
def lits (w : List α) : List (Piece α) := w.map .lit

theorem firstDown_top {β : Type*} {f : ℕ → Option β} :
    ∀ {n : ℕ}, (∀ j < n, f j = none) → firstDown f n = f n
  | 0, _ => rfl
  | n + 1, h => by
    have ih : firstDown f n = none := by
      rw [firstDown_top fun j hj => h j (by omega)]
      exact h n (by omega)
    rw [firstDown, ih, Option.or_none]

/-- The first success, where all above it fail. -/
theorem firstDown_at {β : Type*} {f : ℕ → Option β} {b : β} {k : ℕ} (hk : f k = some b) :
    ∀ {n : ℕ}, k ≤ n → (∀ j, k < j → j ≤ n → f j = none) → firstDown f n = some b
  | 0, hn, _ => by
    obtain rfl : k = 0 := by omega
    exact hk
  | n + 1, hn, h => by
    rw [firstDown]
    rcases Nat.lt_or_ge k (n + 1) with hlt | hge
    · rw [h (n + 1) hlt le_rfl, Option.none_or]
      exact firstDown_at hk (by omega) fun j hj hjn => h j hj (by omega)
    · obtain rfl : k = n + 1 := by omega
      rw [hk, Option.some_or]

theorem firstDown_eq_some {β : Type*} {f : ℕ → Option β} {b : β} :
    ∀ {n : ℕ}, firstDown f n = some b → ∃ k ≤ n, f k = some b
  | 0, h => ⟨0, le_rfl, h⟩
  | n + 1, h => by
    rw [firstDown] at h
    rcases Option.or_eq_some_iff.mp h with h | ⟨-, h⟩
    · exact ⟨n + 1, le_rfl, h⟩
    · obtain ⟨k, hk, hf⟩ := firstDown_eq_some h
      exact ⟨k, by omega, hf⟩

theorem firstDown_isSome {β : Type*} {f : ℕ → Option β} {k : ℕ} (hf : (f k).isSome) :
    ∀ {n : ℕ}, k ≤ n → (firstDown f n).isSome
  | 0, h => by
    obtain rfl : k = 0 := by omega
    exact hf
  | n + 1, h => by
    rw [firstDown, Option.isSome_or, Bool.or_eq_true]
    by_cases hk : k = n + 1
    · exact .inl (hk ▸ hf)
    · exact .inr (firstDown_isSome hf (by omega))

/-- Fewer repetitions than possible leave a character of the class in front. -/
theorem head_drop_takeWhile {p : α → Bool} {s : List α} {k : ℕ} (h : k < (s.takeWhile p).length) :
    ∃ x t, s.drop k = x :: t ∧ p x = true := by
  have hk : k < s.length := lt_of_lt_of_le h (List.takeWhile_prefix p).length_le
  refine ⟨s[k], s.drop (k + 1), List.drop_eq_getElem_cons hk, ?_⟩
  have hmem : (s.takeWhile p)[k] ∈ s.takeWhile p := List.getElem_mem h
  have heq : (s.takeWhile p)[k] = s[k] := (List.takeWhile_prefix p).getElem h
  exact heq ▸ List.mem_takeWhile_imp hmem

theorem drop_takeWhile (p : α → Bool) (s : List α) :
    s.drop (s.takeWhile p).length = s.dropWhile p := by
  calc s.drop (s.takeWhile p).length
      = (s.takeWhile p ++ s.dropWhile p).drop (s.takeWhile p).length := by
        rw [List.takeWhile_append_dropWhile]
    _ = s.dropWhile p := List.drop_left

theorem take_takeWhile (p : α → Bool) (s : List α) :
    s.take (s.takeWhile p).length = s.takeWhile p := by
  calc s.take (s.takeWhile p).length
      = (s.takeWhile p ++ s.dropWhile p).take (s.takeWhile p).length := by
        rw [List.takeWhile_append_dropWhile]
    _ = s.takeWhile p := List.take_left

/-! ### The shape of a match -/

theorem Matches.many_lit {p : α → Bool} {c : α} {r : List (Piece α)} {s : List α}
    {caps : List (List α)} (h : Matches (.many p :: .lit c :: r) s caps) :
    ∃ a t caps', (∀ x ∈ a, p x = true) ∧ s = a ++ c :: t ∧ caps = a :: caps' ∧ Matches r t caps' := by
  rcases h with _ | _ | _ | _ | ⟨ha, _ | hr⟩
  exact ⟨_, _, _, ha, rfl, rfl, hr⟩

theorem matches_many {p : α → Bool} {r : List (Piece α)} {s : List α} {caps : List (List α)} :
    Matches (.many p :: r) s caps ↔ ∃ a t caps', (∀ x ∈ a, p x = true) ∧ s = a ++ t ∧
      caps = a :: caps' ∧ Matches r t caps' := by
  constructor
  · intro h
    obtain _ | _ | _ | _ | ⟨ha, h⟩ := h
    exact ⟨_, _, _, ha, rfl, rfl, h⟩
  · rintro ⟨a, t, caps', ha, rfl, rfl, h⟩
    exact .many ha h

theorem matches_many_end {p : α → Bool} {s : List α} {caps : List (List α)} :
    Matches [.many p] s caps ↔ (∀ x ∈ s, p x = true) ∧ caps = [s] := by
  rw [matches_many]
  constructor
  · rintro ⟨a, t, caps', ha, rfl, rfl, _ | _⟩
    rw [List.append_nil]
    exact ⟨ha, rfl⟩
  · rintro ⟨hs, rfl⟩
    exact ⟨s, [], [], hs, (List.append_nil s).symm, rfl, .nil⟩

theorem matches_lits {w : List α} {r : List (Piece α)} {s : List α} {caps : List (List α)} :
    Matches (lits w ++ r) s caps ↔ ∃ t, s = w ++ t ∧ Matches r t caps := by
  constructor
  · intro h
    induction w generalizing s with
    | nil => exact ⟨s, rfl, h⟩
    | cons c w ih =>
      rcases h with _ | h
      obtain ⟨t, rfl, ht⟩ := ih h
      exact ⟨t, rfl, ht⟩
  · rintro ⟨t, rfl, h⟩
    induction w with
    | nil => exact h
    | cons c w ih => exact .lit ih

/-! ### The matcher -/

variable [DecidableEq α]

/-- The input behind the character `c`, if it starts with it. -/
def afterChar (c : α) : List α → Option (List α)
  | [] => none
  | x :: s => if x = c then some s else none

/-- The captures of the first match of the whole input. -/
def exec : List (Piece α) → List α → Option (List (List α))
  | [], s => if s = [] then some [] else none
  | .lit c :: r, s => (afterChar c s).bind (exec r)
  | .opt c :: r, s => ((afterChar c s).bind (exec r)).or (exec r s)
  | .many p :: r, s =>
    firstDown (fun k => (exec r (s.drop k)).map (s.take k :: ·)) (s.takeWhile p).length

/-- The input without one leading `c`. -/
def strip (c : α) (s : List α) : List α := (afterChar c s).getD s

@[simp] theorem afterChar_cons (c : α) (s : List α) : afterChar c (c :: s) = some s := if_pos rfl

theorem afterChar_of_ne {c x : α} (h : x ≠ c) (s : List α) : afterChar c (x :: s) = none := if_neg h

theorem afterChar_eq_some {c : α} : ∀ {s t : List α}, afterChar c s = some t → s = c :: t
  | [], _, h => by simp [afterChar] at h
  | x :: s, t, h => by
    by_cases hx : x = c
    · subst hx
      rw [afterChar_cons, Option.some.injEq] at h
      rw [h]
    · rw [afterChar_of_ne hx] at h
      cases h

/-- **What `exec` returns is a match.** -/
theorem exec_matches : ∀ {r : List (Piece α)} {s : List α} {caps : List (List α)},
    exec r s = some caps → Matches r s caps
  | [], s, caps, h => by
    rw [exec] at h
    split_ifs at h with hs
    cases h
    exact hs ▸ .nil
  | .lit c :: r, s, caps, h => by
    rw [exec] at h
    obtain ⟨t, ht, h⟩ := Option.bind_eq_some_iff.mp h
    rw [afterChar_eq_some ht]
    exact .lit (exec_matches h)
  | .opt c :: r, s, caps, h => by
    rw [exec] at h
    rcases Option.or_eq_some_iff.mp h with h | ⟨-, h⟩
    · obtain ⟨t, ht, h⟩ := Option.bind_eq_some_iff.mp h
      rw [afterChar_eq_some ht]
      exact .take (exec_matches h)
    · exact .skip (exec_matches h)
  | .many p :: r, s, caps, h => by
    rw [exec] at h
    obtain ⟨k, hk, h⟩ := firstDown_eq_some h
    obtain ⟨caps', hr, rfl⟩ := Option.map_eq_some_iff.mp h
    have hpre : s.take k <+: s.takeWhile p :=
      take_takeWhile p s ▸ List.take_prefix_take_left hk
    have hm := Matches.many (fun x hx => List.mem_takeWhile_imp (hpre.subset hx)) (exec_matches hr)
    rwa [List.take_append_drop] at hm

/-- **Where there is a match, `exec` finds one.** -/
theorem Matches.exec_isSome {r : List (Piece α)} {s : List α} {caps : List (List α)}
    (h : Matches r s caps) : (exec r s).isSome := by
  induction h with
  | nil => rfl
  | lit _ ih => rw [exec, afterChar_cons, Option.bind_some]; exact ih
  | take _ ih => rw [exec, afterChar_cons, Option.bind_some, Option.isSome_or, ih, Bool.true_or]
  | skip _ ih => rw [exec, Option.isSome_or, ih, Bool.or_true]
  | @many p a r s caps hp _ ih =>
    rw [exec]
    refine firstDown_isSome (k := a.length) ?_ ?_
    · rw [Option.isSome_map, List.drop_left]
      exact ih
    · rw [List.takeWhile_append_of_pos hp, List.length_append]
      omega

/-- **A repetition ends where the literal behind it first occurs**, if its class
excludes that character. -/
theorem exec_many_lit {p : α → Bool} {c : α} (hc : p c = false) (r : List (Piece α)) (s : List α) :
    exec (.many p :: .lit c :: r) s =
      ((afterChar c (s.dropWhile p)).bind (exec r)).map (s.takeWhile p :: ·) := by
  rw [exec, firstDown_top]
  · rw [drop_takeWhile, take_takeWhile, exec]
  · intro j hj
    obtain ⟨x, t, hd, hx⟩ := head_drop_takeWhile hj
    have hne : x ≠ c := fun h => by rw [h, hc] at hx; cases hx
    rw [hd, exec, afterChar_of_ne hne, Option.bind_none, Option.map_none]

theorem exec_many_lit_append {p : α → Bool} {c : α} (hc : p c = false) (r : List (Piece α))
    {a : List α} (ha : ∀ x ∈ a, p x = true) (b : List α) :
    exec (.many p :: .lit c :: r) (a ++ c :: b) = (exec r b).map (a :: ·) := by
  have h1 : (a ++ c :: b).takeWhile p = a := by
    rw [List.takeWhile_append_of_pos ha]
    simp [hc]
  have h2 : (a ++ c :: b).dropWhile p = c :: b := by
    rw [List.dropWhile_append_of_pos ha]
    simp [hc]
  rw [exec_many_lit hc, h1, h2, afterChar_cons, Option.bind_some]

theorem exec_lits (w : List α) (r : List (Piece α)) (s : List α) :
    exec (lits w ++ r) (w ++ s) = exec r s := by
  induction w with
  | nil => rfl
  | cons c w ih =>
    have hc : lits (c :: w) ++ r = .lit c :: (lits w ++ r) := rfl
    rw [hc, List.cons_append, exec, afterChar_cons, Option.bind_some, ih]

/-- A text that is not in front. -/
theorem exec_lits_none {w : List α} {r : List (Piece α)} {s : List α} (h : ¬ w <+: s) :
    exec (lits w ++ r) s = none := by
  induction w generalizing s with
  | nil => exact absurd List.nil_prefix h
  | cons c w ih =>
    have hc : lits (c :: w) ++ r = .lit c :: (lits w ++ r) := rfl
    rw [hc, exec]
    cases hs : afterChar c s with
    | none => rfl
    | some t =>
      rw [Option.bind_some]
      apply ih
      rw [afterChar_eq_some hs] at h
      exact fun hp => h ((List.prefix_cons_inj c).mpr hp)

/-- A repetition at the end of a pattern takes the whole input. -/
theorem exec_many (p : α → Bool) (s : List α) :
    exec [.many p] s = if s.all p then some [s] else none := by
  rw [exec, firstDown_top]
  · rw [drop_takeWhile, take_takeWhile, exec]
    by_cases h : s.all p = true
    · have hd : s.dropWhile p = [] := List.dropWhile_eq_nil_iff.mpr (List.all_eq_true.mp h)
      have ht : s.takeWhile p = s := List.takeWhile_eq_self_iff.mpr (List.all_eq_true.mp h)
      rw [if_pos hd, if_pos h, ht]
      rfl
    · have hd : s.dropWhile p ≠ [] := fun hd =>
        h (List.all_eq_true.mpr (List.dropWhile_eq_nil_iff.mp hd))
      rw [if_neg hd, if_neg h, Option.map_none]
  · intro j hj
    obtain ⟨x, t, hd, -⟩ := head_drop_takeWhile hj
    rw [hd, exec, if_neg (by simp), Option.map_none]

/-- **A repetition before a text ends where the text last occurs.** -/
theorem exec_many_lits_many {p : α → Bool} {a w b : List α} (ha : ∀ x ∈ a, p x = true)
    (hw : ∀ x ∈ w, p x = true) (hb : ∀ x ∈ b, p x = true)
    (hlast : ∀ j, 0 < j → ¬ w <+: (w ++ b).drop j) :
    exec (.many p :: (lits w ++ [.many p])) (a ++ (w ++ b)) = some [a, b] := by
  have hall : (a ++ (w ++ b)).takeWhile p = a ++ (w ++ b) :=
    List.takeWhile_eq_self_iff.mpr fun x hx => by
      rcases List.mem_append.mp hx with hx | hx
      · exact ha x hx
      · rcases List.mem_append.mp hx with hx | hx
        · exact hw x hx
        · exact hb x hx
  rw [exec, hall]
  apply firstDown_at (k := a.length)
  · rw [List.drop_left, List.take_left, exec_lits, exec_many, if_pos (List.all_eq_true.mpr hb)]
    rfl
  · rw [List.length_append]
    omega
  · intro j hj _
    have hd : (a ++ (w ++ b)).drop j = (w ++ b).drop (j - a.length) := by
      rw [List.drop_append, List.drop_eq_nil_of_le hj.le, List.nil_append]
    rw [hd, exec_lits_none (hlast _ (by omega)), Option.map_none]

omit [DecidableEq α] in
/-- Where a text, whose first character is not in it again, last occurs before `b`. -/
theorem not_prefix_drop {c : α} {w b : List α} (hc : c ∉ w) (hb : ¬ (c :: w) <:+: b) {j : ℕ} (hj : 0 < j) :
    ¬ (c :: w) <+: (c :: w ++ b).drop j := by
  intro hp
  rcases Nat.lt_or_ge j (w.length + 1) with hlt | hge
  · -- the occurrence would start inside the text
    obtain ⟨t, ht⟩ := hp
    have hget := congrArg (·[0]?) ht
    simp only [List.cons_append, List.getElem?_cons_zero, List.getElem?_drop, Nat.add_zero] at hget
    obtain ⟨i, rfl⟩ : ∃ i, j = i + 1 := ⟨j - 1, by omega⟩
    rw [List.getElem?_cons_succ, List.getElem?_append_left (by omega)] at hget
    exact hc (List.mem_of_getElem? hget.symm)
  · have hd : (c :: w ++ b).drop j = b.drop (j - (w.length + 1)) := by
      rw [List.drop_append, List.drop_eq_nil_of_le (by simpa using hge), List.nil_append, List.length_cons]
    rw [hd] at hp
    exact hb (hp.isInfix.trans (List.drop_suffix _ _).isInfix)

/-- An optional character of the class is left out of the capture behind it. -/
theorem exec_opt_many {p : α → Bool} {c : α} (hc : p c = true) (s : List α) :
    exec [.opt c, .many p] s = if s.all p then some [strip c s] else none := by
  rw [exec, exec_many]
  unfold strip
  rcases s with _ | ⟨x, s⟩
  · rfl
  · by_cases hx : x = c
    · subst hx
      rw [afterChar_cons, Option.bind_some, exec_many, List.all_cons, hc, Bool.true_and]
      split_ifs <;> rfl
    · rw [afterChar_of_ne hx]
      rfl

end Regex
