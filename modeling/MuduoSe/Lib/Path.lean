/-
# Paths and where they lead

A path is a list of components; `.` and empty ones say nothing, `..` goes up, and any other goes
down. `walk` follows the components from a directory, which is the list of the names that lead to
it; above the root there is nothing, so `..` stays there.

Without a directory the components come to a number of steps up and the names behind them
(`climb`). `walk_eq`: that is all a directory has to know. So whether a path leads back into the
directory it starts from depends on the two only: it does if the names behind `k` steps up begin
with the last `k` names of the directory (`prefix_walk_iff`).

Key definitions: `Path.steps`, `Path.walk`, `Path.climb`.
Key theorems: `Path.steps_append`, `Path.walk_append`, `Path.walk_eq`, `Path.prefix_walk_iff`.
-/
import Mathlib.Data.List.Basic

namespace Path

variable {α ν : Type*}

/-- What a component says. -/
inductive Step (ν : Type*)
  | up
  | down (name : ν)
  deriving DecidableEq, Repr

/-! ### From a directory -/

/-- Where the steps lead from the directory `dir`. -/
def walk (dir : List ν) : List (Step ν) → List ν
  | [] => dir
  | .up :: s => walk dir.dropLast s
  | .down n :: s => walk (dir ++ [n]) s

theorem walk_append (dir : List ν) (s t : List (Step ν)) : walk dir (s ++ t) = walk (walk dir s) t := by
  induction s generalizing dir with
  | nil => rfl
  | cons x s ih =>
    cases x with
    | up => exact ih _
    | down n => exact ih _

/-! ### Without one -/

/-- The steps up, and the names behind them. -/
structure Climb (ν : Type*) where
  ups : ℕ
  names : List ν
  deriving DecidableEq, Repr

/-- One more step. -/
def Climb.step : Climb ν → Step ν → Climb ν
  | ⟨k, []⟩, .up => ⟨k + 1, []⟩
  | ⟨k, n :: names⟩, .up => ⟨k, (n :: names).dropLast⟩
  | ⟨k, names⟩, .down n => ⟨k, names ++ [n]⟩

/-- The steps without the names that are left again. -/
def climb (s : List (Step ν)) : Climb ν := s.foldl Climb.step ⟨0, []⟩

/-- Where the directory goes with that. -/
def Climb.from (c : Climb ν) (dir : List ν) : List ν := dir.take (dir.length - c.ups) ++ c.names

theorem Climb.from_step (c : Climb ν) (dir : List ν) (x : Step ν) :
    (c.step x).from dir = walk (c.from dir) [x] := by
  obtain ⟨k, names⟩ := c
  cases x with
  | down n =>
    have hstep : Climb.step ⟨k, names⟩ (.down n) = ⟨k, names ++ [n]⟩ := by cases names <;> rfl
    rw [hstep]
    exact (List.append_assoc _ _ _).symm
  | up =>
    cases names with
    | nil =>
      have hmin : min (min (dir.length - k) dir.length - 1) (dir.length - k) = dir.length - (k + 1) := by omega
      show dir.take (dir.length - (k + 1)) ++ [] = (dir.take (dir.length - k) ++ []).dropLast
      rw [List.append_nil, List.append_nil, List.dropLast_eq_take, List.length_take, List.take_take, hmin]
    | cons n names => exact List.dropLast_append_cons.symm

/-- **A directory only has to know that.** -/
theorem walk_eq (dir : List ν) (s : List (Step ν)) : walk dir s = (climb s).from dir := by
  have hfrom : ∀ (s : List (Step ν)) (c : Climb ν), walk (c.from dir) s = (s.foldl Climb.step c).from dir := by
    intro s
    induction s with
    | nil => exact fun _ => rfl
    | cons x s ih =>
      intro c
      rw [List.foldl_cons, ← ih, Climb.from_step, ← walk_append]
      rfl
  have hstart : (⟨0, []⟩ : Climb ν).from dir = dir := by
    unfold Climb.from
    rw [Nat.sub_zero, List.take_length, List.append_nil]
  calc walk dir s = walk ((⟨0, []⟩ : Climb ν).from dir) s := by rw [hstart]
    _ = (climb s).from dir := hfrom s _

/-- **Which paths lead back into the directory they start from.** -/
theorem prefix_walk_iff (dir : List ν) (s : List (Step ν)) :
    dir <+: walk dir s ↔ dir.drop (dir.length - (climb s).ups) <+: (climb s).names := by
  rw [walk_eq]
  unfold Climb.from
  nth_rewrite 1 [← List.take_append_drop (dir.length - (climb s).ups) dir]
  exact List.prefix_append_right_inj _

/-! ### The components of a string -/

variable [DecidableEq α] (sep dot : α)

/-- What the components say, where `sep` stands between them. -/
def steps (s : List α) : List (Step (List α)) :=
  (s.splitOn sep).filterMap fun c =>
    if c = [] ∨ c = [dot] then none else if c = [dot, dot] then some .up else some (.down c)

theorem steps_append (s t : List α) : steps sep dot (s ++ sep :: t) = steps sep dot s ++ steps sep dot t := by
  unfold steps
  rw [List.splitOn_append_cons_self, List.filterMap_append]

end Path
