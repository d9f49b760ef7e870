/-
# The interest list of an epoll instance

What `epoll_ctl` and `epoll_wait` promise: `EPOLL_CTL_ADD` fails on a descriptor that is in
the list, `EPOLL_CTL_MOD` and `EPOLL_CTL_DEL` on one that is not, and a call that fails
changes nothing; `epoll_wait` hands out the `data.ptr` of descriptors that are in the list.
`π` is the type of the pointers. A descriptor stays open while it is in the list.

Key definitions: `Epoll.ctl`, `Epoll.wait`.
Key theorems: `Epoll.ctl_add`, `Epoll.ctl_mod`, `Epoll.ctl_del`,
`Epoll.interest_ctl`, `Epoll.mem_wait`.
-/
import Mathlib.Logic.Function.Basic
import Mathlib.Data.Int.Notation
import Mathlib.Tactic.Common

/-- The operations of `epoll_ctl`. -/
inductive EpollOp
  | EPOLL_CTL_ADD
  | EPOLL_CTL_MOD
  | EPOLL_CTL_DEL
  deriving DecidableEq, Repr

/-- `struct epoll_event`, with its `data.ptr`. -/
structure EpollEvent (π : Type*) where
  events : BitVec 32
  ptr : π
  deriving DecidableEq, Repr

/-- An epoll instance: the event each descriptor was registered with, and whether the calls
of `epoll_ctl` so far succeeded. -/
structure Epoll (π : Type*) where
  interest : ℤ → Option (EpollEvent π)
  results : List Bool

namespace Epoll

variable {π : Type*}

def empty : Epoll π := ⟨fun _ => none, []⟩

def accepts (e : Epoll π) (op : EpollOp) (fd : ℤ) : Bool :=
  match op with
  | .EPOLL_CTL_ADD => (e.interest fd).isNone
  | .EPOLL_CTL_MOD => (e.interest fd).isSome
  | .EPOLL_CTL_DEL => (e.interest fd).isSome

/-- `epoll_ctl(epfd, op, fd, &ev)`. -/
def ctl (e : Epoll π) (op : EpollOp) (fd : ℤ) (ev : EpollEvent π) : Epoll π :=
  if e.accepts op fd then
    ⟨Function.update e.interest fd (if op = .EPOLL_CTL_DEL then none else some ev), e.results ++ [true]⟩
  else { e with results := e.results ++ [false] }

/-- What `epoll_wait` returns when the descriptors of `ready` are, each with these events. -/
def wait (e : Epoll π) (ready : List (ℤ × BitVec 32)) : List (EpollEvent π) :=
  ready.filterMap fun r => (e.interest r.1).map fun ev => ⟨r.2, ev.ptr⟩

theorem ctl_add {e : Epoll π} {fd : ℤ} (h : e.interest fd = none) (ev : EpollEvent π) :
    e.ctl .EPOLL_CTL_ADD fd ev = ⟨Function.update e.interest fd (some ev), e.results ++ [true]⟩ := by
  simp [ctl, accepts, h]

theorem ctl_mod {e : Epoll π} {fd : ℤ} {old : EpollEvent π} (h : e.interest fd = some old)
    (ev : EpollEvent π) :
    e.ctl .EPOLL_CTL_MOD fd ev = ⟨Function.update e.interest fd (some ev), e.results ++ [true]⟩ := by
  simp [ctl, accepts, h]

theorem ctl_del {e : Epoll π} {fd : ℤ} {old : EpollEvent π} (h : e.interest fd = some old)
    (ev : EpollEvent π) :
    e.ctl .EPOLL_CTL_DEL fd ev = ⟨Function.update e.interest fd none, e.results ++ [true]⟩ := by
  simp [ctl, accepts, h]

/-- After a call, an element is the one of the call, or one from before. -/
theorem interest_ctl {e : Epoll π} {op : EpollOp} {fd x : ℤ} {ev ev' : EpollEvent π}
    (h : (e.ctl op fd ev).interest x = some ev') :
    x = fd ∧ ev' = ev ∧ op ≠ .EPOLL_CTL_DEL ∨ e.interest x = some ev' ∧ (x = fd → op = .EPOLL_CTL_ADD) := by
  unfold ctl at h
  split_ifs at h with hacc hdel <;> dsimp only at h
  · by_cases hx : x = fd
    · rw [hx, Function.update_self] at h
      cases h
    · rw [Function.update_of_ne hx] at h
      exact .inr ⟨h, fun he => absurd he hx⟩
  · by_cases hx : x = fd
    · rw [hx, Function.update_self, Option.some.injEq] at h
      exact .inl ⟨hx, h.symm, hdel⟩
    · rw [Function.update_of_ne hx] at h
      exact .inr ⟨h, fun he => absurd he hx⟩
  · refine .inr ⟨h, ?_⟩
    rintro rfl
    -- only an addition fails where the descriptor is in the list
    cases op with
    | EPOLL_CTL_ADD => rfl
    | EPOLL_CTL_MOD => exact absurd (Option.isSome_iff_exists.mpr ⟨ev', h⟩) hacc
    | EPOLL_CTL_DEL => exact absurd (Option.isSome_iff_exists.mpr ⟨ev', h⟩) hacc

/-- A returned pointer was registered. -/
theorem mem_wait {e : Epoll π} {ready : List (ℤ × BitVec 32)} {ev : EpollEvent π}
    (h : ev ∈ e.wait ready) : ∃ fd old, e.interest fd = some old ∧ old.ptr = ev.ptr := by
  obtain ⟨r, -, hr⟩ := List.mem_filterMap.mp h
  obtain ⟨old, hold, hev⟩ := Option.map_eq_some_iff.mp hr
  exact ⟨r.1, old, hold, by rw [← hev]⟩

theorem wait_length_le (e : Epoll π) (ready : List (ℤ × BitVec 32)) :
    (e.wait ready).length ≤ ready.length :=
  List.length_filterMap_le _ _

end Epoll
