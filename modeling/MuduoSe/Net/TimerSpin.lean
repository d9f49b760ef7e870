/-
# When `handleRead` clears the timerfd

Nothing reads the timerfd (`handlread` reads the eventfd, for `wakechannel_` alone), so the poller reports
it until `timerfd_settime` is called again. `fflash` calls it when a timer is left to wait for;
when the batch was all there was, the timerfd stays readable and the loop spins.

* `quiet_iff`: `handleRead` returns with a timerfd that is not readable if and only if a timer is
  left (`Timers.rearms`) or a callback has armed the timerfd for later.
* `lone_spins`: a single timer that does not repeat.

Key definitions: `Timers.rearms`, `Clocked.Quiet`, `Clocked.Clears`.
Key theorems: `first_ne_zero_iff`, `endRead_readable`, `quiet_iff`.
-/
import MuduoSe.Net.TimerArm

namespace MuduoSe

open TimerQueue

namespace Timers

/-- `fflash` will set the timerfd: the first timer is not at the epoch, or no timer waits and one
of the batch goes on. -/
def rearms (s : Timers) : Prop :=
  match s.queue.list_.toList.head? with
  | some e => e.1 ≠ 0
  | none => ∃ e ∈ s.queue.deltimelist, ∃ n ∈ s.queue.heap[e.2]?, s.queue.again n e.2

instance (s : Timers) : Decidable s.rearms :=
  match h : s.queue.list_.toList.head? with
  | some e => decidable_of_iff (e.1 ≠ 0) (by unfold rearms; rw [h])
  | none => decidable_of_iff
    (∃ e ∈ s.queue.deltimelist, ∃ n ∈ s.queue.heap[e.2]?, s.queue.again n e.2)
    (by unfold rearms; rw [h])

variable {s : Timers}

/-- What waits first after a batch, from the state before `fflash`. -/
theorem Arm.first_ne_zero_iff (h : s.Arm) (hgood : s.Good) {now : Time} {i : ℕ}
    (hb : s.batch = some (now, i)) {q : TimerQueue}
    (hmem : ∀ k p, (k, p) ∈ q.list_ ↔ (k, p) ∈ s.queue.list_ ∨ ∃ n : TimeNode,
      p ∈ ptrs s.queue.deltimelist ∧ s.queue.heap[p]? = some n ∧ s.queue.again n p ∧
        (n.restart now).expiration_ = k) : q.first ≠ 0 ↔ s.rearms := by
  unfold rearms
  rcases hh : s.queue.list_.toList.head? with _ | e
  · dsimp only
    constructor
    · intro hne
      have hsome : ∃ e, e ∈ q.list_ := by
        by_contra hnone
        apply hne
        unfold first
        rcases hq : q.list_.toList.head? with _ | e
        · rfl
        · exact absurd ⟨e, head_mem hq⟩ hnone
      obtain ⟨e, he⟩ := hsome
      rcases (hmem e.1 e.2).mp he with hin | ⟨n, hp, hn, ha, -⟩
      · exact absurd hin (not_mem_of_head hh _)
      · obtain ⟨-, f, hf, hfp⟩ := mem_ptrs.mp hp
        rw [← hfp] at hn ha
        exact ⟨f, hf, n, hn, ha⟩
    · rintro ⟨e, he, n, hn, ha⟩
      have hp : e.2 ∈ ptrs s.queue.deltimelist := mem_ptrs.mpr ⟨hgood.queue.ne_zero hn, e, he, rfl⟩
      obtain ⟨p, hfirst, -⟩ := first_entry ((hmem _ _).mpr (.inr ⟨n, hp, hn, ha, rfl⟩))
      rcases (hmem _ _).mp hfirst with hin | ⟨m, -, hm, hma, heq⟩
      · exact absurd hin (not_mem_of_head hh _)
      · rw [← heq]
        exact ne_of_gt (h.restart_pos hb hm hma.1)
  · dsimp only
    obtain ⟨p, hfirst, hle⟩ := first_entry ((hmem e.1 e.2).mpr (.inl (head_mem hh)))
    rcases (hmem _ _).mp hfirst with hin | ⟨m, -, hm, hma, heq⟩
    · rw [le_antisymm hle (head_le hh hin)]
    · have hpos : 0 < q.first := heq ▸ h.restart_pos hb hm hma.1
      exact iff_of_true (ne_of_gt hpos) (ne_of_gt (lt_of_lt_of_le hpos hle))

end Timers

/-- **What `handleRead` leaves of the timerfd.** -/
theorem endRead_readable {s : Clocked} (h : s.Inv) {r : ResetTimes}
    (hg : clocked.guard s (.endRead r)) : ∃ t, clocked.step s (.endRead r) = .ok t ∧
      (¬t.queue.readable r.settime ↔ s.state.rearms ∨ ¬s.queue.readable r.settime) := by
  obtain ⟨⟨now, i⟩, hb⟩ := Option.isSome_iff_exists.mp hg.1.1
  obtain ⟨q, _, -, rfl, hs, hmem, harmed⟩ := h.good.endRead_cases hb r
  refine ⟨⟨{ s.state with queue := q, batch := none }, r.settime⟩, ?_, ?_⟩
  · unfold clocked
    dsimp only
    rw [hs]
    rfl
  · show ¬q.readable r.settime ↔ _
    have hiff := h.arm.first_ne_zero_iff h.good hb hmem
    by_cases hr : s.state.rearms
    · obtain ⟨v, -, hv, hlong, -⟩ := resetfd_armed q q.first r
      rw [if_pos (hiff.mpr hr), hv] at harmed
      refine iff_of_true ?_ (.inl hr)
      rintro ⟨d, hd, hle⟩
      unfold deadline at hd
      rw [show q.armed = _ from harmed] at hd
      cases hd
      have hle : r.settime + v.ns ≤ r.settime := hle
      unfold MS Time at *
      omega
    · rw [if_neg (fun hne => hr (hiff.mp hne))] at harmed
      have hsame : q.readable r.settime ↔ s.queue.readable r.settime := by
        unfold readable deadline
        rw [harmed]
      rw [hsame, or_iff_right hr]

/-! ### Every run -/

namespace Clocked

/-- If `handleRead` returns now, the timerfd is not readable. -/
def Quiet (s : Clocked) : TimerEvent → Prop
  | .endRead r => ∀ t, clocked.step s (.endRead r) = .ok t → ¬t.queue.readable r.settime
  | _ => True

/-- If `handleRead` goes on to `fflash`, a timer is left to wait for, or a callback has armed the
timerfd for later. -/
def Clears (s : Clocked) : TimerEvent → Prop
  | .endRead r => s.state.rearms ∨ ¬s.queue.readable r.settime
  | _ => True

instance (s : Clocked) : (ev : TimerEvent) → Decidable (s.Clears ev)
  | .construct _ _ _ | .other | .add _ _ | .del _ | .beginRead _ _ | .run => isTrue trivial
  | .endRead _ => inferInstanceAs (Decidable (_ ∨ _))

theorem Inv.quiet_iff_clears {s : Clocked} (h : s.Inv) {ev : TimerEvent} (hg : clocked.guard s ev) :
    s.Quiet ev ↔ s.Clears ev := by
  cases ev with
  | endRead clock =>
    obtain ⟨t, ht, hiff⟩ := endRead_readable h hg
    unfold Quiet Clears
    dsimp only
    rw [← hiff, ht]
    simp only [Except.ok.injEq, forall_eq']
  | _ => exact Iff.rfl

end Clocked

/-- **When the loop does not spin on the timerfd.** In every reachable state the end of
`handleRead` clears the timerfd if and only if it meets `Clears`; so all of a run's do if and only
if each of them meets it. -/
theorem quiet_iff {size : Int} {c : Time} (hc : 0 < c) :
    (∀ es s ev, clocked.Run (.start size c) es s → clocked.guard s ev → (s.Quiet ev ↔ s.Clears ev)) ∧
    ∀ es, clocked.Always clocked.guard (.start size c) es →
      (clocked.Always Clocked.Quiet (.start size c) es ↔
        clocked.Always Clocked.Clears (.start size c) es) := by
  constructor
  · intro es s ev hrun hg
    exact (clocked_inv hc hrun).quiet_iff_clears hg
  · intro es hg
    apply System.always_congr _ _ (Clocked.start_inv size hc) hg
    · intro s t ev h hg _ hs
      exact clocked_step h hg hs
    · intro s ev h hg
      exact h.quiet_iff_clears hg

/-- A single timer for 400 microseconds is added. -/
def lone : List TimerEvent := [.construct ⟨1, 1⟩ 400000 0, .add 1 ⟨1000, 1001⟩]

/-- The whole of `handleRead` when it has expired. -/
def loneRead : List TimerEvent := [.beginRead 400002 400003, .run, .endRead ⟨401000, 401001⟩]

/-- **The loop spins after a single timer.** `handleRead` is called because the timerfd is
readable; it returns, nothing waits, and the timerfd is readable from then on. -/
theorem lone_spins : ∃ s t, clocked.Run (.start 0 1) lone s ∧ s.queue.readable 400001 ∧
    clocked.Run s loneRead t ∧ t.state.batch = none ∧ t.queue.list_.toList = [] ∧
    ∀ τ, t.clock ≤ τ → t.queue.readable τ := by
  have hrun : ((clocked.exec (.start 0 1) lone).map fun s => s.queue.armed) =
      some (some (⟨1000, 1001⟩, ⟨0, 399000⟩)) := by
    decide +kernel
  have hread : ((clocked.exec (.start 0 1) (lone ++ loneRead)).map fun t =>
      (t.state.batch, t.clock, t.queue.list_.toList)) = some (none, 401001, []) := by
    decide +kernel
  have harmed : ((clocked.exec (.start 0 1) (lone ++ loneRead)).map fun t => t.queue.armed) =
      some (some (⟨1000, 1001⟩, ⟨0, 399000⟩)) := by
    decide +kernel
  obtain ⟨s, hs, ha⟩ := clocked.exec_map_iff.mp hrun
  obtain ⟨t, ht, hview⟩ := clocked.exec_map_iff.mp hread
  obtain ⟨t', ht', ha'⟩ := clocked.exec_map_iff.mp harmed
  obtain rfl : t = t' := ht.unique ht'
  obtain ⟨s', hs', hst⟩ := ht.split
  obtain rfl : s = s' := hs.unique hs'
  have readable_of : ∀ {q : TimerQueue} {τ : Time}, q.armed = some (⟨1000, 1001⟩, ⟨0, 399000⟩) →
      (400001 : Time) ≤ τ → q.readable τ := by
    intro q τ hq hτ
    unfold readable deadline
    rw [hq]
    exact ⟨_, rfl, hτ⟩
  obtain ⟨hb, hc, hl⟩ : t.state.batch = none ∧ t.clock = 401001 ∧ t.queue.list_.toList = [] := by
    simpa only [Prod.mk.injEq] using hview
  refine ⟨s, t, hs, readable_of ha (le_refl _), hst, hb, hl, ?_⟩
  intro τ hτ
  rw [hc] at hτ
  exact readable_of ha' (le_trans (by decide) hτ)

/-- The same loop with a timer that repeats. -/
def beat : List TimerEvent :=
  [.construct ⟨1, 1⟩ 400000 500, .add 1 ⟨1000, 1001⟩, .beginRead 400000 400001, .run, .endRead ⟨401000, 401001⟩]

theorem quiet_iff_beat : clocked.Always Clocked.Quiet (.start 0 1) beat :=
  ((quiet_iff (by decide)).2 beat (by decide +kernel)).mpr (by decide +kernel)

end MuduoSe
