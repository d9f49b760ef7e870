/-
# The deferred cancels

A cancel from inside a callback, of an id that is not in `indexlist_`, puts the id into
`waitdeltimelist`: a timer of the batch, one that is finished, or one that never was. `fflash`, whose
comment says that it clears the list, looks the ids of the batch up and removes none.

* `deferred_empty_iff`: the list is empty if and only if there was no such cancel so far.
* `deferred_unbounded`: between two events of the timerfd it can have any size.

Key definitions: `Timers.deferral`.
Key theorems: `Timers.Moved.mem_deferred`, `deferred_empty_iff`, `deferred_unbounded`.
-/
import MuduoSe.Net.TimerRuns

namespace MuduoSe
namespace Timers

/-- The id that an event defers. -/
def deferral (s : Timers) : TimerEvent → Option INDEX
  | .del t => if s.batch.isSome ∧ t.key ∉ s.queue.indexlist_ then some t.key else none
  | _ => none

variable {s s' : Timers} {ev : TimerEvent} {k : INDEX}

/-- **A step adds the id that it defers, and removes none.** -/
theorem Moved.mem_deferred (hm : s.Moved ev s') (h : s.Good) :
    k ∈ s'.queue.waitdeltimelist ↔ k ∈ s.queue.waitdeltimelist ∨ s.deferral ev = some k := by
  have hnone : s.deferral ev = none → s'.queue.waitdeltimelist = s.queue.waitdeltimelist →
      (k ∈ s'.queue.waitdeltimelist ↔ k ∈ s.queue.waitdeltimelist ∨ s.deferral ev = some k) := by
    intro hdef hsame
    rw [hdef, hsame]
    simp
  cases hm with
  | construct => exact hnone rfl rfl
  | other => exact hnone rfl rfl
  | add => exact hnone rfl rfl
  | @delWaiting t n hn hi hout =>
    have hin : t.key ∈ s.queue.indexlist_ := (h.queue.index_iff _ _).mpr ⟨hout, n, hn, hi⟩
    exact hnone (if_neg fun hd => hd.2 hin) rfl
  | @delOther t ht =>
    dsimp only [deferral]
    rw [h.calling]
    by_cases hb : s.batch.isSome = true
    · rw [if_pos hb, if_pos ⟨hb, ht⟩, Std.ExtTreeSet.mem_insert, Option.some.injEq,
        pairCmp_eq, or_comm]
    · rw [if_neg hb, if_neg fun hd => hb hd.1]
      simp
  | beginRead _ _ _ _ hwait => exact hnone rfl hwait
  | run => exact hnone rfl rfl
  | endRead _ _ hflash => exact hnone rfl hflash.wait

end Timers

/-! ### Runs -/

variable {size : Int} {es : List TimerEvent} {s : Timers}

/-- **When the list of deferred cancels is empty.** In every reachable state, if and only if no cancel
inside of a callback was for an id that is not in `indexlist_`. -/
theorem deferred_empty_iff (h : timers.Run (.start size) es s) : s.queue.waitdeltimelist = ∅ ↔
    timers.Always (fun s ev => s.deferral ev = none) (.start size) es := by
  refine h.history (P := fun es s => s.queue.waitdeltimelist = ∅ ↔
    timers.Always (fun s ev => s.deferral ev = none) (.start size) es) ?_ ?_
  · exact iff_of_true rfl trivial
  · intro es t ev u hrun ih hg hs
    have hgood := timers_good hrun
    have hmem := fun k => (hgood.moved hg hs).1.mem_deferred hgood (k := k)
    rw [hrun.always_snoc, ← ih]
    simp only [Std.ExtTreeSet.eq_empty_iff_forall_not_mem, hmem, not_or, forall_and,
      Option.eq_none_iff_forall_ne_some]

/-- A timer that repeats is cancelled between two of its callbacks, and a bogus id is as well. -/
theorem deferred_empty_iff_between : ∃ s, timers.Run (.start 0)
      [.construct ⟨1, 1⟩ 5000 7, .add 1 ⟨1000, 1001⟩, .beginRead 6000 6001, .run, .endRead ⟨6002, 6003⟩,
        .del ⟨1, 1⟩, .del ⟨0, 5⟩] s ∧ s.queue.list_ = ∅ ∧ s.queue.waitdeltimelist = ∅ := by
  have hrun : (timers.exec (.start 0)
      [.construct ⟨1, 1⟩ 5000 7, .add 1 ⟨1000, 1001⟩, .beginRead 6000 6001, .run, .endRead ⟨6002, 6003⟩,
        .del ⟨1, 1⟩, .del ⟨0, 5⟩]).map (fun s => s.queue.list_.isEmpty) = some true := by
    decide +kernel
  obtain ⟨s, hs, hlist⟩ := timers.exec_map_iff.mp hrun
  exact ⟨s, hs, Std.ExtTreeSet.isEmpty_iff.mp hlist, (deferred_empty_iff hs).mpr (by decide +kernel)⟩

/-- **A timer that cancels itself** is in the list when `handleRead` has returned. -/
theorem deferred_not_flushed : ¬∀ (size : Int) (es : List TimerEvent) (s : Timers),
    timers.Run (.start size) es s → s.batch = none → s.queue.waitdeltimelist = ∅ := by
  intro h
  have hrun : (timers.exec (.start 0)
      [.construct ⟨1, 1⟩ 5000 7, .add 1 ⟨1000, 1001⟩, .beginRead 6000 6001, .run, .del ⟨1, 1⟩,
        .endRead ⟨6002, 6003⟩]).map (fun s => (s.batch, s.queue.waitdeltimelist.isEmpty)) = some (none, false) := by
    decide +kernel
  obtain ⟨s, hs, hv⟩ := timers.exec_map_iff.mp hrun
  rw [Prod.mk.injEq] at hv
  exact Std.ExtTreeSet.isEmpty_eq_false_iff.mp hv.2 (h 0 _ s hs hv.1)

/-! ### The list grows -/

namespace Timers

/-- From inside a callback `n` ids that never were are cancelled. -/
theorem Good.cancel_bogus (h : s.Good) (hbatch : s.batch.isSome) (hloop : s.inLoop)
    (hempty : s.queue.waitdeltimelist = ∅) : ∀ n : ℕ, ∃ es s', timers.Run s es s' ∧ s'.Good ∧
      s'.batch = s.batch ∧ s'.queue.deltimelist = s.queue.deltimelist ∧
      s'.queue.waitdeltimelist.size = n ∧ ∀ k ∈ s'.queue.waitdeltimelist, k.1 < n
  | 0 => by
    refine ⟨[], s, .nil s, h, rfl, rfl, ?_, ?_⟩
    · rw [hempty]
      rfl
    · rw [hempty]
      exact fun k hk => absurd hk Std.ExtTreeSet.not_mem_empty
  | n + 1 => by
    obtain ⟨es, t, hrun, hgood, hb, hdel, hsize, hlt⟩ := h.cancel_bogus hbatch hloop hempty n
    have hout : TimeId.key ⟨0, n⟩ ∉ t.queue.indexlist_ := by
      intro hin
      obtain ⟨m, hm, -⟩ := (hgood.index_iff _ _).mp hin
      rw [hgood.queue.null] at hm
      cases hm
    obtain ⟨u, hu, hstep, hgoodu⟩ := hgood.delOther hout
    rw [hgood.calling, hb, if_pos hbatch] at hu
    have hguard : timers.guard t (.del ⟨0, n⟩) := by
      show t.inLoop
      unfold inLoop
      rw [hb]
      exact hloop
    have hnew : TimeId.key ⟨0, n⟩ ∉ t.queue.waitdeltimelist := fun hin => Int.lt_irrefl _ (hlt _ hin)
    refine ⟨es ++ [.del ⟨0, n⟩], u, hrun.append (.single hguard hstep), hgoodu, ?_, ?_, ?_, ?_⟩
    · rw [hu]
    · rw [hu]
      exact hdel
    · rw [hu, Std.ExtTreeSet.size_insert, if_neg (Std.ExtTreeSet.contains_iff_mem.not.mpr hnew), hsize]
    · rw [hu]
      intro k hk
      rw [Std.ExtTreeSet.mem_insert, pairCmp_eq] at hk
      rcases hk with rfl | hk
      · exact Int.lt_succ n
      · exact Int.lt_trans (hlt k hk) (Int.lt_succ n)

end Timers

/-- **The list has no bound**: it can have any size when `handleRead` has returned. -/
theorem deferred_unbounded (n : ℕ) : ∃ es s, timers.Run (.start 0) es s ∧ s.batch = none ∧
    s.queue.waitdeltimelist.size = n := by
  have hbegin : (timers.exec (.start 0)
      [.construct ⟨1, 1⟩ 5000 0, .add 1 ⟨1000, 1001⟩, .beginRead 6000 6001, .run]).map
        (fun s => (s.batch, s.queue.deltimelist, s.queue.waitdeltimelist.isEmpty)) =
      some (some (6000, 1), [(5000, 1)], true) := by
    decide +kernel
  obtain ⟨s, hs, hv⟩ := timers.exec_map_iff.mp hbegin
  obtain ⟨hbatch, hdel, hempty⟩ := by simpa only [Prod.mk.injEq] using hv
  have hloop : s.inLoop := by
    intro b hb
    rw [hbatch] at hb
    cases hb
    exact Nat.one_pos
  obtain ⟨es, t, hrun, hgood, hb, hdel', hsize, -⟩ := (timers_good hs).cancel_bogus
    (by rw [hbatch]; rfl) hloop (Std.ExtTreeSet.isEmpty_iff.mp hempty) n
  have hguard : timers.guard t (.endRead ⟨6002, 6003⟩) := by
    refine ⟨by rw [hb, hbatch]; rfl, ?_⟩
    unfold Timers.next
    rw [hb, hbatch, hdel', hdel]
    rfl
  obtain ⟨u, hstep, hmoved, -⟩ := timers_moved hgood hguard
  refine ⟨_, u, (hs.append hrun).append (.single hguard hstep), ?_, ?_⟩
  · cases hmoved
    rfl
  · cases hmoved with
    | endRead _ _ hflash =>
      have hsame := congrArg Std.ExtTreeSet.size hflash.wait
      exact hsame.trans hsize

end MuduoSe
