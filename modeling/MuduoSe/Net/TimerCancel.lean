/-
# A cancel is final

A timer that was cancelled is absent, or due in the batch that is run with its cancel
deferred (`Life.Cancelled`), and stays so, since an index is never given twice. The rest is the
view of one timer at a time: a cancel of `t` is in the life of `t` only.

Key definitions: `Life.Cancelled`, `Timers.Over`, `Timers.Final`.
Key theorems: `Cancelled.step`, `Tracked.over`, `Over.run`, `cancel_final`.
-/
import MuduoSe.Net.TimerRefine

namespace MuduoSe

/-- Absent, or run for the last time. -/
def Life.Cancelled (l : Life) : Prop :=
  match l.stage with
  | .absent => True
  | .due _ => l.deferred = true
  | _ => False

/-- Neither a cancel of `t` nor a turn of the loop over a batch. -/
def TimerEvent.besides (t : TimeId) (ev : TimerEvent) : Bool := ev ≠ .del t ∧ ev ≠ .run

namespace Life

variable {l : Life} {t : TimeId}

/-- Only a new timer with its id could change that. -/
theorem Cancelled.step (hl : l.Cancelled) {ev : TimerEvent}
    (hev : ∀ when interval, ev ≠ .construct t when interval) :
    (l.step t ev).Cancelled ∧ (l.step t ev).runs = l.runs := by
  obtain ⟨stage, deferred, batch, runs⟩ := l
  cases ev with
  | construct u when interval =>
    have hu : u ≠ t := fun hu => hev when interval (by rw [hu])
    unfold Life.step
    dsimp only
    rw [if_neg hu]
    exact ⟨hl, rfl⟩
  | other => exact ⟨hl, rfl⟩
  | run => exact ⟨hl, rfl⟩
  | add p now =>
    cases stage with
    | made when interval => exact hl.elim
    | waiting e interval => exact hl.elim
    | absent => exact ⟨trivial, rfl⟩
    | due interval => exact ⟨hl, rfl⟩
  | del u =>
    unfold Life.step
    dsimp only
    split_ifs
    · cases stage with
      | made when interval => exact hl.elim
      | waiting e interval => exact hl.elim
      | absent => exact ⟨trivial, rfl⟩
      | due interval => exact ⟨(congrArg (· || _) hl).trans (Bool.true_or _), rfl⟩
    · exact ⟨hl, rfl⟩
  | beginRead now cut =>
    cases stage with
    | made when interval => exact hl.elim
    | waiting e interval => exact hl.elim
    | absent => exact ⟨trivial, rfl⟩
    | due interval => exact ⟨hl, rfl⟩
  | endRead clock =>
    cases batch with
    | none => exact ⟨hl, rfl⟩
    | some now =>
      cases stage with
      | made when interval => exact hl.elim
      | waiting e interval => exact hl.elim
      | absent => exact ⟨trivial, rfl⟩
      | due interval =>
        -- It is not inserted again, since its cancel was deferred.
        obtain rfl : deferred = true := hl
        unfold Life.step Stage.afterBatch
        dsimp only
        rw [if_neg fun h => Bool.noConfusion h.2]
        exact ⟨trivial, rfl⟩

theorem cancelled_del (hmade : ∀ when interval, l.stage ≠ .made when interval)
    (hdue : ∀ interval, l.stage = .due interval → l.batch.isSome) :
    (l.step t (.del t)).Cancelled := by
  obtain ⟨stage, deferred, batch, runs⟩ := l
  unfold Life.step
  dsimp only at hmade hdue ⊢
  rw [if_pos rfl]
  cases stage with
  | absent => exact trivial
  | made when interval => exact absurd rfl (hmade when interval)
  | waiting e interval => exact trivial
  | due interval =>
    show (deferred || batch.isSome) = true
    rw [hdue interval rfl, Bool.or_true]

/-- A cancel is nothing to any other timer. -/
theorem step_apart {u : TimeId} (hu : u ≠ t) {ev : TimerEvent}
    (hev : ¬ev.besides t = true) : l.step u ev = l := by
  unfold TimerEvent.besides at hev
  rw [decide_eq_true_eq, not_and_or, not_not, not_not] at hev
  rcases hev with rfl | rfl
  · exact if_neg hu.symm
  · rfl

/-- So what happens to the others does not depend on it. -/
theorem foldl_apart {u : TimeId} (hu : u ≠ t) (es : List TimerEvent) (l : Life) :
    es.foldl (Life.step u) l =
      (es.filter (TimerEvent.besides t)).foldl (Life.step u) l := by
  induction es generalizing l with
  | nil => rfl
  | cons ev es ih =>
    by_cases hev : ev.besides t = true
    · rw [List.filter_cons_of_pos hev, List.foldl_cons, List.foldl_cons, ih]
    · rw [List.filter_cons_of_neg hev, List.foldl_cons, step_apart hu hev, ih]

end Life

namespace Timers

variable {s s' : Timers} {t : TimeId} {c : ℕ} {es : List TimerEvent}

/-- A timer that was cancelled, whose callback is run `c` times in all. -/
structure Over (s : Timers) (t : TimeId) (c : ℕ) : Prop where
  tracked : s.Tracked
  added : t.key ∈ s.added
  cancelled : (s.life t).Cancelled
  runs : s.runs t = c

theorem Over.step (h : s.Over t c) {ev : TimerEvent} (hg : timers.guard s ev)
    (hs : timers.step s ev = .ok s') : s'.Over t c := by
  obtain ⟨htracked, hlife⟩ := life_step h.tracked hg hs
  have hev : ∀ when interval, ev ≠ .construct t when interval := by
    rintro when interval rfl
    have hi : t.index_ = s.queue.size_ + 1 := hg.2.2
    have hle : t.index_ ≤ s.queue.size_ := h.tracked.old _ h.added
    omega
  obtain ⟨hcancelled, hruns⟩ := h.cancelled.step hev
  rw [← hlife t] at hcancelled hruns
  exact ⟨htracked, (logs_grow hs).1.subset h.added, hcancelled, hruns.trans h.runs⟩

theorem Over.run (h : s.Over t c) (hr : timers.Run s es s') : s'.Over t c := by
  apply hr.invariant (I := fun s => s.Over t c) _ h
  intro s₁ s₂ ev hover hg hs
  exact hover.step hg hs

/-- **A cancel of a timer that was added puts an end to it.** -/
theorem Tracked.over (h : s.Tracked) (ht : t.key ∈ s.added) (hg : timers.guard s (.del t))
    (hs : timers.step s (.del t) = .ok s') : s'.Over t (s'.runs t) := by
  obtain ⟨htracked, hlife⟩ := life_step h hg hs
  refine ⟨htracked, (logs_grow hs).1.subset ht, ?_, rfl⟩
  rw [hlife t]
  apply Life.cancelled_del
  · intro when interval hstage
    have hstage : s.stage t = .made when interval := hstage
    rcases hn : s.nodeOf t with _ | n
    · rw [stage_none hn] at hstage
      cases hstage
    · obtain ⟨hget, hi⟩ := nodeOf_eq_some.mp hn
      have hpend : t.own_timenode_ ∈ s.pending := by
        rw [stage_some hn] at hstage
        unfold stageOf at hstage
        split_ifs at hstage with hp
        exact hp
      have hkey : ((n.index_, t.own_timenode_) : INDEX) = t.key := by rw [hi]; rfl
      exact h.fresh _ hpend n hget (hkey ▸ ht)
  · intro interval hstage
    have hstage : s.stage t = .due interval := hstage
    show (s.batch.map (·.1)).isSome
    rw [Option.isSome_map]
    rcases hn : s.nodeOf t with _ | n
    · rw [stage_none hn] at hstage
      cases hstage
    · rw [stage_some hn] at hstage
      unfold stageOf at hstage
      split_ifs at hstage with _ _ hb
      exact hb

/-- It waits nowhere. -/
theorem Over.not_waiting (h : s.Over t c) : t.key ∉ s.queue.indexlist_ := by
  intro hin
  obtain ⟨hout, n, hn, hi⟩ := (h.tracked.good.queue.index_iff _ _).mp hin
  have hstage : (s.life t).stage = .waiting n.expiration_ n.interval_ :=
    (stage_some (nodeOf_eq_some.mpr ⟨hn, hi⟩)).trans (stageOf_waiting hout)
  have hcancelled := h.cancelled
  unfold Life.Cancelled at hcancelled
  rw [hstage] at hcancelled
  exact hcancelled

theorem ran_grows (hr : timers.Run s es s') : s.ran.Sublist s'.ran := by
  induction hr with
  | nil => exact List.Sublist.refl _
  | cons _ hs _ ih => exact (logs_grow hs).2.sublist.trans ih

/-- From a state without a batch on, it is not run again. -/
theorem Over.not_run (h : s.Over t c) (hidle : s.batch = none) (hr : timers.Run s es s') :
    s'.ran.count t.key = s.ran.count t.key := by
  have hruns : s'.runs t = s.runs t := (h.run hr).runs.trans h.runs.symm
  have hfirst : s.runs t = s.ran.count t.key := runs_idle hidle
  have hlast : s'.ran.count t.key ≤ s'.runs t := Nat.le_add_right _ _
  have hgrows : s.ran.count t.key ≤ s'.ran.count t.key := (ran_grows hr).count_le _
  omega

/-- What a cancel of `t` in the state `s`, which led to `s₁`, comes to in a later state `s'`. -/
structure Final (t : TimeId) (s s₁ : Timers) (es : List TimerEvent) (s' : Timers) : Prop where
  /-- No batch that was started since runs its callback. -/
  not_run : ∀ {before after : List TimerEvent} {now cut : Time} {s₂ : Timers},
    es = before ++ .beginRead now cut :: after → timers.Run s₁ before s₂ →
      s'.ran.count t.key = s₂.ran.count t.key
  /-- It is in neither set. -/
  not_inserted : t.key ∉ s'.queue.indexlist_ ∧ ∀ n, s'.queue.heap[t.own_timenode_]? = some n →
    n.index_ = t.index_ → ∀ e, (e, t.own_timenode_) ∉ s'.queue.list_
  /-- What became of another timer was decided by the other events alone. -/
  others : ∀ u ≠ t, s'.life u =
    (es.filter (TimerEvent.besides t)).foldl (Life.step u) (s.life u)
  /-- It is what becomes of it in any run with these events, whatever this one cancels. -/
  as_without : ∀ u ≠ t, ∀ {fs : List TimerEvent} {s'' : Timers}, timers.Run s fs s'' →
    fs.filter (TimerEvent.besides t) = es.filter (TimerEvent.besides t) →
      s'.life u = s''.life u ∧ (s'.batch = none → s'.ran.count u.key = s''.ran.count u.key)

end Timers

open Timers in
/-- **A cancel is final and hits only its target.** -/
theorem cancel_final {size : Int} {es es' : List TimerEvent} {s s₁ s' : Timers} {t : TimeId}
    (h : timers.Run (.start size) es s) (ht : t.key ∈ s.added) (hdel : timers.Run s [.del t] s₁)
    (h' : timers.Run s₁ es' s') : Timers.Final t s s₁ es' s' := by
  have htracked := timers_tracked h
  have hover : s₁.Over t (s₁.runs t) := by
    obtain _ | ⟨hg, hs, _ | _⟩ := hdel
    exact htracked.over ht hg hs
  have hothers : ∀ u ≠ t, s'.life u =
      (es'.filter (TimerEvent.besides t)).foldl (Life.step u) (s.life u) := by
    intro u hu
    rw [timers_life htracked (hdel.append h') u, Life.foldl_apart hu, List.singleton_append,
      List.filter_cons_of_neg (by simp [TimerEvent.besides])]
  refine ⟨?_, ?_, hothers, ?_⟩
  · rintro before after now cut s₂ rfl hbefore
    obtain ⟨s₃, hbefore', hafter⟩ := h'.split
    obtain rfl := hbefore.unique hbefore'
    obtain _ | ⟨hidle, -, -⟩ := id hafter
    exact (hover.run hbefore).not_run hidle hafter
  · have hout := (hover.run h').not_waiting
    refine ⟨hout, ?_⟩
    intro n hn hi e hin
    have hgood := (hover.run h').tracked.good
    exact hout ((hgood.index_iff _ _).mpr ⟨n, hn, hi, by
      obtain ⟨hp, -⟩ := (hgood.queue.list_iff _ _).mp hin
      exact (hgood.queue.list_iff _ _).mpr ⟨hp, n, hn, rfl⟩⟩)
  · intro u hu fs s'' hfs hsame
    have hlife : s'.life u = s''.life u := by
      rw [hothers u hu, timers_life htracked hfs u, Life.foldl_apart hu fs, hsame]
    refine ⟨hlife, fun hidle => ?_⟩
    have hidle' : s''.batch = none := by
      have hbatch : s'.batch.map (·.1) = s''.batch.map (·.1) := congrArg Life.batch hlife
      rwa [hidle, Option.map_none, eq_comm, Option.map_eq_none_iff] at hbatch
    rw [← runs_idle hidle, ← runs_idle hidle']
    exact congrArg Life.runs hlife

/-- The timer that cancels itself, and then another one at its address. -/
theorem cancel_final_reuse : ∃ s s₁ s', timers.Run (.start 0) (reuse.take 7) s ∧
    timers.Run s [.del ⟨1, 1⟩] s₁ ∧ timers.Run s₁ (reuse.drop 8) s' ∧
      Timers.Final ⟨1, 1⟩ s s₁ (reuse.drop 8) s' := by
  have hfirst : (timers.exec (.start 0) (reuse.take 7)).map (·.added) = some [(2, 2), (1, 1)] := by
    decide +kernel
  have hall : ((timers.exec (.start 0) (reuse.take 7 ++ ([.del ⟨1, 1⟩] ++ reuse.drop 8))).map
      fun s => s.queue.list_.toList) = some [(8000, 1), (9000, 3)] := by
    decide +kernel
  obtain ⟨s, hs, hadded⟩ := timers.exec_map_iff.mp hfirst
  obtain ⟨s', hs', -⟩ := timers.exec_map_iff.mp hall
  obtain ⟨s₀, hs₀, hrest⟩ := hs'.split
  obtain rfl := hs.unique hs₀
  obtain ⟨s₁, hdel, hrest⟩ := hrest.split
  refine ⟨s, s₁, s', hs, hdel, hrest, cancel_final hs ?_ hdel hrest⟩
  rw [hadded]
  decide

end MuduoSe
