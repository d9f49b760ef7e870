/-
# Delays and periods

`EventLoop::runat`, `runafter` and `runevery`, from the `double` of the caller to the entries of
the timer queue. The `double` is the rational number that it stands for, and its products are exact;
`static_cast<int>` is not defined for a value that no `int` has.

A timer keeps the expiration and the interval of its construction, whatever else happens: that is a
fact about its life (`Life.step`), and with it `inserted` and `reinserted` say where its entries
stand in `list_`.

* `undistorted_iff`: the number of microseconds is an `int`, so delays and periods are what was asked
  for if and only if they are below 2^31 microseconds, some 36 minutes.

Key definitions: `staticCastInt`, `EventLoop.runafter`, `EventLoop.runevery`, `Undistorted`.
Key theorems: `life_of_run`, `inserted`, `reinserted`, `undistorted_iff`.
-/
import Mathlib.Algebra.Order.Field.Rat
import Mathlib.Tactic.NormNum
import Mathlib.Tactic.Linarith
import Mathlib.Tactic.Ring
import MuduoSe.Net.EventLoop
import MuduoSe.Net.TimerArm
import MuduoSe.Net.TimerRefine

namespace MuduoSe

/-- `static_cast<int>` of the `double` `x`: its integer part, if that is an `int`. -/
def staticCastInt (x : ℚ) : Res Int :=
  let n := x.num.tdiv x.den
  if -2 ^ 31 ≤ n ∧ n < 2 ^ 31 then .ok n else .error .overflow

namespace EventLoop

/-- `runat(t, f)`: what it passes to `addTimeNode`. -/
def runat (t : Time) : Time × Int := (t, 0)

/-- `runafter(delay, f)`, where `Clock::now()` returns `now`. -/
def runafter (delay : ℚ) (now : Time) : Res (Time × Int) := do
  let n ← staticCastInt (delay * Kmicseconds)
  return runat (now + MS n)

/-- `runevery(interval, f)`, where `Clock::now()` returns `now`. -/
def runevery (interval : ℚ) (now : Time) : Res (Time × Int) := do
  let diff ← staticCastInt (interval * Kmicseconds)
  return (now + MS diff, diff)

end EventLoop

open EventLoop

/-! ### What a timer keeps -/

theorem size_le {s s' : Timers} (h : s.Good) {ev : TimerEvent} (hg : timers.guard s ev)
    (hs : timers.step s ev = .ok s') : s.queue.size_ ≤ s'.queue.size_ := by
  obtain ⟨hmoved, -⟩ := h.moved hg hs
  cases hmoved with
  | construct _ _ _ =>
    show s.queue.size_ ≤ s.queue.size_ + 1
    omega
  | other =>
    show s.queue.size_ ≤ s.queue.size_ + 1
    omega
  | beginRead _ _ _ hsize _ => exact Int.le_of_eq hsize.symm
  | endRead _ _ hflash => exact Int.le_of_eq hflash.size.symm
  | _ => exact Int.le_refl _

/-- **What each event keeps of a timer that was constructed, a run keeps.** Its id is not given
again. -/
theorem life_of_run {t : TimeId} {P : Life → Prop} {Q : TimerEvent → Prop}
    (keep : ∀ {l ev}, P l → Q ev → (∀ when interval, ev ≠ .construct t when interval) → P (l.step t ev))
    {s s' : Timers} {es : List TimerEvent} (h : s.Tracked) (hi : t.index_ ≤ s.queue.size_)
    (hr : timers.Run s es s') (hev : ∀ ev ∈ es, Q ev) (hp : P (s.life t)) :
    s'.Tracked ∧ P (s'.life t) := by
  induction hr with
  | nil => exact ⟨h, hp⟩
  | @cons s u s' ev es hg hs _ ih =>
    obtain ⟨htracked, hlife⟩ := life_step h hg hs
    have hnew : ∀ when interval, ev ≠ .construct t when interval := by
      rintro when interval rfl
      have hindex : t.index_ = s.queue.size_ + 1 := hg.2.2
      omega
    refine ih htracked (hi.trans (size_le h.good hg hs)) ?_ ?_
    · intro ev' hev'
      exact hev ev' (List.mem_cons_of_mem _ hev')
    · rw [hlife t]
      exact keep hp (hev ev List.mem_cons_self) hnew

/-- A timer waits if it has an entry. -/
theorem Timers.Good.stage_waiting {s : Timers} (h : s.Good) {t : TimeId} {e : Time} {interval : Int}
    (hw : s.stage t = .waiting e interval) : ∃ n : TimeNode, s.queue.heap[t.own_timenode_]? = some n ∧
      n.index_ = t.index_ ∧ n.expiration_ = e ∧ n.interval_ = interval ∧
        (e, t.own_timenode_) ∈ s.queue.list_ := by
  rcases hn : s.nodeOf t with _ | n
  · rw [Timers.stage_none hn] at hw
    cases hw
  · obtain ⟨hget, hi⟩ := Timers.nodeOf_eq_some.mp hn
    rw [Timers.stage_some hn] at hw
    unfold Timers.stageOf at hw
    split_ifs at hw with hp hd hb
    cases hw
    have hout : t.own_timenode_ ∉ s.held := by
      unfold Timers.held
      rw [List.mem_append, not_or]
      exact ⟨hd, hp⟩
    exact ⟨n, hget, hi, rfl, rfl, (h.queue.list_iff _ _).mpr ⟨hout, n, hget, rfl⟩⟩

/-! ### The entries of a timer -/

/-- The timer that is constructed in `s` comes into `list_` as it was constructed, when it is added. -/
def Inserted (s : Timers) (t : TimeId) (when : Time) (interval : Int) : Prop :=
  ∀ {es : List TimerEvent} {s₁ s₂ : Timers} {r : ResetTimes},
    timers.Run s (.construct t when interval :: es) s₁ → (∀ c, .add t.own_timenode_ c ∉ es) →
      timers.Run s₁ [.add t.own_timenode_ r] s₂ →
        ∃ n : TimeNode, s₂.queue.heap[t.own_timenode_]? = some n ∧ n.index_ = t.index_ ∧
          n.expiration_ = when ∧ (n.repeat_ = true ↔ 0 < interval) ∧
            (when, t.own_timenode_) ∈ s₂.queue.list_

/-- The timer is one of the batch. -/
def InBatch (s : Timers) (t : TimeId) : Prop :=
  ∃ (n : TimeNode) (e : Time), s.queue.heap[t.own_timenode_]? = some n ∧ n.index_ = t.index_ ∧
    (e, t.own_timenode_) ∈ s.queue.deltimelist

/-- After each batch of the timer that is constructed in `s`, its entry is for the interval after the
batch's reading; and it has one, unless a cancel was deferred. -/
def Reinserted (s : Timers) (t : TimeId) (when : Time) (interval : Int) : Prop :=
  ∀ {es : List TimerEvent} {s₁ s₂ : Timers} {now : Time} {r : ResetTimes} {i : ℕ},
    timers.Run s (.construct t when interval :: es) s₁ → s₁.batch = some (now, i) → InBatch s₁ t →
      timers.Run s₁ [.endRead r] s₂ →
        (∀ e, (e, t.own_timenode_) ∈ s₂.queue.list_ → e = now + MS interval) ∧
          (t.key ∉ s₁.queue.waitdeltimelist → (now + MS interval, t.own_timenode_) ∈ s₂.queue.list_)

/-- The stage of a timer that exists stays, or goes on by one: the interval is passed on. -/
theorem Life.step_stage (l : Life) {t : TimeId} {ev : TimerEvent}
    (hnew : ∀ when interval, ev ≠ .construct t when interval) :
    (l.step t ev).stage = l.stage ∨
    (∃ when interval c, l.stage = .made when interval ∧ ev = .add t.own_timenode_ c ∧
      (l.step t ev).stage = .waiting when interval) ∨
    (∃ e interval, l.stage = .waiting e interval ∧
      ((l.step t ev).stage = .absent ∨ (l.step t ev).stage = .due interval)) ∨
    ∃ interval, l.stage = .due interval ∧
      ((l.step t ev).stage = .absent ∨ ∃ e, (l.step t ev).stage = .waiting e interval) := by
  obtain ⟨stage, deferred, batch, runs⟩ := l
  cases ev with
  | construct u when interval =>
    have hu : u ≠ t := fun hu => hnew when interval (by rw [hu])
    unfold Life.step
    dsimp only
    rw [if_neg hu]
    exact .inl rfl
  | other => exact .inl rfl
  | run => exact .inl rfl
  | add p c =>
    unfold Life.step
    dsimp only
    split
    · split_ifs with hp
      · exact .inr (.inl ⟨_, _, c, rfl, by rw [hp], rfl⟩)
      · exact .inl rfl
    · exact .inl rfl
  | del u =>
    unfold Life.step
    dsimp only
    split_ifs
    · split
      · exact .inr (.inr (.inl ⟨_, _, rfl, .inl rfl⟩))
      · exact .inl rfl
    · exact .inl rfl
  | beginRead now cut =>
    unfold Life.step
    dsimp only
    split
    · split_ifs
      · exact .inr (.inr (.inl ⟨_, _, rfl, .inr rfl⟩))
      · exact .inl rfl
    · exact .inl rfl
  | endRead clock =>
    unfold Life.step Stage.afterBatch
    dsimp only
    split
    · split
      · refine .inr (.inr (.inr ⟨_, rfl, ?_⟩))
        split_ifs
        · exact .inr ⟨_, rfl⟩
        · exact .inl rfl
      · exact .inl rfl
    · exact .inl rfl

/-- Made, for this time and with this interval. -/
def Life.Made (when : Time) (interval : Int) (l : Life) : Prop := l.stage = .made when interval

/-- Whatever it is, with this interval. -/
def Life.Every (interval : Int) (l : Life) : Prop :=
  match l.stage with
  | .absent => True
  | .made _ i | .waiting _ i | .due i => i = interval

theorem Life.Made.step {when : Time} {interval : Int} {l : Life} {t : TimeId} {ev : TimerEvent}
    (h : l.Made when interval) (hadd : ∀ c, ev ≠ .add t.own_timenode_ c)
    (hnew : ∀ when interval, ev ≠ .construct t when interval) : (l.step t ev).Made when interval := by
  have hmade : l.stage = .made when interval := h
  rcases l.step_stage hnew with hsame | ⟨_, _, c, -, hc, -⟩ | ⟨e, i, hs, -⟩ | ⟨i, hs, -⟩
  · exact hsame.trans hmade
  · exact absurd hc (hadd c)
  · rw [hmade] at hs
    cases hs
  · rw [hmade] at hs
    cases hs

theorem Life.Every.step {interval : Int} {l : Life} {t : TimeId} {ev : TimerEvent} (h : l.Every interval)
    (hnew : ∀ when interval, ev ≠ .construct t when interval) : (l.step t ev).Every interval := by
  unfold Life.Every at h ⊢
  rcases l.step_stage hnew with hsame | ⟨w, i, c, hs, -, hs'⟩ | ⟨e, i, hs, hs' | hs'⟩ | ⟨i, hs, hs' | ⟨e, hs'⟩⟩
  · rwa [hsame]
  · rw [hs] at h
    rwa [hs']
  · rw [hs']
    trivial
  · rw [hs] at h
    rwa [hs']
  · rw [hs']
    trivial
  · rw [hs] at h
    rwa [hs']

/-- The state after a construction. -/
theorem constructed {s s₁ : Timers} (h : s.Tracked) {t : TimeId} {when : Time} {interval : Int}
    {es : List TimerEvent} (hr : timers.Run s (.construct t when interval :: es) s₁) :
    ∃ u : Timers, u.Tracked ∧ t.index_ ≤ u.queue.size_ ∧ (u.life t).stage = .made when interval ∧
      timers.Run u es s₁ := by
  obtain _ | ⟨hg, hs, hr⟩ := hr
  obtain ⟨htracked, hlife⟩ := life_step h hg hs
  refine ⟨_, htracked, ?_, ?_, hr⟩
  · cases hs
    exact Int.le_of_eq hg.2.2
  · rw [hlife t]
    unfold Life.step
    dsimp only
    rw [if_pos rfl]

theorem inserted {s : Timers} (h : s.Tracked) (t : TimeId) (when : Time) (interval : Int) :
    Inserted s t when interval := by
  intro es s₁ s₂ r hr hadd hlast
  obtain ⟨u, hu, hi, hmade, hr⟩ := constructed h hr
  obtain ⟨htracked, hmade⟩ := life_of_run (P := Life.Made when interval)
    (fun hp hadd hnew => hp.step hadd hnew) hu hi hr
    (fun ev hev c heq => hadd c (heq ▸ hev)) hmade
  obtain _ | ⟨hg, hs, _ | _⟩ := hlast
  obtain ⟨htracked', hlife⟩ := life_step htracked hg hs
  have hwait : s₂.stage t = .waiting when interval := by
    have hmade : (s₁.life t).stage = .made when interval := hmade
    show (s₂.life t).stage = _
    rw [hlife t]
    unfold Life.step
    simp only [hmade, if_true]
  obtain ⟨n, hn, hindex, hexp, hint, hin⟩ := htracked'.good.stage_waiting hwait
  exact ⟨n, hn, hindex, hexp, hint ▸ htracked'.repeats _ n hn, hin⟩

/-- During a batch, a timer of `deltimelist` is due. -/
theorem Timers.Good.stage_due {s : Timers} (h : s.Good) {b : Time × ℕ} (hb : s.batch = some b)
    {t : TimeId} {n : TimeNode} (hn : s.queue.heap[t.own_timenode_]? = some n)
    (hindex : n.index_ = t.index_) (hptr : t.own_timenode_ ∈ ptrs s.queue.deltimelist) :
    s.stage t = .due n.interval_ := by
  have hout : t.own_timenode_ ∉ s.pending := fun hp => h.pending_out hp hptr
  rw [Timers.stage_some (Timers.nodeOf_eq_some.mpr ⟨hn, hindex⟩), Timers.stageOf_del hptr hout, hb]
  rfl

theorem reinserted {s : Timers} (h : s.Tracked) (t : TimeId) (when : Time) {interval : Int}
    (hpos : 0 < interval) : Reinserted s t when interval := by
  intro es s₁ s₂ now r i hr hb hin hlast
  obtain ⟨u, hu, hi, hmade, hr⟩ := constructed h hr
  have hevery : (u.life t).Every interval := by
    unfold Life.Every
    rw [hmade]
  obtain ⟨htracked, hevery⟩ := life_of_run (P := Life.Every interval) (Q := fun _ => True)
    (fun hp _ hnew => hp.step hnew) hu hi hr (fun _ _ => trivial) hevery
  obtain ⟨n, e, hn, hindex, hdel⟩ := hin
  have hgood := htracked.good
  have hptr : t.own_timenode_ ∈ ptrs s₁.queue.deltimelist :=
    mem_ptrs.mpr ⟨hgood.queue.ne_zero hn, _, hdel, rfl⟩
  have hint : n.interval_ = interval := by
    have hstage : (s₁.life t).stage = .due n.interval_ := hgood.stage_due hb hn hindex hptr
    unfold Life.Every at hevery
    rw [hstage] at hevery
    exact hevery
  have hrep : n.repeat_ = true := (htracked.repeats _ n hn).mpr (hint ▸ hpos)
  have hrestart : (n.restart now).expiration_ = now + MS interval := by
    unfold TimeNode.restart
    rw [if_pos hrep, hint]
  obtain ⟨q, s', -, rfl, hok, hmem, -⟩ := hgood.endRead_cases hb r
  obtain _ | ⟨hg, hs, _ | _⟩ := hlast
  rw [hok, Except.ok.injEq] at hs
  subst hs
  constructor
  · intro e' he'
    rcases (hmem e' _).mp he' with hold | ⟨m, -, hm, -, heq⟩
    · exact absurd hdel (hgood.apart hold)
    · obtain rfl : m = n := Option.some.inj (hm.symm.trans hn)
      rw [← heq, hrestart]
  · intro hwait
    have hkey : ((n.index_, t.own_timenode_) : INDEX) = t.key := by rw [hindex]; rfl
    exact (hmem _ _).mpr (.inr ⟨n, hptr, hn, ⟨hrep, hkey ▸ hwait⟩, hrestart⟩)

/-! ### The delays that are kept -/

/-- What is asked for with a time of `d` seconds: a timer for `d` after the reading, and one that
starts so and goes on in steps of `d`. -/
def Undistorted (d : ℚ) : Prop :=
  ∀ now : Time,
    (∃ when, runafter d now = .ok (when, 0) ∧ (when : ℚ) = now + d * 1000000000 ∧
      ∀ {size es s}, timers.Run (.start size) es s → ∀ t, Inserted s t when 0) ∧
    ∃ when diff, runevery d now = .ok (when, diff) ∧ (when : ℚ) = now + d * 1000000000 ∧
      0 < diff ∧ ((MS diff : Time) : ℚ) = d * 1000000000 ∧
      ∀ {size es s}, timers.Run (.start size) es s → ∀ t, Inserted s t when diff ∧ Reinserted s t when diff

theorem staticCastInt_eq {d : ℚ} {k : Int} (h : d * 1000000 = k) :
    staticCastInt (d * Kmicseconds) = if -2 ^ 31 ≤ k ∧ k < 2 ^ 31 then .ok k else .error .overflow := by
  have hx : d * Kmicseconds = (k : ℚ) := by
    rw [← h]
    norm_num [Kmicseconds]
  unfold staticCastInt
  rw [hx, Rat.num_intCast, Rat.den_intCast, Nat.cast_one, Int.tdiv_one]

/-- `k` microseconds as nanoseconds. -/
theorem MS_eq {d : ℚ} {k : Int} (h : d * 1000000 = k) : ((MS k : Time) : ℚ) = d * 1000000000 := by
  have hq : d * 1000000000 = 1000 * (k : ℚ) := by
    rw [← h]
    ring
  rw [hq]
  unfold MS
  push_cast
  rfl

/-- **Which delays are kept.** Of those that are a positive number of microseconds. -/
theorem undistorted_iff {d : ℚ} (hpos : 0 < d) (hd : ∃ k : Int, d * 1000000 = k) :
    Undistorted d ↔ d * 1000000 ≤ 2147483647 := by
  obtain ⟨k, hk⟩ := hd
  have hkpos : 0 < k := by
    have hq : (0 : ℚ) < k := by
      rw [← hk]
      linarith
    exact_mod_cast hq
  have hbound : d * 1000000 ≤ 2147483647 ↔ -2 ^ 31 ≤ k ∧ k < 2 ^ 31 := by
    rw [hk]
    have hcast : (k : ℚ) ≤ 2147483647 ↔ k ≤ 2147483647 := by exact_mod_cast Iff.rfl
    rw [hcast]
    omega
  have hcast := staticCastInt_eq hk
  rw [hbound]
  constructor
  · intro hall
    by_contra hout
    obtain ⟨⟨when, hafter, -⟩, -⟩ := hall 0
    unfold runafter at hafter
    rw [hcast, if_neg hout] at hafter
    cases hafter
  · intro hin now
    have hms := MS_eq hk
    have hwhen : ((now + MS k : Time) : ℚ) = now + d * 1000000000 := by
      rw [← hms]
      push_cast
      rfl
    rw [if_pos hin] at hcast
    refine ⟨⟨now + MS k, ?_, hwhen, ?_⟩, now + MS k, k, ?_, hwhen, hkpos, hms, ?_⟩
    · unfold runafter
      rw [hcast]
      rfl
    · intro size es s hrun t
      exact inserted (timers_tracked hrun) t _ _
    · unfold runevery
      rw [hcast]
      rfl
    · intro size es s hrun t
      exact ⟨inserted (timers_tracked hrun) t _ _, reinserted (timers_tracked hrun) t _ hkpos⟩

/-- A period of the timers of `timequeue.cc`. -/
theorem undistorted_iff_test : Undistorted (27 / 10) :=
  (undistorted_iff (by norm_num) ⟨2700000, by norm_num⟩).mpr (by norm_num)

/-- A delay of an hour. -/
theorem hour_distorted : runafter 3600 0 = .error .overflow ∧ runevery 3600 0 = .error .overflow ∧
    ¬∀ d : ℚ, 0 < d → (∃ k : Int, d * 1000000 = k) → Undistorted d := by
  have hafter : runafter 3600 0 = .error .overflow := by decide +kernel
  refine ⟨hafter, by decide +kernel, ?_⟩
  intro h
  obtain ⟨⟨when, hok, -⟩, -⟩ := h 3600 (by norm_num) ⟨3600000000, by norm_num⟩ 0
  rw [hafter] at hok
  cases hok

end MuduoSe
