/-
# The timerfd is armed for the earliest timer

`Clocked` is the queue of a loop together with the common clock of `Clock::now()` and the
timerfd: the times of an event never go back. The timerfd is readable from the deadline of the last
`timerfd_settime` on, which counts from that call; what it counts was computed from an earlier reading
of the clock, as an `int64_t`.

* `armed_in_time`: outside `handleRead` the timerfd is readable or armed for the first timer
  of `list_`, late by the time between the reading and the call, or for 100 microseconds after the
  call when that is later; and no `itimerspec` disarms it.
* `armed_late`: it is late; and for a timer that lies more than 2^63 nanoseconds back it is armed for
  centuries.

The invariant is `Armed`, about every entry of `list_`. A step that takes entries out keeps it,
`addTimeNodeInLoop` arms for what becomes the first entry, and at the end of a batch `fflash`
arms for the first entry unless that is at the epoch; then it was in `list_` before.

Key definitions: `clocked`, `TimerQueue.readable`, `TimerQueue.Armed`, `Timers.Within`, `Clocked.Inv`.
Key theorems: `resetfd_armed`, `Armed.flashed`, `Within.step`, `clocked_within`, `armed_in_time`.
-/
import Mathlib.Algebra.Order.Ring.Int
import MuduoSe.Net.TimerRuns

namespace MuduoSe

/-! ### Time -/

namespace Timespec

/-- Its length. -/
def ns (v : Timespec) : Time := 1000000000 * v.tv_sec + v.tv_nsec

/-- `timerfd_settime` takes it, and it does not disarm the timer. -/
def Arms (v : Timespec) : Prop :=
  v ≠ ⟨0, 0⟩ ∧ 0 ≤ v.tv_sec ∧ 0 ≤ v.tv_nsec ∧ v.tv_nsec < 1000000000

end Timespec

namespace TimerQueue

/-- When the timerfd expires: it counts from the last call of `timerfd_settime`. -/
def deadline (q : TimerQueue) : Option Time := q.armed.map fun a => a.1.settime + a.2.ns

/-- The timerfd is readable at the time `t`; nothing reads it. -/
def readable (q : TimerQueue) (t : Time) : Prop := ∃ d ∈ q.deadline, d ≤ t

instance (q : TimerQueue) (t : Time) : Decidable (q.readable t) :=
  inferInstanceAs (Decidable (∃ d ∈ q.deadline, d ≤ t))

end TimerQueue

/-- The times of an event: when it reads the clock, and when it sets the timerfd. -/
def TimerEvent.readings : TimerEvent → List Time
  | .add _ r | .endRead r => [r.now, r.settime]
  | .beginRead now cut => [now, cut]
  | _ => []

/-- The timers of a loop, and the last time of an event. -/
structure Clocked where
  state : Timers
  clock : Time

namespace Clocked

def start (size : Int) (clock : Time) : Clocked := ⟨.start size, clock⟩

abbrev queue (s : Clocked) : TimerQueue := s.state.queue

end Clocked

/-- The events of the timers, on a clock that does not go back. -/
def clocked : System Clocked TimerEvent Fault where
  guard s ev := timers.guard s.state ev ∧ (s.clock :: ev.readings).Pairwise (· ≤ ·)
  step s ev := do
    let t ← timers.step s.state ev
    return ⟨t, ev.readings.getLastD s.clock⟩

instance (s : Clocked) (ev : TimerEvent) : Decidable (clocked.guard s ev) :=
  inferInstanceAs (Decidable (_ ∧ _))

theorem clocked_ok {s s' : Clocked} {ev : TimerEvent} (h : clocked.step s ev = .ok s') :
    timers.step s.state ev = .ok s'.state ∧ s'.clock = ev.readings.getLastD s.clock := by
  obtain ⟨t, ht, h⟩ := bind_ok h
  cases h
  exact ⟨ht, rfl⟩

/-- The clock only takes runs away. -/
theorem clocked_run {s s' : Clocked} {es : List TimerEvent} (h : clocked.Run s es s') :
    timers.Run s.state es s'.state := by
  induction h with
  | nil s => exact .nil s.state
  | cons hg hs _ ih => exact .cons hg.1 (clocked_ok hs).1 ih

/-! ### Arming -/

namespace TimerQueue

variable {q q' : TimerQueue} {held : List Addr} {p : Addr} {n : TimeNode}

/-- A time of at least 100 microseconds as an `itimerspec`. -/
theorem timespec_micros {m : Int} (hm : 100 ≤ m) :
    Timespec.Arms ⟨m.tdiv Kmicseconds, m.tmod Kmicseconds * 1000⟩ ∧
      Timespec.ns ⟨m.tdiv Kmicseconds, m.tmod Kmicseconds * 1000⟩ = MS m := by
  rw [Int.tdiv_eq_ediv_of_nonneg (by omega), Int.tmod_eq_emod_of_nonneg (by omega)]
  unfold Timespec.Arms Timespec.ns MS Kmicseconds Time
  rw [Ne, Timespec.mk.injEq]
  dsimp only
  omega

/-- It is an `int64_t`. -/
def Fits (x : Int) : Prop := -2 ^ 63 ≤ x ∧ x < 2 ^ 63

theorem Fits.bmod_eq {x : Int} (h : Fits x) : x.bmod (2 ^ 64) = x := by
  obtain ⟨hlow, hup⟩ := h
  apply Int.bmod_eq_of_le_mul_two
  · push_cast
    omega
  · push_cast
    omega

/-- **What `resetfd` passes to `timerfd_settime`.** -/
theorem resetfd_armed (q : TimerQueue) (t : Time) (r : ResetTimes) : ∃ v : Timespec, v.Arms ∧
    q.resetfd t r = { q with armed := some (r, v) } ∧ MS 100 ≤ v.ns ∧
    (Fits (t - r.now) → r.settime + v.ns ≤ max (t + (r.settime - r.now)) (r.settime + MS 100)) := by
  obtain ⟨x, hx⟩ : ∃ x, x = (t - r.now).bmod (2 ^ 64) := ⟨_, rfl⟩
  obtain ⟨m, hm⟩ : ∃ m, m = if x.tdiv 1000 < 100 then 100 else x.tdiv 1000 := ⟨_, rfl⟩
  have hlow : 100 ≤ m := by
    rw [hm]
    split_ifs <;> omega
  have hup : MS m ≤ max x (MS 100) := by
    have hdiv : x.tdiv 1000 * 1000 ≤ _ := Int.tdiv_mul_le x (by omega)
    rw [hm]
    unfold MS Time at *
    split_ifs at hdiv ⊢ <;> omega
  obtain ⟨harms, hns⟩ := timespec_micros hlow
  refine ⟨⟨m.tdiv Kmicseconds, m.tmod Kmicseconds * 1000⟩, harms, ?_, ?_, fun hfits => ?_⟩
  · rw [hm, hx]
    rfl
  · rw [hns]
    unfold MS Time
    omega
  · rw [hfits.bmod_eq] at hx
    rw [hns]
    unfold Time at *
    omega

/-- The first entry of a set is the least. -/
theorem head_le {S : PairSet} {e f : Entry} (h : S.toList.head? = some e) (hf : f ∈ S) : e.1 ≤ f.1 := by
  obtain ⟨es, hes⟩ := List.head?_eq_some_iff.mp h
  have hord : S.toList.Pairwise fun a b => pairCmp a b = .lt := Std.ExtTreeSet.ordered_toList
  rw [hes, List.pairwise_cons] at hord
  rw [← Std.ExtTreeSet.mem_toList, hes, List.mem_cons] at hf
  rcases hf with rfl | hf
  · exact le_refl f.1
  · rcases (pairCmp_lt e f).mp (hord.1 f hf) with hlt | ⟨heq, -⟩
    · exact le_of_lt hlt
    · exact le_of_eq heq

theorem head_mem {S : PairSet} {e : Entry} (h : S.toList.head? = some e) : e ∈ S :=
  Std.ExtTreeSet.mem_toList.mp (List.mem_of_head? h)

theorem not_mem_of_head {S : PairSet} (h : S.toList.head? = none) (e : Entry) : e ∉ S := by
  intro he
  rw [← Std.ExtTreeSet.mem_toList, List.head?_eq_none_iff.mp h] at he
  exact absurd he List.not_mem_nil

/-- For every waiting entry, the timerfd is armed for it or for 100 microseconds, from the time of the
call on. -/
def Armed (q : TimerQueue) : Prop :=
  ∀ e ∈ q.list_, ∃ (r : ResetTimes) (v : Timespec), q.armed = some (r, v) ∧
    r.settime + v.ns ≤ max (e.1 + (r.settime - r.now)) (r.settime + MS 100)

theorem Armed.subset (h : q.Armed) (hlist : ∀ e ∈ q'.list_, e ∈ q.list_) (ha : q'.armed = q.armed) :
    q'.Armed := by
  intro e he
  rw [ha]
  exact h e (hlist e he)

theorem resetfd_armed_now {t : Time} {r : ResetTimes} (hfits : Fits (t - r.now)) (h : ∀ e ∈ q.list_, t ≤ e.1) :
    (q.resetfd t r).Armed := by
  obtain ⟨v, -, hv, -, hle⟩ := resetfd_armed q t r
  intro e he
  rw [hv] at he ⊢
  exact ⟨r, v, rfl, (hle hfits).trans (max_le_max_right _ (Int.add_le_add_right (h e he) _))⟩

theorem resetfd_arms (q : TimerQueue) (t : Time) (r : ResetTimes) : ∀ a ∈ (q.resetfd t r).armed, a.2.Arms := by
  obtain ⟨v, harms, hv, -, -⟩ := resetfd_armed q t r
  intro a ha
  rw [hv] at ha
  cases ha
  exact harms

/-- What `insert` says of the new node. -/
theorem insert_flag {flag : Bool} (h : q.insert p = .ok (flag, q')) (hn : q.heap[p]? = some n) :
    (flag = true → ∀ e ∈ q.list_, n.expiration_ < e.1) ∧
      (flag = false → ∃ e ∈ q.list_, e.1 ≤ n.expiration_) := by
  unfold TimerQueue.insert at h
  rw [deref_eq hn, ok_bind] at h
  obtain ⟨m, -, h⟩ := bind_ok h
  cases h
  rcases hh : q.list_.toList.head? with _ | e
  · refine ⟨fun _ e he => absurd he (not_mem_of_head hh e), ?_⟩
    rintro ⟨⟩
  · dsimp only
    rw [decide_eq_true_eq, decide_eq_false_iff_not]
    constructor
    · intro hlt f hf
      exact lt_of_lt_of_le hlt (head_le hh hf)
    · intro hle
      exact ⟨e, head_mem hh, not_lt.mp hle⟩

/-- **When `addTimeNodeInLoop` sets the timerfd**: for what is then the first entry. -/
theorem Good.add_cases (h : q.Good (p :: held)) (hn : q.heap[p]? = some n) {r : ResetTimes}
    (hadd : q.addTimeNodeInLoop p r = .ok q') :
    (∀ e, e ∈ q'.list_ ↔ e = (n.expiration_, p) ∨ e ∈ q.list_) ∧
      (q'.armed = q.armed ∧ (∃ e ∈ q.list_, e.1 ≤ n.expiration_) ∨
        q'.armed = (q'.resetfd n.expiration_ r).armed ∧ ∀ e ∈ q.list_, n.expiration_ < e.1) := by
  obtain ⟨flag, hins⟩ := h.insert hn
  have hflag := insert_flag hins hn
  unfold TimerQueue.addTimeNodeInLoop at hadd
  rw [hins, ok_bind] at hadd
  dsimp only at hadd
  rcases flag with _ | _
  · cases hadd
    exact ⟨fun e => mem_insert, .inl ⟨rfl, hflag.2 rfl⟩⟩
  · rw [if_pos rfl, show (q.enter n p).deref p = .ok n from deref_eq hn, ok_bind] at hadd
    cases hadd
    exact ⟨fun e => mem_insert, .inr ⟨rfl, hflag.1 rfl⟩⟩

/-- **`addTimeNodeInLoop` keeps the timerfd armed.** -/
theorem Good.add_armed (h : q.Good (p :: held)) (hn : q.heap[p]? = some n) (ha : q.Armed) {r : ResetTimes}
    (hfits : Fits (n.expiration_ - r.now)) (hadd : q.addTimeNodeInLoop p r = .ok q') : q'.Armed := by
  obtain ⟨hlist, ⟨hsame, f, hf, hle⟩ | ⟨hset, hfirst⟩⟩ := h.add_cases hn hadd
  · intro e he
    rw [hsame]
    rcases (hlist e).mp he with rfl | he
    · obtain ⟨c, v, hv, hd⟩ := ha f hf
      exact ⟨c, v, hv, hd.trans (max_le_max_right _ (Int.add_le_add_right hle _))⟩
    · exact ha e he
  · have hreset : (q'.resetfd n.expiration_ r).Armed := by
      apply resetfd_armed_now hfits
      intro e he
      rcases (hlist e).mp he with rfl | he
      · exact le_refl _
      · exact le_of_lt (hfirst e he)
    exact hreset.subset (fun e he => he) hset

/-! ### A batch -/

theorem eraseIndices_frame : ∀ {es : List Entry} {q q' : TimerQueue}, q.eraseIndices es = .ok q' →
    ∃ S, q' = { q with indexlist_ := S }
  | [], q, _, h => by
    cases h
    exact ⟨q.indexlist_, rfl⟩
  | e :: es, q, _, h => by
    rw [eraseIndices] at h
    obtain ⟨n, -, h⟩ := bind_ok h
    obtain ⟨S, rfl⟩ := eraseIndices_frame h
    exact ⟨S, rfl⟩

/-- `getExpired` takes entries out of `list_`, and sets no timer. -/
theorem getExpired_frame {cut : Time} (h : q.getExpired cut = .ok q') :
    (∀ e ∈ q'.list_, e ∈ q.list_) ∧ q'.armed = q.armed := by
  obtain ⟨S, rfl⟩ := eraseIndices_frame h
  refine ⟨?_, rfl⟩
  intro e he
  have he : e ∈ Std.ExtTreeSet.ofList (q.list_.toList.filter (!expired cut ·)) pairCmp := he
  rw [mem_ofList, List.mem_filter, Std.ExtTreeSet.mem_toList] at he
  exact he.1

theorem insert_armed {flag : Bool} (h : q.insert p = .ok (flag, q')) : q'.armed = q.armed := by
  unfold TimerQueue.insert at h
  obtain ⟨n, -, h⟩ := bind_ok h
  obtain ⟨m, -, h⟩ := bind_ok h
  cases h
  dsimp only
  split_ifs <;> rfl

theorem flashEntry_armed {now : Time} {e e' : Entry} (h : flashEntry now e q = .ok (e', q')) :
    q'.armed = q.armed := by
  unfold flashEntry at h
  obtain ⟨n, -, h⟩ := bind_ok h
  split at h
  · obtain ⟨⟨flag, q1⟩, hins, h⟩ := bind_ok h
    cases h
    exact (insert_armed hins :)
  · cases h
    rfl

/-- The loop of `fflash` does not touch the timerfd. -/
theorem flashEntries_armed {now : Time} : ∀ {es es' : List Entry} {q q' : TimerQueue},
    flashEntries now es q = .ok (es', q') → q'.armed = q.armed
  | [], _, q, q', h => by
    cases h
    rfl
  | e :: es, _, q, q', h => by
    rw [flashEntries] at h
    obtain ⟨⟨e1, q1⟩, he, h⟩ := bind_ok h
    obtain ⟨⟨es1, q2⟩, hes, h⟩ := bind_ok h
    cases h
    exact (flashEntries_armed hes).trans (flashEntry_armed he)

/-- **When `fflash` sets the timerfd.** -/
theorem fflash_cases {now : Time} {r : ResetTimes} (h : q.fflash now r = .ok q') :
    ∃ t, q'.earliest = .ok t ∧
      q'.armed = if t ≠ 0 then (q'.resetfd t r).armed else q.armed := by
  unfold TimerQueue.fflash at h
  obtain ⟨⟨es, q1⟩, hes, h⟩ := bind_ok h
  obtain ⟨t, ht, h⟩ := bind_ok h
  cases h
  refine ⟨t, ?_, ?_⟩
  · split_ifs
    · exact ht
    · exact ht
  · split_ifs
    · rfl
    · exact (flashEntries_armed hes :)

/-- The first expiration, or the epoch. -/
def first (q : TimerQueue) : Time :=
  match q.list_.toList.head? with
  | some e => e.1
  | none => 0

theorem Good.earliest_eq (h : q.Good held) : q.earliest = .ok q.first := by
  unfold TimerQueue.earliest first
  rcases hh : q.list_.toList.head? with _ | ⟨e, a⟩
  · rfl
  · obtain ⟨-, n, hn, rfl⟩ := (h.list_iff e a).mp (head_mem hh)
    dsimp only
    rw [deref_eq hn]
    rfl

theorem first_entry {e : Entry} (he : e ∈ q.list_) :
    ∃ p, (q.first, p) ∈ q.list_ ∧ q.first ≤ e.1 := by
  unfold first
  rcases hh : q.list_.toList.head? with _ | ⟨t, p⟩
  · exact absurd he (not_mem_of_head hh e)
  · exact ⟨p, head_mem hh, head_le hh he⟩

/-- **`fflash` keeps the timerfd armed**: for the first entry, or for the epoch from before. -/
theorem Armed.flashed {r : ResetTimes} (h : q.Armed) (hepoch : ∀ p, (0, p) ∈ q'.list_ → (0, p) ∈ q.list_)
    (hfits : ∀ e ∈ q'.list_, Fits (e.1 - r.now))
    (harmed : q'.armed = if q'.first ≠ 0 then (q'.resetfd q'.first r).armed else q.armed) : q'.Armed := by
  intro e he
  obtain ⟨p, hp, hle⟩ := first_entry he
  by_cases hfirst : q'.first = 0
  · rw [if_neg (not_not.mpr hfirst)] at harmed
    rw [hfirst] at hp hle
    obtain ⟨c, v, hv, hd⟩ := h _ (hepoch p hp)
    exact ⟨c, v, harmed.trans hv, hd.trans (max_le_max_right _ (Int.add_le_add_right hle _))⟩
  · rw [if_pos hfirst] at harmed
    have hreset : (q'.resetfd q'.first r).Armed :=
      resetfd_armed_now (hfits _ hp) fun e he => (first_entry he).choose_spec.2
    obtain ⟨c, v, hv, hd⟩ := hreset e he
    exact ⟨c, v, harmed.trans hv, hd⟩

/-- **What waits after a batch waited before, or is a node of the batch that is due again.** -/
theorem Flashed.mem_list {now : Time} {es es' : List Entry} (h : Flashed now es q es' q')
    (hq : q.Good (ptrs es ++ held)) (hq' : q'.Good (ptrs es' ++ held)) (k : Time) (p : Addr) :
    (k, p) ∈ q'.list_ ↔ (k, p) ∈ q.list_ ∨ ∃ n : TimeNode, p ∈ ptrs es ∧ q.heap[p]? = some n ∧
      q.again n p ∧ (n.restart now).expiration_ = k := by
  rw [hq'.list_iff, hq.list_iff, List.mem_append, List.mem_append]
  by_cases hp : p ∈ ptrs es
  · obtain ⟨n, hn⟩ := hq.live p (List.mem_append_left _ hp)
    have hout : p ∉ held := fun hin => List.disjoint_of_nodup_append hq.nodup hp hin
    by_cases ha : q.again n p
    · obtain ⟨hn', hp'⟩ := h.again p n hp hn ha
      simp [hp, hp', hout, hn, hn', ha]
    · obtain ⟨hn', hp'⟩ := h.rest p n hp hn ha
      simp [hp, hp', hn, ha]
  · obtain ⟨hn', hp'⟩ := h.other p hp
    simp [hp, hp', hn']

end TimerQueue

/-! ### Every step -/

open TimerQueue

namespace Timers

/-- What arming rests on. -/
structure Arm (s : Timers) : Prop where
  now : ∀ b ∈ s.batch, 0 < b.1
  spaced : ∀ (p : Addr) (n : TimeNode), s.queue.heap[p]? = some n → n.repeat_ = true → 0 < n.interval_
  arms : ∀ a ∈ s.queue.armed, a.2.Arms

theorem start_arm (size : Int) : (start size).Arm := by
  refine ⟨?_, ?_, ?_⟩
  · rintro b ⟨⟩
  · intro p n hn
    rw [show (start size).queue.heap[p]? = none from Std.ExtTreeMap.getElem?_empty] at hn
    cases hn
  · rintro a ⟨⟩

variable {s t : Timers}

/-- A step that leaves the timerfd alone and enters nothing. -/
theorem Arm.frame (h : s.Arm) (hnow : ∀ b ∈ t.batch, 0 < b.1)
    (hheap : ∀ (p : Addr) (n : TimeNode), t.queue.heap[p]? = some n → s.queue.heap[p]? = some n)
    (harmed : t.queue.armed = s.queue.armed) : t.Arm := by
  refine ⟨hnow, ?_, ?_⟩
  · intro p n hn
    exact h.spaced p n (hheap p n hn)
  · rw [harmed]
    exact h.arms

theorem Arm.construct (h : s.Arm) (i : TimeId) (when : Time) (interval : Int) :
    Arm { s with
      queue := s.queue.newTimeNode i.own_timenode_ when interval
      pending := i.own_timenode_ :: s.pending } := by
  refine ⟨h.now, ?_, h.arms⟩
  intro p n hn hr
  have hn : (s.queue.heap.insert i.own_timenode_ ⟨when, interval, 0 < interval, s.queue.size_ + 1⟩)[p]? =
    some n := hn
  rw [heap_insert] at hn
  split_ifs at hn
  · cases hn
    exact of_decide_eq_true hr
  · exact h.spaced p n hn hr

/-- `getExpired` in a step. -/
theorem beginRead_frame {now cut : Time} (hs : timers.step s (.beginRead now cut) = .ok t) :
    (∀ e ∈ t.queue.list_, e ∈ s.queue.list_) ∧ t.queue.armed = s.queue.armed := by
  obtain ⟨q, hq, hs⟩ := bind_ok hs
  cases hs
  exact (getExpired_frame hq :)

/-- The functor of an add. -/
theorem Good.add_step (h : s.Good) {p : Addr} (hp : p ∈ s.pending) {r : ResetTimes}
    (hs : timers.step s (.add p r) = .ok t) : ∃ (n : TimeNode) (held : List Addr), s.queue.Good (p :: held) ∧
      s.queue.heap[p]? = some n ∧ s.queue.addTimeNodeInLoop p r = .ok t.queue ∧
      t.queue.heap = s.queue.heap ∧ t.batch = s.batch := by
  have hq := h.queue.perm (s.held_perm hp)
  obtain ⟨n, hn⟩ := hq.live p List.mem_cons_self
  obtain ⟨armed, hadd, -⟩ := hq.addTimeNodeInLoop hn r
  unfold timers at hs
  dsimp only at hs
  rw [deref_eq hn, ok_bind, hadd, ok_bind] at hs
  cases hs
  exact ⟨n, _, hq, hn, hadd, rfl, rfl⟩

theorem Arm.add (h : s.Arm) (hgood : s.Good) {p : Addr} (hp : p ∈ s.pending) {r : ResetTimes}
    (hs : timers.step s (.add p r) = .ok t) : t.Arm := by
  obtain ⟨n, held, hq, hn, hadd, hheap, hbatch⟩ := hgood.add_step hp hs
  refine ⟨hbatch ▸ h.now, hheap ▸ h.spaced, ?_⟩
  obtain ⟨-, ⟨hsame, -⟩ | ⟨hset, -⟩⟩ := hq.add_cases hn hadd
  · rw [hsame]
    exact h.arms
  · rw [hset]
    exact resetfd_arms _ _ _

/-- What waits and what is armed after a batch. -/
theorem Good.endRead_cases (h : s.Good) {now : Time} {i : ℕ} (hb : s.batch = some (now, i))
    (r : ResetTimes) :
    ∃ (q : TimerQueue) (s' : Timers),
      TimerQueue.Flashed now s.queue.deltimelist { s.queue with calling := false } q.deltimelist q ∧
      s' = { s with queue := q, batch := none } ∧ timers.step s (.endRead r) = .ok s' ∧
      (∀ k p, (k, p) ∈ q.list_ ↔ (k, p) ∈ s.queue.list_ ∨ ∃ n : TimeNode,
        p ∈ ptrs s.queue.deltimelist ∧ s.queue.heap[p]? = some n ∧ s.queue.again n p ∧
          (n.restart now).expiration_ = k) ∧
      q.armed = if q.first ≠ 0 then (q.resetfd q.first r).armed else s.queue.armed := by
  have hgood : TimerQueue.Good { s.queue with calling := false } s.held :=
    h.queue.congr rfl rfl rfl rfl
  obtain ⟨q, _, hflash, rfl, hs, hgood'⟩ := h.endRead hb r
  have hq : TimerQueue.fflash { s.queue with calling := false } now r = .ok q := by
    unfold timers at hs
    dsimp only at hs
    rw [hb] at hs
    obtain ⟨q', hq, hs⟩ := bind_ok hs
    cases hs
    exact hq
  obtain ⟨t, ht, harmed⟩ := fflash_cases hq
  rw [hgood'.queue.earliest_eq, Except.ok.injEq] at ht
  subst ht
  exact ⟨q, _, hflash, rfl, hs, (hflash.mem_list hgood hgood'.queue :), harmed⟩

/-- A node that is inserted again is due after the batch began. -/
theorem Arm.restart_lt (h : s.Arm) {p : Addr} {n : TimeNode} (hn : s.queue.heap[p]? = some n)
    (hr : n.repeat_ = true) (now : Time) : now < (n.restart now).expiration_ := by
  have hint := h.spaced p n hn hr
  unfold TimeNode.restart
  rw [if_pos hr]
  unfold MS Time at *
  dsimp only
  omega

theorem Arm.restart_pos (h : s.Arm) {now : Time} {i : ℕ} (hb : s.batch = some (now, i)) {p : Addr}
    {n : TimeNode} (hn : s.queue.heap[p]? = some n) (hr : n.repeat_ = true) :
    0 < (n.restart now).expiration_ :=
  lt_trans (h.now (now, i) hb) (h.restart_lt hn hr now)

/-- The nodes after a batch. -/
theorem Good.flashed_node (h : s.Good) {now : Time} {q : TimerQueue}
    (hflash : TimerQueue.Flashed now s.queue.deltimelist { s.queue with calling := false } q.deltimelist q)
    {p : Addr} {m : TimeNode} (hm : q.heap[p]? = some m) :
    ∃ n : TimeNode, s.queue.heap[p]? = some n ∧ (m = n ∨ m = n.restart now ∧ n.repeat_ = true) := by
  have hlive : ∀ a ∈ ptrs s.queue.deltimelist, ∃ n : TimeNode, s.queue.heap[a]? = some n :=
    fun a ha => h.queue.live a (List.mem_append_left _ ha)
  obtain ⟨n, hn, hwhat⟩ := hflash.node hlive hm
  exact ⟨n, hn, hwhat.imp_right fun hre => ⟨hre.1, hre.2.1⟩⟩

theorem Arm.endRead (h : s.Arm) (hgood : s.Good) {now : Time} {r : ResetTimes} {i : ℕ}
    (hb : s.batch = some (now, i)) (hs : timers.step s (.endRead r) = .ok t) : t.Arm := by
  obtain ⟨q, _, hflash, rfl, hs', -, harmed⟩ := hgood.endRead_cases hb r
  rw [hs', Except.ok.injEq] at hs
  subst hs
  refine ⟨?_, ?_, ?_⟩
  · rintro b ⟨⟩
  · intro p m hm hr
    obtain ⟨n, hn, rfl | ⟨rfl, hrepeat⟩⟩ := hgood.flashed_node hflash hm
    · exact h.spaced p m hn hr
    · rw [(restart_same n now).2.2]
      exact h.spaced p n hn hrepeat
  · show ∀ a ∈ q.armed, _
    rw [harmed]
    split_ifs
    · exact resetfd_arms _ _ _
    · exact h.arms

/-- **Whatever happens, no call disarms the timerfd.** -/
theorem Arm.step (h : s.Arm) (hgood : s.Good) {ev : TimerEvent} (hg : timers.guard s ev)
    (hread : ∀ r ∈ ev.readings, 0 < r) (hs : timers.step s ev = .ok t) : t.Arm := by
  obtain ⟨hmoved, -⟩ := hgood.moved hg hs
  cases hmoved with
  | @construct i when interval _ _ _ => exact h.construct i when interval
  | other => exact h.frame h.now (fun _ _ hn => hn) rfl
  | add hp _ => exact h.add hgood hp hs
  | delWaiting _ _ _ =>
    refine h.frame h.now ?_ rfl
    intro p n hn
    rw [show _ = _ from heap_erase s.queue.heap _ p] at hn
    split_ifs at hn
    exact hn
  | delOther _ => exact h.frame h.now (fun _ _ hn => hn) rfl
  | @beginRead now cut q _ _ hheap _ _ =>
    refine h.frame ?_ ?_ (beginRead_frame hs).2
    · rintro b ⟨⟩
      exact hread now List.mem_cons_self
    · intro p n hn
      rw [show _ = _ from hheap p] at hn
      split_ifs at hn
      exact hn
  | @run e now i n hb _ _ =>
    refine h.frame ?_ (fun _ _ hn => hn) rfl
    rintro b ⟨⟩
    exact h.now (now, i) hb
  | endRead hb _ _ => exact h.endRead hgood hb hs

end Timers

/-! ### Arming in time -/

/-- What the code is given is of its types, and no timer is so old that the time since it expired is no
`int64_t`. -/
def TimerEvent.InRange (last : Time) : TimerEvent → Prop
  | .construct _ when interval => last ≤ when + 2 ^ 63 ∧ when < 2 ^ 63 ∧ interval < 2 ^ 31
  | _ => True

instance (last : Time) : (ev : TimerEvent) → Decidable (ev.InRange last)
  | .construct _ _ _ => inferInstanceAs (Decidable (_ ∧ _ ∧ _))
  | .other | .add _ _ | .del _ | .beginRead _ _ | .run | .endRead _ => isTrue trivial

namespace Timers

variable {s t : Timers}

/-- `last` is not before any reading of the clock: what `resetfd` computes of it and of any expiration
is an `int64_t`. -/
structure Within (s : Timers) (last clock : Time) : Prop where
  begun : ∀ b ∈ s.batch, b.1 ≤ clock
  nodes : ∀ (p : Addr) (n : TimeNode), s.queue.heap[p]? = some n →
    last ≤ n.expiration_ + 2 ^ 63 ∧ n.expiration_ < clock + 2 ^ 63 ∧ n.interval_ < 2 ^ 31
  armed : s.queue.Armed

variable {last clock clock' : Time}

theorem start_within (size : Int) : (start size).Within last clock := by
  refine ⟨?_, ?_, ?_⟩
  · rintro b ⟨⟩
  · intro p n hn
    rw [show (start size).queue.heap[p]? = none from Std.ExtTreeMap.getElem?_empty] at hn
    cases hn
  · intro e he
    exact absurd he Std.ExtTreeSet.not_mem_empty

/-- The expirations that wait are those of nodes. -/
theorem Within.entry (h : s.Within last clock) (hgood : s.Good) {e : Entry} (he : e ∈ s.queue.list_) :
    last ≤ e.1 + 2 ^ 63 ∧ e.1 < clock + 2 ^ 63 := by
  obtain ⟨-, n, hn, hexp⟩ := (hgood.queue.list_iff e.1 e.2).mp he
  obtain ⟨hlow, hup, -⟩ := h.nodes _ n hn
  exact hexp ▸ ⟨hlow, hup⟩

theorem Within.frame (h : s.Within last clock) (hle : clock ≤ clock') (hbegun : ∀ b ∈ t.batch, b.1 ≤ clock')
    (hheap : ∀ (p : Addr) (n : TimeNode), t.queue.heap[p]? = some n → s.queue.heap[p]? = some n)
    (hlist : ∀ e ∈ t.queue.list_, e ∈ s.queue.list_) (harmed : t.queue.armed = s.queue.armed) :
    t.Within last clock' := by
  refine ⟨hbegun, ?_, h.armed.subset hlist harmed⟩
  intro p n hn
  obtain ⟨hlow, hup, hint⟩ := h.nodes p n (hheap p n hn)
  exact ⟨hlow, lt_of_lt_of_le hup (Int.add_le_add_right hle _), hint⟩

theorem Within.add (h : s.Within last clock) (hgood : s.Good) {p : Addr} (hp : p ∈ s.pending) {r : ResetTimes}
    (hnow : clock ≤ r.now) (hset : r.now ≤ r.settime) (hlast : r.settime ≤ last)
    (hs : timers.step s (.add p r) = .ok t) : t.Within last r.settime := by
  obtain ⟨n, held, hq, hn, hadd, hheap, hbatch⟩ := hgood.add_step hp hs
  obtain ⟨hlow, hup, -⟩ := h.nodes p n hn
  have hfits : Fits (n.expiration_ - r.now) := by
    unfold Fits Time at *
    omega
  refine ⟨?_, ?_, hq.add_armed hn h.armed hfits hadd⟩
  · rw [hbatch]
    exact fun b hb => (h.begun b hb).trans (hnow.trans hset)
  · rw [hheap]
    intro a m hm
    obtain ⟨hlow, hup, hint⟩ := h.nodes a m hm
    refine ⟨hlow, ?_, hint⟩
    unfold Time at *
    omega

/-- A node that is inserted again. -/
theorem Within.restart (h : s.Within last clock) (ha : s.Arm) {now : Time} {i : ℕ} (hb : s.batch = some (now, i))
    (hlast : last < 2 ^ 63) {p : Addr} {n : TimeNode} (hn : s.queue.heap[p]? = some n) (hr : n.repeat_ = true) :
    last ≤ (n.restart now).expiration_ + 2 ^ 63 ∧ (n.restart now).expiration_ < clock + 2 ^ 63 := by
  have hpos := ha.restart_pos hb hn hr
  have hle := h.begun (now, i) hb
  obtain ⟨-, -, hint⟩ := h.nodes p n hn
  unfold TimeNode.restart at hpos ⊢
  rw [if_pos hr] at hpos ⊢
  unfold MS Time at *
  dsimp only at *
  omega

theorem Within.endRead (h : s.Within last clock) (ha : s.Arm) (hgood : s.Good) {now : Time} {r : ResetTimes} {i : ℕ}
    (hb : s.batch = some (now, i)) (hnow : clock ≤ r.now) (hset : r.now ≤ r.settime) (hle : r.settime ≤ last)
    (hlast : last < 2 ^ 63) (hs : timers.step s (.endRead r) = .ok t) : t.Within last r.settime := by
  obtain ⟨q, _, hflash, rfl, hs', hmem, harmed⟩ := hgood.endRead_cases hb r
  rw [hs', Except.ok.injEq] at hs
  subst hs
  have hentry : ∀ e ∈ q.list_, last ≤ e.1 + 2 ^ 63 ∧ e.1 < clock + 2 ^ 63 := by
    intro e he
    rcases (hmem e.1 e.2).mp he with he | ⟨n, -, hn, hre, hexp⟩
    · exact h.entry hgood he
    · exact hexp ▸ h.restart ha hb hlast hn hre.1
  refine ⟨?_, ?_, ?_⟩
  · rintro b ⟨⟩
  · intro p m hm
    obtain ⟨n, hn, hwhat⟩ := hgood.flashed_node hflash hm
    obtain ⟨hlow, hup, hint⟩ := h.nodes p n hn
    rcases hwhat with rfl | ⟨rfl, hrepeat⟩
    · refine ⟨hlow, ?_, hint⟩
      unfold Time at *
      omega
    · obtain ⟨hlow', hup'⟩ := h.restart ha hb hlast hn hrepeat
      refine ⟨hlow', ?_, (restart_same n now).2.2 ▸ hint⟩
      unfold Time at *
      omega
  · refine Armed.flashed h.armed ?_ ?_ harmed
    · -- nothing is restarted for the epoch
      intro p hp
      rcases (hmem 0 p).mp hp with hold | ⟨n, -, hn, hre, h0⟩
      · exact hold
      · exact absurd h0 (ne_of_gt (ha.restart_pos hb hn hre.1))
    · intro e he
      obtain ⟨hlow, hup⟩ := hentry e he
      unfold Fits Time at *
      omega

/-- **Whatever happens, the timerfd stays armed.** -/
theorem Within.step (h : s.Within last clock) (ha : s.Arm) (hgood : s.Good) {ev : TimerEvent}
    (hg : timers.guard s ev) (hsorted : (clock :: ev.readings).Pairwise (· ≤ ·))
    (hclock : clock' = ev.readings.getLastD clock) (hle : clock' ≤ last) (hlast : last < 2 ^ 63)
    (hpos : 0 < clock) (hev : ev.InRange last) (hs : timers.step s ev = .ok t) : t.Within last clock' := by
  obtain ⟨hmoved, -⟩ := hgood.moved hg hs
  subst hclock
  cases hmoved with
  | @construct i when interval _ _ _ =>
    obtain ⟨hlow, hup, hint⟩ := hev
    refine ⟨h.begun, ?_, h.armed⟩
    intro p n hn
    have hn : (s.queue.heap.insert i.own_timenode_ ⟨when, interval, 0 < interval, s.queue.size_ + 1⟩)[p]? =
      some n := hn
    rw [heap_insert] at hn
    split_ifs at hn
    · cases hn
      refine ⟨hlow, ?_, hint⟩
      show when < clock + 2 ^ 63
      unfold Time at *
      omega
    · exact h.nodes p n hn
  | other => exact h.frame (le_refl _) h.begun (fun _ _ hn => hn) (fun _ he => he) rfl
  | @add p r n armed hp hn =>
    obtain ⟨hnow, hset⟩ := List.pairwise_cons.mp hsorted
    exact h.add hgood hp (hnow _ List.mem_cons_self) (List.rel_of_pairwise_cons hset List.mem_cons_self) hle hs
  | delWaiting _ _ _ =>
    refine h.frame (le_refl _) h.begun ?_ (fun e he => (mem_erase.mp he).2) rfl
    intro p n hn
    rw [show _ = _ from heap_erase s.queue.heap _ p] at hn
    split_ifs at hn
    exact hn
  | delOther _ => exact h.frame (le_refl _) h.begun (fun _ _ hn => hn) (fun _ he => he) rfl
  | @beginRead now cut q _ _ hheap _ _ =>
    obtain ⟨hnow, hcut⟩ := List.pairwise_cons.mp hsorted
    have hle' : now ≤ cut := List.rel_of_pairwise_cons hcut List.mem_cons_self
    obtain ⟨hlist, harmed⟩ := beginRead_frame hs
    refine h.frame ((hnow now List.mem_cons_self).trans hle') ?_ ?_ hlist harmed
    · rintro b ⟨⟩
      exact hle'
    · intro p n hn
      rw [show _ = _ from hheap p] at hn
      split_ifs at hn
      exact hn
  | @run e now i n hb _ _ =>
    refine h.frame (le_refl _) ?_ (fun _ _ hn => hn) (fun _ he => he) rfl
    rintro b ⟨⟩
    exact h.begun (now, i) hb
  | @endRead r now i q hb _ _ =>
    obtain ⟨hnow, hset⟩ := List.pairwise_cons.mp hsorted
    exact h.endRead ha hgood hb (hnow _ List.mem_cons_self) (List.rel_of_pairwise_cons hset List.mem_cons_self) hle
      hlast hs

end Timers

/-! ### Every run -/

theorem le_getLastD {c : Time} {l : List Time} (h : (c :: l).Pairwise (· ≤ ·)) : c ≤ l.getLastD c := by
  rcases List.mem_cons.mp (List.getLastD_mem_cons (a := c) (l := l)) with heq | hin
  · exact le_of_eq heq.symm
  · exact List.rel_of_pairwise_cons h hin

namespace Clocked

structure Inv (s : Clocked) : Prop where
  good : s.state.Good
  arm : s.state.Arm
  clock : 0 < s.clock

theorem start_inv (size : Int) {clock : Time} (hc : 0 < clock) : (start size clock).Inv :=
  ⟨Timers.start_good size, Timers.start_arm size, hc⟩

end Clocked

theorem clocked_step {s t : Clocked} (h : s.Inv) {ev : TimerEvent} (hg : clocked.guard s ev)
    (hs : clocked.step s ev = .ok t) : t.Inv := by
  obtain ⟨hguard, hsorted⟩ := hg
  obtain ⟨hstep, hclock⟩ := clocked_ok hs
  refine ⟨(h.good.moved hguard hstep).2, h.arm.step h.good hguard ?_ hstep, ?_⟩
  · intro r hr
    exact lt_of_lt_of_le h.clock (List.rel_of_pairwise_cons hsorted hr)
  · rw [hclock]
    exact lt_of_lt_of_le h.clock (le_getLastD hsorted)

theorem clocked_inv {size : Int} {c : Time} (hc : 0 < c) {es : List TimerEvent} {s : Clocked}
    (h : clocked.Run (.start size c) es s) : s.Inv :=
  h.invariant (fun hi hg hs => clocked_step hi hg hs) (Clocked.start_inv size hc)

theorem clocked_within {size : Int} {c last : Time} (hc : 0 < c) (hlast : last < 2 ^ 63) {es : List TimerEvent}
    {s : Clocked} (h : clocked.Run (.start size c) es s) (hes : ∀ ev ∈ es, ev.InRange last) (hle : s.clock ≤ last) :
    s.state.Within last s.clock := by
  refine h.history (P := fun es s => (∀ ev ∈ es, ev.InRange last) → s.clock ≤ last → s.state.Within last s.clock)
    ?_ ?_ hes hle
  · exact fun _ _ => Timers.start_within size
  · intro es s ev t hrun ih hg hs hes hle
    have hinv := clocked_inv hc hrun
    obtain ⟨hstep, hclock⟩ := clocked_ok hs
    have hmono : s.clock ≤ t.clock := hclock ▸ le_getLastD hg.2
    refine (ih (fun e he => hes e (List.mem_append_left _ he)) (hmono.trans hle)).step hinv.arm hinv.good hg.1
      hg.2 hclock hle hlast hinv.clock (hes ev (List.mem_append_right _ (List.mem_singleton_self _))) hstep

/-- **No waiting timer is left without an armed timerfd.** At any time from the last event on, outside
`handleRead`: the timerfd is readable, or armed for the first timer, late by the time that `resetfd` took. -/
theorem armed_in_time {size : Int} {c : Time} (hc : 0 < c) {es : List TimerEvent} {s : Clocked}
    (h : clocked.Run (.start size c) es s) :
    (s.clock < 2 ^ 63 → (∀ ev ∈ es, ev.InRange s.clock) → s.state.batch = none →
      ∀ e, s.queue.list_.toList.head? = some e → ∀ τ, s.clock ≤ τ →
        s.queue.readable τ ∨ ∃ (r : ResetTimes) (v : Timespec), s.queue.armed = some (r, v) ∧
          τ < r.settime + v.ns ∧ r.settime + v.ns ≤ max (e.1 + (r.settime - r.now)) (r.settime + MS 100)) ∧
    (∀ a ∈ s.queue.armed, a.2.Arms) ∧
    ∀ (q : TimerQueue) (t : Time) (r : ResetTimes), ∃ v : Timespec, v.Arms ∧
      q.resetfd t r = { q with armed := some (r, v) } := by
  have hinv := clocked_inv hc h
  refine ⟨?_, hinv.arm.arms, ?_⟩
  · intro hlast hes _ e he τ _
    obtain ⟨r, v, hv, hd⟩ := (clocked_within hc hlast h hes le_rfl).armed e (head_mem he)
    by_cases hτ : r.settime + v.ns ≤ τ
    · refine .inl ⟨r.settime + v.ns, ?_, hτ⟩
      unfold deadline
      rw [hv]
      rfl
    · exact .inr ⟨r, v, hv, not_le.mp hτ, hd⟩
  · intro q t r
    obtain ⟨v, harms, hv, -, -⟩ := resetfd_armed q t r
    exact ⟨v, harms, hv⟩

/-- A timer for 300 microseconds; its callback cancels another timer and adds a third. -/
def rearm : List TimerEvent :=
  [.construct ⟨1, 1⟩ 400000 50, .construct ⟨2, 2⟩ 900000 0, .add 2 ⟨100000, 100500⟩, .add 1 ⟨110000, 110500⟩,
    .beginRead 410000 410001, .run, .del ⟨2, 2⟩, .construct ⟨2, 3⟩ 600000 0, .add 2 ⟨430000, 430500⟩,
    .endRead ⟨450000, 450500⟩]

theorem armed_in_time_rearm : ∃ s, clocked.Run (.start 0 1) rearm s ∧
    s.queue.list_.toList.head? = some (460000, 1) ∧ ∀ τ, 450500 ≤ τ → s.queue.readable τ ∨
      ∃ (r : ResetTimes) (v : Timespec), s.queue.armed = some (r, v) ∧ τ < r.settime + v.ns ∧
        r.settime + v.ns ≤ max (460000 + (r.settime - r.now)) (r.settime + MS 100) := by
  have hrun : ((clocked.exec (.start 0 1) rearm).map fun s =>
      (s.state.batch, s.clock, s.queue.list_.toList.head?)) =
      some (none, 450500, some (460000, 1)) := by
    decide +kernel
  obtain ⟨s, hs, hview⟩ := clocked.exec_map_iff.mp hrun
  obtain ⟨hb, hclock, hl⟩ : s.state.batch = none ∧ s.clock = 450500 ∧
      s.queue.list_.toList.head? = some (460000, 1) := by
    simpa only [Prod.mk.injEq] using hview
  refine ⟨s, hs, hl, ?_⟩
  intro τ hτ
  have hes : ∀ ev ∈ rearm, ev.InRange 450500 := by decide
  exact (armed_in_time (by decide) hs).1 (hclock ▸ by decide) (hclock ▸ hes) hb (460000, 1) hl τ (hclock ▸ hτ)

/-- **It is armed late**, by the 5 microseconds between the reading and the call, where a timer is due after
10 milliseconds; and for a timer at the least `time_point` it is armed for centuries. -/
theorem armed_late :
    (∃ s d, clocked.Run (.start 0 1) [.construct ⟨1, 1⟩ 10001000 0, .add 1 ⟨1000, 6000⟩] s ∧ s.state.batch = none ∧
      s.queue.list_.toList.head? = some (10001000, 1) ∧ s.queue.deadline = some d ∧ ¬s.queue.readable s.clock ∧
      ¬d ≤ max 10001000 (6000 + MS 100)) ∧
    ∃ s d, clocked.Run (.start 0 1) [.construct ⟨1, 1⟩ (-2 ^ 63) 0, .add 1 ⟨1000, 1000⟩] s ∧ s.state.batch = none ∧
      s.queue.list_.toList.head? = some (-2 ^ 63, 1) ∧ s.queue.deadline = some d ∧ ¬s.queue.readable s.clock ∧
      ¬d ≤ max (-2 ^ 63) (1000 + MS 100) := by
  have hlate : ∀ (es : List TimerEvent) (e : Entry) (d : Time), (clocked.exec (.start 0 1) es).map (fun s =>
      (s.state.batch, s.queue.list_.toList.head?, s.queue.deadline, decide (s.queue.readable s.clock))) =
      some (none, some e, some d, false) → ∃ s, clocked.Run (.start 0 1) es s ∧ s.state.batch = none ∧
        s.queue.list_.toList.head? = some e ∧ s.queue.deadline = some d ∧ ¬s.queue.readable s.clock := by
    intro es e d hrun
    obtain ⟨s, hs, hview⟩ := clocked.exec_map_iff.mp hrun
    simp only [Prod.mk.injEq, decide_eq_false_iff_not] at hview
    exact ⟨s, hs, hview⟩
  obtain ⟨s, hs, hb, hl, hd, hr⟩ := hlate [.construct ⟨1, 1⟩ 10001000 0, .add 1 ⟨1000, 6000⟩]
    (10001000, 1) 10006000 (by decide +kernel)
  obtain ⟨u, hu, hb', hl', hd', hr'⟩ := hlate [.construct ⟨1, 1⟩ (-2 ^ 63) 0, .add 1 ⟨1000, 1000⟩]
    (-2 ^ 63, 1) 9223372036854775000 (by decide +kernel)
  exact ⟨⟨s, _, hs, hb, hl, hd, hr, by decide⟩, u, _, hu, hb', hl', hd', hr', by decide⟩

end MuduoSe
