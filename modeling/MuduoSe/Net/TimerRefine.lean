/-
# The queue does with each timer what the timer by itself does

`life_step`: whatever happens, the queue with its sets, its batch and its deferred cancels
moves every timer as `Life.step` does, one lemma for each event. The other timers do not
matter, also when one of them gets the address of a deleted one: its index is another.

Key definitions: `Timers.Begun`, `Timers.Tracked`.
Key theorems: `life_step`, `timers_life`.
-/
import MuduoSe.Net.TimerLife

namespace MuduoSe

namespace Timers

variable {s s' : Timers} {t : TimeId} {p : Addr} {n : TimeNode}

theorem Good.pending_out (h : s.Good) (hp : p ∈ s.pending) : p ∉ ptrs s.queue.deltimelist :=
  fun hd => (List.nodup_append.mp h.queue.nodup).2.2 p hd p hp rfl

theorem Good.life_construct (h : s.Good) {u : TimeId} (hp : u.own_timenode_ ≠ 0)
    (hfree : s.queue.heap[u.own_timenode_]? = none) (hi : u.index_ = s.queue.size_ + 1) (when : Time)
    (interval : Int) (t : TimeId)
    (hs : s' = { s with
      queue := s.queue.newTimeNode u.own_timenode_ when interval
      pending := u.own_timenode_ :: s.pending }) :
    s'.life t = (s.life t).step t (.construct u when interval) := by
  have hget : ∀ a : Addr, s'.queue.heap[a]? = if a = u.own_timenode_ then
      some ⟨when, interval, 0 < interval, s.queue.size_ + 1⟩ else s.queue.heap[a]? := by
    subst hs
    exact heap_insert s.queue.heap u.own_timenode_ _
  have hpend : s'.pending = u.own_timenode_ :: s.pending := by rw [hs]
  have hdel : s'.queue.deltimelist = s.queue.deltimelist := by rw [hs]; rfl
  have hwait : s'.queue.waitdeltimelist = s.queue.waitdeltimelist := by rw [hs]; rfl
  have hbatch : s'.batch = s.batch := by rw [hs]
  have hran : s'.ran = s.ran := by rw [hs]
  have hout : u.own_timenode_ ∉ ptrs s'.queue.deltimelist := by
    rw [hdel]
    intro hin
    obtain ⟨n, hn⟩ := h.queue.live _ (List.mem_append_left _ hin)
    rw [hfree] at hn
    cases hn
  have hnew := (hget u.own_timenode_).trans (if_pos rfl)
  unfold Life.step
  dsimp only
  split_ifs with hu
  · subst hu
    have hnode : s.nodeOf u = none := nodeOf_eq_none.mpr fun n hn => by
      rw [hfree] at hn
      cases hn
    have hnode' := nodeOf_eq_some.mpr ⟨hnew, hi.symm⟩
    have hin : u.own_timenode_ ∈ s'.pending := by rw [hpend]; exact List.mem_cons_self
    apply life_eq
    · rw [stage_some hnode', stageOf_pending hin]
    · rw [hwait]
      exact deferred_iff
    · rw [hbatch]
      rfl
    · rw [runs_some hnode', toRun_out hp hout, hran]
      exact (runs_none hnode).symm
  · apply life_congr _ _ (by rw [hwait]) hbatch hran hdel
    · by_cases ha : t.own_timenode_ = u.own_timenode_
      · -- The timer whose address this was is gone, and the new node's index is another.
        have hold : s.nodeOf t = none := nodeOf_eq_none.mpr fun n hn => by
          rw [ha, hfree] at hn
          cases hn
        rw [hold]
        apply nodeOf_eq_none.mpr
        intro n hn hti
        rw [ha, hnew] at hn
        cases hn
        exact hu (by rw [TimeId.mk.injEq]; exact ⟨ha.symm, hi.trans hti⟩)
      · apply nodeOf_congr
        rw [hget, if_neg ha]
    · intro n hn
      have ha : t.own_timenode_ ≠ u.own_timenode_ := fun ha => by
        have hn := (nodeOf_eq_some.mp hn).1
        rw [ha, hfree] at hn
        cases hn
      apply stageOf_congr _ (by rw [hdel]) (by rw [hbatch])
      rw [hpend, List.mem_cons, or_iff_right ha]

theorem Good.life_add (h : s.Good) {p : Addr} (hp : p ∈ s.pending) (r : ResetTimes) (t : TimeId)
    {armed : Option (ResetTimes × Timespec)} {k : TimeNode}
    (hs : s' = { s with
      queue := { s.queue.enter k p with armed := armed }
      pending := s.pending.erase p
      added := (k.index_, p) :: s.added }) : s'.life t = (s.life t).step t (.add p r) := by
  have hnode : s'.nodeOf t = s.nodeOf t := by subst hs; rfl
  have hpend : s'.pending = s.pending.erase p := by rw [hs]
  have hdel : s'.queue.deltimelist = s.queue.deltimelist := by rw [hs]; rfl
  have hwait : s'.queue.waitdeltimelist = s.queue.waitdeltimelist := by rw [hs]; rfl
  have hbatch : s'.batch = s.batch := by rw [hs]
  have hran : s'.ran = s.ran := by rw [hs]
  have hnodup : s.pending.Nodup := (List.nodup_append.mp h.queue.nodup).2.1
  by_cases hadd : p = t.own_timenode_ ∧ s.nodeOf t ≠ none
  · obtain ⟨rfl, hsome⟩ := hadd
    obtain ⟨n, hn⟩ := Option.ne_none_iff_exists'.mp hsome
    have hstage : (s.life t).stage = .made n.expiration_ n.interval_ :=
      (stage_some hn).trans (stageOf_pending hp)
    have hout : t.own_timenode_ ∉ s'.held := by
      unfold held
      rw [hdel, hpend, List.mem_append, not_or]
      exact ⟨h.pending_out hp, fun hin => (hnodup.mem_erase_iff.mp hin).1 rfl⟩
    unfold Life.step
    simp only [hstage, if_true]
    apply life_eq
    · rw [stage_some (hnode.trans hn), stageOf_waiting hout]
    · rw [hwait]
      exact deferred_iff
    · rw [hbatch]
      rfl
    · unfold runs toRun
      rw [hnode, hran, hbatch, hdel]
      rfl
  · have hstep : (s.life t).step t (.add p r) = s.life t := by
      unfold Life.step
      dsimp only
      split
      · rename_i when interval hstage
        have hsome : s.nodeOf t ≠ none := fun hn => by
          rw [show (s.life t).stage = s.stage t from rfl, stage_none hn] at hstage
          cases hstage
        rw [if_neg fun ha => hadd ⟨ha, hsome⟩]
      · rfl
    rw [hstep]
    apply life_congr hnode _ (by rw [hwait]) hbatch hran hdel
    intro n hn
    have ha : t.own_timenode_ ≠ p := fun ha => hadd ⟨ha.symm, by rw [hn]; exact Option.some_ne_none n⟩
    apply stageOf_congr _ (by rw [hdel]) (by rw [hbatch])
    rw [hpend, List.mem_erase_of_ne ha]

theorem Good.life_delWaiting (h : s.Good) {u : TimeId} {k : TimeNode}
    (hk : s.queue.heap[u.own_timenode_]? = some k) (hi : k.index_ = u.index_)
    (hout : u.own_timenode_ ∉ s.held) (t : TimeId)
    (hs : s' = { s with
      queue := { s.queue with
        heap := s.queue.heap.erase u.own_timenode_
        list_ := s.queue.list_.erase (k.expiration_, u.own_timenode_)
        indexlist_ := s.queue.indexlist_.erase u.key } }) :
    s'.life t = (s.life t).step t (.del u) := by
  have hget : ∀ a : Addr, s'.queue.heap[a]? = if a = u.own_timenode_ then none
      else s.queue.heap[a]? := by
    subst hs
    exact heap_erase s.queue.heap u.own_timenode_
  unfold Life.step
  dsimp only
  split_ifs with hu
  · subst hu
    have hnode := nodeOf_eq_some.mpr ⟨hk, hi⟩
    have hstage : (s.life u).stage = .waiting k.expiration_ k.interval_ :=
      (stage_some hnode).trans (stageOf_waiting hout)
    have hnode' : s'.nodeOf u = none := nodeOf_eq_none.mpr fun n hn => by
      rw [hget, if_pos rfl] at hn
      cases hn
    have hdel : u.own_timenode_ ∉ ptrs s.queue.deltimelist := fun hin =>
      hout (List.mem_append_left _ hin)
    simp only [hstage]
    apply life_eq
    · exact stage_none hnode'
    · rw [hs]
      exact deferred_iff
    · rw [hs]
      rfl
    · rw [runs_none hnode', hs]
      show _ = s.runs u
      rw [runs_some hnode, toRun_out (h.queue.ne_zero hk) hdel]
      rfl
  · apply life_congr _ _ (by rw [hs]) (by rw [hs]) (by rw [hs]) (by rw [hs])
    · by_cases ha : t.own_timenode_ = u.own_timenode_
      · have hold : s.nodeOf t = none := nodeOf_eq_none.mpr fun n hn hti => by
          rw [ha, hk] at hn
          cases hn
          exact hu (by rw [TimeId.mk.injEq]; exact ⟨ha.symm, hi.symm.trans hti⟩)
        rw [hold]
        apply nodeOf_eq_none.mpr
        intro n hn
        rw [hget, if_pos ha] at hn
        cases hn
      · apply nodeOf_congr
        rw [hget, if_neg ha]
    · intro n hn
      exact stageOf_congr (by rw [hs]) (by rw [hs]) (by rw [hs])

/-- The waiting timers are those of `indexlist_`. -/
theorem Good.stage_of_out (h : s.Good) (ht : t.key ∉ s.queue.indexlist_) {e : Time} {i : Int} :
    s.stage t ≠ .waiting e i := by
  intro hw
  rcases hn : s.nodeOf t with _ | n
  · rw [stage_none hn] at hw
    cases hw
  · obtain ⟨hget, hi⟩ := nodeOf_eq_some.mp hn
    have hheld : t.own_timenode_ ∈ s.held := by
      by_contra hout
      exact ht ((h.queue.index_iff _ _).mpr ⟨hout, n, hget, hi⟩)
    rw [stage_some hn] at hw
    unfold held at hheld
    unfold stageOf at hw
    split_ifs at hw with hp hd
    · exact (List.mem_append.mp hheld).elim hd hp

theorem Good.life_delOther (h : s.Good) {u : TimeId} (hu : u.key ∉ s.queue.indexlist_) (t : TimeId)
    (hs : s' = { s with
      queue := { s.queue with
        waitdeltimelist :=
          if s.queue.calling then s.queue.waitdeltimelist.insert u.key
          else s.queue.waitdeltimelist } }) : s'.life t = (s.life t).step t (.del u) := by
  have hwait : t.key ∈ s'.queue.waitdeltimelist ↔
      t.key ∈ s.queue.waitdeltimelist ∨ s.batch.isSome ∧ t = u := by
    have hkey : t.key = u.key ↔ t = u := by
      obtain ⟨p, i⟩ := t
      obtain ⟨p', i'⟩ := u
      simp only [TimeId.key, Prod.mk.injEq, TimeId.mk.injEq]
      exact and_comm
    subst hs
    rw [← h.calling, ← hkey]
    by_cases hc : s.queue.calling = true
    · simp only [hc, if_true, mem_insert, true_and]
      exact or_comm
    · simp [hc]
  unfold Life.step
  dsimp only
  split_ifs with hut
  · subst hut
    split
    · rename_i e i hstage
      exact absurd hstage (h.stage_of_out hu)
    · apply life_eq
      · subst hs; rfl
      · rw [hwait, deferred_iff, Bool.or_eq_true]
        simp [life]
      · subst hs; rfl
      · subst hs; rfl
  · apply life_congr (by subst hs; rfl) _ _ (by rw [hs]) (by rw [hs]) (by rw [hs])
    · intro n hn
      exact stageOf_congr (by rw [hs]) (by rw [hs]) (by rw [hs])
    · rw [hwait]
      exact or_iff_left fun hb => hut hb.2.symm

theorem life_run {e : Entry} {now : Time} {i : ℕ} {k : TimeNode}
    (hb : s.batch = some (now, i)) (he : s.queue.deltimelist[i]? = some e)
    (hk : s.queue.heap[e.2]? = some k) (t : TimeId)
    (hs : s' = { s with batch := some (now, i + 1), ran := (k.index_, e.2) :: s.ran }) :
    s'.life t = (s.life t).step t .run := by
  have hnode : s'.nodeOf t = s.nodeOf t := by subst hs; rfl
  have hbatch : s'.batch = some (now, i + 1) := by rw [hs]
  have hran : s'.ran = (k.index_, e.2) :: s.ran := by rw [hs]
  have hdel : s'.queue.deltimelist = s.queue.deltimelist := by rw [hs]
  have hdrop : s.queue.deltimelist.drop i = e :: s.queue.deltimelist.drop (i + 1) := by
    obtain ⟨hi, hget⟩ := List.getElem?_eq_some_iff.mp he
    rw [List.drop_eq_getElem_cons hi, hget]
  show s'.life t = s.life t
  apply life_eq
  · unfold stage
    rw [hnode]
    rcases hn : s.nodeOf t with _ | n
    · exact (stage_none hn).symm
    · exact (stageOf_congr (by rw [hs]) (by rw [hdel]) (by rw [hbatch, hb]; rfl)).trans
        (stage_some hn).symm
  · rw [hs]
    exact deferred_iff
  · rw [hbatch]
    show _ = s.batch.map (·.1)
    rw [hb]
    rfl
  · show s'.runs t = s.runs t
    rcases hn : s.nodeOf t with _ | n
    · -- The callback is that of another node.
      have hne : ((k.index_, e.2) : INDEX) ≠ t.key := fun heq => by
        obtain ⟨hi, ho⟩ := Prod.mk.inj heq
        exact nodeOf_eq_none.mp hn k (ho ▸ hk) hi
      rw [runs_none (hnode.trans hn), runs_none hn, hran, List.count_cons_of_ne hne]
    · rw [runs_some (hnode.trans hn), runs_some hn, hran]
      unfold toRun
      rw [hbatch, hb, hdel]
      dsimp only
      rw [hdrop, List.map_cons]
      by_cases ho : e.2 = t.own_timenode_
      · obtain ⟨hget, hti⟩ := nodeOf_eq_some.mp hn
        have hkey : ((k.index_, e.2) : INDEX) = t.key := by
          rw [ho, hget, Option.some.injEq] at hk
          rw [ho, ← hk, hti]
          rfl
        rw [hkey, List.count_cons_self, ho, List.count_cons_self]
        omega
      · have hkey : ((k.index_, e.2) : INDEX) ≠ t.key := fun heq => ho (Prod.mk.inj heq).2
        rw [List.count_cons_of_ne hkey, List.count_cons_of_ne ho]

/-- A new batch runs each of its callbacks once. -/
theorem Good.toRun_first (h : s.Good) {now : Time} (hb : s.batch = some (now, 0)) (hp : p ≠ 0) :
    s.toRun p = if p ∈ ptrs s.queue.deltimelist then 1 else 0 := by
  have hnodup := (List.nodup_append.mp h.queue.nodup).1
  unfold toRun
  rw [hb]
  calc ((s.queue.deltimelist.drop 0).map (·.2)).count p
      = (ptrs s.queue.deltimelist).count p := (List.count_filter (by simpa using hp)).symm
    _ = if p ∈ ptrs s.queue.deltimelist then 1 else 0 := hnodup.count

/-- What `handleRead` does up to its loop. -/
structure Begun (now cut : Time) (s s' : Timers) : Prop where
  idle : s.batch = none
  heap : ∀ a : Addr, s'.queue.heap[a]? =
    if a ∈ ptrs s.queue.deltimelist then none else s.queue.heap[a]?
  del : s'.queue.deltimelist = s.queue.list_.toList.filter (TimerQueue.expired cut)
  wait : s'.queue.waitdeltimelist = s.queue.waitdeltimelist
  pending : s'.pending = s.pending
  batch : s'.batch = some (now, 0)
  ran : s'.ran = s.ran

/-- What a timer that is not waiting goes through. -/
theorem Begun.skip {now cut : Time} (h : Begun now cut s s') (hstage : s'.stage t = s.stage t)
    (hruns : s'.runs t = s'.ran.count t.key) (hnot : ∀ e i, s.stage t ≠ .waiting e i) :
    s'.life t = (s.life t).step t (.beginRead now cut) := by
  unfold Life.step
  dsimp only
  split
  · rename_i e i he
    exact absurd he (hnot e i)
  · apply life_eq hstage
    · rw [h.wait]
      exact deferred_iff
    · rw [h.batch]
      rfl
    · rw [hruns, h.ran]
      exact (runs_idle h.idle).symm

/-- A timer that waits is due, or waits on. -/
theorem Begun.waiting {now cut : Time} (h : Begun now cut s s') (hg : s.Good) (hg' : s'.Good)
    (hn : s.nodeOf t = some n) (hheld : t.own_timenode_ ∉ s.held) :
    s'.life t = (s.life t).step t (.beginRead now cut) := by
  obtain ⟨hnode, -⟩ := nodeOf_eq_some.mp hn
  obtain ⟨hd, hp⟩ := not_or.mp (mt List.mem_append.mpr hheld)
  have hn' : s'.nodeOf t = some n := by
    rw [← hn]
    apply nodeOf_congr
    rw [h.heap, if_neg hd]
  have hruns : s'.runs t =
      s.ran.count t.key + if t.own_timenode_ ∈ ptrs s'.queue.deltimelist then 1 else 0 := by
    rw [runs_some hn', hg'.toRun_first h.batch (hg.queue.ne_zero hnode), h.ran]
  have hkeep : t.key ∈ s'.queue.waitdeltimelist ↔ (s.life t).deferred = true := by
    rw [h.wait]
    exact deferred_iff
  have hstage : (s.life t).stage = .waiting n.expiration_ n.interval_ :=
    (stage_some hn).trans (stageOf_waiting hheld)
  have hmem : t.own_timenode_ ∈ ptrs s'.queue.deltimelist ↔ n.expiration_ < cut := by
    rw [h.del, hg.queue.mem_expired]
    constructor
    · rintro ⟨-, m, hm, hlt⟩
      rw [hnode, Option.some.injEq] at hm
      exact hm ▸ hlt
    · intro hlt
      exact ⟨hheld, n, hnode, hlt⟩
  unfold Life.step
  simp only [hstage]
  split_ifs with hlt
  · have hin := hmem.mpr hlt
    apply life_eq
    · rw [stage_some hn', stageOf_del hin (by rwa [h.pending]), h.batch]
      rfl
    · exact hkeep
    · rw [h.batch]
      rfl
    · rw [hruns, if_pos hin, ← runs_idle h.idle]
      rfl
  · have hout := mt hmem.mp hlt
    have hheld' : t.own_timenode_ ∉ s'.held := by
      unfold held
      rw [List.mem_append, not_or, h.pending]
      exact ⟨hout, hp⟩
    apply life_eq
    · exact (stage_some hn').trans (stageOf_waiting hheld')
    · exact hkeep
    · rw [h.batch]
      rfl
    · rw [hruns, if_neg hout, Nat.add_zero]
      exact (runs_idle h.idle).symm

theorem Begun.life {now cut : Time} (h : Begun now cut s s') (hg : s.Good) (hg' : s'.Good)
    (t : TimeId) : s'.life t = (s.life t).step t (.beginRead now cut) := by
  rcases hn : s.nodeOf t with _ | n
  · have hn' : s'.nodeOf t = none := nodeOf_eq_none.mpr fun m hm => by
      rw [h.heap] at hm
      split_ifs at hm
      exact nodeOf_eq_none.mp hn m hm
    apply h.skip
    · rw [stage_none hn, stage_none hn']
    · exact runs_none hn'
    · intro e i
      rw [stage_none hn]
      exact Stage.noConfusion
  · by_cases hd : t.own_timenode_ ∈ ptrs s.queue.deltimelist
    · -- It was in the batch before, and its node is deleted now.
      have hn' : s'.nodeOf t = none := nodeOf_eq_none.mpr fun m hm => by
        rw [h.heap, if_pos hd] at hm
        cases hm
      have habsent : s.stage t = .absent := by
        rw [stage_some hn, stageOf_del hd fun hp => hg.pending_out hp hd, h.idle]
        rfl
      apply h.skip
      · rw [habsent, stage_none hn']
      · exact runs_none hn'
      · intro e i
        rw [habsent]
        exact Stage.noConfusion
    · by_cases hp : t.own_timenode_ ∈ s.pending
      · have hp' : t.own_timenode_ ∈ s'.pending := h.pending ▸ hp
        have hn' : s'.nodeOf t = some n := by
          rw [← hn]
          apply nodeOf_congr
          rw [h.heap, if_neg hd]
        apply h.skip
        · rw [stage_some hn, stage_some hn', stageOf_pending hp, stageOf_pending hp']
        · rw [runs_some hn', toRun_out (hg.queue.ne_zero (nodeOf_eq_some.mp hn).1) (hg'.pending_out hp'),
            Nat.add_zero]
        · intro e i
          rw [stage_some hn, stageOf_pending hp]
          exact Stage.noConfusion
      · apply h.waiting hg hg' hn
        unfold held
        rw [List.mem_append, not_or]
        exact ⟨hd, hp⟩

/-- What is known of the nodes and of the timers that were added. -/
structure Tracked (s : Timers) : Prop where
  good : s.Good
  repeats : ∀ (p : Addr) (n : TimeNode), s.queue.heap[p]? = some n →
    (n.repeat_ = true ↔ 0 < n.interval_)
  old : ∀ k ∈ s.added, k.1 ≤ s.queue.size_
  fresh : ∀ p ∈ s.pending, ∀ n : TimeNode, s.queue.heap[p]? = some n → (n.index_, p) ∉ s.added
  entered : ∀ (p : Addr) (n : TimeNode), s.queue.heap[p]? = some n → p ∉ s.pending →
    (n.index_, p) ∈ s.added

/-- A node of the batch is inserted again, or stays with its entry. -/
theorem Tracked.stageOf_flashed (h : s.Tracked) {now : Time} {q : TimerQueue}
    (hflash : TimerQueue.Flashed now s.queue.deltimelist { s.queue with calling := false } q.deltimelist q)
    (hd : t.own_timenode_ ∈ ptrs s.queue.deltimelist) (hn : s.queue.heap[t.own_timenode_]? = some n)
    (hs : s' = { s with queue := q, batch := none }) :
    ∃ n' : TimeNode, s'.queue.heap[t.own_timenode_]? = some n' ∧ n'.index_ = n.index_ ∧
      (n.index_ = t.index_ → s'.stageOf t.own_timenode_ n' =
        (Stage.due n.interval_).afterBatch now (s.life t).deferred) := by
  have hqueue : s'.queue = q := by rw [hs]
  have hpend : s'.pending = s.pending := by rw [hs]
  have hbatch : s'.batch = none := by rw [hs]
  have hp : t.own_timenode_ ∉ s.pending := fun hp => h.good.pending_out hp hd
  have hagain : n.index_ = t.index_ →
      (TimerQueue.again { s.queue with calling := false } n t.own_timenode_ ↔
        0 < n.interval_ ∧ (s.life t).deferred = false) := fun hi => by
    have hkey : ((n.index_, t.own_timenode_) : INDEX) = t.key := by rw [hi]; rfl
    unfold TimerQueue.again
    rw [hkey, h.repeats _ n hn, ← Bool.not_eq_true, ← deferred_iff]
  by_cases hag : TimerQueue.again { s.queue with calling := false } n t.own_timenode_
  · obtain ⟨hnew, hout⟩ := hflash.again _ n hd hn hag
    rw [← hqueue] at hnew hout
    refine ⟨n.restart now, hnew, (TimerQueue.restart_same n now).1, fun hi => ?_⟩
    have hheld : t.own_timenode_ ∉ s'.held := by
      unfold held
      rw [List.mem_append, not_or, hpend]
      exact ⟨hout, hp⟩
    rw [stageOf_waiting hheld]
    unfold Stage.afterBatch TimeNode.restart
    dsimp only
    rw [if_pos ((hagain hi).mp hag), if_pos hag.1]
  · obtain ⟨hsame, hin⟩ := hflash.rest _ n hd hn hag
    rw [← hqueue] at hsame hin
    refine ⟨n, hsame, rfl, fun hi => ?_⟩
    rw [stageOf_del hin (by rwa [hpend]), hbatch]
    unfold Stage.afterBatch
    dsimp only
    rw [if_neg (mt (hagain hi).mpr hag)]
    rfl

theorem Tracked.life_endRead (h : s.Tracked) {now : Time} {r : ResetTimes} {i : ℕ}
    (hb : s.batch = some (now, i)) (hend : s.next = none) {q : TimerQueue}
    (hflash : TimerQueue.Flashed now s.queue.deltimelist { s.queue with calling := false } q.deltimelist q)
    (t : TimeId) (hs : s' = { s with queue := q, batch := none }) :
    s'.life t = (s.life t).step t (.endRead r) := by
  have hqueue : s'.queue = q := by rw [hs]
  have hpend : s'.pending = s.pending := by rw [hs]
  have hbatch : s'.batch = none := by rw [hs]
  have hkeep : t.key ∈ s'.queue.waitdeltimelist ↔ (s.life t).deferred = true := by
    rw [← deferred_iff, hqueue, hflash.wait]
  have hruns : s'.runs t = s.runs t := by
    have hdone : s.toRun t.own_timenode_ = 0 := by
      have hlen : s.queue.deltimelist.length ≤ i := by
        unfold next at hend
        rw [hb] at hend
        exact List.getElem?_eq_none_iff.mp hend
      unfold toRun
      rw [hb]
      dsimp only
      rw [List.drop_eq_nil_of_le hlen]
      rfl
    unfold runs
    rw [hdone, toRun_idle hbatch, ite_self, ite_self, hs]
  have hlife : (s.life t).batch = some now := by
    show s.batch.map (·.1) = some now
    rw [hb]
    rfl
  unfold Life.step
  simp only [hlife]
  refine life_eq ?_ hkeep (by rw [hbatch]; rfl) hruns
  show s'.stage t = (s.stage t).afterBatch now (s.life t).deferred
  by_cases hd : t.own_timenode_ ∈ ptrs s.queue.deltimelist
  · obtain ⟨m, hm⟩ := h.good.queue.live _ (List.mem_append_left _ hd)
    have hp : t.own_timenode_ ∉ s.pending := fun hp => h.good.pending_out hp hd
    obtain ⟨m', hm', hi, hwhat⟩ := h.stageOf_flashed hflash hd hm hs
    by_cases hmi : m.index_ = t.index_
    · have hn := nodeOf_eq_some.mpr ⟨hm, hmi⟩
      have hn' := nodeOf_eq_some.mpr ⟨hm', hi.trans hmi⟩
      rw [stage_some hn, stage_some hn', hwhat hmi, stageOf_del hd hp, hb]
      rfl
    · have hn : s.nodeOf t = none := nodeOf_eq_none.mpr fun n hn => by
        rw [hm] at hn
        exact Option.some.inj hn ▸ hmi
      have hn' : s'.nodeOf t = none := nodeOf_eq_none.mpr fun n hn => by
        rw [hm'] at hn
        rw [← Option.some.inj hn, hi]
        exact hmi
      rw [stage_none hn, stage_none hn']
      rfl
  · obtain ⟨hsame, hout⟩ := hflash.other _ hd
    rw [← hqueue] at hsame hout
    have hnode : s'.nodeOf t = s.nodeOf t := nodeOf_congr hsame
    rcases hn : s.nodeOf t with _ | n
    · rw [stage_none hn, stage_none (hnode.trans hn)]
      rfl
    · rw [stage_some hn, stage_some (hnode.trans hn)]
      unfold stageOf
      rw [if_neg hd, if_neg hout, hpend]
      split_ifs <;> rfl

/-! ### Every run -/

theorem start_tracked (size : Int) : (start size).Tracked := by
  have hheap : ∀ p : Addr, (start size).queue.heap[p]? = none := fun p => Std.ExtTreeMap.getElem?_empty
  refine ⟨start_good size, ?_, ?_, ?_, ?_⟩
  · intro p n hn
    rw [hheap] at hn
    cases hn
  · intro k hk
    cases hk
  · intro p hp
    cases hp
  · intro p n hn
    rw [hheap] at hn
    cases hn

theorem Tracked.of_heap (h : s.Tracked) (hgood : s'.Good) (hadded : s'.added = s.added)
    (hpend : s'.pending = s.pending) (hsize : s.queue.size_ ≤ s'.queue.size_)
    (hheap : ∀ (p : Addr) (n' : TimeNode), s'.queue.heap[p]? = some n' → ∃ n : TimeNode,
      s.queue.heap[p]? = some n ∧ n'.index_ = n.index_ ∧ n'.repeat_ = n.repeat_ ∧
        n'.interval_ = n.interval_) : s'.Tracked := by
  refine ⟨hgood, ?_, ?_, ?_, ?_⟩
  · intro p n' hn'
    obtain ⟨n, hn, -, hr, hi⟩ := hheap p n' hn'
    rw [hr, hi]
    exact h.repeats p n hn
  · intro k hk
    exact Int.le_trans (h.old k (hadded ▸ hk)) hsize
  · intro p hp n' hn'
    obtain ⟨n, hn, hi, -⟩ := hheap p n' hn'
    rw [hi, hadded]
    exact h.fresh p (hpend ▸ hp) n hn
  · intro p n' hn' hp
    obtain ⟨n, hn, hi, -⟩ := hheap p n' hn'
    rw [hi, hadded]
    exact h.entered p n hn (hpend ▸ hp)

theorem Tracked.construct (h : s.Tracked) {u : TimeId} {when : Time} {interval : Int} (hgood : s'.Good)
    (hs : s' = { s with
      queue := s.queue.newTimeNode u.own_timenode_ when interval
      pending := u.own_timenode_ :: s.pending }) : s'.Tracked := by
  have hget : ∀ a : Addr, s'.queue.heap[a]? = if a = u.own_timenode_ then
      some ⟨when, interval, 0 < interval, s.queue.size_ + 1⟩ else s.queue.heap[a]? := by
    subst hs
    exact heap_insert s.queue.heap u.own_timenode_ _
  refine ⟨hgood, ?_, ?_, ?_, ?_⟩
  · intro p n hn
    rw [hget] at hn
    split_ifs at hn
    · cases hn
      exact decide_eq_true_iff
    · exact h.repeats p n hn
  · intro k hk
    have hk : k ∈ s.added := by rwa [hs] at hk
    have hle := h.old k hk
    rw [hs]
    show k.1 ≤ s.queue.size_ + 1
    omega
  · intro p hp n hn hin
    have hin : (n.index_, p) ∈ s.added := by rwa [hs] at hin
    rw [hget] at hn
    split_ifs at hn with ha
    · cases hn
      have hle := h.old _ hin
      dsimp only at hle
      omega
    · have hp : p ∈ s.pending := by
        rw [hs] at hp
        exact (List.mem_cons.mp hp).resolve_left ha
      exact h.fresh p hp n hn hin
  · intro p n hn hp
    rw [hs] at hp
    obtain ⟨ha, hp⟩ := not_or.mp (mt List.mem_cons.mpr hp)
    rw [hget, if_neg ha] at hn
    rw [hs]
    exact h.entered p n hn hp

theorem Tracked.add (h : s.Tracked) {p : Addr} {n : TimeNode} (hn : s.queue.heap[p]? = some n)
    {armed : Option (ResetTimes × Timespec)} (hgood : s'.Good)
    (hs : s' = { s with
      queue := { s.queue.enter n p with armed := armed }
      pending := s.pending.erase p
      added := (n.index_, p) :: s.added }) : s'.Tracked := by
  have hheap : s'.queue.heap = s.queue.heap := by rw [hs]; rfl
  have hsize : s'.queue.size_ = s.queue.size_ := by rw [hs]; rfl
  have hadded : s'.added = (n.index_, p) :: s.added := by rw [hs]
  have hpend : s'.pending = s.pending.erase p := by rw [hs]
  refine ⟨hgood, ?_, ?_, ?_, ?_⟩
  · intro a m hm
    exact h.repeats a m (hheap ▸ hm)
  · intro k hk
    rw [hsize]
    rw [hadded] at hk
    rcases List.mem_cons.mp hk with rfl | hk
    · exact h.good.queue.size p n hn
    · exact h.old k hk
  · intro a ha m hm
    rw [hheap] at hm
    rw [hpend, (List.nodup_append.mp h.good.queue.nodup).2.1.mem_erase_iff] at ha
    rw [hadded, List.mem_cons, not_or]
    exact ⟨fun heq => ha.1 (Prod.mk.inj heq).2, h.fresh a ha.2 m hm⟩
  · intro a m hm ha
    rw [hheap] at hm
    rw [hadded, List.mem_cons]
    by_cases hap : a = p
    · subst hap
      obtain rfl : m = n := Option.some.inj (hm.symm.trans hn)
      exact .inl rfl
    · rw [hpend, List.mem_erase_of_ne hap] at ha
      exact .inr (h.entered a m hm ha)

end Timers

open Timers in
/-- **What an event does to a timer does not depend on the other timers.** -/
theorem life_step {s s' : Timers} {ev : TimerEvent} (h : s.Tracked) (hg : timers.guard s ev)
    (hs : timers.step s ev = .ok s') : s'.Tracked ∧ ∀ t, s'.life t = (s.life t).step t ev := by
  obtain ⟨hmoved, hgood⟩ := h.good.moved hg hs
  cases hmoved with
  | @construct u when interval hp hfree hi =>
    refine ⟨h.construct hgood rfl, fun t => ?_⟩
    exact h.good.life_construct hp hfree hi when interval t rfl
  | other =>
    refine ⟨h.of_heap hgood rfl rfl ?_ ?_, fun t => rfl⟩
    · show s.queue.size_ ≤ s.queue.size_ + 1
      omega
    · intro p n hn
      exact ⟨n, hn, rfl, rfl, rfl⟩
  | @add p r n armed hp hn => exact ⟨h.add hn hgood rfl, fun t => h.good.life_add hp r t rfl⟩
  | @delWaiting u n hn hi hout =>
    refine ⟨h.of_heap hgood rfl rfl (Int.le_refl _) ?_, fun t => h.good.life_delWaiting hn hi hout t rfl⟩
    intro p m hm
    dsimp only at hm
    rw [heap_erase] at hm
    split_ifs at hm
    exact ⟨m, hm, rfl, rfl, rfl⟩
  | delOther hu =>
    refine ⟨h.of_heap hgood rfl rfl (Int.le_refl _) ?_, fun t => h.good.life_delOther hu t rfl⟩
    intro p m hm
    exact ⟨m, hm, rfl, rfl, rfl⟩
  | @beginRead now cut q hidle hdel hheap hsize hwait =>
    have hbegun : Begun now cut s { s with queue := { q with calling := true }, batch := some (now, 0) } :=
      ⟨hidle, hheap, hdel, hwait, rfl, rfl, rfl⟩
    refine ⟨h.of_heap hgood rfl rfl (Int.le_of_eq hsize.symm) ?_, hbegun.life h.good hgood⟩
    intro p m hm
    dsimp only at hm
    rw [hheap] at hm
    split_ifs at hm
    exact ⟨m, hm, rfl, rfl, rfl⟩
  | run hb he hn =>
    refine ⟨h.of_heap hgood rfl rfl (Int.le_refl _) ?_, fun t => life_run hb he hn t rfl⟩
    intro p m hm
    exact ⟨m, hm, rfl, rfl, rfl⟩
  | @endRead r now i q hb hend hflash =>
    refine ⟨h.of_heap hgood rfl rfl (Int.le_of_eq hflash.size.symm) ?_,
      fun t => h.life_endRead hb hend hflash t rfl⟩
    intro p m hm
    have hlive : ∀ a ∈ ptrs s.queue.deltimelist, ∃ n : TimeNode, s.queue.heap[a]? = some n :=
      fun a ha => h.good.queue.live a (List.mem_append_left _ ha)
    obtain ⟨n, hn, hwhat⟩ := hflash.node hlive hm
    refine ⟨n, hn, ?_⟩
    rcases hwhat with rfl | ⟨rfl, -⟩
    · exact ⟨rfl, rfl, rfl⟩
    · exact TimerQueue.restart_same n now

theorem timers_tracked {size : Int} {es : List TimerEvent} {s : Timers}
    (h : timers.Run (.start size) es s) : s.Tracked :=
  h.invariant (fun hs hg ht => (life_step hs hg ht).1) (Timers.start_tracked size)

/-- **The queue does with every timer what the timer by itself does.** -/
theorem timers_life {s s' : Timers} {es : List TimerEvent} (h : s.Tracked) (hr : timers.Run s es s')
    (t : TimeId) : s'.life t = es.foldl (Life.step t) (s.life t) :=
  hr.foldl (fun hs hg ht => ⟨(life_step hs hg ht).1, (life_step hs hg ht).2 t⟩) h

end MuduoSe
