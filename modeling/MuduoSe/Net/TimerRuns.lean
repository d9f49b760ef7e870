/-
# Every run of the timer queue

Between two steps a node is held by `deltimelist` or by the functor that is to add it
(`Timers.Good`). `timers_moved`: whatever can happen next, the code returns and keeps that, and what
it has done is one of a few things (`Timers.Moved`).
`registries_agree` says what it means for the two sets, for `deltimelist` and for the nodes
that are alive.

Key definitions: `Timers.held`, `Timers.Good`, `Timers.Moved`.
Key theorems: `timers_moved`, `timers_good`, `registries_agree`.
-/
import MuduoSe.Net.TimerRegistry

namespace MuduoSe

open TimerQueue (expired)

namespace Timers

/-- The nodes that no waiting entry owns. -/
def held (s : Timers) : List Addr := ptrs s.queue.deltimelist ++ s.pending

structure Good (s : Timers) : Prop where
  queue : s.queue.Good s.held
  calling : s.queue.calling = s.batch.isSome
  full : s.batch.isSome → ∀ e ∈ s.queue.deltimelist, e.2 ≠ 0

theorem start_good (size : Int) : (start size).Good := by
  have hheap : ∀ p : Addr, (start size).queue.heap[p]? = none := fun p =>
    Std.ExtTreeMap.getElem?_empty
  refine ⟨⟨hheap 0, ?_, ?_, List.nodup_nil, ?_, ?_, ?_⟩, rfl, ?_⟩
  · intro p n hn
    rw [hheap] at hn
    cases hn
  · intro p p' n n' hn
    rw [hheap] at hn
    cases hn
  · intro p hp
    exact absurd hp List.not_mem_nil
  · intro e p
    rw [hheap]
    simp [start, TimerQueue.new]
  · intro i p
    rw [hheap]
    simp [start, TimerQueue.new]
  · intro h
    cases h

/-- The next callback's node is held by its entry. -/
theorem Good.next_live {s : Timers} (h : s.Good) {e : Entry} (he : s.next = some e) :
    s.batch.isSome ∧ e.2 ∈ ptrs s.queue.deltimelist ∧ ∃ n : TimeNode, s.queue.heap[e.2]? = some n := by
  obtain ⟨b, hb, hi⟩ := Option.bind_eq_some_iff.mp he
  have hbatch : s.batch.isSome := by rw [hb]; rfl
  have hmem : e ∈ s.queue.deltimelist := List.mem_of_getElem? hi
  have hptr : e.2 ∈ ptrs s.queue.deltimelist := mem_ptrs.mpr ⟨h.full hbatch e hmem, e, hmem, rfl⟩
  exact ⟨hbatch, hptr, h.queue.live e.2 (List.mem_append_left _ hptr)⟩

/-- A pending node is held last of all. -/
theorem held_perm (s : Timers) {p : Addr} (hp : p ∈ s.pending) :
    s.held.Perm (p :: (ptrs s.queue.deltimelist ++ s.pending.erase p)) := by
  unfold held
  exact ((List.perm_cons_erase hp).append_left _).trans List.perm_middle

/-! ### What an event does -/

variable {s : Timers}

theorem Good.construct (h : s.Good) {t : TimeId} (hp : t.own_timenode_ ≠ 0)
    (hfree : t.own_timenode_ ∉ s.queue.heap) (when : Time) (interval : Int) :
    Good { s with
      queue := s.queue.newTimeNode t.own_timenode_ when interval
      pending := t.own_timenode_ :: s.pending } := by
  refine ⟨?_, h.calling, h.full⟩
  apply (h.queue.newTimeNode hp (Std.ExtTreeMap.getElem?_eq_none hfree) when interval).perm
  exact List.perm_middle.symm

theorem Good.add (h : s.Good) {p : Addr} (hp : p ∈ s.pending) (r : ResetTimes) :
    ∃ (n : TimeNode) (armed : Option (ResetTimes × Timespec)) (s' : Timers), s.queue.heap[p]? = some n ∧
      s' = { s with
        queue := { s.queue.enter n p with armed := armed }
        pending := s.pending.erase p
        added := (n.index_, p) :: s.added } ∧
      timers.step s (.add p r) = .ok s' ∧ s'.Good := by
  have hq := h.queue.perm (s.held_perm hp)
  obtain ⟨n, hn⟩ := hq.live p List.mem_cons_self
  obtain ⟨armed, hadd, hgood⟩ := hq.addTimeNodeInLoop hn r
  refine ⟨n, armed, _, hn, rfl, ?_, hgood, h.calling, h.full⟩
  unfold timers
  dsimp only
  rw [TimerQueue.deref_eq hn, ok_bind, hadd, ok_bind, res_pure]

theorem Good.delWaiting (h : s.Good) {t : TimeId} (ht : t.key ∈ s.queue.indexlist_) :
    ∃ (n : TimeNode) (s' : Timers), s.queue.heap[t.own_timenode_]? = some n ∧ n.index_ = t.index_ ∧
      t.own_timenode_ ∉ s.held ∧ s' = { s with
        queue := { s.queue with
          heap := s.queue.heap.erase t.own_timenode_
          list_ := s.queue.list_.erase (n.expiration_, t.own_timenode_)
          indexlist_ := s.queue.indexlist_.erase t.key } } ∧
      timers.step s (.del t) = .ok s' ∧ s'.Good := by
  obtain ⟨n, hn, hi, hout, hdel, hgood⟩ := h.queue.delWaiting ht
  refine ⟨n, _, hn, hi, hout, rfl, ?_, hgood, h.calling, h.full⟩
  unfold timers
  dsimp only
  rw [hdel, ok_bind, res_pure]

theorem Good.delOther (h : s.Good) {t : TimeId} (ht : t.key ∉ s.queue.indexlist_) :
    ∃ s' : Timers, s' = { s with
      queue := { s.queue with
        waitdeltimelist :=
          if s.queue.calling then s.queue.waitdeltimelist.insert t.key
          else s.queue.waitdeltimelist } } ∧
      timers.step s (.del t) = .ok s' ∧ s'.Good := by
  refine ⟨_, rfl, ?_, h.queue.congr rfl rfl rfl rfl, h.calling, h.full⟩
  unfold timers
  dsimp only
  rw [TimerQueue.delOther ht, ok_bind, res_pure]

theorem Good.beginRead (h : s.Good) (now cut : Time) :
    ∃ (q : TimerQueue) (s' : Timers),
      q.deltimelist = s.queue.list_.toList.filter (expired cut) ∧ q.heap = s.queue.clear.heap ∧
      q.size_ = s.queue.size_ ∧ q.waitdeltimelist = s.queue.waitdeltimelist ∧
      s' = { s with queue := { q with calling := true }, batch := some (now, 0) } ∧
      timers.step s (.beginRead now cut) = .ok s' ∧ s'.Good := by
  obtain ⟨q, hq, hdel, hne, hgood, hheap, hsize, hwait⟩ := h.queue.getExpired cut
  refine ⟨q, _, hdel, hheap, hsize, hwait, rfl, ?_, hgood.congr rfl rfl rfl rfl, rfl, fun _ => hne⟩
  unfold timers
  dsimp only
  rw [hq, ok_bind, res_pure]

theorem Good.run (h : s.Good) {e : Entry} (he : s.next = some e) :
    ∃ (now : Time) (i : ℕ) (n : TimeNode) (s' : Timers), s.batch = some (now, i) ∧
      s.queue.deltimelist[i]? = some e ∧ s.queue.heap[e.2]? = some n ∧
      s' = { s with batch := some (now, i + 1), ran := (n.index_, e.2) :: s.ran } ∧
      timers.step s .run = .ok s' ∧ s'.Good := by
  obtain ⟨⟨now, i⟩, hb, hi⟩ := Option.bind_eq_some_iff.mp he
  obtain ⟨hbatch, -, n, hn⟩ := h.next_live he
  refine ⟨now, i, n, _, hb, hi, hn, rfl, ?_, h.queue, ?_, fun _ => h.full hbatch⟩
  · unfold timers
    dsimp only
    rw [hb, he]
    dsimp only
    rw [TimerQueue.deref_eq hn, ok_bind, res_pure]
  · rw [h.calling, hb]
    rfl

theorem Good.endRead (h : s.Good) {now : Time} {i : ℕ} (hb : s.batch = some (now, i)) (r : ResetTimes) :
    ∃ (q : TimerQueue) (s' : Timers),
      TimerQueue.Flashed now s.queue.deltimelist { s.queue with calling := false } q.deltimelist q ∧
      s' = { s with queue := q, batch := none } ∧
      timers.step s (.endRead r) = .ok s' ∧ s'.Good := by
  have hfull : ∀ e ∈ s.queue.deltimelist, e.2 ≠ 0 := h.full (by rw [hb]; rfl)
  have hq : TimerQueue.Good { s.queue with calling := false } s.held := h.queue.congr rfl rfl rfl rfl
  obtain ⟨q, hq, hgood, hflash⟩ := hq.fflash hfull now r
  refine ⟨q, _, hflash, rfl, ?_, hgood, hflash.calling, fun h => by cases h⟩
  unfold timers
  dsimp only
  rw [hb]
  dsimp only
  rw [hq, ok_bind, res_pure]

end Timers

/-- What an event makes of the timers of a loop, for each way through the code. -/
inductive Timers.Moved (s : Timers) : TimerEvent → Timers → Prop
  | construct {t : TimeId} {when : Time} {interval : Int} (hp : t.own_timenode_ ≠ 0)
      (hfree : s.queue.heap[t.own_timenode_]? = none) (hi : t.index_ = s.queue.size_ + 1) :
      Moved s (.construct t when interval) { s with
        queue := s.queue.newTimeNode t.own_timenode_ when interval
        pending := t.own_timenode_ :: s.pending }
  | other : Moved s .other { s with queue := { s.queue with size_ := s.queue.size_ + 1 } }
  | add {p : Addr} {r : ResetTimes} {n : TimeNode} {armed : Option (ResetTimes × Timespec)} (hp : p ∈ s.pending)
      (hn : s.queue.heap[p]? = some n) :
      Moved s (.add p r) { s with
        queue := { s.queue.enter n p with armed := armed }
        pending := s.pending.erase p
        added := (n.index_, p) :: s.added }
  | delWaiting {t : TimeId} {n : TimeNode} (hn : s.queue.heap[t.own_timenode_]? = some n)
      (hi : n.index_ = t.index_) (hout : t.own_timenode_ ∉ s.held) :
      Moved s (.del t) { s with
        queue := { s.queue with
          heap := s.queue.heap.erase t.own_timenode_
          list_ := s.queue.list_.erase (n.expiration_, t.own_timenode_)
          indexlist_ := s.queue.indexlist_.erase t.key } }
  | delOther {t : TimeId} (ht : t.key ∉ s.queue.indexlist_) :
      Moved s (.del t) { s with
        queue := { s.queue with
          waitdeltimelist :=
            if s.queue.calling then s.queue.waitdeltimelist.insert t.key
            else s.queue.waitdeltimelist } }
  | beginRead {now cut : Time} {q : TimerQueue} (hidle : s.batch = none)
      (hdel : q.deltimelist = s.queue.list_.toList.filter (expired cut))
      (hheap : ∀ a : Addr, q.heap[a]? = if a ∈ ptrs s.queue.deltimelist then none else s.queue.heap[a]?)
      (hsize : q.size_ = s.queue.size_) (hwait : q.waitdeltimelist = s.queue.waitdeltimelist) :
      Moved s (.beginRead now cut) { s with
        queue := { q with calling := true }
        batch := some (now, 0) }
  | run {e : Entry} {now : Time} {i : ℕ} {n : TimeNode} (hb : s.batch = some (now, i))
      (he : s.queue.deltimelist[i]? = some e) (hn : s.queue.heap[e.2]? = some n) :
      Moved s .run { s with batch := some (now, i + 1), ran := (n.index_, e.2) :: s.ran }
  | endRead {r : ResetTimes} {now : Time} {i : ℕ} {q : TimerQueue} (hb : s.batch = some (now, i))
      (hend : s.next = none)
      (hflash : TimerQueue.Flashed now s.queue.deltimelist { s.queue with calling := false } q.deltimelist q) :
      Moved s (.endRead r) { s with queue := q, batch := none }

/-- **Whatever can happen next, the code returns and the registries agree.** -/
theorem timers_moved {s : Timers} (h : s.Good) {ev : TimerEvent} (hg : timers.guard s ev) :
    ∃ s', timers.step s ev = .ok s' ∧ s.Moved ev s' ∧ s'.Good := by
  cases ev with
  | construct t when interval =>
    have hfree := Std.ExtTreeMap.getElem?_eq_none hg.2.1
    exact ⟨_, rfl, .construct hg.1 hfree hg.2.2, h.construct hg.1 hg.2.1 when interval⟩
  | other => exact ⟨_, rfl, .other, h.queue.other, h.calling, h.full⟩
  | add p r =>
    obtain ⟨n, armed, s', hn, rfl, hs, hgood⟩ := h.add hg.1 r
    exact ⟨_, hs, .add hg.1 hn, hgood⟩
  | del t =>
    by_cases ht : t.key ∈ s.queue.indexlist_
    · obtain ⟨n, s', hn, hi, hout, rfl, hs, hgood⟩ := h.delWaiting ht
      exact ⟨_, hs, .delWaiting hn hi hout, hgood⟩
    · obtain ⟨s', rfl, hs, hgood⟩ := h.delOther ht
      exact ⟨_, hs, .delOther ht, hgood⟩
  | beginRead now cut =>
    obtain ⟨q, s', hdel, hheap, hsize, hwait, rfl, hs, hgood⟩ := h.beginRead now cut
    refine ⟨_, hs, .beginRead hg hdel (fun a => ?_) hsize hwait, hgood⟩
    rw [hheap, h.queue.clear_heap]
  | run =>
    obtain ⟨e, he⟩ := Option.isSome_iff_exists.mp hg
    obtain ⟨now, i, n, s', hb, hi, hn, rfl, hs, hgood⟩ := h.run he
    exact ⟨_, hs, .run hb hi hn, hgood⟩
  | endRead r =>
    obtain ⟨⟨now, i⟩, hb⟩ := Option.isSome_iff_exists.mp hg.1
    obtain ⟨q, s', hflash, rfl, hs, hgood⟩ := h.endRead hb r
    exact ⟨_, hs, .endRead hb hg.2 hflash, hgood⟩

/-- What is known of a step that was taken. -/
theorem Timers.Good.moved {s s' : Timers} (h : s.Good) {ev : TimerEvent} (hg : timers.guard s ev)
    (hs : timers.step s ev = .ok s') : s.Moved ev s' ∧ s'.Good := by
  obtain ⟨s'', hs'', hmoved⟩ := timers_moved h hg
  rw [hs, Except.ok.injEq] at hs''
  exact hs'' ▸ hmoved

theorem timers_step {s : Timers} (h : s.Good) {ev : TimerEvent} (hg : timers.guard s ev) :
    ∃ s', timers.step s ev = .ok s' ∧ s'.Good := by
  obtain ⟨s', hs, -, hgood⟩ := timers_moved h hg
  exact ⟨s', hs, hgood⟩

theorem timers_good {size : Int} {es : List TimerEvent} {s : Timers}
    (h : timers.Run (.start size) es s) : s.Good :=
  h.invariant (fun hs hg ht => (hs.moved hg ht).2) (Timers.start_good size)

/-- What was added and what was run is not forgotten. -/
theorem logs_grow {s s' : Timers} {ev : TimerEvent} (h : timers.step s ev = .ok s') :
    s.added <:+ s'.added ∧ s.ran <:+ s'.ran := by
  cases ev with
  | construct t when interval =>
    cases h
    exact ⟨List.suffix_rfl, List.suffix_rfl⟩
  | other =>
    cases h
    exact ⟨List.suffix_rfl, List.suffix_rfl⟩
  | add t r =>
    obtain ⟨n, -, h⟩ := bind_ok h
    obtain ⟨q, -, h⟩ := bind_ok h
    cases h
    exact ⟨List.suffix_cons _ _, List.suffix_rfl⟩
  | del t =>
    obtain ⟨q, -, h⟩ := bind_ok h
    cases h
    exact ⟨List.suffix_rfl, List.suffix_rfl⟩
  | beginRead now cut =>
    obtain ⟨q, -, h⟩ := bind_ok h
    cases h
    exact ⟨List.suffix_rfl, List.suffix_rfl⟩
  | run =>
    unfold timers at h
    dsimp only at h
    split at h
    · obtain ⟨n, -, h⟩ := bind_ok h
      cases h
      exact ⟨List.suffix_rfl, List.suffix_cons _ _⟩
    · cases h
  | endRead r =>
    unfold timers at h
    dsimp only at h
    split at h
    · obtain ⟨q, -, h⟩ := bind_ok h
      cases h
      exact ⟨List.suffix_rfl, List.suffix_rfl⟩
    · cases h
      exact ⟨List.suffix_rfl, List.suffix_rfl⟩

/-! ### The registries -/

namespace Timers

/-- What the containers of a queue say of each other. -/
structure Agree (s : Timers) : Prop where
  /-- A timer is in `indexlist_` if and only if it has one entry in `list_`, that of its expiration. -/
  index_iff : ∀ i p, (i, p) ∈ s.queue.indexlist_ ↔ ∃ n : TimeNode, s.queue.heap[p]? = some n ∧
    n.index_ = i ∧ (n.expiration_, p) ∈ s.queue.list_ ∧ ∃! e, (e, p) ∈ s.queue.list_
  /-- No timer is in `list_` and in `deltimelist`. -/
  apart : ∀ e p, (e, p) ∈ s.queue.list_ → ∀ e', (e', p) ∉ s.queue.deltimelist
  /-- A live node has one owner, an entry or the functor that is to add it; a dead one has none. -/
  owned : ∀ p : Addr, p ≠ 0 →
    ((s.queue.list_.toList ++ s.queue.deltimelist).map (·.2)).count p + s.pending.count p =
      if p ∈ s.queue.heap then 1 else 0
  /-- `delTimeNodeInLoop` finds the entry that it erases. -/
  found : ∀ t : TimeId, t.key ∈ s.queue.indexlist_ →
    ∃ n, s.queue.deref t.own_timenode_ = .ok n ∧ (n.expiration_, t.own_timenode_) ∈ s.queue.list_
  /-- Nothing that can happen next ends in a fault. -/
  returns : ∀ ev, timers.guard s ev → ∃ s', timers.step s ev = .ok s'

variable {s : Timers}

theorem Good.index_iff (h : s.Good) (i : Int) (p : Addr) : (i, p) ∈ s.queue.indexlist_ ↔
    ∃ n : TimeNode, s.queue.heap[p]? = some n ∧ n.index_ = i ∧ (n.expiration_, p) ∈ s.queue.list_ := by
  rw [h.queue.index_iff]
  constructor
  · rintro ⟨hp, n, hn, hi⟩
    exact ⟨n, hn, hi, (h.queue.list_iff _ p).mpr ⟨hp, n, hn, rfl⟩⟩
  · rintro ⟨n, hn, hi, hin⟩
    exact ⟨((h.queue.list_iff _ p).mp hin).1, n, hn, hi⟩

theorem Good.apart (h : s.Good) {e e' : Time} {p : Addr} (he : (e, p) ∈ s.queue.list_) :
    (e', p) ∉ s.queue.deltimelist := by
  intro hdel
  obtain ⟨hp, n, hn, -⟩ := (h.queue.list_iff e p).mp he
  exact hp (List.mem_append_left _ (mem_ptrs.mpr ⟨h.queue.ne_zero hn, _, hdel, rfl⟩))

theorem Good.owned (h : s.Good) {p : Addr} (hp : p ≠ 0) :
    ((s.queue.list_.toList ++ s.queue.deltimelist).map (·.2)).count p + s.pending.count p =
      if p ∈ s.queue.heap then 1 else 0 := by
  have hnodup : (s.queue.list_.toList.map (·.2) ++ s.held).Nodup := by
    refine List.nodup_append.mpr ⟨h.queue.nodup_nodes, h.queue.nodup, ?_⟩
    rintro a ha b hb rfl
    exact (h.queue.mem_nodes.mp ha).1 hb
  have hmem : p ∈ s.queue.list_.toList.map (·.2) ++ s.held ↔ p ∈ s.queue.heap := by
    rw [List.mem_append, h.queue.mem_nodes, Std.ExtTreeMap.mem_iff_isSome_getElem?,
      Option.isSome_iff_exists]
    constructor
    · rintro (hin | hin)
      · exact hin.2
      · exact h.queue.live p hin
    · intro hin
      by_cases hheld : p ∈ s.held
      · exact .inr hheld
      · exact .inl ⟨hheld, hin⟩
  have hptrs : (ptrs s.queue.deltimelist).count p = (s.queue.deltimelist.map (·.2)).count p :=
    List.count_filter (by simpa using hp)
  calc ((s.queue.list_.toList ++ s.queue.deltimelist).map (·.2)).count p + s.pending.count p
      = (s.queue.list_.toList.map (·.2) ++ s.held).count p := by
        unfold held
        rw [List.map_append, List.count_append, List.count_append, List.count_append, hptrs]
        exact Nat.add_assoc _ _ _
    _ = if p ∈ s.queue.list_.toList.map (·.2) ++ s.held then 1 else 0 := hnodup.count
    _ = if p ∈ s.queue.heap then 1 else 0 := by simp only [hmem]

end Timers

/-- **The registries of the timer queue agree in every reachable state.** -/
theorem registries_agree {size : Int} {es : List TimerEvent} {s : Timers}
    (h : timers.Run (.start size) es s) : s.Agree := by
  have hgood := timers_good h
  refine ⟨?_, ?_, ?_, ?_, ?_⟩
  · intro i p
    rw [hgood.index_iff]
    constructor
    · rintro ⟨n, hn, hi, hin⟩
      exact ⟨n, hn, hi, hin, _, hin, fun e he => hgood.queue.entry_unique he hin⟩
    · rintro ⟨n, hn, hi, hin, -⟩
      exact ⟨n, hn, hi, hin⟩
  · intro e p he e'
    exact hgood.apart he
  · intro p hp
    exact hgood.owned hp
  · intro t ht
    obtain ⟨n, hn, -, hin⟩ := (hgood.index_iff _ _).mp ht
    exact ⟨n, TimerQueue.deref_eq hn, hin⟩
  · intro ev hg
    obtain ⟨s', hs, -⟩ := timers_step hgood hg
    exact ⟨s', hs⟩

/-- A timer cancels itself and adds another; later, a third gets its address, and the cancel is
repeated. -/
def reuse : List TimerEvent :=
  [.construct ⟨1, 1⟩ 5000 7, .construct ⟨2, 2⟩ 4000 0, .add 1 ⟨1000, 1001⟩, .add 2 ⟨1000, 1001⟩,
    .beginRead 6000 6001, .run, .run, .del ⟨1, 1⟩, .construct ⟨3, 3⟩ 9000 1, .add 3 ⟨6002, 6003⟩,
    .endRead ⟨6003, 6004⟩, .beginRead 7000 7001, .endRead ⟨7002, 7003⟩, .construct ⟨1, 4⟩ 8000 7,
    .add 1 ⟨7500, 7501⟩, .del ⟨1, 1⟩]

theorem registries_agree_reuse : ∃ s, timers.Run (.start 0) reuse s ∧
    s.queue.list_.toList = [(8000, 1), (9000, 3)] ∧ s.Agree := by
  have hrun : ((timers.exec (.start 0) reuse).map fun s => s.queue.list_.toList) =
      some [(8000, 1), (9000, 3)] := by
    decide +kernel
  obtain ⟨s, hs, hlist⟩ := timers.exec_map_iff.mp hrun
  exact ⟨s, hs, hlist, registries_agree hs⟩

end MuduoSe
