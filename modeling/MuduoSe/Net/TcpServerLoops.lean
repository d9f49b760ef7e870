/-
# The loops of a server

`TcpServer` and its `EventLoopThreadPool` from their constructors on. A server that is not `multi`
drops its pool at once, and `newconn` asks the pool all the same: the first connection follows a null
pointer. A server that is `multi` starts `num` loops, and its connections go to these in turn, or to
the loop of the acceptor if `num` is 0.

* `connections_served_iff`: a server that has been started gives every connection a loop that exists, and the
  loops of its pool get the same number up to one, if and only if it is `multi` or nobody connects.
* `default_not_served`: the default is a server that is not.

An `EventLoop` is a number; that of the acceptor is 0. `EventLoopThread::start` returns the loop that
the new thread has made, and waits for it until it is not null.

Key definitions: `LoopThreadPool`, `Reactors`, `reactors`, `Reactors.Served`.
Key theorems: `getEventLoop_eq`, `Ready.newconn`, `connections_served_iff`.
-/
import MuduoSe.Lib.RoundRobin
import MuduoSe.Net.TcpServer

namespace MuduoSe

/-! ### The pool -/

/-- `EventLoopThreadPool`, with its loops. -/
structure LoopThreadPool extends EventLoopThreadPool where
  mainloop : ℕ
  eventlooplist_ : List ℕ
  deriving DecidableEq, Repr

namespace LoopThreadPool

def new (num : ℤ) (loop : ℕ) : LoopThreadPool := ⟨⟨num, 0⟩, loop, []⟩

/-- The `num_` loops of new threads, numbered from `fresh` on. -/
def start (p : LoopThreadPool) (fresh : ℕ) : LoopThreadPool :=
  { p with eventlooplist_ := p.eventlooplist_ ++ List.range' fresh p.num_.toNat }

def getEventLoop (p : LoopThreadPool) : Res (Option ℕ × LoopThreadPool) :=
  if p.num_ = 0 then .ok (some p.mainloop, p)
  else if p.num_ > 0 then
    match p.eventlooplist_[p.index_]? with
    | some loop => .ok (some loop, { p with index_ := (p.index_ + 1) % p.num_.toNat })
    | none => .error .outOfBounds
  else .ok (none, p)

end LoopThreadPool

/-! ### The server -/

/-- What a `TcpServer` needs to find a loop for a connection. -/
structure Reactors where
  loop_acceptor : ℕ
  threadnum_ : ℤ
  eventpool : Option LoopThreadPool
  starting_ : Bool
  multi_reactor : Bool
  /-- The loops below this number exist. -/
  fresh : ℕ
  /-- The loops of the connections that were accepted, the latest first. -/
  subreactors : List ℕ
  deriving DecidableEq, Repr

namespace Reactors

/-- `TcpServer(loop,serveraddr,multi,num)` -/
def new (multi : Bool) (num : ℤ) : Reactors where
  loop_acceptor := 0
  threadnum_ := num
  eventpool := if !multi then none else some (.new num 0)
  starting_ := false
  multi_reactor := multi
  fresh := 1
  subreactors := []

def start (s : Reactors) : Res Reactors :=
  if !s.starting_ then
    if s.multi_reactor then
      match s.eventpool with
      | none => .error .dangling
      | some pool => .ok
          { s with
            eventpool := some (pool.start s.fresh)
            fresh := s.fresh + pool.num_.toNat
            starting_ := true }
    else .ok { s with starting_ := true }
  else .ok s

/-- `newconn` up to `subreactor->runinloop`. -/
def newconn (s : Reactors) : Res Reactors :=
  match s.eventpool with
  | none => .error .dangling
  | some pool => do
    let (subreactor, pool) ← pool.getEventLoop
    match subreactor with
    | none => .error .dangling
    | some loop => return { s with eventpool := some pool, subreactors := loop :: s.subreactors }

end Reactors

inductive ReactorsEvent
  | start
  | newconn
  deriving DecidableEq, Repr

/-- A server whose `start` is called, once or more, and to which clients connect. -/
def reactors : System Reactors ReactorsEvent Fault where
  guard _ _ := True
  step s
    | .start => s.start
    | .newconn => s.newconn

instance (s : Reactors) (ev : ReactorsEvent) : Decidable (reactors.guard s ev) :=
  inferInstanceAs (Decidable True)

namespace Reactors

/-- Every connection has a loop that exists, and they are spread evenly. -/
structure Even (s : Reactors) : Prop where
  live : ∀ l ∈ s.subreactors, l < s.fresh
  acceptor : s.multi_reactor = false ∨ s.threadnum_ = 0 → ∀ l ∈ s.subreactors, l = s.loop_acceptor
  pool : s.multi_reactor = true → 0 < s.threadnum_ → ∃ p ∈ s.eventpool,
    p.eventlooplist_.length = s.threadnum_.toNat ∧ (∀ l ∈ s.subreactors, l ∈ p.eventlooplist_) ∧
      ∀ l ∈ p.eventlooplist_, ∀ l' ∈ p.eventlooplist_,
        s.subreactors.count l ≤ s.subreactors.count l' + 1

/-- A step is handled, and leaves the connections so. -/
def Served (s : Reactors) (ev : ReactorsEvent) : Prop := ∃ t, reactors.step s ev = .ok t ∧ t.Even

/-! ### A server that has been started -/

/-- A server that is `multi`, and its pool. -/
structure Ready (s : Reactors) (p : LoopThreadPool) : Prop where
  eventpool : s.eventpool = some p
  multi : s.multi_reactor = true
  starting : s.starting_ = true
  num : p.num_ = s.threadnum_
  mainloop : p.mainloop = s.loop_acceptor
  acceptor : s.loop_acceptor = 0
  fresh : s.fresh = p.num_.toNat + 1
  loops : p.eventlooplist_ = List.range' 1 p.num_.toNat
  dealt : 0 < p.num_ → Dealt (fun i => s.subreactors.count (i + 1)) p.num_.toNat p.index_
  sub : ∀ l ∈ s.subreactors, if p.num_ = 0 then l = 0 else l ∈ p.eventlooplist_

variable {s t : Reactors} {p : LoopThreadPool} {num : ℤ} {multi : Bool} {ev : ReactorsEvent}

theorem Ready.mem_iff (h : s.Ready p) {l : ℕ} :
    l ∈ p.eventlooplist_ ↔ ∃ i < p.num_.toNat, i + 1 = l := by
  rw [h.loops, List.mem_range'_1]
  constructor
  · intro hl
    exact ⟨l - 1, by omega, by omega⟩
  · rintro ⟨i, hi, rfl⟩
    omega

theorem Ready.even (h : s.Ready p) : s.Even := by
  have hfresh := h.fresh
  refine ⟨?_, ?_, ?_⟩
  · intro l hl
    have hsub := h.sub l hl
    split_ifs at hsub with hzero
    · omega
    · obtain ⟨i, hi, rfl⟩ := h.mem_iff.mp hsub
      omega
  · rintro (hmulti | hzero) l hl
    · rw [h.multi] at hmulti
      cases hmulti
    · have hsub := h.sub l hl
      rw [if_pos (h.num.trans hzero)] at hsub
      exact hsub.trans h.acceptor.symm
  · intro _ hpos
    have hpos : 0 < p.num_ := h.num ▸ hpos
    refine ⟨p, h.eventpool, ?_, ?_, ?_⟩
    · rw [h.loops, List.length_range', h.num]
    · intro l hl
      have hsub := h.sub l hl
      rwa [if_neg (Int.ne_of_gt hpos)] at hsub
    · intro l hl l' hl'
      obtain ⟨i, hi, rfl⟩ := h.mem_iff.mp hl
      obtain ⟨j, hj, rfl⟩ := h.mem_iff.mp hl'
      exact (h.dealt hpos).even hi hj

/-- **A connection is given the next loop.** -/
theorem Ready.newconn (h : s.Ready p) (hnum : 0 ≤ p.num_) :
    ∃ t q, s.newconn = .ok t ∧ t.Ready q ∧ q.num_ = p.num_ := by
  unfold Reactors.newconn LoopThreadPool.getEventLoop
  rw [h.eventpool]
  dsimp only
  rcases eq_or_lt_of_le hnum with hzero | hpos
  · rw [if_pos hzero.symm]
    refine ⟨_, p, rfl, ⟨rfl, h.multi, h.starting, h.num, h.mainloop, h.acceptor, h.fresh, h.loops, ?_, ?_⟩, rfl⟩
    · intro hpos
      exact absurd hpos (hzero ▸ Int.lt_irrefl _)
    · intro l hl
      rw [if_pos hzero.symm]
      rcases List.mem_cons.mp hl with rfl | hl
      · exact h.mainloop.trans h.acceptor
      · have hsub := h.sub l hl
        rwa [if_pos hzero.symm] at hsub
  · have hdealt := h.dealt hpos
    have hloop : p.eventlooplist_[p.index_]? = some (p.index_ + 1) := by
      rw [h.loops, List.getElem?_range' hdealt.next_lt]
      congr 1
      omega
    rw [if_neg (Int.ne_of_gt hpos), if_pos hpos, hloop]
    refine ⟨_, _, rfl, ⟨rfl, h.multi, h.starting, h.num, h.mainloop, h.acceptor, h.fresh, h.loops, ?_, ?_⟩, rfl⟩
    · intro _
      refine hdealt.next List.count_cons_self ?_
      intro i _ hi
      exact List.count_cons_of_ne (by omega)
    · intro l hl
      dsimp only
      rw [if_neg (Int.ne_of_gt hpos)]
      rcases List.mem_cons.mp hl with rfl | hl
      · exact List.mem_of_getElem? hloop
      · have hsub := h.sub l hl
        rwa [if_neg (Int.ne_of_gt hpos)] at hsub

/-- A server that has been started; one that is not `multi` has no pool and no connection. -/
def Started (multi : Bool) (num : ℤ) (s : Reactors) : Prop :=
  multi = true ∧ (∃ p, s.Ready p ∧ p.num_ = num) ∨
  multi = false ∧ s.eventpool = none ∧ s.multi_reactor = false ∧ s.starting_ = true ∧ s.subreactors = []

theorem Started.even (h : s.Started multi num) : s.Even := by
  rcases h with ⟨-, p, hp, -⟩ | ⟨-, -, hmulti, -, hnil⟩
  · exact hp.even
  · refine ⟨?_, ?_, ?_⟩
    · rw [hnil]
      exact fun l hl => absurd hl List.not_mem_nil
    · rw [hnil]
      exact fun _ l hl => absurd hl List.not_mem_nil
    · rw [hmulti]
      exact fun hm => absurd hm Bool.false_ne_true

theorem start_started (multi : Bool) (num : ℤ) :
    ∃ s, (Reactors.new multi num).start = .ok s ∧ s.Started multi num := by
  cases multi with
  | false => exact ⟨_, rfl, .inr ⟨rfl, rfl, rfl, rfl, rfl⟩⟩
  | true =>
    refine ⟨_, rfl, .inl ⟨rfl, _, ⟨rfl, rfl, rfl, rfl, rfl, rfl, Nat.add_comm _ _, rfl, ?_, ?_⟩, rfl⟩⟩
    · intro hpos
      have hpos : 0 < num := hpos
      exact .start (by show 0 < num.toNat; omega) fun _ _ => rfl
    · exact fun l hl => absurd hl List.not_mem_nil

/-- A step of a server that is `multi`, or that no client connects to. -/
theorem Started.step (hnum : 0 ≤ num) (h : s.Started multi num) (hev : multi = true ∨ ev ≠ .newconn) :
    ∃ t, reactors.step s ev = .ok t ∧ t.Started multi num := by
  cases ev with
  | start =>
    have hstarting : s.starting_ = true := by
      rcases h with ⟨-, p, hp, -⟩ | ⟨-, -, -, hstarting, -⟩
      · exact hp.starting
      · exact hstarting
    refine ⟨s, ?_, h⟩
    show s.start = .ok s
    unfold Reactors.start
    rw [hstarting]
    rfl
  | newconn =>
    have hmulti : multi = true := hev.resolve_right (not_not.mpr rfl)
    rcases h with ⟨-, p, hp, rfl⟩ | ⟨hfalse, -⟩
    · obtain ⟨t, q, ht, hq, hnum'⟩ := hp.newconn hnum
      exact ⟨t, ht, .inl ⟨hmulti, q, hq, hnum'⟩⟩
    · rw [hfalse] at hmulti
      cases hmulti

theorem Started.serves_iff (hnum : 0 ≤ num) (h : s.Started multi num) :
    s.Served ev ↔ multi = true ∨ ev ≠ .newconn := by
  constructor
  · rintro ⟨t, ht, -⟩
    rcases h with ⟨hmulti, -⟩ | ⟨-, hpool, -⟩
    · exact .inl hmulti
    · refine .inr ?_
      rintro rfl
      have hnull : s.newconn = .error .dangling := by
        unfold Reactors.newconn
        rw [hpool]
      have ht : s.newconn = .ok t := ht
      rw [hnull] at ht
      cases ht
  · intro hev
    obtain ⟨t, ht, hstarted⟩ := h.step hnum hev
    exact ⟨t, ht, hstarted.even⟩

end Reactors

/-- **When every connection gets a loop.** For every server that has been started, whoever connects. -/
theorem connections_served_iff (multi : Bool) {num : ℤ} (hnum : 0 ≤ num) :
    ∃ s, (Reactors.new multi num).start = .ok s ∧ ∀ es,
      reactors.Always Reactors.Served s es ↔ multi = true ∨ .newconn ∉ es := by
  obtain ⟨s, hs, hstarted⟩ := Reactors.start_started multi num
  refine ⟨s, hs, fun es => ?_⟩
  have hall : reactors.Always Reactors.Served s es ↔ ∀ ev ∈ es, multi = true ∨ ev ≠ .newconn :=
    System.always_iff_forall (I := Reactors.Started multi num) (fun h hev => h.step hnum hev)
      (fun h => h.serves_iff hnum) hstarted
  rw [hall]
  constructor
  · intro hev
    by_cases hin : .newconn ∈ es
    · exact .inl ((hev _ hin).resolve_right (not_not.mpr rfl))
    · exact .inr hin
  · rintro (hmulti | hout) ev hev
    · exact .inl hmulti
    · exact .inr fun he => hout (he ▸ hev)

/-- Three loops and five connections. -/
theorem connections_served_iff_three : ∃ s, (Reactors.new true 3).start = .ok s ∧
    (∃ t, reactors.Run s (List.replicate 5 .newconn) t ∧ t.subreactors = [2, 1, 3, 2, 1]) ∧
    reactors.Always Reactors.Served s (List.replicate 5 .newconn) := by
  obtain ⟨s, hs, hall⟩ := connections_served_iff true (show (0 : ℤ) ≤ 3 by decide)
  have hrun : (((Reactors.new true 3).start.toOption.bind fun s =>
      reactors.exec s (List.replicate 5 .newconn)).map Reactors.subreactors) = some [2, 1, 3, 2, 1] := by
    decide
  rw [hs] at hrun
  exact ⟨s, hs, (System.exec_map_iff _).mp hrun, (hall _).mpr (.inl rfl)⟩

/-- **The first connection of a server with the default of `multi`** follows a null pointer. -/
theorem default_not_served : ¬∀ (multi : Bool) (num : ℤ), 0 ≤ num → ∃ s,
    (Reactors.new multi num).start = .ok s ∧ ∀ k, reactors.Always Reactors.Served s (List.replicate k .newconn) := by
  intro h
  obtain ⟨s, hs, hall⟩ := h false 8 (by decide)
  obtain rfl := Except.ok.inj hs
  obtain ⟨⟨t, ht, -⟩, -⟩ := hall 1
  cases ht

/-! ### The pool that has been started -/

/-- With the loops `1` to `num_`, the pool is the one of `TcpServer`. -/
theorem getEventLoop_eq {p : LoopThreadPool} (hloops : p.eventlooplist_ = List.range' 1 p.num_.toNat)
    (hmain : p.mainloop = 0) (hindex : 0 < p.num_ → p.index_ < p.num_.toNat) : p.getEventLoop =
      .ok (p.toEventLoopThreadPool.getEventLoop.1,
        { p with toEventLoopThreadPool := p.toEventLoopThreadPool.getEventLoop.2 }) := by
  unfold LoopThreadPool.getEventLoop EventLoopThreadPool.getEventLoop
  split_ifs with hzero hpos
  · exact congrArg (fun l => Except.ok (some l, p)) hmain
  · have hloop : p.eventlooplist_[p.index_]? = some (p.index_ + 1) := by
      rw [hloops, List.getElem?_range' (hindex hpos)]
      congr 1
      omega
    rw [hloop]
  · rfl

end MuduoSe
