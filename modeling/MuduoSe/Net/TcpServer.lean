/-
# TcpServer: the table of connections

`net/TcpServer.cc` and `net/EventLoopThreadPool.cc`. Loop 0 is the loop of the acceptor, loop
`i + 1` the `i`-th of the pool, each with its poller and the functors that were queued in it; a
`TcpConnect` is a number, by which the server has its object and by which its channel is known to
the pollers. A step is a `newconn`, one functor of a loop, or the read event of a connection whose
peer closed.

`removeconnect` is what a closed connection calls, and its body is commented out: a connection
stays in the table and its channel in the map of its poller, once it is there (`closed_kept`). So
the table is that of the live connections as long as no peer closes: `server_tracks_iff`.
`removeconnectloop` and `delchannel`, which nobody calls, would do what is missing.

Key definitions: `TcpServer.newconn`, `TcpServer.removeconnect`, `TcpServer.removeconnectloop`,
`TcpServer.Tracks`, `tcpServer`.
Key theorems: `TcpServer.Inv.step`, `TcpServer.closed_kept`, `server_tracks_iff`.
-/
import MuduoSe.Net.TcpClosed

namespace MuduoSe

/-- A pool whose `start` has filled `eventlooplist_`. -/
structure EventLoopThreadPool where
  num_ : ℤ
  index_ : ℕ
  deriving DecidableEq, Repr

/-- The loop of a new connection; `none` is null. -/
def EventLoopThreadPool.getEventLoop (p : EventLoopThreadPool) : Option ℕ × EventLoopThreadPool :=
  if p.num_ = 0 then (some 0, p)
  else if p.num_ > 0 then (some (p.index_ + 1), { p with index_ := (p.index_ + 1) % p.num_.toNat })
  else (none, p)

/-- What a server has its loops run. -/
inductive ServerFunctor
  | conestablish (c : ℕ)
  | delchannel (c : ℕ)
  deriving DecidableEq, Repr

structure ServerLoop where
  poller : Polled (EpollPoller ℕ) ℕ
  pendfunclists_ : List ServerFunctor

/-- A `TcpConnect` but for its channel. -/
structure Accepted where
  index_ : ℕ
  loop_ : ℕ
  inbuffer_ : Buffer
  outbuffer_ : Buffer
  state_ : CONNECT
  /-- `handledel` has been executed. -/
  deleted : Bool

structure TcpServer where
  eventpool : Option EventLoopThreadPool
  connid_ : ℕ
  tcpconlists : ℕ → Option ℕ
  /-- The connections that were accepted. -/
  object : ℕ → Option Accepted
  loops : ℕ → ServerLoop

namespace TcpServer

/-- A server that has been started, with the descriptors that `accept` will return. -/
def start (fd : ℕ → ℤ) (multi : Bool) (num : ℤ) : TcpServer where
  eventpool := if multi then some ⟨num, 0⟩ else none
  connid_ := 1
  tcpconlists _ := none
  object _ := none
  loops _ := ⟨.start fd EpollPoller.new, []⟩

/-- The connection `c` in its loop. -/
def attached (s : TcpServer) (c : ℕ) (k : Accepted) : Attached ℕ :=
  ⟨(s.loops k.loop_).poller, c, k.inbuffer_, k.outbuffer_, k.state_, k.deleted⟩

/-- The connection `c` has become `a`. -/
def put (s : TcpServer) (c : ℕ) (k : Accepted) (a : Attached ℕ) : TcpServer :=
  { s with
    object := Function.update s.object c
      (some ⟨k.index_, k.loop_, a.inbuffer_, a.outbuffer_, a.state_, a.deleted⟩)
    loops := Function.update s.loops k.loop_ { s.loops k.loop_ with poller := a.loop_ } }

def conestablish (s : TcpServer) (c : ℕ) : Res TcpServer :=
  match s.object c with
  | none => .error .dangling
  | some k => do
    let a ← (s.attached c k).conestablish
    return s.put c k a

/-- `TcpConnect::delchannel`. -/
def delchannel (s : TcpServer) (c : ℕ) : Res TcpServer :=
  match s.object c with
  | none => .error .dangling
  | some k => do
    let a ← (s.attached c k).upevent .disallevent
    let p ← EpollPoller.impl.call a.loop_ (.remove c)
    return s.put c k { a with loop_ := p }

def run (s : TcpServer) : ServerFunctor → Res TcpServer
  | .conestablish c => s.conestablish c
  | .delchannel c => s.delchannel c

/-- The functors that are queued in the loop `l`. -/
def setpend (s : TcpServer) (l : ℕ) (fs : List ServerFunctor) : TcpServer :=
  { s with loops := Function.update s.loops l { s.loops l with pendfunclists_ := fs } }

/-- `runinloop` of the loop `l`, called in the thread of the acceptor. -/
def runinloop (s : TcpServer) (l : ℕ) (f : ServerFunctor) : Res TcpServer :=
  if l = 0 then s.run f
  else .ok (s.setpend l ((s.loops l).pendfunclists_ ++ [f]))

/-- `newconn`, with the capacity of the buffers of the connection. -/
def newconn (s : TcpServer) (cap : ℕ) : Res TcpServer :=
  match s.eventpool with
  | none => .error .dangling
  | some pool =>
    match pool.getEventLoop with
    | (none, _) => .error .dangling
    | (some subreactor, pool) => do
      let c := s.connid_
      let s := { s with
        eventpool := some pool
        object := Function.update s.object c
          (some ⟨c, subreactor, Buffer.new cap, Buffer.new cap, .kconnected, false⟩) }
      let s ← s.runinloop subreactor (.conestablish c)
      return { s with tcpconlists := Function.update s.tcpconlists c (some c), connid_ := c + 1 }

/-- The close callback of every connection: all of its body is commented out. -/
def removeconnect (s : TcpServer) (_con : ℕ) : TcpServer := s

/-- Never called. -/
def removeconnectloop (s : TcpServer) (c : ℕ) : Res TcpServer :=
  match s.object c with
  | none => .error .dangling
  | some k =>
    match (s.tcpconlists k.index_).bind s.object with
    | none => .error .dangling
    | some d => do
      check (d.index_ = k.index_)
      runinloop { s with tcpconlists := Function.update s.tcpconlists k.index_ none } k.loop_ (.delchannel c)

/-- `handleread` of a connection whose peer has closed. -/
def peerclose (s : TcpServer) (c : ℕ) : Res TcpServer :=
  match s.object c with
  | none => .error .dangling
  | some k => do
    let (a, fx) ← (s.attached c k).handleread (some []) (Attached.message 0)
    return fx.foldl (fun s e => if e = .closecallback then s.removeconnect c else s) (s.put c k a)

/-- One round of the loop of `dopendfunc`. -/
def dofunctor (s : TcpServer) (l : ℕ) : Res TcpServer :=
  match (s.loops l).pendfunclists_ with
  | [] => .ok s
  | f :: fs => (s.setpend l fs).run f

end TcpServer

/-! ### Runs -/

/-- What happens to a server that neither sends nor receives. -/
inductive ServerEvent
  /-- A connection is accepted. -/
  | newconn (cap : ℕ)
  /-- The loop `l` runs the first functor that is queued in it. -/
  | functor (l : ℕ)
  /-- The peer of `c` closes. -/
  | peerclose (c : ℕ)
  deriving DecidableEq, Repr

namespace TcpServer

def step (s : TcpServer) : ServerEvent → Res TcpServer
  | .newconn cap => s.newconn cap
  | .functor l => s.dofunctor l
  | .peerclose c => s.peerclose c

/-- The descriptor of the connection is in the interest list of its loop. -/
def watched (s : TcpServer) (c : ℕ) : Bool :=
  match s.object c with
  | none => false
  | some k =>
    let p := (s.loops k.loop_).poller
    (p.poller.epollfd_.interest (p.channel c).fd_).isSome

/-- A loop runs what is queued in it, and reads a connection that `epoll_wait` can return. -/
def possible (s : TcpServer) : ServerEvent → Prop
  | .newconn _ => True
  | .functor l => (s.loops l).pendfunclists_ ≠ []
  | .peerclose c => s.watched c = true

instance (s : TcpServer) : (e : ServerEvent) → Decidable (s.possible e)
  | .newconn _ => inferInstanceAs (Decidable True)
  | .functor l => inferInstanceAs (Decidable ((s.loops l).pendfunclists_ ≠ []))
  | .peerclose c => inferInstanceAs (Decidable (s.watched c = true))

end TcpServer

/-- A server whose clients connect and close. -/
def tcpServer : System TcpServer ServerEvent Fault where
  guard := TcpServer.possible
  step := TcpServer.step

instance (s : TcpServer) (e : ServerEvent) : Decidable (tcpServer.guard s e) :=
  inferInstanceAs (Decidable (s.possible e))

namespace TcpServer

open EpollPoller

/-! ### What every step keeps -/

/-- The channel of a connection, as its loop has it. -/
def chan (s : TcpServer) (c : ℕ) (k : Accepted) : Channel := (s.loops k.loop_).poller.channel c

/-- The pollers are good; every accepted connection is in the table, and the others are nowhere; a
closed one is disabled, and one whose `conestablish` is queued is new. -/
structure Inv (fd : ℕ → ℤ) (s : TcpServer) : Prop where
  pollers : ∀ l, Good fd (s.loops l).poller
  table : ∀ c d, s.tcpconlists c = some d ↔ d = c ∧ (s.object c).isSome = true
  index : ∀ c k, s.object c = some k → k.index_ = c
  fresh : ∀ c, s.connid_ ≤ c → s.object c = none ∧ ∀ l, ((s.loops l).poller.channel c).index_ = knew
  closed : ∀ c k, s.object c = some k → k.deleted = true → (s.chan c k).index_ = kdel
  pending : ∀ l f, f ∈ (s.loops l).pendfunclists_ → ∃ c k, f = .conestablish c ∧ s.object c = some k ∧
    k.loop_ = l ∧ k.deleted = false ∧ (s.chan c k).index_ = knew
  nodup : ∀ l, (s.loops l).pendfunclists_.Nodup

theorem Inv.start (fd : ℕ → ℤ) (multi : Bool) (num : ℤ) : Inv fd (start fd multi num) where
  pollers _ := Good.start fd
  table c d := by simp [TcpServer.start]
  index c k h := by cases h
  fresh c _ := ⟨rfl, fun _ => rfl⟩
  closed c k h := by cases h
  pending l f h := by cases h
  nodup l := List.nodup_nil

variable {fd : ℕ → ℤ} {s t : TcpServer}

section put

variable {c d : ℕ} {k : Accepted} {a : Attached ℕ}

@[simp] theorem put_object_self : (s.put c k a).object c =
    some ⟨k.index_, k.loop_, a.inbuffer_, a.outbuffer_, a.state_, a.deleted⟩ := Function.update_self ..

theorem put_object_of_ne (hd : d ≠ c) : (s.put c k a).object d = s.object d := Function.update_of_ne hd ..

@[simp] theorem put_pend (l : ℕ) :
    ((s.put c k a).loops l).pendfunclists_ = (s.loops l).pendfunclists_ := by
  unfold put
  dsimp only
  by_cases hl : l = k.loop_
  · subst hl
    rw [Function.update_self]
  · rw [Function.update_of_ne hl]

theorem put_poller (l : ℕ) :
    ((s.put c k a).loops l).poller = if l = k.loop_ then a.loop_ else (s.loops l).poller := by
  unfold put
  dsimp only
  split_ifs with hl
  · subst hl
    rw [Function.update_self]
  · rw [Function.update_of_ne hl]

/-- The channels of the other connections. -/
theorem put_channel (hother : ∀ d, d ≠ c → a.loop_.channel d = (s.loops k.loop_).poller.channel d)
    (l : ℕ) (hd : d ≠ c) : ((s.put c k a).loops l).poller.channel d = (s.loops l).poller.channel d := by
  rw [put_poller]
  split_ifs with hl
  · rw [hother d hd, hl]
  · rfl

end put

/-- A connection whose functor is not queued changes the mask of its channel. -/
theorem Inv.put (h : Inv fd s) {c : ℕ} {k : Accepted} (hk : s.object c = some k) {a : Attached ℕ}
    (hgood : Good fd a.loop_) (hother : ∀ d, d ≠ c → a.loop_.channel d = (s.loops k.loop_).poller.channel d)
    (hdel : a.deleted = true → (a.loop_.channel c).index_ = kdel)
    (hpend : ∀ l, .conestablish c ∉ (s.loops l).pendfunclists_) : Inv fd (s.put c k a) where
  pollers l := by
    rw [put_poller]
    split_ifs
    · exact hgood
    · exact h.pollers l
  table d e := by
    by_cases hd : d = c
    · subst hd
      have ht := h.table d e
      rw [hk] at ht
      rw [put_object_self]
      exact ht
    · rw [put_object_of_ne hd]
      exact h.table d e
  index d j hj := by
    by_cases hd : d = c
    · subst hd
      rw [put_object_self, Option.some.injEq] at hj
      rw [← hj]
      exact h.index d k hk
    · rw [put_object_of_ne hd] at hj
      exact h.index d j hj
  fresh d hd := by
    have hne : d ≠ c := by
      rintro rfl
      rw [(h.fresh d hd).1] at hk
      cases hk
    refine ⟨by rw [put_object_of_ne hne]; exact (h.fresh d hd).1, fun l => ?_⟩
    rw [put_channel hother l hne]
    exact (h.fresh d hd).2 l
  closed d j hj hdj := by
    unfold chan
    by_cases hd : d = c
    · subst hd
      rw [put_object_self, Option.some.injEq] at hj
      subst hj
      rw [put_poller, if_pos rfl]
      exact hdel hdj
    · rw [put_object_of_ne hd] at hj
      rw [put_channel hother _ hd]
      exact h.closed d j hj hdj
  pending l f hf := by
    rw [put_pend] at hf
    obtain ⟨d, j, rfl, hj, hl, hdj, hix⟩ := h.pending l f hf
    have hd : d ≠ c := by
      rintro rfl
      exact hpend l hf
    refine ⟨d, j, rfl, by rw [put_object_of_ne hd]; exact hj, hl, hdj, ?_⟩
    unfold chan
    rw [put_channel hother _ hd]
    exact hix
  nodup l := by
    rw [put_pend]
    exact h.nodup l

theorem setpend_pend (l : ℕ) (fs : List ServerFunctor) (l' : ℕ) :
    ((s.setpend l fs).loops l').pendfunclists_ = if l' = l then fs else (s.loops l').pendfunclists_ := by
  unfold setpend
  dsimp only
  split_ifs with hl
  · subst hl
    rw [Function.update_self]
  · rw [Function.update_of_ne hl]

@[simp] theorem setpend_poller (l : ℕ) (fs : List ServerFunctor) (l' : ℕ) :
    ((s.setpend l fs).loops l').poller = (s.loops l').poller := by
  unfold setpend
  dsimp only
  by_cases hl : l' = l
  · subst hl
    rw [Function.update_self]
  · rw [Function.update_of_ne hl]

/-- A queue of new connections. -/
theorem Inv.setpend (h : Inv fd s) {l : ℕ} {fs : List ServerFunctor} (hnodup : fs.Nodup)
    (hfs : ∀ f ∈ fs, ∃ c k, f = .conestablish c ∧ s.object c = some k ∧ k.loop_ = l ∧
      k.deleted = false ∧ (s.chan c k).index_ = knew) : Inv fd (s.setpend l fs) where
  pollers l' := by
    rw [setpend_poller]
    exact h.pollers l'
  table := h.table
  index := h.index
  fresh c hc := ⟨(h.fresh c hc).1, fun l' => by rw [setpend_poller]; exact (h.fresh c hc).2 l'⟩
  closed c k hk hdel := by
    unfold chan
    rw [setpend_poller]
    exact h.closed c k hk hdel
  pending l' f hf := by
    rw [setpend_pend] at hf
    unfold chan
    simp only [setpend_poller]
    split_ifs at hf with hl
    · subst hl
      exact hfs f hf
    · exact h.pending l' f hf
  nodup l' := by
    rw [setpend_pend]
    split_ifs
    · exact hnodup
    · exact h.nodup l'

/-- What is queued is queued once, in one loop. -/
theorem Inv.pending_once (h : Inv fd s) {l l' : ℕ} {f : ServerFunctor} (hf : f ∈ (s.loops l).pendfunclists_)
    (hf' : f ∈ (s.loops l').pendfunclists_) : l' = l := by
  obtain ⟨c, k, rfl, hk, hl, -⟩ := h.pending l f hf
  obtain ⟨d, j, he, hj, hl', -⟩ := h.pending l' _ hf'
  obtain rfl := ServerFunctor.conestablish.inj he
  rw [hk, Option.some.injEq] at hj
  rw [← hl, ← hl', hj]

/-- A loop takes its first functor, which is then queued nowhere. -/
theorem Inv.pop (h : Inv fd s) {l : ℕ} {f : ServerFunctor} {fs : List ServerFunctor}
    (hl : (s.loops l).pendfunclists_ = f :: fs) :
    Inv fd (s.setpend l fs) ∧ ∀ l', f ∉ ((s.setpend l fs).loops l').pendfunclists_ := by
  have hnodup := h.nodup l
  rw [hl, List.nodup_cons] at hnodup
  constructor
  · apply h.setpend hnodup.2
    intro g hg
    exact h.pending l g (by rw [hl]; exact List.mem_cons_of_mem _ hg)
  · intro l' hf
    rw [setpend_pend] at hf
    split_ifs at hf with he
    · exact hnodup.1 hf
    · exact he (h.pending_once (by rw [hl]; exact List.mem_cons_self ..) hf)

/-- A new connection in the table, before it is established. -/
def accept (s : TcpServer) (pool : EventLoopThreadPool) (l cap : ℕ) : TcpServer :=
  { s with
    eventpool := some pool
    object := Function.update s.object s.connid_
      (some ⟨s.connid_, l, Buffer.new cap, Buffer.new cap, .kconnected, false⟩)
    tcpconlists := Function.update s.tcpconlists s.connid_ (some s.connid_)
    connid_ := s.connid_ + 1 }

theorem accept_object (s : TcpServer) (pool : EventLoopThreadPool) (l cap c : ℕ) :
    (s.accept pool l cap).object c = if c = s.connid_ then
      some ⟨s.connid_, l, Buffer.new cap, Buffer.new cap, .kconnected, false⟩ else s.object c := by
  unfold accept
  split_ifs with hc
  · subst hc
    exact Function.update_self ..
  · exact Function.update_of_ne hc ..

theorem Inv.accept (h : Inv fd s) (pool : EventLoopThreadPool) (l cap : ℕ) : Inv fd (s.accept pool l cap) where
  pollers := h.pollers
  table c d := by
    rw [accept_object]
    unfold TcpServer.accept
    dsimp only
    split_ifs with hc
    · subst hc
      simp [eq_comm]
    · rw [Function.update_of_ne hc]
      exact h.table c d
  index c k hk := by
    rw [accept_object] at hk
    split_ifs at hk with hc
    · rw [hc, ← Option.some.inj hk]
    · exact h.index c k hk
  fresh c hc := by
    have hc : s.connid_ + 1 ≤ c := hc
    obtain ⟨hobj, hix⟩ := h.fresh c (by omega)
    rw [accept_object, if_neg (by omega)]
    exact ⟨hobj, hix⟩
  closed c k hk hdel := by
    rw [accept_object] at hk
    split_ifs at hk with hc
    · rw [← Option.some.inj hk] at hdel
      cases hdel
    · exact h.closed c k hk hdel
  pending l' f hf := by
    obtain ⟨c, k, hfc, hk, hl, hdel, hix⟩ := h.pending l' f hf
    have hc : c ≠ s.connid_ := by
      rintro rfl
      rw [(h.fresh _ le_rfl).1] at hk
      cases hk
    exact ⟨c, k, hfc, by rw [accept_object, if_neg hc]; exact hk, hl, hdel, hix⟩
  nodup := h.nodup

/-- The connection was accepted and its peer has closed it. -/
def Closed (s : TcpServer) (c : ℕ) : Prop := ∃ k, s.object c = some k ∧ k.deleted = true

theorem put_closed {c : ℕ} {k : Accepted} {a : Attached ℕ} (d : ℕ) :
    (s.put c k a).Closed d ↔ if d = c then a.deleted = true else s.Closed d := by
  unfold Closed
  split_ifs with hd
  · subst hd
    rw [put_object_self]
    simp
  · rw [put_object_of_ne hd]

/-- `conestablish` of a connection whose functor is not queued. -/
theorem Inv.conestablish (h : Inv fd s) (hfd : Function.Injective fd) {c : ℕ} {k : Accepted}
    (hk : s.object c = some k) (hdel : k.deleted = false)
    (hpend : ∀ l, .conestablish c ∉ (s.loops l).pendfunclists_) (ht : s.conestablish c = .ok t) :
    Inv fd t ∧ ∀ d, t.Closed d ↔ s.Closed d := by
  rw [TcpServer.conestablish, hk] at ht
  obtain ⟨a, ha, ht⟩ := bind_ok ht
  obtain rfl := Except.ok.inj ht
  obtain ⟨p, hp, hgood, -, hother⟩ := (s.attached c k).upevent_spec (h.pollers k.loop_) hfd .enread
  rw [Attached.conestablish, hp, Except.ok.injEq] at ha
  subst ha
  constructor
  · apply h.put (a := { s.attached c k with loop_ := p }) hk hgood hother _ hpend
    intro hd
    exact absurd (hdel.symm.trans hd) (by decide)
  · intro d
    rw [put_closed]
    split_ifs with hd
    · rw [hd]
      unfold Closed
      rw [hk]
      simp [attached]
    · rfl

/-- A loop that `epoll_wait` can return has the connection watched. -/
theorem Inv.watched (h : Inv fd s) (hfd : Function.Injective fd) {c : ℕ} (hw : s.watched c = true) :
    ∃ k, s.object c = some k ∧ (s.chan c k).index_ = kin := by
  unfold TcpServer.watched at hw
  cases hk : s.object c with
  | none => rw [hk] at hw; cases hw
  | some k =>
    rw [hk] at hw
    dsimp only at hw
    rw [(h.pollers k.loop_).interest_self hfd c] at hw
    refine ⟨k, rfl, ?_⟩
    by_contra hne
    unfold chan at hne
    rw [if_neg hne] at hw
    cases hw

theorem Inv.peerclose (h : Inv fd s) (hfd : Function.Injective fd) {c : ℕ} (hw : s.watched c = true)
    (ht : s.peerclose c = .ok t) : Inv fd t ∧ ∀ d, t.Closed d ↔ s.Closed d ∨ d = c := by
  obtain ⟨k, hk, hix⟩ := h.watched hfd hw
  rw [TcpServer.peerclose, hk] at ht
  obtain ⟨⟨a, fx⟩, ha, ht⟩ := bind_ok ht
  obtain ⟨b, p, rfl, rfl, hgood, hdel, hother⟩ := Attached.handleread_closes (h.pollers k.loop_) hfd ha
  obtain rfl := Except.ok.inj ht
  have hnot : ∀ l, .conestablish c ∉ (s.loops l).pendfunclists_ := by
    intro l hf
    obtain ⟨d, j, he, hj, -, -, hnew⟩ := h.pending l _ hf
    obtain rfl := ServerFunctor.conestablish.inj he
    rw [hk, Option.some.injEq] at hj
    subst hj
    rw [hix] at hnew
    exact absurd hnew (by decide)
  refine ⟨h.put hk hgood hother (fun _ => ?_) hnot, fun d => ?_⟩
  · calc (p.channel c).index_ = indexUp (s.chan c k).index_ 0#32 := hdel
      _ = kdel := by
        rw [hix]
        exact if_pos ⟨rfl, rfl⟩
  · apply (put_closed d).trans
    split_ifs with hd
    · simp [hd]
    · simp [hd]

/-- `newconn` puts the connection into the table and has its loop establish it. -/
theorem newconn_eq {cap : ℕ} (ht : s.newconn cap = .ok t) :
    ∃ pool l, runinloop (s.accept pool l cap) l (.conestablish s.connid_) = .ok t := by
  unfold newconn at ht
  cases hp : s.eventpool with
  | none => rw [hp] at ht; cases ht
  | some pool =>
    rw [hp] at ht
    dsimp only at ht
    match hg : pool.getEventLoop, ht with
    | (none, _), ht => cases ht
    | (some l, pool'), ht =>
      obtain ⟨u, hu, ht⟩ := bind_ok ht
      obtain rfl := Except.ok.inj ht
      refine ⟨pool', l, ?_⟩
      unfold runinloop at hu ⊢
      split_ifs at hu ⊢ with hl
      · unfold run TcpServer.conestablish at hu ⊢
        dsimp only at hu ⊢
        rw [Function.update_self] at hu
        rw [accept_object, if_pos rfl]
        obtain ⟨a, ha, hu⟩ := bind_ok hu
        obtain rfl := Except.ok.inj hu
        exact congrArg (fun x : Res (Attached ℕ) => x >>= fun a =>
          pure ((s.accept pool' l cap).put s.connid_ ⟨s.connid_, l, Buffer.new cap, Buffer.new cap,
            .kconnected, false⟩ a)) ha
      · obtain rfl := Except.ok.inj hu
        rfl

/-- What an event does to the invariant and to the closed connections. -/
theorem Inv.step (h : Inv fd s) (hfd : Function.Injective fd) {e : ServerEvent}
    (hg : tcpServer.guard s e) (ht : tcpServer.step s e = .ok t) :
    Inv fd t ∧ ∀ d, t.Closed d ↔ s.Closed d ∨ e = .peerclose d := by
  cases e with
  | newconn cap =>
    obtain ⟨pool, l, ht⟩ := newconn_eq ht
    have hi := h.accept pool l cap
    have hnew := (h.fresh s.connid_ le_rfl)
    have hpend : ∀ l, .conestablish s.connid_ ∉ (s.loops l).pendfunclists_ := by
      intro l hf
      obtain ⟨d, j, he, hj, -⟩ := h.pending l _ hf
      obtain rfl := ServerFunctor.conestablish.inj he
      rw [hnew.1] at hj
      cases hj
    have haccept : ∀ d, (s.accept pool l cap).Closed d ↔ s.Closed d ∨ .newconn cap = ServerEvent.peerclose d := by
      intro d
      unfold Closed
      rw [accept_object]
      split_ifs with hd
      · simp [hd, hnew.1]
      · simp
    unfold runinloop at ht
    split_ifs at ht with hl
    · obtain ⟨hinv, hclosed⟩ := hi.conestablish hfd (Function.update_self ..) rfl hpend ht
      exact ⟨hinv, fun d => (hclosed d).trans (haccept d)⟩
    · obtain rfl := Except.ok.inj ht
      refine ⟨hi.setpend ?_ ?_, haccept⟩
      · apply List.nodup_append.mpr ⟨h.nodup l, by simp, fun f hf g hg => ?_⟩
        rintro rfl
        exact hpend l (List.mem_singleton.mp hg ▸ hf)
      · intro f hf
        rcases List.mem_append.mp hf with hf | hf
        · exact hi.pending l f hf
        · obtain rfl := List.mem_singleton.mp hf
          exact ⟨_, _, rfl, Function.update_self .., rfl, rfl, hnew.2 l⟩
  | functor l =>
    have ht : s.dofunctor l = .ok t := ht
    unfold dofunctor at ht
    cases hl : (s.loops l).pendfunclists_ with
    | nil => exact absurd hl hg
    | cons f fs =>
      rw [hl] at ht
      obtain ⟨hi, hf⟩ := h.pop hl
      obtain ⟨c, k, rfl, hk, -, hdel, -⟩ := h.pending l f (by rw [hl]; exact List.mem_cons_self ..)
      obtain ⟨hinv, hclosed⟩ := hi.conestablish hfd hk hdel hf ht
      exact ⟨hinv, fun d => (hclosed d).trans (or_iff_left (by simp)).symm⟩
  | peerclose c =>
    obtain ⟨hinv, hclosed⟩ := h.peerclose hfd hg ht
    refine ⟨hinv, fun d => ?_⟩
    rw [hclosed, ServerEvent.peerclose.injEq, eq_comm (a := d)]

/-- After any run: the invariant, and which connections are closed. -/
theorem Inv.run (hfd : Function.Injective fd) {multi : Bool} {num : ℤ} {es : List ServerEvent}
    (h : tcpServer.Run (.start fd multi num) es s) :
    Inv fd s ∧ ∀ c, s.Closed c ↔ .peerclose c ∈ es := by
  apply h.history (P := fun es s => Inv fd s ∧ ∀ c, s.Closed c ↔ .peerclose c ∈ es)
  · exact ⟨Inv.start fd multi num, fun c => by simp [Closed, TcpServer.start]⟩
  · intro es s e t _ hs hg ht
    obtain ⟨hinv, hclosed⟩ := hs.1.step hfd hg ht
    refine ⟨hinv, fun c => ?_⟩
    rw [hclosed, hs.2, List.mem_append, List.mem_singleton, eq_comm (a := e)]

/-! ### What the table tracks -/

/-- The connection was accepted and is not closed. -/
def Live (s : TcpServer) (c : ℕ) : Prop := ∃ k, s.object c = some k ∧ k.deleted = false

/-- The table has the live connections, and no poller has the channel of a closed one. -/
structure Tracks (s : TcpServer) : Prop where
  table : ∀ c d, s.tcpconlists c = some d ↔ d = c ∧ s.Live c
  removed : ∀ c k, s.object c = some k → k.deleted = true →
    ∀ x, (s.loops k.loop_).poller.poller.channels_ x ≠ some c

/-- **A closed connection is kept**: it stays in the table and in the map of its poller. -/
theorem closed_kept (h : Inv fd s) {c : ℕ} (hc : s.Closed c) : s.tcpconlists c = some c ∧
    ∃ k, s.object c = some k ∧ (s.loops k.loop_).poller.poller.channels_ (fd c) = some c := by
  obtain ⟨k, hk, hdel⟩ := hc
  refine ⟨(h.table c c).mpr ⟨rfl, by rw [hk]; rfl⟩, k, hk, ?_⟩
  exact ((h.pollers k.loop_).channels _ c).mpr ⟨(h.pollers k.loop_).fds c, .inr (h.closed c k hk hdel)⟩

/-! ### What would be missing -/

/-- `delchannel` takes the channel of a closed connection out of its poller. -/
theorem delchannel_spec (h : Inv fd s) (hfd : Function.Injective fd) {c : ℕ} (hc : s.Closed c) :
    ∃ t, s.delchannel c = .ok t ∧ t.tcpconlists = s.tcpconlists ∧ ∀ k, t.object c = some k →
      ∀ x, (t.loops k.loop_).poller.poller.channels_ x ≠ some c := by
  obtain ⟨k, hk, hdel⟩ := hc
  obtain ⟨p, hp, hgood, hchan, -⟩ := (s.attached c k).upevent_spec (h.pollers k.loop_) hfd .disallevent
  have hchan : p.channel c = { Channel.disallevent (s.chan c k) with index_ := indexUp (s.chan c k).index_ 0#32 } :=
    hchan
  have hix : (p.channel c).index_ = kin := by
    rw [hchan, h.closed c k hk hdel]
    rfl
  have hr : removable p c := by
    refine ⟨(hgood.channels _ c).mpr ⟨rfl, .inl hix⟩, ?_, .inr hix⟩
    rw [hchan]
    rfl
  obtain ⟨rs, hrs, hrem⟩ := removeChannel_spec hgood hfd hr
  have hgone : Good fd (EpollPoller.put p c { p.channel c with index_ := knew } rs) :=
    hgood.put hfd (hgood.fds c) (.inl rfl) hrs
  refine ⟨s.put c k { s.attached c k with loop_ := EpollPoller.put p c { p.channel c with index_ := knew } rs },
    ?_, rfl, ?_⟩
  · unfold delchannel
    rw [hk]
    dsimp only
    rw [hp, ok_bind]
    show (removeChannel p c >>= _) = _
    rw [hrem, ok_bind, res_pure]
  · intro j hj x hx
    rw [put_object_self, Option.some.injEq] at hj
    subst hj
    rw [put_poller, if_pos rfl] at hx
    obtain ⟨-, hi⟩ := (hgone.channels x c).mp hx
    have hnew : ((EpollPoller.put p c { p.channel c with index_ := knew } rs).channel c).index_ = knew := by
      show (Function.update p.channel c _ c).index_ = knew
      rw [Function.update_self]
    rw [hnew] at hi
    revert hi
    decide

/-- `removeconnectloop` takes it out of the table, and has its loop call `delchannel`. -/
theorem removeconnectloop_eq (h : Inv fd s) {c : ℕ} {k : Accepted} (hk : s.object c = some k) :
    s.removeconnectloop c = runinloop { s with tcpconlists := Function.update s.tcpconlists c none }
      k.loop_ (.delchannel c) := by
  have hix := h.index c k hk
  have htable : s.tcpconlists k.index_ = some c := (h.table k.index_ c).mpr ⟨hix.symm, by rw [hix, hk]; rfl⟩
  unfold removeconnectloop
  rw [hk]
  dsimp only
  rw [htable, Option.bind_some, hk]
  dsimp only
  rw [check_pos rfl, ok_bind, hix]

end TcpServer

open TcpServer

/-- **When the table is that of the live connections.** After any run of a server: the table has
exactly the accepted connections that are not closed, and no poller a closed one, if and only if
no peer has closed its connection. -/
theorem server_tracks_iff (fd : ℕ → ℤ) (hfd : Function.Injective fd) (multi : Bool) (num : ℤ)
    {es : List ServerEvent} {s : TcpServer} (h : tcpServer.Run (.start fd multi num) es s) :
    s.Tracks ↔ ∀ c, .peerclose c ∉ es := by
  obtain ⟨hinv, hclosed⟩ := Inv.run hfd h
  simp only [← hclosed]
  constructor
  · intro ht c hc
    obtain ⟨-, k, hk, hin⟩ := closed_kept hinv hc
    obtain ⟨k', hk', hdel⟩ := hc
    rw [hk, Option.some.injEq] at hk'
    subst hk'
    exact ht.removed c k hk hdel _ hin
  · intro hno
    have hopen : ∀ c k, s.object c = some k → k.deleted = false := by
      intro c k hk
      by_contra hdel
      exact hno c ⟨k, hk, by simpa using hdel⟩
    refine ⟨fun c d => ?_, fun c k hk hdel => absurd ⟨k, hk, hdel⟩ (hno c)⟩
    rw [hinv.table c d, Option.isSome_iff_exists]
    apply and_congr_right
    intro _
    exact ⟨fun ⟨k, hk⟩ => ⟨k, hk, hopen c k hk⟩, fun ⟨k, hk, _⟩ => ⟨k, hk⟩⟩

/-- Three connections on two loops, which establish them in another order. -/
theorem server_tracks_iff_open : ∃ s, tcpServer.Run (.start (fun c => c + 5) true 2)
      [.newconn 4, .newconn 4, .functor 2, .newconn 4, .functor 1, .functor 1] s ∧
    (List.range 5).map s.tcpconlists = [none, some 1, some 2, some 3, none] ∧ s.Tracks := by
  have h : (tcpServer.exec (.start (fun c => c + 5) true 2)
      [.newconn 4, .newconn 4, .functor 2, .newconn 4, .functor 1, .functor 1]).map
        (fun s => (List.range 5).map s.tcpconlists) = some [none, some 1, some 2, some 3, none] := by
    decide +kernel
  obtain ⟨s, hs, hv⟩ := (System.exec_map_iff _).mp h
  have hfd : Function.Injective fun c : ℕ => (c : ℤ) + 5 := by
    intro a b hab
    dsimp only at hab
    omega
  exact ⟨s, hs, hv, (server_tracks_iff _ hfd true 2 hs).mpr (by simp)⟩

/-- One connection is accepted, established and closed by its peer: nothing is queued, and the
table still has it. -/
theorem server_not_tracks : ∃ s, tcpServer.Run (.start (fun c => c + 5) true 1)
      [.newconn 4, .functor 1, .peerclose 1] s ∧
    (s.loops 0).pendfunclists_ = [] ∧ (s.loops 1).pendfunclists_ = [] ∧ ¬s.Tracks := by
  have h : (tcpServer.exec (.start (fun c => c + 5) true 1) [.newconn 4, .functor 1, .peerclose 1]).map
      (fun s => ((s.loops 0).pendfunclists_, (s.loops 1).pendfunclists_, s.tcpconlists 1,
        (s.object 1).map (·.deleted))) = some ([], [], some 1, some true) := by decide +kernel
  obtain ⟨s, hs, hv⟩ := (System.exec_map_iff _).mp h
  simp only [Prod.mk.injEq] at hv
  obtain ⟨h0, h1, htable, hdel⟩ := hv
  refine ⟨s, hs, h0, h1, fun ht => ?_⟩
  obtain ⟨-, k, hk, hopen⟩ := (ht.table 1 1).mp htable
  rw [hk, Option.map_some, Option.some.injEq, hopen] at hdel
  cases hdel

end MuduoSe
