/-
# A connection that was closed

`net/TcpConnect.cc` once more, now with the poller of the connection's loop: a change of the
channel's mask goes through `Channel::upevent` to `EpollPoller::upChannel`, which decides by
`index_` what becomes of the interest list. Without the poller these are the functions of
`TcpConnect` (`sendinloop_conn` and the like).

`handledel` disables the channel and leaves `state_`; a channel that was disabled is put back
into the interest list by the next `upevent()`, whatever its mask is. So a connection stays
closed as long as `Quiet` holds of every event: the peer closes only once and after a
`shutdown`, and no later send or write event calls `enwrite` or `diswrite`.

Key definitions: `Attached`, `Attached.upevent`, `Attached.Closed`, `Attached.Quiet`, `attached`.
Key theorems: `Attached.upevent_spec`, `Attached.step_moved`, `Attached.sendinloop_conn`,
`stays_closed_iff`.
-/
import MuduoSe.Net.EpollPoller
import MuduoSe.Net.TcpConnect

namespace MuduoSe

def POLLHUP : BitVec 32 := 0x010#32

/-- A connection in its loop, whose poller also has other channels. -/
structure Attached (ι : Type) where
  loop_ : Polled (EpollPoller ι) ι
  channel_ : ι
  inbuffer_ : Buffer
  outbuffer_ : Buffer
  state_ : CONNECT
  /-- `handledel` has been executed. -/
  deleted : Bool

namespace Attached

variable {ι : Type}

def new (p : Polled (EpollPoller ι) ι) (me : ι) (cap : ℕ) : Attached ι :=
  ⟨p, me, Buffer.new cap, Buffer.new cap, .kconnected, false⟩

/-- The channel itself. -/
def chan (s : Attached ι) : Channel := s.loop_.channel s.channel_

/-- The connection without its loop. -/
def conn (s : Attached ι) : TcpConnect := ⟨s.chan, s.inbuffer_, s.outbuffer_, s.state_⟩

def connected (s : Attached ι) : Bool := s.state_ == .kconnected

variable [DecidableEq ι]

/-- A change of the channel's mask, up to and including what the poller does. -/
def upevent (s : Attached ι) (ch : Change) : Res (Attached ι) := do
  let p ← EpollPoller.impl.call s.loop_ (.upevent ch s.channel_)
  return { s with loop_ := p }

def conestablish (s : Attached ι) : Res (Attached ι) := s.upevent .enread

def handledel (s : Attached ι) : Res (Attached ι × List Effect) := do
  let s ← s.upevent .disallevent
  return ({ s with deleted := true }, [.closecallback])

/-- `handleread(t)`, where `readv` delivers `r` and `message` is `messagecallback_`. -/
def handleread (s : Attached ι) (r : Option Bytes)
    (message : Attached ι → Res (Attached ι × List Effect)) : Res (Attached ι × List Effect) := do
  let (n, b) ← s.inbuffer_.read r
  let s := { s with inbuffer_ := b }
  if n > 0 then message s
  else if n = 0 then s.handledel
  else return (s, [])

def shutdownloop (s : Attached ι) : Attached ι × List Effect :=
  if !s.chan.iswriting then (s, [Socket.shutdown]) else (s, [])

/-- `shutdown()`, called in the thread of the loop. -/
def shutdown (s : Attached ι) : Attached ι × List Effect :=
  if s.state_ = .kconnected then shutdownloop { s with state_ := .kdisconnect } else (s, [])

/-- `shutdown()`, called in another thread: `shutdownloop` is only queued. -/
def shutdownFrom (s : Attached ι) : Attached ι :=
  if s.state_ = .kconnected then { s with state_ := .kdisconnect } else s

/-- `sendinloop(str, len)` with the `len` bytes `str`, where `::write` returns `r` if
it is called. -/
def sendinloop (s : Attached ι) (str : Bytes) (r : Option ℕ) : Res (Attached ι × List Effect) := do
  let direct := !s.chan.iswriting && s.outbuffer_.readsize == 0
  let haswritesize := if direct then sysret r else 0
  let wrote := if direct then [Effect.write (str.take haswritesize.toNat)] else []
  check (haswritesize ≥ 0)
  if haswritesize < str.length then
    let out ← s.outbuffer_.append (str.drop haswritesize.toNat) (str.length - haswritesize)
    let s := { s with outbuffer_ := out }
    let s ← if !s.chan.iswriting then s.upevent .enwrite else pure s
    return (s, wrote)
  else return (s, wrote)

/-- `handlewrite()`, where `::write` returns `r`. -/
def handlewrite (s : Attached ι) (r : Option ℕ) : Res (Attached ι × List Effect) := do
  let (n, out, b) ← s.outbuffer_.write r
  let s := { s with outbuffer_ := b }
  if n ≤ 0 then return (s, [.write out])
  else if b.readsize = 0 then
    let s ← s.upevent .diswrite
    return (s, [.write out])
  else return (s, [.write out])

/-- A message callback that retrieves `k` bytes. -/
def message (k : ℕ) (s : Attached ι) : Res (Attached ι × List Effect) := do
  let b ← s.inbuffer_.retrieve (min k (sizeT s.inbuffer_.readsize))
  return ({ s with inbuffer_ := b }, [])

/-- `Channel::handleEventwithguard` with the events `revents`: a connection sets the read and
the write callback of its channel, and no other. -/
def handleEventwithguard (s : Attached ι) (revents : BitVec 32) (r : Option Bytes) (k : ℕ)
    (w : Option ℕ) : Res (Attached ι) := do
  let s ←
    if revents &&& (POLLIN ||| POLLHUP ||| POLLPRI) ≠ 0#32 then do
      let (s, _) ← s.handleread r (message k)
      pure s
    else pure s
  if revents &&& POLLOUT ≠ 0#32 then do
    let (s, _) ← s.handlewrite w
    return s
  else return s

end Attached

/-! ### Runs -/

/-- What happens to a connection in its loop. A send of another thread is a `sendinloop` of
the loop, its shutdown a `shutdownFrom` and later a `shutdownloop`. -/
inductive AttachedEvent (ι : Type)
  | handleread (r : Option Bytes) (k : ℕ)
  | handlewrite (r : Option ℕ)
  | sendinloop (str : Bytes) (r : Option ℕ)
  | shutdown
  | shutdownFrom
  | shutdownloop
  /-- A call of another channel of the loop, or a return of `epoll_wait`. -/
  | other (e : EpollCall ι)
  deriving DecidableEq, Repr

namespace Attached

variable {ι : Type} [DecidableEq ι]

def step (s : Attached ι) : AttachedEvent ι → Res (Attached ι)
  | .handleread r k => do
    let (s, _) ← s.handleread r (message k)
    return s
  | .handlewrite r => do
    let (s, _) ← s.handlewrite r
    return s
  | .sendinloop str r => do
    let (s, _) ← s.sendinloop str r
    return s
  | .shutdown => return s.shutdown.1
  | .shutdownFrom => return s.shutdownFrom
  | .shutdownloop => return s.shutdownloop.1
  | .other e => do
    let p ← (epollPoller ι).step s.loop_ e
    return { s with loop_ := p }

/-- The events of one dispatch, with the `revents_` of the channel. -/
def dispatch (revents : BitVec 32) (r : Option Bytes) (k : ℕ) (w : Option ℕ) : List (AttachedEvent ι) :=
  (if revents &&& (POLLIN ||| POLLHUP ||| POLLPRI) ≠ 0#32 then [.handleread r k] else []) ++
    if revents &&& POLLOUT ≠ 0#32 then [.handlewrite w] else []

/-- A dispatch is its read and its write event, one after the other. -/
theorem handleEvent_eq (s : Attached ι) (revents : BitVec 32) (r : Option Bytes) (k : ℕ) (w : Option ℕ) :
    s.handleEventwithguard revents r k w = (dispatch revents r k w).foldlM step s := by
  unfold handleEventwithguard dispatch
  by_cases hr : revents &&& (POLLIN ||| POLLHUP ||| POLLPRI) ≠ 0#32
  · rw [if_pos hr, if_pos hr]
    by_cases hw : revents &&& POLLOUT ≠ 0#32
    · rw [if_pos hw]
      simp [step, hw]
    · rw [if_neg hw]
      simp [step, hw]
  · rw [if_neg hr, if_neg hr]
    by_cases hw : revents &&& POLLOUT ≠ 0#32
    · rw [if_pos hw]
      simp [step, hw]
    · rw [if_neg hw]
      simp [hw]

/-- The kernel delivers what fits `readv` and takes at most what it is offered; the other
channels of the loop are other channels. -/
def possible (s : Attached ι) : AttachedEvent ι → Prop
  | .handleread (some d) _ => (d.length : ℤ) ≤ s.inbuffer_.writesize + 1024
  | .handlewrite (some n) => (n : ℤ) ≤ s.outbuffer_.readsize
  | .sendinloop str (some n) => n ≤ str.length
  | .other (.call (.upevent ch c)) => c ≠ s.channel_ ∧ (epollPoller ι).guard s.loop_ (.call (.upevent ch c))
  | .other (.call (.remove c)) => c ≠ s.channel_ ∧ (epollPoller ι).guard s.loop_ (.call (.remove c))
  | .other (.poll ready) => (epollPoller ι).guard s.loop_ (.poll ready)
  | _ => True

instance (s : Attached ι) : (e : AttachedEvent ι) → Decidable (s.possible e)
  | .handleread (some d) _ => inferInstanceAs (Decidable ((d.length : ℤ) ≤ s.inbuffer_.writesize + 1024))
  | .handleread none _ => inferInstanceAs (Decidable True)
  | .handlewrite (some n) => inferInstanceAs (Decidable ((n : ℤ) ≤ s.outbuffer_.readsize))
  | .handlewrite none => inferInstanceAs (Decidable True)
  | .sendinloop str (some n) => inferInstanceAs (Decidable (n ≤ str.length))
  | .sendinloop _ none => inferInstanceAs (Decidable True)
  | .shutdown => inferInstanceAs (Decidable True)
  | .shutdownFrom => inferInstanceAs (Decidable True)
  | .shutdownloop => inferInstanceAs (Decidable True)
  | .other (.call (.upevent ch c)) =>
    inferInstanceAs (Decidable (c ≠ s.channel_ ∧ (epollPoller ι).guard s.loop_ (.call (.upevent ch c))))
  | .other (.call (.remove c)) =>
    inferInstanceAs (Decidable (c ≠ s.channel_ ∧ (epollPoller ι).guard s.loop_ (.call (.remove c))))
  | .other (.poll ready) => inferInstanceAs (Decidable ((epollPoller ι).guard s.loop_ (.poll ready)))

end Attached

/-- A connection in its loop. -/
def attached (ι : Type) [DecidableEq ι] : System (Attached ι) (AttachedEvent ι) Fault where
  guard := Attached.possible
  step := Attached.step

instance {ι : Type} [DecidableEq ι] (s : Attached ι) (e : AttachedEvent ι) :
    Decidable ((attached ι).guard s e) :=
  inferInstanceAs (Decidable (s.possible e))

namespace Attached

open EpollPoller

variable {ι : Type}

/-- The interest list of the loop's poller has an entry with the connection's channel. -/
def Watched (s : Attached ι) : Prop :=
  ∃ fd ev, s.loop_.poller.epollfd_.interest fd = some ev ∧ ev.ptr = s.channel_

theorem watched_iff {fd : ι → ℤ} {s : Attached ι} (h : Good fd s.loop_) :
    s.Watched ↔ s.chan.index_ = kin := by
  constructor
  · rintro ⟨x, ev, hev, hp⟩
    rw [chan, ← hp]
    exact ((h.interest x ev).mp hev).2.1
  · intro hi
    exact ⟨_, ⟨s.chan.events_, s.channel_⟩, (h.interest _ _).mpr ⟨rfl, hi, rfl⟩, rfl⟩

variable [DecidableEq ι] {fd : ι → ℤ} {s t : Attached ι}

/-! ### What a step does to the channel -/

omit [DecidableEq ι] in
@[simp] theorem connected_eq_false : s.connected = false ↔ s.state_ = .kdisconnect := by
  unfold connected
  cases s.state_ <;> decide

/-- What a change of the mask does to the channel of a connection, and to no other. -/
theorem upevent_spec (h : Good fd s.loop_) (hfd : Function.Injective fd) (ch : Change) :
    ∃ p, s.upevent ch = .ok { s with loop_ := p } ∧ Good fd p ∧
      p.channel s.channel_ =
        { ch.apply s.chan with index_ := indexUp s.chan.index_ (ch.mask s.chan.events_) } ∧
      ∀ d, d ≠ s.channel_ → p.channel d = s.loop_.channel d := by
  obtain ⟨p, hp, hgood⟩ := h.upevent hfd ch s.channel_
  refine ⟨p, ?_, hgood, ?_, ?_⟩
  · unfold upevent Poller.call EpollPoller.impl
    dsimp only
    rw [hp, ok_bind, res_pure]
  · rw [upChannel_spec h hfd, Except.ok.injEq, Change.apply_eq] at hp
    rw [← hp, Change.apply_eq]
    exact Function.update_self ..
  · intro d hd
    rw [upChannel_spec h hfd, Except.ok.injEq] at hp
    rw [← hp]
    exact Function.update_of_ne hd ..

/-- The change of the mask that an event leads to. -/
def change (s : Attached ι) : AttachedEvent ι → Option Change
  | .handleread (some []) _ => some .disallevent
  | .handlewrite (some n) => if 0 < n ∧ (n : ℤ) = s.outbuffer_.readsize then some .diswrite else none
  | .sendinloop str r =>
    if (if !s.chan.iswriting && s.outbuffer_.readsize == 0 then sysret r else 0) < str.length ∧
      s.chan.iswriting = false then some .enwrite else none
  | _ => none

/-- `state_` after an event. -/
def nextState (s : Attached ι) : AttachedEvent ι → CONNECT
  | .shutdown | .shutdownFrom => .kdisconnect
  | _ => s.state_

omit [DecidableEq ι] in
theorem nextState_disconnected (h : s.state_ = .kdisconnect) (e : AttachedEvent ι) :
    s.nextState e = .kdisconnect := by
  cases e <;> first | rfl | exact h

omit [DecidableEq ι] in
theorem nextState_of_change {e : AttachedEvent ι} {ch : Change} (h : s.change e = some ch) :
    s.nextState e = s.state_ := by
  cases e <;> first | rfl | cases h

/-- `t` is `s` after a step that changed the mask by `ch`, if by any, and left `state`. -/
structure Moved (fd : ι → ℤ) (s : Attached ι) (ch : Option Change) (state : CONNECT) (t : Attached ι) :
    Prop where
  good : Good fd t.loop_
  channel : t.channel_ = s.channel_
  events : t.chan.events_ = (ch.map (·.mask s.chan.events_)).getD s.chan.events_
  index : t.chan.index_ = (ch.map fun c => indexUp s.chan.index_ (c.mask s.chan.events_)).getD s.chan.index_
  deleted : t.deleted = (s.deleted || ch == some .disallevent)
  state : t.state_ = state

omit [DecidableEq ι] in
/-- A step that does not call the poller. -/
theorem Moved.stay (h : Good fd s.loop_) {state : CONNECT} (hl : t.loop_ = s.loop_)
    (hc : t.channel_ = s.channel_) (hd : t.deleted = s.deleted) (hs : t.state_ = state) :
    Moved fd s none state t := by
  have hchan : t.chan = s.chan := by rw [chan, hl, hc, chan]
  exact ⟨hl ▸ h, hc, by rw [hchan]; rfl, by rw [hchan]; rfl, by rw [hd]; simp, hs⟩

omit [DecidableEq ι] in
/-- What a step does to the channel does not depend on the buffers. -/
theorem Moved.buffers {b b' : Buffer} {ch : Option Change} {state : CONNECT}
    (h : Moved fd { s with inbuffer_ := b, outbuffer_ := b' } ch state t) : Moved fd s ch state t :=
  ⟨h.good, h.channel, h.events, h.index, h.deleted, h.state⟩

theorem upevent_deleted {ch : Change} (ht : s.upevent ch = .ok t) : t.deleted = s.deleted := by
  rw [upevent] at ht
  obtain ⟨p, -, ht⟩ := bind_ok ht
  rw [res_pure, Except.ok.injEq] at ht
  rw [← ht]

/-- A change of the mask, after which `deleted` is set by `disallevent` only. -/
theorem upevent_moved (h : Good fd s.loop_) (hfd : Function.Injective fd) {ch : Change} {b : Bool}
    (hb : b = (s.deleted || some ch == some .disallevent)) (ht : s.upevent ch = .ok t) :
    Moved fd s (some ch) s.state_ { t with deleted := b } := by
  obtain ⟨p, hp, hgood, hchan, -⟩ := upevent_spec h hfd ch
  rw [hp, Except.ok.injEq] at ht
  subst ht
  refine ⟨hgood, rfl, ?_, ?_, hb, rfl⟩
  · show (p.channel s.channel_).events_ = _
    rw [hchan, Change.apply_eq]
    rfl
  · show (p.channel s.channel_).index_ = _
    rw [hchan]
    rfl

theorem handledel_moved (h : Good fd s.loop_) (hfd : Function.Injective fd) {fx : List Effect}
    (ht : s.handledel = .ok (t, fx)) : Moved fd s (some .disallevent) s.state_ t := by
  rw [handledel] at ht
  obtain ⟨u, hu, ht⟩ := bind_ok ht
  rw [res_pure, Except.ok.injEq, Prod.mk.injEq] at ht
  obtain ⟨rfl, -⟩ := ht
  exact upevent_moved h hfd (by simp) hu

/-- A change of the mask by a connection that stays. -/
theorem write_moved (h : Good fd s.loop_) (hfd : Function.Injective fd) {ch : Change}
    (hch : ch ≠ .disallevent) (ht : s.upevent ch = .ok t) : Moved fd s (some ch) s.state_ t := by
  apply upevent_moved h hfd (b := t.deleted) _ ht
  rw [upevent_deleted ht]
  simp [hch]

omit [DecidableEq ι] in
/-- The peer has closed if and only if `readv` returns 0. -/
theorem change_handleread (s : Attached ι) (r : Option Bytes) (k : ℕ) :
    s.change (.handleread r k) = if sysret (r.map (·.length)) = 0 then some .disallevent else none := by
  match r with
  | none => rfl
  | some [] => rfl
  | some (x :: d) => exact (if_neg (Int.natCast_ne_zero.mpr (Nat.succ_ne_zero _))).symm

omit [DecidableEq ι] in
/-- The queue is drained if and only if `::write` takes all of it. -/
theorem change_handlewrite (s : Attached ι) (r : Option ℕ) :
    s.change (.handlewrite r) =
      if 0 < sysret r ∧ sysret r = s.outbuffer_.readsize then some .diswrite else none := by
  match r with
  | none => rfl
  | some n => simp [change, sysret]

/-- A read of nothing disables the channel, and then calls `closecallback_`. -/
theorem handleread_closes (h : Good fd s.loop_) (hfd : Function.Injective fd) {k : ℕ} {fx : List Effect}
    (ht : s.handleread (some []) (message k) = .ok (t, fx)) : ∃ b p,
      t = { s with inbuffer_ := b, loop_ := p, deleted := true } ∧ fx = [.closecallback] ∧ Good fd p ∧
      (p.channel s.channel_).index_ = indexUp s.chan.index_ 0#32 ∧
      ∀ d, d ≠ s.channel_ → p.channel d = s.loop_.channel d := by
  rw [handleread] at ht
  obtain ⟨⟨n, b⟩, hr, ht⟩ := bind_ok ht
  obtain rfl : n = 0 := Buffer.read_ret hr
  obtain ⟨p, hp, hgood, hchan, hother⟩ :=
    upevent_spec (s := { s with inbuffer_ := b }) h hfd .disallevent
  dsimp only at ht
  rw [if_neg (by decide), if_pos rfl, handledel, hp, ok_bind, res_pure, Except.ok.injEq, Prod.mk.injEq] at ht
  exact ⟨b, p, ht.1.symm, ht.2.symm, hgood, congrArg Channel.index_ hchan, hother⟩

theorem handleread_moved (h : Good fd s.loop_) (hfd : Function.Injective fd) {r : Option Bytes} {k : ℕ}
    {fx : List Effect} (ht : s.handleread r (message k) = .ok (t, fx)) :
    Moved fd s (s.change (.handleread r k)) s.state_ t := by
  rw [handleread] at ht
  obtain ⟨⟨n, b⟩, hr, ht⟩ := bind_ok ht
  rw [change_handleread, ← Buffer.read_ret hr]
  dsimp only at ht
  split_ifs at ht with hpos hzero
  · -- the message callback
    rw [message] at ht
    obtain ⟨b', -, ht⟩ := bind_ok ht
    rw [res_pure, Except.ok.injEq, Prod.mk.injEq] at ht
    obtain ⟨rfl, -⟩ := ht
    rw [if_neg (by omega)]
    exact .stay h rfl rfl rfl rfl
  · rw [if_pos hzero]
    exact (handledel_moved (s := { s with inbuffer_ := b }) h hfd ht).buffers
  · rw [res_pure, Except.ok.injEq, Prod.mk.injEq] at ht
    obtain ⟨rfl, -⟩ := ht
    rw [if_neg hzero]
    exact .stay h rfl rfl rfl rfl

theorem sendinloop_moved (h : Good fd s.loop_) (hfd : Function.Injective fd) {str : Bytes} {r : Option ℕ}
    {fx : List Effect} (ht : s.sendinloop str r = .ok (t, fx)) :
    Moved fd s (s.change (.sendinloop str r)) s.state_ t := by
  unfold sendinloop at ht
  unfold change
  dsimp only at ht ⊢
  obtain ⟨-, -, ht⟩ := bind_ok ht
  by_cases hlt : (if (!s.chan.iswriting && s.outbuffer_.readsize == 0) = true then sysret r else 0) <
      (str.length : ℤ)
  · rw [if_pos hlt] at ht
    obtain ⟨out, -, ht⟩ := bind_ok ht
    cases hw : s.chan.iswriting with
    | true =>
      have hw' : ({ s with outbuffer_ := out } : Attached ι).chan.iswriting = true := hw
      rw [hw', if_neg (by decide), res_pure, ok_bind, res_pure, Except.ok.injEq, Prod.mk.injEq] at ht
      obtain ⟨rfl, -⟩ := ht
      rw [if_neg (by simp)]
      exact .stay h rfl rfl rfl rfl
    | false =>
      have hw' : ({ s with outbuffer_ := out } : Attached ι).chan.iswriting = false := hw
      rw [hw', if_pos (by decide)] at ht
      obtain ⟨u, hu, ht⟩ := bind_ok ht
      rw [res_pure, Except.ok.injEq, Prod.mk.injEq] at ht
      obtain ⟨rfl, -⟩ := ht
      rw [hw] at hlt
      rw [if_pos ⟨hlt, rfl⟩]
      exact (write_moved (s := { s with outbuffer_ := out }) h hfd (by decide) hu).buffers
  · rw [if_neg hlt, res_pure, Except.ok.injEq, Prod.mk.injEq] at ht
    obtain ⟨rfl, -⟩ := ht
    rw [if_neg fun hc => hlt hc.1]
    exact .stay h rfl rfl rfl rfl

theorem handlewrite_moved (h : Good fd s.loop_) (hfd : Function.Injective fd) {r : Option ℕ}
    {fx : List Effect} (ht : s.handlewrite r = .ok (t, fx)) :
    Moved fd s (s.change (.handlewrite r)) s.state_ t := by
  rw [handlewrite] at ht
  obtain ⟨⟨n, out, b⟩, hw, ht⟩ := bind_ok ht
  obtain ⟨hn, hb⟩ := Buffer.write_ret hw
  rw [change_handlewrite, ← hn]
  dsimp only at ht
  split_ifs at ht with hle hdrained
  · rw [res_pure, Except.ok.injEq, Prod.mk.injEq] at ht
    obtain ⟨rfl, -⟩ := ht
    rw [if_neg (by omega)]
    exact .stay h rfl rfl rfl rfl
  · obtain ⟨u, hu, ht⟩ := bind_ok ht
    rw [res_pure, Except.ok.injEq, Prod.mk.injEq] at ht
    obtain ⟨rfl, -⟩ := ht
    rw [if_pos (by omega)]
    exact (write_moved (s := { s with outbuffer_ := b }) h hfd (by decide) hu).buffers
  · rw [res_pure, Except.ok.injEq, Prod.mk.injEq] at ht
    obtain ⟨rfl, -⟩ := ht
    rw [if_neg (by omega)]
    exact .stay h rfl rfl rfl rfl

omit [DecidableEq ι] in
theorem shutdownloop_fst (s : Attached ι) : s.shutdownloop.1 = s := by
  unfold shutdownloop
  split_ifs <;> rfl

omit [DecidableEq ι] in
theorem shutdown_fst (s : Attached ι) : s.shutdown.1 = s.shutdownFrom := by
  unfold shutdown shutdownFrom
  split_ifs
  · exact shutdownloop_fst _
  · rfl

omit [DecidableEq ι] in
/-- After a shutdown the connection does not count as connected. -/
theorem shutdownFrom_eq (s : Attached ι) : s.shutdownFrom = { s with state_ := .kdisconnect } := by
  unfold shutdownFrom
  cases hs : s.state_ with
  | kconnected => rw [if_pos rfl]
  | kdisconnect => rw [if_neg (by decide), ← hs]

/-- What any event does to the channel of a connection. -/
theorem step_moved (h : Good fd s.loop_) (hfd : Function.Injective fd) {e : AttachedEvent ι}
    (hg : (attached ι).guard s e) (ht : (attached ι).step s e = .ok t) :
    Moved fd s (s.change e) (s.nextState e) t := by
  cases e with
  | handleread r k =>
    obtain ⟨⟨u, fx⟩, hu, ht⟩ := bind_ok ht
    obtain rfl : u = t := Except.ok.inj ht
    exact handleread_moved h hfd hu
  | handlewrite r =>
    obtain ⟨⟨u, fx⟩, hu, ht⟩ := bind_ok ht
    obtain rfl : u = t := Except.ok.inj ht
    exact handlewrite_moved h hfd hu
  | sendinloop str r =>
    obtain ⟨⟨u, fx⟩, hu, ht⟩ := bind_ok ht
    obtain rfl : u = t := Except.ok.inj ht
    exact sendinloop_moved h hfd hu
  | shutdown =>
    have ht : s.shutdown.1 = t := Except.ok.inj ht
    rw [shutdown_fst, shutdownFrom_eq] at ht
    subst ht
    exact .stay h rfl rfl rfl rfl
  | shutdownFrom =>
    have ht : s.shutdownFrom = t := Except.ok.inj ht
    rw [shutdownFrom_eq] at ht
    subst ht
    exact .stay h rfl rfl rfl rfl
  | shutdownloop =>
    have ht : s.shutdownloop.1 = t := Except.ok.inj ht
    rw [shutdownloop_fst] at ht
    subst ht
    exact .stay h rfl rfl rfl rfl
  | other e =>
    obtain ⟨p, hp, ht⟩ := bind_ok ht
    rw [res_pure, Except.ok.injEq] at ht
    subst ht
    have hge : (epollPoller ι).guard s.loop_ e := by
      match e, hg with
      | .call (.upevent _ _), hg => exact hg.2
      | .call (.remove _), hg => exact hg.2
      | .poll _, hg => exact hg
    obtain ⟨p', hp', hgood⟩ := h.step hfd hge
    rw [hp', Except.ok.injEq] at hp
    subst hp
    obtain ⟨r, hr⟩ := h.step_channel hfd hge (c := s.channel_)
      (fun ch he => by subst he; exact hg.1 rfl) (fun he => by subst he; exact hg.1 rfl) hp'
    refine ⟨hgood, rfl, ?_, ?_, by simp [change], rfl⟩
    · show (p'.channel s.channel_).events_ = _
      rw [hr]
      rfl
    · show (p'.channel s.channel_).index_ = _
      rw [hr]
      rfl

/-! ### The connection without its loop -/

/-- A connection up to the index its poller gave the channel. -/
def unindexed (c : TcpConnect) : TcpConnect := { c with channel_ := { c.channel_ with index_ := 0 } }

/-- Where the poller is good, a change of the mask is just that. -/
theorem upevent_conn (h : Good fd s.loop_) (hfd : Function.Injective fd) (ch : Change) :
    ∃ t, s.upevent ch = .ok t ∧
      unindexed t.conn = unindexed { s.conn with channel_ := ch.apply s.chan } := by
  obtain ⟨p, hp, -, hchan, -⟩ := upevent_spec h hfd ch
  refine ⟨_, hp, ?_⟩
  unfold conn chan
  dsimp only
  rw [hchan]
  rfl

theorem handledel_conn (h : Good fd s.loop_) (hfd : Function.Injective fd) :
    s.handledel.map (fun x => (unindexed x.1.conn, x.2)) =
      .ok (unindexed s.conn.handledel.1, s.conn.handledel.2) := by
  obtain ⟨t, ht, hc⟩ := upevent_conn h hfd .disallevent
  rw [handledel, ht, ok_bind, res_pure]
  exact congrArg (fun c => Except.ok (c, [Effect.closecallback])) hc

theorem handleread_conn (h : Good fd s.loop_) (hfd : Function.Injective fd) (r : Option Bytes) (k : ℕ) :
    (s.handleread r (message k)).map (fun x => (unindexed x.1.conn, x.2)) =
      (s.conn.handleread r (Session.message k)).map (fun x => (unindexed x.1, x.2)) := by
  unfold handleread TcpConnect.handleread
  have hb : s.conn.inbuffer_ = s.inbuffer_ := rfl
  rw [hb]
  cases hr : s.inbuffer_.read r with
  | error e => rfl
  | ok x =>
    obtain ⟨n, b⟩ := x
    dsimp only [ok_bind]
    split_ifs with hpos hzero
    · unfold message Session.message
      dsimp only [conn]
      cases b.retrieve (min k (sizeT b.readsize)) <;> rfl
    · exact handledel_conn (s := { s with inbuffer_ := b }) h hfd
    · rfl

theorem handlewrite_conn (h : Good fd s.loop_) (hfd : Function.Injective fd) (r : Option ℕ) :
    (s.handlewrite r).map (fun x => (unindexed x.1.conn, x.2)) =
      (s.conn.handlewrite r).map (fun x => (unindexed x.1, x.2)) := by
  unfold handlewrite TcpConnect.handlewrite
  have hb : s.conn.outbuffer_ = s.outbuffer_ := rfl
  rw [hb]
  cases hw : s.outbuffer_.write r with
  | error e => rfl
  | ok x =>
    obtain ⟨n, out, b⟩ := x
    dsimp only [ok_bind]
    split_ifs with hle hdrained
    · rfl
    · obtain ⟨t, ht, hc⟩ := upevent_conn (s := { s with outbuffer_ := b }) h hfd .diswrite
      rw [ht, ok_bind, res_pure]
      exact congrArg (fun c => Except.ok (c, [Effect.write out])) hc
    · rfl

theorem sendinloop_conn (h : Good fd s.loop_) (hfd : Function.Injective fd) (str : Bytes) (r : Option ℕ) :
    (s.sendinloop str r).map (fun x => (unindexed x.1.conn, x.2)) =
      (s.conn.sendinloop str r).map (fun x => (unindexed x.1, x.2)) := by
  unfold sendinloop TcpConnect.sendinloop
  have hb : s.conn.outbuffer_ = s.outbuffer_ := rfl
  have hw : s.conn.channel_ = s.chan := rfl
  rw [hb, hw]
  dsimp only
  generalize (if (!s.chan.iswriting && s.outbuffer_.readsize == 0) = true then sysret r else 0) = n
  by_cases hn : n ≥ 0
  · rw [check_pos hn, ok_bind, ok_bind]
    by_cases hlt : n < (str.length : ℤ)
    · rw [if_pos hlt, if_pos hlt]
      cases ha : s.outbuffer_.append (str.drop n.toNat) (str.length - n) with
      | error e => rfl
      | ok out =>
        have hchan : ({ s with outbuffer_ := out } : Attached ι).chan = s.chan := rfl
        rw [ok_bind, ok_bind, hchan]
        cases hwr : s.chan.iswriting with
        | true => rfl
        | false =>
          obtain ⟨t, ht, hc⟩ := upevent_conn (s := { s with outbuffer_ := out }) h hfd .enwrite
          rw [if_pos (by decide), ht, ok_bind, res_pure]
          exact congrArg (fun c => Except.ok (c, _)) hc
    · rw [if_neg hlt, if_neg hlt]
      rfl
  · have hc : check (n ≥ 0) = .error .assertion := if_neg hn
    rw [hc]
    rfl

omit [DecidableEq ι] in
theorem shutdownloop_conn (s : Attached ι) :
    (s.shutdownloop.1.conn, s.shutdownloop.2) = s.conn.shutdownloop := by
  unfold shutdownloop TcpConnect.shutdownloop
  have hw : s.conn.channel_ = s.chan := rfl
  rw [hw]
  by_cases hc : (!s.chan.iswriting) = true
  · rw [if_pos hc, if_pos hc]
  · rw [if_neg hc, if_neg hc]

omit [DecidableEq ι] in
theorem shutdown_conn (s : Attached ι) : (s.shutdown.1.conn, s.shutdown.2) = s.conn.shutdown := by
  unfold shutdown TcpConnect.shutdown
  have hs : s.conn.state_ = s.state_ := rfl
  rw [hs]
  split_ifs with hc
  · exact shutdownloop_conn { s with state_ := .kdisconnect }
  · rfl

/-! ### What keeps a connection closed -/

/-- A step that leaves a connection that is not closed, once `handledel` has been executed. -/
def Closed (s : Attached ι) (e : AttachedEvent ι) : Prop :=
  ∀ t, (attached ι).step s e = .ok t → t.deleted = true → t.connected = false ∧ ¬t.Watched

/-- The peer closes once, after a `shutdown`; from then on no write event drains the queue, and
a send is empty or taken at once. -/
def Quiet (s : Attached ι) : AttachedEvent ι → Prop
  | .handleread r _ => r = some [] → s.deleted = false ∧ s.state_ = .kdisconnect
  | .handlewrite r => s.deleted = true → ∀ n ∈ r, 0 < n → (n : ℤ) ≠ s.outbuffer_.readsize
  | .sendinloop str r => s.deleted = true → str = [] ∨ s.outbuffer_.readsize = 0 ∧ r = some str.length
  | _ => True

/-- The channel of an open connection is watched; that of a closed one is not, and the
connection does not count as connected. -/
structure Calm (fd : ι → ℤ) (s : Attached ι) : Prop where
  good : Good fd s.loop_
  opened : s.deleted = false → s.chan.index_ = kin ∧ (s.chan.events_ = 3#32 ∨ s.chan.events_ = 7#32)
  closed : s.deleted = true → s.chan.index_ = kdel ∧ s.chan.events_ = 0#32 ∧ s.state_ = .kdisconnect

/-- A change other than `disallevent` leaves the channel of an open connection watched. -/
theorem open_mask {ch : Change} (hch : ch ≠ .disallevent) {events : BitVec 32}
    (h : events = 3#32 ∨ events = 7#32) :
    indexUp kin (ch.mask events) = kin ∧ (ch.mask events = 3#32 ∨ ch.mask events = 7#32) := by
  rcases h with rfl | rfl <;> cases ch <;> first | exact absurd rfl hch | decide

/-- In terms of the changes of the mask: where a step leads on, it is quiet if and only if it
changes nothing that is closed, and disables the channel only after a shutdown. -/
theorem quiet_iff_changes (h : Calm fd s) {e : AttachedEvent ι} (hg : (attached ι).guard s e)
    (ht : (attached ι).step s e = .ok t) : Quiet s e ↔
      (s.deleted = true → s.change e = none) ∧
        (s.deleted = false → s.change e = some .disallevent → s.state_ = .kdisconnect) := by
  cases e with
  | handleread r k =>
    rw [change_handleread, Quiet]
    by_cases hr : r = some []
    · subst hr
      cases hd : s.deleted <;> simp [sysret]
    · have hne : sysret (r.map (·.length)) ≠ 0 := by
        cases r with
        | none => decide
        | some d =>
          have hd : d ≠ [] := fun hd => hr (by rw [hd])
          exact Int.natCast_ne_zero.mpr (List.length_pos_of_ne_nil hd).ne'
      simp [hr, hne]
  | handlewrite r =>
    rw [change_handlewrite, Quiet]
    cases r with
    | none => simp [sysret]
    | some n =>
      cases hd : s.deleted <;> simp [sysret]
  | sendinloop str r =>
    cases hd : s.deleted with
    | false =>
      simp only [Quiet, change, hd]
      split_ifs <;> simp
    | true =>
      obtain ⟨-, hev, -⟩ := h.closed hd
      have hw : s.chan.iswriting = false := by rw [Channel.iswriting, hev]; decide
      obtain ⟨⟨u, fx⟩, hu, -⟩ := bind_ok ht
      unfold sendinloop at hu
      dsimp only at hu
      obtain ⟨_, hret, -⟩ := bind_ok hu
      rw [check_ok, hw] at hret
      rw [Quiet, change, hw]
      by_cases h0 : s.outbuffer_.readsize = 0
      · cases r with
        | none => exact absurd hret (by simp [h0, sysret])
        | some n =>
          have hn : n ≤ str.length := hg
          have hle : str = [] ∨ n = str.length ↔ str.length ≤ n := by
            rw [← List.length_eq_zero_iff]
            omega
          simp [h0, hd, sysret, hle]
      · simp [h0, hd]
  | shutdown => simp [Quiet, change]
  | shutdownFrom => simp [Quiet, change]
  | shutdownloop => simp [Quiet, change]
  | other e => simp [Quiet, change]

/-- A quiet step keeps a closed connection closed, and any other does not. -/
theorem closed_iff (h : Calm fd s) (hfd : Function.Injective fd) {e : AttachedEvent ι}
    (hg : (attached ι).guard s e) (ht : (attached ι).step s e = .ok t) : Closed s e ↔ Quiet s e := by
  have hm := step_moved h.good hfd hg ht
  have hc : Closed s e ↔ (t.deleted = true → t.state_ = .kdisconnect ∧ t.chan.index_ ≠ kin) := by
    unfold Closed
    rw [ht]
    simp only [Except.ok.injEq, forall_eq', watched_iff hm.good, connected_eq_false, ne_eq]
  rw [hc, quiet_iff_changes h hg ht, hm.deleted, hm.state, hm.index]
  cases hd : s.deleted with
  | true =>
    obtain ⟨hix, -, hst⟩ := h.closed hd
    rw [nextState_disconnected hst, hix]
    cases hch : s.change e <;> simp [indexUp, kin, kdel]
  | false =>
    obtain ⟨hix, -⟩ := h.opened hd
    rw [hix]
    cases hch : s.change e with
    | none => simp
    | some ch =>
      rw [nextState_of_change hch]
      cases ch <;> simp [indexUp, Change.mask, Channel.kNoEvent, kin, kdel]

theorem Calm.step (h : Calm fd s) (hfd : Function.Injective fd) {e : AttachedEvent ι}
    (hg : (attached ι).guard s e) (hq : Quiet s e) (ht : (attached ι).step s e = .ok t) : Calm fd t := by
  have hm := step_moved h.good hfd hg ht
  obtain ⟨hstay, hleave⟩ := (quiet_iff_changes h hg ht).mp hq
  refine ⟨hm.good, ?_, ?_⟩
  · intro hd
    rw [hm.deleted, Bool.or_eq_false_iff] at hd
    obtain ⟨hix, hev⟩ := h.opened hd.1
    rw [hm.index, hm.events, hix]
    cases hch : s.change e with
    | none => exact ⟨rfl, hev⟩
    | some ch =>
      have hne : ch ≠ .disallevent := by
        rintro rfl
        rw [hch] at hd
        exact absurd hd.2 (by decide)
      exact open_mask hne hev
  · intro hd
    rw [hm.index, hm.events, hm.state]
    cases hds : s.deleted with
    | true =>
      obtain ⟨hix, hev, hst⟩ := h.closed hds
      rw [hstay hds, nextState_disconnected hst]
      exact ⟨hix, hev, rfl⟩
    | false =>
      have hch : s.change e = some .disallevent := by
        rw [hm.deleted, hds] at hd
        simpa using hd
      rw [hch, nextState_of_change hch, (h.opened hds).1]
      refine ⟨?_, rfl, hleave hds hch⟩
      show indexUp kin 0#32 = kdel
      exact if_pos ⟨rfl, rfl⟩

/-- `conestablish` watches a new channel for reads. -/
theorem Calm.start {p : Polled (EpollPoller ι) ι} (hp : Good fd p) (hfd : Function.Injective fd) {me : ι}
    (hnew : p.channel me = Channel.new (fd me)) {cap : ℕ} (hs : (new p me cap).conestablish = .ok s) :
    Calm fd s := by
  obtain ⟨q, hq, hgood, hchan, -⟩ := upevent_spec (s := new p me cap) hp hfd .enread
  rw [conestablish, hq, Except.ok.injEq] at hs
  subst hs
  refine ⟨hgood, ?_, ?_⟩
  · intro _
    unfold chan
    rw [hchan]
    show indexUp (p.channel me).index_ (Change.mask .enread (p.channel me).events_) = kin ∧
      ((Change.enread.apply (p.channel me)).events_ = 3#32 ∨
        (Change.enread.apply (p.channel me)).events_ = 7#32)
    rw [hnew]
    refine ⟨rfl, .inl ?_⟩
    show (0#32 ||| Channel.kreadEvent) = 3#32
    decide
  · intro hd
    cases hd

end Attached

/-- **When a closed connection stays closed.** Along any run of a connection that was
established in a loop with any other channels: once `handledel` has been executed the connection
does not count as connected and its channel is not in the interest list, in every state, if and
only if every event is quiet. -/
theorem stays_closed_iff {ι : Type} [DecidableEq ι] (fd : ι → ℤ) (hfd : Function.Injective fd)
    {pre : List (EpollCall ι)} {p : Polled (EpollPoller ι) ι}
    (hp : (epollPoller ι).Run (.start fd EpollPoller.new) pre p) {me : ι}
    (hnew : p.channel me = Channel.new (fd me)) {cap : ℕ} {s t : Attached ι}
    (hs : (Attached.new p me cap).conestablish = .ok s) {es : List (AttachedEvent ι)}
    (h : (attached ι).Run s es t) :
    (attached ι).Always Attached.Closed s es ↔ (attached ι).Always Attached.Quiet s es := by
  apply System.always_congr (I := Attached.Calm fd) _ _
    (Attached.Calm.start (EpollPoller.Good.run hfd hp) hfd hnew hs) h.always
  · intro s t e hc hg hq ht
    exact hc.step hfd hg.1 hq ht
  · intro s e hc hg
    obtain ⟨t, ht⟩ := hg.2
    exact Attached.closed_iff hc hfd hg.1 ht

instance {ι : Type} [DecidableEq ι] (s : Attached ι) : (e : AttachedEvent ι) → Decidable (s.Quiet e)
  | .handleread r _ => inferInstanceAs (Decidable (r = some [] → s.deleted = false ∧ s.state_ = .kdisconnect))
  | .handlewrite r => inferInstanceAs (Decidable
      (s.deleted = true → ∀ n ∈ r, 0 < n → (n : ℤ) ≠ s.outbuffer_.readsize))
  | .sendinloop str r => inferInstanceAs (Decidable
      (s.deleted = true → str = [] ∨ s.outbuffer_.readsize = 0 ∧ r = some str.length))
  | .shutdown | .shutdownFrom | .shutdownloop | .other _ => inferInstanceAs (Decidable True)

/-- A connection with data both ways, closed by the peer after a shutdown; another channel of its
loop, and a send the socket takes at once, do not disturb it. -/
def quietEvents : List (AttachedEvent Bool) :=
  [.handleread (some (bytes "ab")) 1, .sendinloop (bytes "xyz") (some 1), .handlewrite (some 2),
    .other (.call (.upevent .enwrite false)), .shutdown, .handleread (some []) 0,
    .sendinloop (bytes "q") (some 1), .shutdownloop, .other (.poll [(5, 1#32)])]

theorem stays_closed_iff_quiet : ∃ p s, (epollPoller Bool).Run
      (.start (fun c => if c then 7 else 5) EpollPoller.new) [.call (.upevent .enread false)] p ∧
    (Attached.new p true 4).conestablish = .ok s ∧
    (attached Bool).Always Attached.Closed s quietEvents := by
  have h : ((epollPoller Bool).exec (.start (fun c => if c then 7 else 5) EpollPoller.new)
      [.call (.upevent .enread false)]).map (fun p => decide (p.channel true = Channel.new 7 ∧
        ∃ s ∈ (Attached.new p true 4).conestablish.toOption,
          ((attached Bool).exec s quietEvents).isSome ∧
          (attached Bool).Always Attached.Quiet s quietEvents)) = some true := by decide +kernel
  obtain ⟨p, hp, hv⟩ := (System.exec_map_iff _).mp h
  obtain ⟨hnew, s, hs, ht, hq⟩ := of_decide_eq_true hv
  obtain ⟨t, ht⟩ := Option.isSome_iff_exists.mp ht
  have hs : (Attached.new p true 4).conestablish = .ok s := by
    revert hs
    cases (Attached.new p true 4).conestablish <;> simp [Except.toOption]
  have hfd : Function.Injective fun c : Bool => if c then (7 : ℤ) else 5 := by
    intro a b
    revert a b
    decide
  exact ⟨p, s, hp, hs, (stays_closed_iff _ hfd hp hnew hs ((attached Bool).exec_iff.mp ht)).mpr hq⟩

/-- A connection that the peer closes still counts as connected; one that was shut down before is
watched again as soon as a send has to wait. -/
theorem closed_not_stays :
    (¬∀ (s t : Attached Unit) (es : List (AttachedEvent Unit)),
      (Attached.new (.start (fun _ => 7) EpollPoller.new) () 4).conestablish = .ok s →
      (attached Unit).Run s es t → t.deleted = true → t.connected = false) ∧
    ¬∀ (s t : Attached Unit) (es : List (AttachedEvent Unit)),
      (Attached.new (.start (fun _ => 7) EpollPoller.new) () 4).conestablish = .ok s →
      (attached Unit).Run s es t → t.deleted = true → ¬t.Watched := by
  have hstart : ∃ s, (Attached.new (.start (fun _ => 7) EpollPoller.new) () 4).conestablish = .ok s ∧
      ((attached Unit).exec s [.handleread (some []) 0]).map (fun t => (t.deleted, t.connected)) =
        some (true, true) ∧
      ((attached Unit).exec s [.shutdown, .handleread (some []) 0, .sendinloop (bytes "x") (some 0)]).map
        (fun t => (t.deleted, t.loop_.poller.epollfd_.interest 7)) =
          some (true, some ⟨4#32, ()⟩) := ⟨_, rfl, by decide +kernel, by decide +kernel⟩
  obtain ⟨s, hs, h1, h2⟩ := hstart
  constructor
  · intro hall
    obtain ⟨t, ht, hv⟩ := (System.exec_map_iff _).mp h1
    rw [Prod.mk.injEq] at hv
    exact absurd (hall s t _ hs ht hv.1) (by rw [hv.2]; decide)
  · intro hall
    obtain ⟨t, ht, hv⟩ := (System.exec_map_iff _).mp h2
    rw [Prod.mk.injEq] at hv
    exact hall s t _ hs ht hv.1 ⟨7, _, hv.2, rfl⟩

end MuduoSe
