/-
# TcpConnect: a connection and its two buffers

`net/TcpConnect.h` and `net/TcpConnect.cc`, as far as the socket, the buffers, the
channel's mask and `state_` go. What a system call returned is an argument (`none`
is -1); what a function does outside of the object, the calls on the socket and
`closecallback_`, is the list of `Effect`s it returns. Every function here runs in
the thread of its loop, where `runinloop` calls its functor at once.

`Session` is a connection with what has gone through it so far, `Session.step` one
event of a run.

Key definitions: `TcpConnect.handleread`, `TcpConnect.handlewrite`,
`TcpConnect.sendinloop`, `TcpConnect.shutdown`, `conn`, `output`.
-/
import MuduoSe.Base.BufferRead
import MuduoSe.Net.Channel

namespace MuduoSe

inductive CONNECT
  | kconnected
  | kdisconnect
  deriving DecidableEq, Repr

/-- The second argument of `::shutdown`. -/
inductive How
  | SHUT_RD
  | SHUT_WR
  | SHUT_RDWR
  deriving DecidableEq, Repr

/-- What happens outside of a connection. -/
inductive Effect
  /-- `::write` on the socket; the bytes the kernel took. -/
  | write (out : Bytes)
  /-- `::shutdown` on the socket. -/
  | shutdown (how : How)
  | closecallback
  deriving DecidableEq, Repr

/-- `Socket::shutdown`. -/
def Socket.shutdown : Effect := .shutdown .SHUT_RD

structure TcpConnect where
  channel_ : Channel
  inbuffer_ : Buffer
  outbuffer_ : Buffer
  state_ : CONNECT
  deriving DecidableEq, Repr

namespace TcpConnect

/-- The constructor, with the capacity of the two buffers. -/
def new (fd : Int) (cap : ℕ) : TcpConnect := ⟨Channel.new fd, Buffer.new cap, Buffer.new cap, .kconnected⟩

def conestablish (c : TcpConnect) : TcpConnect := { c with channel_ := c.channel_.enread }

def handledel (c : TcpConnect) : TcpConnect × List Effect :=
  ({ c with channel_ := c.channel_.disallevent }, [.closecallback])

/-- `handleread(t)`, where `readv` delivers `r` and `message` is `messagecallback_`. -/
def handleread (c : TcpConnect) (r : Option Bytes)
    (message : TcpConnect → Res (TcpConnect × List Effect)) : Res (TcpConnect × List Effect) := do
  let (n, b) ← c.inbuffer_.read r
  let c := { c with inbuffer_ := b }
  if n > 0 then message c
  else if n = 0 then return c.handledel
  else return (c, [])

def shutdownloop (c : TcpConnect) : TcpConnect × List Effect :=
  if !c.channel_.iswriting then (c, [Socket.shutdown]) else (c, [])

def shutdown (c : TcpConnect) : TcpConnect × List Effect :=
  if c.state_ = .kconnected then shutdownloop { c with state_ := .kdisconnect } else (c, [])

/-- `sendinloop(str, len)` with the `len` bytes `str`, where `::write` returns `r` if
it is called. -/
def sendinloop (c : TcpConnect) (str : Bytes) (r : Option ℕ) : Res (TcpConnect × List Effect) := do
  let direct := !c.channel_.iswriting && c.outbuffer_.readsize == 0
  let haswritesize := if direct then sysret r else 0
  let wrote := if direct then [Effect.write (str.take haswritesize.toNat)] else []
  check (haswritesize ≥ 0)
  if haswritesize < str.length then
    let out ← c.outbuffer_.append (str.drop haswritesize.toNat) (str.length - haswritesize)
    let channel := if !c.channel_.iswriting then c.channel_.enwrite else c.channel_
    return ({ c with outbuffer_ := out, channel_ := channel }, wrote)
  else return (c, wrote)

/-- `handlewrite()`, where `::write` returns `r`. -/
def handlewrite (c : TcpConnect) (r : Option ℕ) : Res (TcpConnect × List Effect) := do
  let (n, out, b) ← c.outbuffer_.write r
  let c := { c with outbuffer_ := b }
  if n ≤ 0 then return (c, [.write out])
  else if b.readsize = 0 then return ({ c with channel_ := c.channel_.diswrite }, [.write out])
  else return (c, [.write out])

end TcpConnect

/-! ### Runs of a connection -/

inductive Event
  /-- The socket is readable: what `readv` delivers, and how many bytes the message
  callback then retrieves (all, if there are fewer). -/
  | handleread (r : Option Bytes) (k : ℕ)
  /-- The socket is writable: what `::write` returns. -/
  | handlewrite (r : Option ℕ)
  /-- A send: what `::write` returns if it is called. -/
  | sendinloop (str : Bytes) (n : ℕ)
  | shutdown
  deriving DecidableEq, Repr

/-- A connection and its history: the bytes `readv` delivered and the callback
retrieved, the bytes given to `sendinloop` and the kernel accepted, and for each
`::shutdown` the bytes that were still unsent. -/
structure Session where
  conn : TcpConnect
  delivered : Bytes
  consumed : Bytes
  queued : Bytes
  accepted : Bytes
  shutdowns : List (How × Bytes)
  deriving DecidableEq, Repr

namespace Session

/-- An open connection before its first event. -/
def start (fd : Int) (cap : ℕ) : Session := ⟨(TcpConnect.new fd cap).conestablish, [], [], [], [], []⟩

/-- What an effect adds to the history of a connection that has become `c`. -/
def record (s : Session) (c : TcpConnect) : List Effect → Session
  | [] => { s with conn := c }
  | .write out :: fx => record { s with accepted := s.accepted ++ out } c fx
  | .shutdown how :: fx => record { s with shutdowns := s.shutdowns ++ [(how, c.outbuffer_.content)] } c fx
  | .closecallback :: fx => record s c fx

/-- A message callback that retrieves `k` bytes. -/
def message (k : ℕ) (c : TcpConnect) : Res (TcpConnect × List Effect) := do
  let b ← c.inbuffer_.retrieve (min k (sizeT c.inbuffer_.readsize))
  return ({ c with inbuffer_ := b }, [])

/-- The bytes the callback sees and retrieves on a read. -/
def retrieved (s : Session) (r : Option Bytes) (k : ℕ) : Bytes :=
  match s.conn.inbuffer_.read r with
  | .ok (n, b) => if n > 0 then b.content.take k else []
  | .error _ => []

def step (s : Session) : Event → Res Session
  | .handleread r k => do
    let (c, fx) ← s.conn.handleread r (message k)
    return record { s with delivered := s.delivered ++ r.getD [],
                           consumed := s.consumed ++ s.retrieved r k } c fx
  | .handlewrite r => do
    let (c, fx) ← s.conn.handlewrite r
    return record s c fx
  | .sendinloop str n => do
    let (c, fx) ← s.conn.sendinloop str (some n)
    return record { s with queued := s.queued ++ str } c fx
  | .shutdown =>
    let (c, fx) := s.conn.shutdown
    return record s c fx

/-- What the kernel can do: deliver what fits the two areas of `readv`, take at most
what it is offered. -/
def possible (s : Session) : Event → Prop
  | .handleread (some d) _ => (d.length : Int) ≤ s.conn.inbuffer_.writesize + 1024
  | .handlewrite (some n) => (n : Int) ≤ s.conn.outbuffer_.readsize
  | .sendinloop str n => n ≤ str.length
  | _ => True

instance (s : Session) : (e : Event) → Decidable (s.possible e)
  | .handleread (some d) _ => inferInstanceAs (Decidable ((d.length : Int) ≤ s.conn.inbuffer_.writesize + 1024))
  | .handleread none _ => inferInstanceAs (Decidable True)
  | .handlewrite (some n) => inferInstanceAs (Decidable ((n : Int) ≤ s.conn.outbuffer_.readsize))
  | .handlewrite none => inferInstanceAs (Decidable True)
  | .sendinloop str n => inferInstanceAs (Decidable (n ≤ str.length))
  | .shutdown => inferInstanceAs (Decidable True)

end Session

/-- Sends, and write events whose `::write` succeeds: no reads, so no `handledel`. -/
def Event.isOutput : Event → Bool
  | .handleread _ _ => false
  | .handlewrite r => r.isSome
  | .sendinloop _ _ => true
  | .shutdown => true

/-- A connection with every event. -/
def conn : System Session Event Fault where
  guard s e := s.possible e
  step := Session.step

/-- The output side of an open connection. -/
def output : System Session Event Fault where
  guard s e := e.isOutput = true ∧ s.possible e
  step := Session.step

instance (s : Session) (e : Event) : Decidable (conn.guard s e) :=
  inferInstanceAs (Decidable (s.possible e))

instance (s : Session) (e : Event) : Decidable (output.guard s e) :=
  inferInstanceAs (Decidable (e.isOutput = true ∧ s.possible e))

end MuduoSe
