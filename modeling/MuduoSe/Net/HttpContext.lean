/-
# HttpContext: the parser of a connection

`net/HttpContext.h` and `net/HttpContext.cc`. `Parser` is what `parseRequest` works on:
the context, the `Buffer` and the accounts, which `addbody` looks up. `turn` is one
turn of its `while`, `parseLoop` the loop. A turn that leaves `hasMore` set takes a
line, so a loop that runs for more turns than there are unread bytes does not end:
that is the fault `diverges`.

Key definitions: `HttpContext.processRequestLine`, `Parser.turn`, `Parser.parseRequest`.
-/
import MuduoSe.Base.BufferFifo
import MuduoSe.Net.HttpRequest

namespace MuduoSe

inductive HttpRequestParseState
  | kExpectRequestLine
  | kExpectHeaders
  | kExpectBody
  | kGotAll
  deriving DecidableEq, Repr

structure HttpContext where
  state_ : HttpRequestParseState
  request_ : HttpRequest
  deriving DecidableEq

namespace HttpContext

/-- The constructor, at the time `now`. -/
def new (now : Timestamp) : HttpContext := ⟨.kExpectRequestLine, .new now⟩

def gotAll (c : HttpContext) : Bool := c.state_ == .kGotAll

/-- `reset`, at the time `now`. -/
def reset (c : HttpContext) (now : Timestamp) : HttpContext :=
  ⟨.kExpectRequestLine, (c.request_.swap (.new now)).1⟩

/-- `([^ ]*) ([^ ]*) HTTP/([^ ]*)` -/
def patten : List (Regex.Piece Byte) :=
  [.many (· != 32), .lit 32, .many (· != 32), .lit 32] ++ Regex.lits (bytes "HTTP/") ++
    [.many (· != 32)]

def processRequestLine (c : HttpContext) (line : Bytes) : Bool × HttpContext :=
  match Regex.exec patten line with
  | some [m, p, v] => (true, { c with request_ := ((c.request_.setMethod m).2.setVersion v).setPath p })
  | _ => (false, c)

end HttpContext

structure Parser where
  context : HttpContext
  buf : Buffer
  uilt : Uilt
  deriving DecidableEq

namespace Parser

/-- The body of the `while`, with the new `ok` and `hasMore`. -/
def turn (receiveTime : Timestamp) (ok : Bool) (p : Parser) : Res (Bool × Bool × Parser) :=
  match p.context.state_ with
  | .kExpectRequestLine => do
    match ← p.buf.findCRLF with
    | some crlf =>
      let line ← load p.buf.buffer_ p.buf.peek (crlf - p.buf.peek)
      let (ok, c) := p.context.processRequestLine line
      if ok then
        let b ← p.buf.retrieveUntil (crlf + 2)
        return (ok, true, ⟨⟨.kExpectHeaders, c.request_.setReceiveTime receiveTime⟩, b, p.uilt⟩)
      else return (ok, false, { p with context := c })
    | none => return (ok, false, p)
  | .kExpectHeaders => do
    match ← p.buf.findCRLF with
    | some crlf =>
      let line ← load p.buf.buffer_ p.buf.peek (crlf - p.buf.peek)
      let (isHeader, r) := p.context.request_.addHeader line
      let b ← p.buf.retrieveUntil (crlf + 2)
      if isHeader then return (ok, true, ⟨⟨.kExpectHeaders, r⟩, b, p.uilt⟩)
      else if r.method_ = .kPost then return (ok, true, ⟨⟨.kExpectBody, r⟩, b, p.uilt⟩)
      else return (ok, false, ⟨⟨.kGotAll, r⟩, b, p.uilt⟩)
    | none => return (ok, false, p)
  | .kExpectBody => do
    let body ← load p.buf.buffer_ p.buf.peek (p.buf.beginWrite - p.buf.peek)
    let (r, u) := p.context.request_.addbody p.uilt body
    let b ← p.buf.retrieveUntil p.buf.beginWrite
    return (ok, false, ⟨⟨.kGotAll, r⟩, b, u⟩)
  -- No branch of the loop is for this state, and nothing leaves it.
  | .kGotAll => return (ok, true, p)

/-- The `while`, for at most that many turns. -/
def parseLoop (receiveTime : Timestamp) : ℕ → Bool → Parser → Res (Bool × Parser)
  | 0, _, _ => .error .diverges
  | turns + 1, ok, p => do
    let (ok, hasMore, p) ← p.turn receiveTime ok
    if hasMore then parseLoop receiveTime turns ok p else return (ok, p)

/-- `parseRequest(buf, receiveTime)`. -/
def parseRequest (p : Parser) (receiveTime : Timestamp) : Res (Bool × Parser) :=
  parseLoop receiveTime (sizeT p.buf.readsize + 1) true p

end Parser
end MuduoSe
