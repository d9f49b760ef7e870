/-
# HttpServer: a message is parsed and answered

`net/HttpServer.cc`, `onMessage`. What it does outside of the context and the `Buffer` is
the list of `Call`s it makes: on the connection, and of `onRequest`, which gets the
request by reference and writes the response. Neither touches the `Buffer`, and the
handler is taken to leave the request as it is.

`serve` is a connection that gets its bytes in chunks, each followed by one call.

Key definitions: `HttpServer.onMessage`, `HttpServer.receive`, `HttpServer.serve`.
-/
import MuduoSe.Net.HttpSplit

namespace MuduoSe
namespace HttpServer

/-- What `onMessage` calls. -/
inductive Call
  | send (str : Bytes)
  | shutdown
  | onRequest (req : HttpRequest)
  deriving DecidableEq

/-- `onMessage(conn, buf, receiveTime)`; the new request of `reset` is made at `now`. -/
def onMessage (p : Parser) (receiveTime now : Timestamp) : Res (List Call × Parser) := do
  let (ok, p) ← p.parseRequest receiveTime
  let refused := if !ok then [.send (bytes "HTTP/1.1 400 Bad Request\r\n\r\n"), .shutdown] else []
  if p.context.gotAll then
    return (refused ++ [.onRequest p.context.request_], { p with context := p.context.reset now })
  else return (refused, p)

/-- What is called after `parseRequest` returned `ok` and left `p`. -/
def made (ok : Bool) (p : Parser) : List Call :=
  (if !ok then [.send (bytes "HTTP/1.1 400 Bad Request\r\n\r\n"), .shutdown] else []) ++
    if p.context.gotAll then [.onRequest p.context.request_] else []

theorem onMessage_eq {p p' : Parser} {receiveTime now : Timestamp} {ok : Bool}
    (h : p.parseRequest receiveTime = .ok (ok, p')) : onMessage p receiveTime now = .ok (made ok p',
      if p'.context.gotAll then { p' with context := p'.context.reset now } else p') := by
  rw [onMessage, h, ok_bind]
  unfold made
  dsimp only
  by_cases hg : p'.context.gotAll = true
  · rw [if_pos hg, if_pos hg, if_pos hg]
    rfl
  · rw [if_neg hg, if_neg hg, if_neg hg, List.append_nil]
    rfl

theorem onMessage_ok {p q : Parser} {receiveTime now : Timestamp} {calls : List Call}
    (h : onMessage p receiveTime now = .ok (calls, q)) : ∃ ok p', p.parseRequest receiveTime = .ok (ok, p') ∧
      calls = made ok p' ∧ q = if p'.context.gotAll then { p' with context := p'.context.reset now } else p' := by
  obtain ⟨⟨ok, p'⟩, hp', -⟩ := bind_ok h
  rw [onMessage_eq hp', Except.ok.injEq, Prod.mk.injEq] at h
  exact ⟨ok, p', hp', h.1.symm, h.2.symm⟩

theorem mem_made_send {ok : Bool} {p : Parser} :
    .send (bytes "HTTP/1.1 400 Bad Request\r\n\r\n") ∈ made ok p ↔ ok = false := by
  unfold made
  cases ok <;> cases p.context.gotAll <;> simp

theorem mem_made_onRequest {ok : Bool} {p : Parser} {req : HttpRequest} :
    .onRequest req ∈ made ok p ↔ p.context.gotAll = true ∧ req = p.context.request_ := by
  unfold made
  cases ok <;> cases p.context.gotAll <;> simp

/-- A chunk is appended and followed by one `onMessage`; the second time is that of its `reset`. -/
def receive (p : Parser) (c : Chunk × Timestamp) : Res (List Call × Parser) := do
  let p ← p.append c.1.1
  onMessage p c.1.2 c.2

/-- All that is called for some chunks. -/
def serve : List (Chunk × Timestamp) → Parser → Res (List Call × Parser)
  | [], p => .ok ([], p)
  | c :: cs, p => do
    let (calls, p) ← receive p c
    let (more, p) ← serve cs p
    return (calls ++ more, p)

/-- The requests that `onRequest` was called with, but for their times. -/
def requests (calls : List Call) : List HttpRequest :=
  calls.filterMap fun
    | .onRequest req => some req.untimed
    | _ => none

end HttpServer
end MuduoSe
