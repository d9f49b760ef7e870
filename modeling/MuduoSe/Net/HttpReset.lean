/-
# A reset context is a new one

`HttpContext::reset` swaps the request with a new one, field by field, and leaves `body_`
behind. Two parsers that differ only in `body_` and `receiveTime_` (`Alike`) take the same
turns, with the same results, and stay so: nothing reads the old body, `addbody` overwrites
it first. So whatever was parsed before, a context that was reset and a new one cannot be
told apart, on any further calls with any buffers (`reset_trace_eq`).

Key definitions: `HttpRequest.visible`, `Parser.Alike`, `Parser.trace`.
Key theorems: `Parser.turn_alike`, `Parser.parseRequest_alike`, `reset_trace_eq`.
-/
import MuduoSe.Lib.TwoRuns
import MuduoSe.Net.HttpContext

namespace MuduoSe

/-- The request but for its time and its body. -/
def HttpRequest.visible (r : HttpRequest) : HttpRequest := { r with receiveTime_ := default, body_ := [] }

theorem HttpRequest.eq_of_visible {r r' : HttpRequest} (h : r.visible = r'.visible) :
    r' = { r with receiveTime_ := r'.receiveTime_, body_ := r'.body_ } := by
  obtain ⟨m, v, p, q, t, hs, b⟩ := r
  obtain ⟨m', v', p', q', t', hs', b'⟩ := r'
  simp only [visible, HttpRequest.mk.injEq] at h
  obtain ⟨rfl, rfl, rfl, rfl, -, rfl, -⟩ := h
  rfl

namespace Parser

/-- Two parsers that differ in the times and the bodies of their requests at most. -/
structure Alike (p q : Parser) : Prop where
  state : p.context.state_ = q.context.state_
  request : p.context.request_.visible = q.context.request_.visible
  buf : p.buf = q.buf
  uilt : p.uilt = q.uilt

theorem processRequestLine_alike {c d : HttpContext} (hs : c.state_ = d.state_)
    (h : c.request_.visible = d.request_.visible) (line : Bytes) :
    (c.processRequestLine line).1 = (d.processRequestLine line).1 ∧
      (c.processRequestLine line).2.state_ = (d.processRequestLine line).2.state_ ∧
      (c.processRequestLine line).2.request_.visible = (d.processRequestLine line).2.request_.visible := by
  obtain ⟨s, r⟩ := c
  obtain ⟨s', r'⟩ := d
  dsimp only at hs h
  rw [HttpRequest.eq_of_visible h, hs]
  unfold HttpContext.processRequestLine
  split <;> exact ⟨rfl, rfl, rfl⟩

theorem addHeader_alike {r r' : HttpRequest} (h : r.visible = r'.visible) (line : Bytes) :
    (r.addHeader line).1 = (r'.addHeader line).1 ∧
      (r.addHeader line).2.visible = (r'.addHeader line).2.visible := by
  rw [HttpRequest.eq_of_visible h]
  unfold HttpRequest.addHeader
  split <;> exact ⟨rfl, rfl⟩

/-- The old body is overwritten before anything reads it. -/
theorem addbody_alike {r r' : HttpRequest} (h : r.visible = r'.visible) (u : Uilt) (body : Bytes) :
    (r.addbody u body).1.visible = (r'.addbody u body).1.visible ∧
      (r.addbody u body).2 = (r'.addbody u body).2 := by
  rw [HttpRequest.eq_of_visible h]
  unfold HttpRequest.addbody HttpRequest.login
  dsimp only
  split
  · split_ifs <;> exact ⟨rfl, rfl⟩
  · exact ⟨rfl, rfl⟩

theorem method_alike {r r' : HttpRequest} (h : r.visible = r'.visible) : r.method_ = r'.method_ := by
  rw [HttpRequest.eq_of_visible h]

/-- A turn of the loop. -/
theorem turn_alike {p q : Parser} (h : Alike p q) (t : Timestamp) (ok : Bool) :
    TwoRuns (fun x y => x.1 = y.1 ∧ x.2.1 = y.2.1 ∧ Alike x.2.2 y.2.2) (p.turn t ok) (q.turn t ok) := by
  unfold turn
  rw [← h.state, ← h.buf, ← h.uilt]
  cases hs : p.context.state_ with
  | kGotAll => exact .ok ⟨rfl, rfl, h⟩
  | kExpectRequestLine =>
    apply TwoRuns.same_bind
    rintro (_ | crlf)
    · exact .ok ⟨rfl, rfl, h⟩
    apply TwoRuns.same_bind
    intro line
    obtain ⟨h1, h2, h3⟩ := processRequestLine_alike h.state h.request line
    dsimp only
    rw [← h1]
    split_ifs
    · apply TwoRuns.same_bind
      intro b
      exact .ok ⟨rfl, rfl, rfl, h3, rfl, rfl⟩
    · exact .ok ⟨rfl, rfl, h2, h3, rfl, rfl⟩
  | kExpectHeaders =>
    apply TwoRuns.same_bind
    rintro (_ | crlf)
    · exact .ok ⟨rfl, rfl, h⟩
    apply TwoRuns.same_bind
    intro line
    have ha := addHeader_alike h.request line
    revert ha
    generalize p.context.request_.addHeader line = x, q.context.request_.addHeader line = y
    obtain ⟨isHeader, r⟩ := x
    obtain ⟨isHeader', r'⟩ := y
    rintro ⟨rfl, hr⟩
    apply TwoRuns.same_bind
    intro b
    rw [← method_alike hr]
    split_ifs
    · exact .ok ⟨rfl, rfl, rfl, hr, rfl, rfl⟩
    · exact .ok ⟨rfl, rfl, rfl, hr, rfl, rfl⟩
    · exact .ok ⟨rfl, rfl, rfl, hr, rfl, rfl⟩
  | kExpectBody =>
    apply TwoRuns.same_bind
    intro body
    obtain ⟨h1, h2⟩ := addbody_alike h.request p.uilt body
    apply TwoRuns.same_bind
    intro b
    exact .ok ⟨rfl, rfl, rfl, h1, rfl, h2⟩

/-- The loop. -/
theorem parseLoop_alike (t : Timestamp) : ∀ (turns : ℕ) (ok : Bool) {p q : Parser}, Alike p q →
    TwoRuns (fun x y => x.1 = y.1 ∧ Alike x.2 y.2) (parseLoop t turns ok p) (parseLoop t turns ok q)
  | 0, _, _, _, _ => .error Fault.diverges
  | turns + 1, ok, p, q, h => by
    unfold parseLoop
    apply (turn_alike h t ok).bind
    rintro ⟨ok', more, p'⟩ ⟨_, _, q'⟩ ⟨rfl, rfl, h'⟩
    dsimp only
    split_ifs
    · exact parseLoop_alike t turns ok' h'
    · exact .ok ⟨rfl, h'⟩

theorem parseRequest_alike {p q : Parser} (h : Alike p q) (t : Timestamp) :
    TwoRuns (fun x y => x.1 = y.1 ∧ Alike x.2 y.2) (p.parseRequest t) (q.parseRequest t) := by
  unfold parseRequest
  rw [← h.buf]
  exact parseLoop_alike t _ true h

/-! ### Calls -/

/-- What happens before a call of `parseRequest`, and when the call is made: anything may be
done to the buffer. -/
structure Call where
  before : Buffer → Buffer
  receiveTime : Timestamp

/-- What is seen after a call. -/
structure Observed where
  result : Bool
  gotAll : Bool
  method : Method
  version : Version
  path : Bytes
  query : Bytes
  headers : StringMap
  deriving DecidableEq

/-- A call, from what the last one returned. -/
def call (k : Call) (s : Bool × Parser) : Res (Bool × Parser) :=
  parseRequest { s.2 with buf := k.before s.2.buf } k.receiveTime

def observe (s : Bool × Parser) : Observed where
  result := s.1
  gotAll := s.2.context.gotAll
  method := s.2.context.request_.method_
  version := s.2.context.request_.version_
  path := s.2.context.request_.path_
  query := s.2.context.request_.query_
  headers := s.2.context.request_.headers_

end Parser

/-- **A reset context is a new one.** Whatever is in a context, after `reset` every sequence
of calls, on any contents of the buffer, shows what it shows with a new context and the same
accounts. -/
theorem reset_trace_eq (c : HttpContext) (now now' : Timestamp) (buf : Buffer) (u : Uilt)
    (calls : List Parser.Call) :
    trace Parser.call Parser.observe (true, ⟨c.reset now, buf, u⟩) calls =
      trace Parser.call Parser.observe (true, ⟨.new now', buf, u⟩) calls := by
  apply TwoRuns.trace_eq (R := fun x y => x.1 = y.1 ∧ Parser.Alike x.2 y.2)
  · rintro k ⟨_, p⟩ ⟨_, q⟩ ⟨-, h⟩
    apply Parser.parseRequest_alike
    exact ⟨h.state, h.request, by rw [h.buf], h.uilt⟩
  · rintro ⟨r, p⟩ ⟨_, q⟩ ⟨rfl, h⟩
    have hr := HttpRequest.eq_of_visible h.request
    unfold Parser.observe HttpContext.gotAll
    rw [hr, h.state]
  · exact ⟨rfl, rfl, rfl, rfl, rfl⟩

end MuduoSe
