/-
# Which request lines are accepted

A request line is one of five methods, a target and one of two versions. `processRequestLine`
takes any three words of which the last starts with `HTTP/`: it drops the verdict of `setMethod`,
`setVersion` has none, and stores an unknown version as `kUnknown`, which is `kHttp10`, and a
word may be empty. So a line is judged wrongly exactly if it is three words of which one is
not what it should be (`OddLine`).

On a connection each call of `onMessage` reads at most one request line. `valid_lines_iff`: all
its lines are judged right, with the 400 reply behind each wrong one, and all its requests have
a method and a version, exactly if none of the lines is odd.

Key definitions: `ValidLine`, `OddLine`, `Parser.lineRead`, `httpLined`.
Key theorems: `accepts_iff`, `Parser.parse_line`, `Parser.judged_iff`, `valid_lines_iff`.
-/
import MuduoSe.Net.HttpFraming

namespace MuduoSe

/-! ### Lines -/

/-- The methods of a request. -/
def methods : List Bytes := [bytes "GET", bytes "POST", bytes "HEAD", bytes "PUT", bytes "DELETE"]

/-- The versions of HTTP that the server speaks. -/
def versions : List Bytes := [bytes "1.0", bytes "1.1"]

/-- A request line, as it should be. -/
def ValidLine (line : Bytes) : Prop :=
  ∃ m ∈ methods, ∃ target, ∃ v ∈ versions, target ≠ [] ∧ 32 ∉ target ∧ line = requestLine m target v

/-- Three words like a request line, but with another method, another version or no target. -/
def OddLine (line : Bytes) : Prop :=
  ∃ m target v, 32 ∉ m ∧ 32 ∉ target ∧ 32 ∉ v ∧ line = requestLine m target v ∧
    (m ∉ methods ∨ target = [] ∨ v ∉ versions)

theorem methods_word : ∀ m ∈ methods, 32 ∉ m := by decide

theorem versions_word : ∀ v ∈ versions, 32 ∉ v := by decide

/-- `setMethod` knows the methods. -/
theorem methodOf_valid (m : Bytes) : HttpRequest.methodOf m ≠ .kInvalid ↔ m ∈ methods := by
  unfold HttpRequest.methodOf methods
  simp only [List.mem_cons, List.not_mem_nil, or_false]
  split_ifs with h1 h2 h3 h4 h5 <;> simp_all

/-- The words of a line are determined by it. -/
theorem requestLine_inj {m m' t t' v v' : Bytes} (hm : 32 ∉ m) (hm' : 32 ∉ m') (ht : 32 ∉ t) (ht' : 32 ∉ t')
    (h : requestLine m t v = requestLine m' t' v') : m = m' ∧ t = t' ∧ v = v' := by
  unfold requestLine at h
  obtain ⟨hmethod, hrest⟩ := Cut.free_inj hm hm' h
  obtain ⟨htarget, hversion⟩ := Cut.free_inj ht ht' hrest
  exact ⟨hmethod, htarget, List.append_cancel_left hversion⟩

theorem ValidLine.not_odd {line : Bytes} (h : ValidLine line) : ¬OddLine line := by
  obtain ⟨m, hm, t, v, hv, hne, ht, rfl⟩ := h
  rintro ⟨m', t', v', hm', ht', -, heq, hodd⟩
  obtain ⟨rfl, rfl, rfl⟩ := requestLine_inj (methods_word m hm) hm' ht ht' heq
  rcases hodd with hodd | hodd | hodd
  · exact hodd hm
  · exact hne hodd
  · exact hodd hv

/-- **The lines that are taken**: the ones that should be, and the odd ones. -/
theorem accepts_iff (c : HttpContext) (line : Bytes) :
    (c.processRequestLine line).1 = true ↔ ValidLine line ∨ OddLine line := by
  constructor
  · intro h
    obtain ⟨m, t, v, hm, ht, hv, rfl, -⟩ :=
      (HttpContext.processRequestLine_iff c (c.processRequestLine line).2 line).mp (Prod.ext h rfl)
    by_cases hodd : m ∉ methods ∨ t = [] ∨ v ∉ versions
    · exact .inr ⟨m, t, v, hm, ht, hv, rfl, hodd⟩
    · rw [not_or, not_or, not_not, not_not] at hodd
      exact .inl ⟨m, hodd.1, t, v, hodd.2.2, hodd.2.1, ht, rfl⟩
  · intro h
    have hwords : ∃ m t v, 32 ∉ m ∧ 32 ∉ t ∧ 32 ∉ v ∧ line = requestLine m t v := by
      rcases h with ⟨m, hm, t, v, hv, -, ht, rfl⟩ | ⟨m, t, v, hm, ht, hv, rfl, -⟩
      · exact ⟨m, t, v, methods_word m hm, ht, versions_word v hv, rfl⟩
      · exact ⟨m, t, v, hm, ht, hv, rfl⟩
    obtain ⟨m, t, v, hm, ht, hv, rfl⟩ := hwords
    rw [c.processRequestLine_line hm ht hv]

/-- So a line is judged right exactly if it is not odd. -/
theorem accepts_valid_iff (c : HttpContext) (line : Bytes) :
    ((c.processRequestLine line).1 = true ↔ ValidLine line) ↔ ¬OddLine line := by
  rw [accepts_iff]
  constructor
  · intro h hodd
    exact (h.mp (.inr hodd)).not_odd hodd
  · intro hodd
    exact or_iff_left hodd

/-! ### One call of the parser -/

namespace Parser

/-- The request line that a call reads, if it reads one. -/
def lineRead (p : Parser) : Option Bytes :=
  if p.context.state_ = .kExpectRequestLine then
    match p.buf.findCRLF with
    | .ok (some crlf) => (load p.buf.buffer_ p.buf.peek (crlf - p.buf.peek)).toOption
    | _ => none
  else none

variable {p q : Parser} {t : Timestamp} {line : Bytes}

theorem lineRead_eq_some (h : p.lineRead = some line) : p.context.state_ = .kExpectRequestLine ∧
    ∃ crlf, p.buf.findCRLF = .ok (some crlf) ∧
      load p.buf.buffer_ p.buf.peek (crlf - p.buf.peek) = .ok line := by
  unfold lineRead at h
  split_ifs at h with hs
  refine ⟨hs, ?_⟩
  split at h
  · rename_i crlf hcrlf
    refine ⟨crlf, hcrlf, ?_⟩
    rcases hl : load p.buf.buffer_ p.buf.peek (crlf - p.buf.peek) with e | l
    · rw [hl] at h
      cases h
    · rw [hl] at h
      rw [Option.some.inj h]
  · cases h

/-- A turn behind the request line leaves the verdict and the method alone. -/
theorem turn_behind {ok ok' more : Bool} (hs : p.context.state_ ≠ .kExpectRequestLine)
    (h : p.turn t ok = .ok (ok', more, q)) :
    ok' = ok ∧ q.context.state_ ≠ .kExpectRequestLine ∧ q.context.request_.method_ = p.context.request_.method_ := by
  unfold turn at h
  split at h
  · exact absurd ‹_› hs
  · obtain ⟨crlf, -, h⟩ := bind_ok h
    rcases crlf with _ | crlf
    · cases h
      exact ⟨rfl, hs, rfl⟩
    · obtain ⟨line, -, h⟩ := bind_ok h
      obtain ⟨b, -, h⟩ := bind_ok h
      have hmethod := HttpRequest.addHeader_method p.context.request_ line
      split_ifs at h
      · cases h
        exact ⟨rfl, HttpRequestParseState.noConfusion, hmethod⟩
      · cases h
        exact ⟨rfl, HttpRequestParseState.noConfusion, hmethod⟩
      · cases h
        exact ⟨rfl, HttpRequestParseState.noConfusion, hmethod⟩
  · obtain ⟨body, -, h⟩ := bind_ok h
    obtain ⟨b, -, h⟩ := bind_ok h
    cases h
    exact ⟨rfl, HttpRequestParseState.noConfusion, HttpRequest.addbody_method _ _ _⟩
  · cases h
    exact ⟨rfl, hs, rfl⟩

theorem parseLoop_behind : ∀ {turns : ℕ} {ok ok' : Bool} {p q : Parser},
    p.context.state_ ≠ .kExpectRequestLine → parseLoop t turns ok p = .ok (ok', q) →
    ok' = ok ∧ q.context.state_ ≠ .kExpectRequestLine ∧ q.context.request_.method_ = p.context.request_.method_
  | 0, _, _, _, _, _, h => by cases h
  | turns + 1, ok, ok', p, q, hs, h => by
    obtain ⟨⟨ok₁, more, p₁⟩, hturn, h⟩ := bind_ok h
    obtain ⟨rfl, hs₁, hm₁⟩ := turn_behind hs hturn
    cases more with
    | false =>
      cases h
      exact ⟨rfl, hs₁, hm₁⟩
    | true =>
      obtain ⟨hok, hsq, hmq⟩ := parseLoop_behind hs₁ h
      exact ⟨hok, hsq, hmq.trans hm₁⟩

/-- A line that is not taken: the call returns false, and reads it again the next time. -/
theorem parse_refused (hl : p.lineRead = some line) (hr : (p.context.processRequestLine line).1 = false) :
    ∃ q, p.parseRequest t = .ok (false, q) ∧ q.context = (p.context.processRequestLine line).2 := by
  obtain ⟨hs, crlf, hcrlf, hload⟩ := lineRead_eq_some hl
  refine ⟨{ p with context := (p.context.processRequestLine line).2 }, ?_, rfl⟩
  rcases hp : p.context.processRequestLine line with ⟨ok, c⟩
  rw [hp] at hr
  obtain rfl : ok = false := hr
  unfold parseRequest parseLoop turn
  rw [hs]
  dsimp only
  rw [hcrlf, ok_bind]
  dsimp only
  rw [hload, ok_bind, hp]
  rfl

/-- A line that is taken gives the request its method, and the call does not return false. -/
theorem parse_taken {ok : Bool} (hl : p.lineRead = some line)
    (hr : (p.context.processRequestLine line).1 = true) (h : p.parseRequest t = .ok (ok, q)) :
    ok = true ∧ q.context.state_ ≠ .kExpectRequestLine ∧
      q.context.request_.method_ = (p.context.processRequestLine line).2.request_.method_ := by
  obtain ⟨hs, crlf, hcrlf, hload⟩ := lineRead_eq_some hl
  rcases hp : p.context.processRequestLine line with ⟨ok', c⟩
  rw [hp] at hr
  obtain rfl : ok' = true := hr
  unfold parseRequest parseLoop turn at h
  rw [hs] at h
  dsimp only at h
  rw [hcrlf, ok_bind] at h
  dsimp only at h
  rw [hload, ok_bind, hp] at h
  dsimp only at h
  rw [if_pos rfl] at h
  obtain ⟨⟨ok₁, more, p₁⟩, hturn, h⟩ := bind_ok h
  obtain ⟨b, -, hturn⟩ := bind_ok hturn
  cases hturn
  exact parseLoop_behind HttpRequestParseState.noConfusion h

/-- Without a line nothing happens. -/
theorem parse_waits {ok : Bool} (hl : p.lineRead = none) (hs : p.context.state_ = .kExpectRequestLine)
    (h : p.parseRequest t = .ok (ok, q)) : ok = true ∧ q.context = p.context := by
  unfold lineRead at hl
  rw [if_pos hs] at hl
  unfold parseRequest parseLoop turn at h
  rw [hs] at h
  dsimp only at h
  obtain ⟨⟨ok₁, more, p₁⟩, hturn, h⟩ := bind_ok h
  obtain ⟨crlf, hcrlf, hturn⟩ := bind_ok hturn
  rw [hcrlf] at hl
  rcases crlf with _ | crlf
  · cases hturn
    cases h
    exact ⟨rfl, rfl⟩
  · obtain ⟨line, hload, -⟩ := bind_ok hturn
    dsimp only at hl
    rw [hload] at hl
    cases hl

end Parser

/-! ### One call of the server -/

/-- The reply to a line that is not taken. -/
def refusal : HttpServer.Call := .send (bytes "HTTP/1.1 400 Bad Request\r\n\r\n")

/-- The request has a method, and its version string in the line it was made from is one of the two. -/
def Known (line : Bytes) (req : HttpRequest) : Prop :=
  req.method_ ≠ .kInvalid ∧
    ∃ m target, 32 ∉ m ∧ 32 ∉ target ∧ ∃ v ∈ versions, line = requestLine m target v

theorem Known.congr {line : Bytes} {req req' : HttpRequest} (h : Known line req)
    (hm : req'.method_ = req.method_) : Known line req' := ⟨hm ▸ h.1, h.2⟩

/-- A line that should be taken gives such a request. -/
theorem ValidLine.known {line : Bytes} (h : ValidLine line) (c : HttpContext) :
    Known line (c.processRequestLine line).2.request_ := by
  obtain ⟨m, hm, target, v, hv, -, ht, rfl⟩ := h
  have hword := methods_word m hm
  refine ⟨?_, m, target, hword, ht, v, hv, rfl⟩
  rw [c.processRequestLine_line hword ht (versions_word v hv)]
  exact (methodOf_valid m).mpr hm

theorem processRequestLine_state (c : HttpContext) (line : Bytes) :
    (c.processRequestLine line).2.state_ = c.state_ := by
  unfold HttpContext.processRequestLine
  split <;> rfl

namespace Parser

/-- The request that is being read, with the line it was made from. -/
def Reading (p : Parser) (last : Bytes) : Prop :=
  p.context.state_ ≠ .kExpectRequestLine → Known last p.context.request_

/-- `onMessage` judges the line it reads, and the request it hands over was made from this line or
from the `last` one before. -/
structure Judged (p : Parser) (last : Bytes) (receiveTime now : Timestamp) : Prop where
  refused : ∀ line ∈ p.lineRead, ¬ValidLine line →
    ∃ calls q, HttpServer.onMessage p receiveTime now = .ok (calls, q) ∧ refusal ∈ calls
  taken : ∀ line ∈ p.lineRead, ValidLine line →
    ∀ {calls q}, HttpServer.onMessage p receiveTime now = .ok (calls, q) → refusal ∉ calls
  served : ∀ {calls q req}, HttpServer.onMessage p receiveTime now = .ok (calls, q) →
    .onRequest req ∈ calls → Known (p.lineRead.getD last) req

variable {p q : Parser} {t now : Timestamp} {last : Bytes}

/-- **A call that reads no odd line** returns false at a wrong one only, and reads a known request. -/
theorem parse_line {ok : Bool} (hp : p.Reading last) (hl : ∀ line ∈ p.lineRead, ¬OddLine line)
    (h : p.parseRequest t = .ok (ok, q)) :
    q.Reading (p.lineRead.getD last) ∧ (ok = false ↔ ∃ line ∈ p.lineRead, ¬ValidLine line) := by
  rcases hline : p.lineRead with _ | line
  · by_cases hs : p.context.state_ = .kExpectRequestLine
    · obtain ⟨rfl, hc⟩ := parse_waits hline hs h
      exact ⟨fun hq => absurd (hc ▸ hs) hq, by simp⟩
    · obtain ⟨rfl, -, hmethod⟩ := parseLoop_behind hs h
      exact ⟨fun _ => (hp hs).congr hmethod, by simp⟩
  · have hodd := hl line hline
    have hvalid := (accepts_valid_iff p.context line).mpr hodd
    cases hr : (p.context.processRequestLine line).1 with
    | false =>
      obtain ⟨q', hq', hc⟩ := parse_refused (t := t) hline hr
      rw [h, Except.ok.injEq, Prod.mk.injEq] at hq'
      obtain ⟨rfl, rfl⟩ := hq'
      have hno : ¬ValidLine line := fun hv => by
        rw [hvalid.mpr hv] at hr
        cases hr
      refine ⟨fun hq => ?_, by simpa using hno⟩
      rw [hc, processRequestLine_state] at hq
      exact absurd (lineRead_eq_some hline).1 hq
    | true =>
      obtain ⟨rfl, -, hmethod⟩ := parse_taken hline hr h
      have hv := hvalid.mp hr
      exact ⟨fun _ => (hv.known p.context).congr hmethod, by simpa using hv⟩

/-- **A call judges right exactly if it reads no odd line.** -/
theorem judged_iff (hp : p.Reading last) : p.Judged last t now ↔ ∀ line ∈ p.lineRead, ¬OddLine line := by
  constructor
  · intro h line hl hodd
    obtain ⟨calls, q, hcall, hmem⟩ := h.refused line hl fun hv => hv.not_odd hodd
    obtain ⟨ok, p', hparse, rfl, -⟩ := HttpServer.onMessage_ok hcall
    obtain ⟨rfl, -⟩ := parse_taken hl ((accepts_iff _ _).mpr (.inr hodd)) hparse
    cases HttpServer.mem_made_send.mp hmem
  · intro hl
    refine ⟨fun line hline hno => ?_, fun line hline hv calls q hcall hmem => ?_, fun hcall hmem => ?_⟩
    · have hr : (p.context.processRequestLine line).1 = false :=
        Bool.eq_false_iff.mpr fun hr => hno (((accepts_valid_iff _ _).mpr (hl line hline)).mp hr)
      obtain ⟨q, hq, -⟩ := parse_refused (t := t) hline hr
      exact ⟨_, _, HttpServer.onMessage_eq hq, HttpServer.mem_made_send.mpr rfl⟩
    · obtain ⟨ok, p', hparse, rfl, -⟩ := HttpServer.onMessage_ok hcall
      obtain ⟨line', hline', hno⟩ := (parse_line hp hl hparse).2.mp (HttpServer.mem_made_send.mp hmem)
      obtain rfl := Option.mem_unique hline hline'
      exact hno hv
    · obtain ⟨ok, p', hparse, rfl, -⟩ := HttpServer.onMessage_ok hcall
      obtain ⟨hgot, rfl⟩ := HttpServer.mem_made_onRequest.mp hmem
      apply (parse_line hp hl hparse).1
      intro hs
      rw [HttpContext.gotAll, hs] at hgot
      cases hgot

/-- Behind it the next one goes on. -/
theorem Reading.onMessage (hp : p.Reading last) (hl : ∀ line ∈ p.lineRead, ¬OddLine line)
    {calls : List HttpServer.Call} (h : HttpServer.onMessage p t now = .ok (calls, q)) :
    q.Reading (p.lineRead.getD last) := by
  obtain ⟨ok, p', hparse, -, rfl⟩ := HttpServer.onMessage_ok h
  split_ifs
  · intro hs
    exact absurd rfl hs
  · exact (parse_line hp hl hparse).1

end Parser

/-! ### Runs -/

/-- A connection, with the request line that was read last. -/
structure HttpLined where
  conn : HttpConn
  line : Bytes

namespace HttpConn

/-- What `onMessage` works on in an event that calls it. -/
def message (s : HttpConn) : HttpEvent → Option Parser
  | .handleread r i => do
    let (n, b) ← (s.conn.inbuffer_.read r).toOption
    if n > 0 then some ⟨s.context, b, i.uilt⟩ else none
  | .handlewrite _ => none

variable {s t : HttpConn} {i : Surroundings}

theorem send_context {str : Bytes} {reply : Reply} {r : Option ℕ} (h : s.send str reply r = .ok t) :
    t.context = s.context := by
  rw [send] at h
  obtain ⟨⟨c, fx⟩, -, h⟩ := bind_ok h
  cases h
  rfl

theorem onRequest_context {req : HttpRequest} (h : s.onRequest i req = .ok t) : t.context = s.context := by
  rw [onRequest_eq] at h
  obtain ⟨u, hu, h⟩ := bind_ok h
  obtain rfl := Except.ok.inj h
  have hcontext := send_context hu
  split_ifs
  · exact hcontext
  · exact hcontext

/-- What `onMessage` calls leaves the context alone. -/
theorem perform_context : ∀ {calls : List HttpServer.Call} {s : HttpConn}, perform i s calls = .ok t →
    t.context = s.context
  | [], s, h => by
    obtain rfl := Except.ok.inj h
    rfl
  | .send str :: calls, s, h => by
    rw [perform] at h
    obtain ⟨u, hu, h⟩ := bind_ok h
    exact (perform_context h).trans (send_context hu)
  | .shutdown :: calls, s, h => perform_context (s := s.shutdown) h
  | .onRequest req :: calls, s, h => by
    rw [perform] at h
    obtain ⟨u, hu, h⟩ := bind_ok h
    exact (perform_context h).trans (onRequest_context hu)

/-- The context behind an event: that of `onMessage`, if it is called. -/
theorem step_context {e : HttpEvent} (h : httpConn.step s e = .ok t) :
    match s.message e with
    | some p => ∃ calls q receiveTime now, HttpServer.onMessage p receiveTime now = .ok (calls, q) ∧
        t.context = q.context
    | none => t.context = s.context := by
  cases e with
  | handleread r i =>
    have h : s.handleread r i = .ok t := h
    rw [handleread] at h
    obtain ⟨⟨n, b⟩, hr, h⟩ := bind_ok h
    have hmessage : s.message (.handleread r i) = if n > 0 then some ⟨s.context, b, i.uilt⟩ else none := by
      dsimp only [message]
      rw [hr]
      rfl
    rw [hmessage]
    dsimp only at h
    split_ifs at h ⊢ with hpos hzero
    · obtain ⟨⟨calls, q⟩, hcall, h⟩ := bind_ok h
      exact ⟨calls, q, _, _, hcall, perform_context h⟩
    · obtain rfl := Except.ok.inj h
      rfl
    · obtain rfl := Except.ok.inj h
      rfl
  | handlewrite r =>
    have h : s.handlewrite r = .ok t := h
    rw [handlewrite] at h
    obtain ⟨⟨c, fx⟩, -, h⟩ := bind_ok h
    obtain rfl := Except.ok.inj h
    rfl

end HttpConn

/-- A connection of an `HttpServer`, watched for its request lines. -/
def httpLined : System HttpLined HttpEvent Fault where
  guard s e := httpConn.guard s.conn e
  step s e := do
    let t ← httpConn.step s.conn e
    return ⟨t, ((s.conn.message e).bind Parser.lineRead).getD s.line⟩

namespace HttpLined

/-- A new connection. -/
def start (fd : Int) (cap : ℕ) (now : Timestamp) : HttpLined := ⟨.start fd cap now, []⟩

/-- The times of a call. -/
def times : HttpEvent → Timestamp × Timestamp
  | .handleread _ i => (i.receiveTime, i.now)
  | .handlewrite _ => (default, default)

/-- The call of `onMessage` in an event judges right. -/
def Judges (s : HttpLined) (e : HttpEvent) : Prop :=
  ∀ p ∈ s.conn.message e, p.Judged s.line (times e).1 (times e).2

/-- It reads no odd line. -/
def Plain (s : HttpLined) (e : HttpEvent) : Prop :=
  ∀ p ∈ s.conn.message e, ∀ line ∈ p.lineRead, ¬OddLine line

/-- The request that is being read was made from a line with a method and a version. -/
def Reads (s : HttpLined) : Prop :=
  s.conn.context.state_ ≠ .kExpectRequestLine → Known s.line s.conn.context.request_

variable {s t : HttpLined} {e : HttpEvent}

/-- In an event the request is that of the parser. -/
theorem Reads.message (h : s.Reads) {p : Parser} (hp : s.conn.message e = some p) : p.Reading s.line := by
  have hcontext : p.context = s.conn.context := by
    cases e with
    | handleread r i =>
      obtain ⟨⟨n, b⟩, -, hp⟩ := Option.bind_eq_some_iff.mp hp
      dsimp only at hp
      split_ifs at hp
      exact congrArg Parser.context (Option.some.inj hp).symm
    | handlewrite r => cases hp
  unfold Parser.Reading
  rw [hcontext]
  exact h

/-- An event judges right exactly if it reads no odd line. -/
theorem Reads.judges_iff (h : s.Reads) : s.Judges e ↔ s.Plain e := by
  constructor
  · intro hj p hp
    exact (Parser.judged_iff (h.message hp)).mp (hj p hp)
  · intro he p hp
    exact (Parser.judged_iff (h.message hp)).mpr (he p hp)

/-- And then the next one goes on. -/
theorem Reads.step (h : s.Reads) (he : s.Plain e) (hs : httpLined.step s e = .ok t) : t.Reads := by
  obtain ⟨c, hc, hs⟩ := bind_ok hs
  obtain rfl := Except.ok.inj hs
  have hcontext := HttpConn.step_context hc
  unfold Reads
  dsimp only
  rcases hmessage : s.conn.message e with _ | p
  · rw [hmessage] at hcontext
    dsimp only at hcontext
    rw [hcontext]
    exact h
  · rw [hmessage] at hcontext
    obtain ⟨calls, q, receiveTime, now, hcall, hcontext⟩ := hcontext
    rw [hcontext]
    exact (h.message hmessage).onMessage (he p hmessage) hcall

end HttpLined

/-- **When only valid request lines are accepted.** A line is judged right exactly if it is not odd;
and along any events on a connection, every line is judged right, every wrong one is answered with
the 400 reply, and every request that is handed over has a method and one of the two versions,
exactly if none of the lines is odd. -/
theorem valid_lines_iff (fd : Int) (cap : ℕ) (now : Timestamp) (es : List HttpEvent) :
    (∀ (c : HttpContext) (line : Bytes),
      ((c.processRequestLine line).1 = true ↔ ValidLine line) ↔ ¬OddLine line) ∧
    (httpLined.Always HttpLined.Judges (.start fd cap now) es ↔
      httpLined.Always HttpLined.Plain (.start fd cap now) es) := by
  refine ⟨accepts_valid_iff, ?_⟩
  apply System.always_congr (I := HttpLined.Reads) (G := fun _ _ => True) _ _ _ (System.always_of_forall _ es _)
  · intro s t e hs _ he ht
    exact hs.step he ht
  · intro s e hs _
    exact hs.judges_iff
  · intro hs
    exact absurd rfl hs
  · exact fun _ _ => trivial

/-- A line with no method that is known, no target and no version is taken, and its request is
handed over. -/
theorem odd_line_served :
    (¬∀ (c : HttpContext) (line : Bytes), (c.processRequestLine line).1 = true ↔ ValidLine line) ∧
    ¬∀ es, httpLined.Always HttpLined.Judges (.start 7 64 default) es := by
  have hodd : OddLine (bytes "FOO  HTTP/7") :=
    ⟨bytes "FOO", [], bytes "7", by decide, by decide, by decide, by decide, .inr (.inl rfl)⟩
  constructor
  · intro h
    exact (accepts_valid_iff (.new default) _).mp (h _ _) hodd
  · intro h
    have hread : ((HttpLined.start 7 64 default).conn.message
        (.handleread (some (bytes "FOO  HTTP/7\r\n\r\n")) answersHi)).bind Parser.lineRead =
        some (bytes "FOO  HTTP/7") := by
      decide +kernel
    obtain ⟨p, hp, hline⟩ := Option.bind_eq_some_iff.mp hread
    have hstart : (HttpLined.start 7 64 default).Reads := fun hs => absurd rfl hs
    have hjudges := (h [.handleread (some (bytes "FOO  HTTP/7\r\n\r\n")) answersHi]).1
    exact hstart.judges_iff.mp hjudges p hp _ hline hodd

end MuduoSe
