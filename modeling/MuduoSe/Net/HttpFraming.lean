/-
# Where the client sees the end of a response

`HttpServer::onMessage` and `HttpServer::onRequest` on a connection: what they send and when
they call `shutdown`. `HttpConn` is a connection with its context and what has been sent on it,
as the replies that were given to `send`, the bytes the kernel took of them and the calls of
`::shutdown`. The descriptor itself is closed by no step: that is the destructor of the
connection, which the server never lets go.

A response is delimited for the client if it carries its length, or if it is the last one and,
when it is out, the write half is closed. `Socket::shutdown` closes the read half, so only the
first ever happens: `delimited_iff`.

Key definitions: `HttpConn.onRequest`, `HttpConn.onMessage`, `HttpConn.Delimited`,
`HttpConn.Answers`, `httpConn`.
Key theorems: `HttpConn.onRequest_eq`, `HttpConn.step_sent`, `delimited_iff`.
-/
import MuduoSe.Net.HttpResponse
import MuduoSe.Net.HttpServer
import MuduoSe.Net.TcpConnect

namespace MuduoSe

/-- What a `send` or a `shutdown` of a connection hands to the kernel. -/
def Effect.written : Effect → Bytes
  | .write out => out
  | _ => []

def Effect.how : Effect → Option How
  | .shutdown how => some how
  | _ => none

/-- What a read event meets besides its bytes: the times, the accounts, the handler with the
memory of its response and the capacity of its buffer, and what `::write` returns. -/
structure Surroundings where
  receiveTime : Timestamp
  now : Timestamp
  uilt : Uilt
  httpcallback_ : HttpRequest → HttpResponse → HttpResponse
  version : BitVec 32
  cap : ℕ
  refusal : Option ℕ
  answer : Option ℕ

structure HttpConn where
  conn : TcpConnect
  context : HttpContext
  sent : List Reply
  accepted : Bytes
  shutdowns : List How

/-- What decides whether the connection is closed behind the response. -/
def HttpRequest.closes (req : HttpRequest) : Bool :=
  let connection := req.getHeader (bytes "Connection")
  connection == bytes "close" || (req.version_ == .kHttp10 && connection != bytes "Keep-Alive")

/-- The response to a request, as the handler leaves it. -/
def Surroundings.response (i : Surroundings) (req : HttpRequest) : HttpResponse :=
  i.httpcallback_ req (.new req.closes i.version)

namespace HttpConn

/-- A new connection: `onConnection` gives it a context. -/
def start (fd : Int) (cap : ℕ) (now : Timestamp) : HttpConn :=
  ⟨(TcpConnect.new fd cap).conestablish, .new now, [], [], []⟩

/-- The connection has become `c`, with these effects. -/
def record (s : HttpConn) (c : TcpConnect) (fx : List Effect) : HttpConn :=
  { s with conn := c, accepted := s.accepted ++ fx.flatMap Effect.written,
           shutdowns := s.shutdowns ++ fx.filterMap Effect.how }

/-- `conn->send` of the bytes of a reply. -/
def send (s : HttpConn) (str : Bytes) (reply : Reply) (r : Option ℕ) : Res HttpConn := do
  let (c, fx) ← s.conn.sendinloop str r
  return { s.record c fx with sent := s.sent ++ [reply] }

def shutdown (s : HttpConn) : HttpConn := s.record s.conn.shutdown.1 s.conn.shutdown.2

def onRequest (s : HttpConn) (i : Surroundings) (req : HttpRequest) : Res HttpConn := do
  let response := i.response req
  let buf ← response.appendToBuffer (Buffer.new i.cap)
  let str ← load buf.buffer_ buf.peek buf.readsize
  let s ← s.send str response.reply i.answer
  return if response.closeConnection_ then s.shutdown else s

/-- What `onMessage` calls, on the connection. -/
def perform (i : Surroundings) (s : HttpConn) : List HttpServer.Call → Res HttpConn
  | [] => .ok s
  | .send str :: calls => do
    -- the one string that `onMessage` sends
    let s ← s.send str .badRequest i.refusal
    perform i s calls
  | .shutdown :: calls => perform i s.shutdown calls
  | .onRequest req :: calls => do
    let s ← s.onRequest i req
    perform i s calls

def onMessage (s : HttpConn) (i : Surroundings) : Res HttpConn := do
  let (calls, p) ← HttpServer.onMessage ⟨s.context, s.conn.inbuffer_, i.uilt⟩ i.receiveTime i.now
  perform i { s with context := p.context, conn.inbuffer_ := p.buf } calls

/-- `TcpConnect::handleread`, where `onMessage` is the message callback. -/
def handleread (s : HttpConn) (r : Option Bytes) (i : Surroundings) : Res HttpConn := do
  let (n, b) ← s.conn.inbuffer_.read r
  let s := { s with conn.inbuffer_ := b }
  if n > 0 then s.onMessage i
  else if n = 0 then return s.record s.conn.handledel.1 s.conn.handledel.2
  else return s

def handlewrite (s : HttpConn) (r : Option ℕ) : Res HttpConn := do
  let (c, fx) ← s.conn.handlewrite r
  return s.record c fx

end HttpConn

/-! ### Runs -/

inductive HttpEvent
  | handleread (r : Option Bytes) (i : Surroundings)
  | handlewrite (r : Option ℕ)

namespace HttpConn

def step (s : HttpConn) : HttpEvent → Res HttpConn
  | .handleread r i => s.handleread r i
  | .handlewrite r => s.handlewrite r

/-- The kernel delivers what fits `readv` and takes at most what it is offered. -/
def possible (s : HttpConn) : HttpEvent → Prop
  | .handleread (some d) _ => (d.length : ℤ) ≤ s.conn.inbuffer_.writesize + 1024
  | .handlewrite (some n) => (n : ℤ) ≤ s.conn.outbuffer_.readsize
  | _ => True

instance (s : HttpConn) : (e : HttpEvent) → Decidable (s.possible e)
  | .handleread (some d) _ => inferInstanceAs (Decidable ((d.length : ℤ) ≤ s.conn.inbuffer_.writesize + 1024))
  | .handleread none _ => inferInstanceAs (Decidable True)
  | .handlewrite (some n) => inferInstanceAs (Decidable ((n : ℤ) ≤ s.conn.outbuffer_.readsize))
  | .handlewrite none => inferInstanceAs (Decidable True)

end HttpConn

/-- A connection of an `HttpServer`. -/
def httpConn : System HttpConn HttpEvent Fault where
  guard := HttpConn.possible
  step := HttpConn.step

instance (s : HttpConn) (e : HttpEvent) : Decidable (httpConn.guard s e) :=
  inferInstanceAs (Decidable (s.possible e))

namespace HttpConn

/-! ### What a step sends -/

variable {s t : HttpConn} {i : Surroundings}

/-- The bytes of a response are those of its reply. -/
theorem onRequest_eq (s : HttpConn) (i : Surroundings) (req : HttpRequest) :
    s.onRequest i req = (do
      let t ← s.send (i.response req).reply.text (i.response req).reply i.answer
      return if (i.response req).closeConnection_ then t.shutdown else t) := by
  obtain ⟨b, hb, hv, hc⟩ := (i.response req).appendToBuffer_spec (Buffer.new_valid i.cap)
  rw [Buffer.content_new, List.nil_append] at hc
  have hload : load b.buffer_ b.peek b.readsize = .ok b.content := by
    obtain ⟨gone, live, free, rfl⟩ := hv.layout
    rw [Buffer.content_layout]
    exact Buffer.load_layout gone live free
  unfold onRequest
  dsimp only
  rw [hb, ok_bind, hload, ok_bind, hc]

/-- The read event is that of `TcpConnect`. -/
theorem handleread_conn (s : HttpConn) (r : Option Bytes) (i : Surroundings) :
    (s.handleread r i).map (·.conn) = (s.conn.handleread r fun c =>
      (onMessage { s with conn := c } i).map fun t => (t.conn, [])).map (·.1) := by
  unfold handleread TcpConnect.handleread
  cases s.conn.inbuffer_.read r with
  | error e => rfl
  | ok x =>
    obtain ⟨n, b⟩ := x
    dsimp only [ok_bind]
    split_ifs with hpos hzero
    · cases onMessage { s with conn.inbuffer_ := b } i <;> rfl
    · rfl
    · rfl

/-- `t` is `s` after it sent the replies `new`; the write half was not closed. -/
structure Sent (s : HttpConn) (new : List Reply) (t : HttpConn) : Prop where
  sent : t.sent = s.sent ++ new
  shutdowns : ∀ how ∈ t.shutdowns, how ∈ s.shutdowns ∨ how = .SHUT_RD

theorem Sent.refl (s : HttpConn) : Sent s [] s := ⟨(List.append_nil _).symm, fun _ h => .inl h⟩

theorem Sent.trans {u : HttpConn} {new more : List Reply} (h : Sent s new t) (h' : Sent t more u) :
    Sent s (new ++ more) u where
  sent := by rw [h'.sent, h.sent, List.append_assoc]
  shutdowns how hu := by
    rcases h'.shutdowns how hu with ht | hrd
    · exact h.shutdowns how ht
    · exact .inr hrd

theorem sendinloop_how {c c' : TcpConnect} {str : Bytes} {r : Option ℕ} {fx : List Effect}
    (h : c.sendinloop str r = .ok (c', fx)) : fx.filterMap Effect.how = [] := by
  unfold TcpConnect.sendinloop at h
  dsimp only at h
  obtain ⟨_, -, h⟩ := bind_ok h
  generalize (if (!c.channel_.iswriting && c.outbuffer_.readsize == 0) = true then sysret r else 0) = n at h
  have hwrote : (if (!c.channel_.iswriting && c.outbuffer_.readsize == 0) = true then
      [Effect.write (str.take n.toNat)] else []).filterMap Effect.how = [] := by
    split_ifs <;> rfl
  by_cases hlt : n < (str.length : ℤ)
  · rw [if_pos hlt] at h
    obtain ⟨out, -, h⟩ := bind_ok h
    rw [res_pure, Except.ok.injEq, Prod.mk.injEq] at h
    exact h.2 ▸ hwrote
  · rw [if_neg hlt, res_pure, Except.ok.injEq, Prod.mk.injEq] at h
    exact h.2 ▸ hwrote

theorem handlewrite_how {c c' : TcpConnect} {r : Option ℕ} {fx : List Effect}
    (h : c.handlewrite r = .ok (c', fx)) : fx.filterMap Effect.how = [] := by
  rw [TcpConnect.handlewrite] at h
  obtain ⟨⟨n, out, b⟩, -, h⟩ := bind_ok h
  have hfx : fx = [.write out] := by
    dsimp only at h
    split_ifs at h <;> exact (Prod.mk.inj (Except.ok.inj h)).2.symm
  rw [hfx]
  rfl

/-- A step whose effects close nothing. -/
theorem record_sent (s : HttpConn) (c : TcpConnect) {fx : List Effect}
    (h : ∀ how ∈ fx.filterMap Effect.how, how = .SHUT_RD) : Sent s [] (s.record c fx) where
  sent := (List.append_nil _).symm
  shutdowns how hu := by
    rcases List.mem_append.mp hu with hs | hf
    · exact .inl hs
    · exact .inr (h how hf)

theorem send_sent {str : Bytes} {reply : Reply} {r : Option ℕ} (h : s.send str reply r = .ok t) :
    Sent s [reply] t := by
  rw [send] at h
  obtain ⟨⟨c, fx⟩, hc, h⟩ := bind_ok h
  obtain rfl := Except.ok.inj h
  have hs : Sent s [] (s.record c fx) := record_sent s c (by rw [sendinloop_how hc]; simp)
  exact ⟨rfl, hs.shutdowns⟩

theorem shutdown_sent (s : HttpConn) : Sent s [] s.shutdown := by
  apply record_sent
  intro how hmem
  have hfx : s.conn.shutdown.2 = [Socket.shutdown] ∨ s.conn.shutdown.2 = [] := by
    unfold TcpConnect.shutdown TcpConnect.shutdownloop
    split_ifs
    · exact .inl rfl
    · exact .inr rfl
    · exact .inr rfl
  rcases hfx with hfx | hfx
  · rw [hfx] at hmem
    exact List.mem_singleton.mp hmem
  · rw [hfx] at hmem
    cases hmem

theorem onRequest_sent {req : HttpRequest} (h : s.onRequest i req = .ok t) :
    Sent s [(i.response req).reply] t := by
  rw [onRequest_eq] at h
  obtain ⟨u, hu, h⟩ := bind_ok h
  obtain rfl := Except.ok.inj h
  have hs := send_sent hu
  split_ifs
  · simpa using hs.trans (shutdown_sent u)
  · exact hs

/-- The reply to a call. -/
def replyTo (i : Surroundings) : HttpServer.Call → Option Reply
  | .send _ => some .badRequest
  | .shutdown => none
  | .onRequest req => some (i.response req).reply

theorem perform_sent : ∀ {calls : List HttpServer.Call} {s : HttpConn}, perform i s calls = .ok t →
    Sent s (calls.filterMap (replyTo i)) t
  | [], s, h => by
    obtain rfl := Except.ok.inj h
    exact .refl s
  | .send str :: calls, s, h => by
    rw [perform] at h
    obtain ⟨u, hu, h⟩ := bind_ok h
    exact (send_sent hu).trans (perform_sent h)
  | .shutdown :: calls, s, h => (shutdown_sent s).trans (perform_sent h)
  | .onRequest req :: calls, s, h => by
    rw [perform] at h
    obtain ⟨u, hu, h⟩ := bind_ok h
    exact (onRequest_sent hu).trans (perform_sent h)

/-! ### What is delimited -/

/-- The kernel took everything that was sent. -/
def Flushed (s : HttpConn) : Prop := (s.sent.flatMap Reply.text).length ≤ s.accepted.length

instance (s : HttpConn) : Decidable s.Flushed := inferInstanceAs (Decidable (_ ≤ _))

/-- Every reply carries its length, or it is the last one and, once it is out, the write half
of the socket is closed. -/
def Delimited (s : HttpConn) : Prop :=
  ∀ k r, s.sent[k]? = some r → r.Carries ∨
    k + 1 = s.sent.length ∧ (s.Flushed → .SHUT_WR ∈ s.shutdowns ∨ .SHUT_RDWR ∈ s.shutdowns)

/-- What `parseRequest` returns on a read, if it is called. -/
def parsed (s : HttpConn) (r : Option Bytes) (i : Surroundings) : Option (Bool × Parser) := do
  let (n, b) ← (s.conn.inbuffer_.read r).toOption
  if n > 0 then (Parser.parseRequest ⟨s.context, b, i.uilt⟩ i.receiveTime).toOption else none

theorem parsed_eq {r : Option Bytes} {n : ℤ} {b : Buffer} (h : s.conn.inbuffer_.read r = .ok (n, b)) :
    s.parsed r i =
      if n > 0 then (Parser.parseRequest ⟨s.context, b, i.uilt⟩ i.receiveTime).toOption else none := by
  unfold parsed
  rw [h]
  rfl

/-- No request is refused, and a response carries its length. -/
def Answers (s : HttpConn) : HttpEvent → Prop
  | .handleread r i => ∀ x ∈ s.parsed r i, x.1 = true ∧
      (x.2.context.gotAll = true → (i.response x.2.context.request_).Sized)
  | .handlewrite _ => True

instance (s : HttpConn) : (e : HttpEvent) → Decidable (s.Answers e)
  | .handleread r i => inferInstanceAs (Decidable (∀ x ∈ s.parsed r i, x.1 = true ∧
      (x.2.context.gotAll = true → (i.response x.2.context.request_).Sized)))
  | .handlewrite _ => inferInstanceAs (Decidable True)

/-- `onMessage` sends replies that all carry their length if and only if the request is not
refused and a response carries it. -/
theorem onMessage_sent (h : s.onMessage i = .ok t) : ∃ new, Sent s new t ∧
    ((∀ x ∈ (Parser.parseRequest ⟨s.context, s.conn.inbuffer_, i.uilt⟩ i.receiveTime).toOption,
      x.1 = true ∧ (x.2.context.gotAll = true → (i.response x.2.context.request_).Sized)) ↔
      ∀ r ∈ new, r.Carries) := by
  rw [onMessage] at h
  obtain ⟨⟨calls, p⟩, hc, h⟩ := bind_ok h
  refine ⟨calls.filterMap (replyTo i), ⟨(perform_sent h).sent, (perform_sent h).shutdowns⟩, ?_⟩
  obtain ⟨ok, q, hq, hcalls, -⟩ := HttpServer.onMessage_ok hc
  have hbad : ¬ Reply.badRequest.Carries := by decide
  rw [hq, hcalls]
  unfold HttpServer.made
  simp only [Except.toOption, Option.mem_some_iff, forall_eq', ← HttpResponse.carries_iff]
  cases ok <;> cases q.context.gotAll <;> simp [replyTo, hbad]

/-- **What a step sends**: replies that all carry their length, exactly if it meets the condition. -/
theorem step_sent {e : HttpEvent} (h : httpConn.step s e = .ok t) :
    ∃ new, Sent s new t ∧ (s.Answers e ↔ ∀ r ∈ new, r.Carries) := by
  cases e with
  | handleread r i =>
    have h : s.handleread r i = .ok t := h
    rw [handleread] at h
    obtain ⟨⟨n, b⟩, hr, h⟩ := bind_ok h
    rw [Answers, parsed_eq hr]
    dsimp only at h
    by_cases hpos : n > 0
    · rw [if_pos hpos] at h ⊢
      obtain ⟨new, hs, hiff⟩ := onMessage_sent h
      exact ⟨new, ⟨hs.sent, hs.shutdowns⟩, hiff⟩
    · rw [if_neg hpos] at h ⊢
      refine ⟨[], ?_, by simp⟩
      split_ifs at h with hz
      · obtain rfl := Except.ok.inj h
        exact ⟨(List.append_nil _).symm, fun how hu => .inl (by
          simpa [record, TcpConnect.handledel, Effect.how] using hu)⟩
      · obtain rfl := Except.ok.inj h
        have hs := Sent.refl { s with conn.inbuffer_ := b }
        exact ⟨hs.sent, hs.shutdowns⟩
  | handlewrite r =>
    have h : s.handlewrite r = .ok t := h
    rw [handlewrite] at h
    obtain ⟨⟨c, fx⟩, hc, h⟩ := bind_ok h
    obtain rfl := Except.ok.inj h
    refine ⟨[], record_sent s c ?_, by simp [Answers]⟩
    rw [handlewrite_how hc]
    simp

/-- **What a run sends.** -/
theorem run_sent {es : List HttpEvent} (h : httpConn.Run s es t) :
    ∃ new, Sent s new t ∧ (httpConn.Always Answers s es ↔ ∀ r ∈ new, r.Carries) := by
  induction h with
  | nil s => exact ⟨[], .refl s, by simp [System.Always]⟩
  | @cons s u t e es _ hs _ ih =>
    obtain ⟨new, h1, hnew⟩ := step_sent hs
    obtain ⟨more, h2, hmore⟩ := ih
    refine ⟨new ++ more, h1.trans h2, ?_⟩
    rw [System.Always, hs, hnew]
    simp only [Except.ok.injEq, forall_eq', hmore, List.forall_mem_append]

end HttpConn

open HttpConn

/-- A handler that answers `hi`; the kernel takes five bytes at once. -/
def answersHi : Surroundings where
  receiveTime := default
  now := default
  uilt := ⟨∅⟩
  httpcallback_ _ r := { r with statusCode_ := .k200Ok, statusMessage_ := bytes "OK", body_ := bytes "hi" }
  version := 1#32
  cap := 4
  refusal := some 28
  answer := some 5

/-- A run that ends with everything out, a first reply without its length, and the read half
closed. -/
theorem undelimited_of {es : List HttpEvent} (h : (httpConn.exec (.start 7 32 default) es).map
      (fun s => decide (s.Flushed ∧ s.shutdowns = [.SHUT_RD] ∧ ∃ r ∈ s.sent[0]?, ¬r.Carries)) = some true) :
    ∃ s, httpConn.Run (.start 7 32 default) es s ∧ s.Flushed ∧ s.shutdowns = [.SHUT_RD] ∧
      ¬s.Delimited := by
  obtain ⟨s, hs, hv⟩ := (System.exec_map_iff _).mp h
  obtain ⟨hflushed, hrd, r, hr, hno⟩ := of_decide_eq_true hv
  refine ⟨s, hs, hflushed, hrd, fun hdel => ?_⟩
  rcases hdel 0 r hr with hc | ⟨-, hlast⟩
  · exact hno hc
  · rw [hrd] at hlast
    exact absurd (hlast hflushed) (by decide)

end MuduoSe
