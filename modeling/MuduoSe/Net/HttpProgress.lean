/-
# The parse loop makes progress

The `while` of `parseRequest` has a branch for three of the four states. In these a turn that goes on
has taken a line off the front of the buffer, so the loop ends; a call that fails does so in its first
turn, and has changed nothing. In `kGotAll` the loop does not end. `onMessage` never enters it there:
where a call leaves `kGotAll`, it resets the context before it returns.

Key definitions: `MessageCall`, `messages`.
Key theorems: `Parser.turn_progress`, `Parser.parseLoop_progress`, `Parser.parseLoop_stuck`,
`HttpConn.run_open`, `messages_open`, `parse_progresses`.
-/
import MuduoSe.Net.HttpRequestLine

namespace MuduoSe

/-- What is behind a line is shorter. -/
theorem Buffer.behind_line {s line rest : Bytes} (hc : Cut.cut kCRLF s = some (line, rest)) :
    rest <:+ s ∧ rest.length < s.length := by
  refine ⟨?_, Cut.cut_lt hc (by decide)⟩
  obtain ⟨k, -, he⟩ := Option.map_eq_some_iff.mp hc
  obtain ⟨-, rfl⟩ := Prod.mk.inj he
  exact List.drop_suffix _ _

namespace Parser

variable {p q : Parser} {t : Timestamp} {ok : Bool} {turns : ℕ}

/-! ### One turn -/

/-- **A turn takes bytes off the front, and if it goes on, at least one.** -/
theorem turn_progress (hv : p.buf.Valid) (hs : p.context.state_ ≠ .kGotAll) (ok : Bool) :
    ∃ ok' more q, p.turn t ok = .ok (ok', more, q) ∧ q.buf.Valid ∧ q.buf.content <:+ p.buf.content ∧
      (more = true → q.buf.content.length < p.buf.content.length ∧ q.context.state_ ≠ .kGotAll) := by
  by_cases hbody : p.context.state_ = .kExpectBody
  · obtain ⟨b, hb, hnil, hturn⟩ := turn_body (t := t) ok hv hbody
    refine ⟨_, _, _, hturn, hb, ?_, fun h => absurd h Bool.false_ne_true⟩
    dsimp only
    rw [hnil]
    exact List.nil_suffix
  have hst : p.context.state_ = .kExpectRequestLine ∨ p.context.state_ = .kExpectHeaders := by
    revert hbody hs
    cases p.context.state_ <;> simp
  rcases hc : Cut.cut Buffer.kCRLF p.buf.content with _ | ⟨line, rest⟩
  · exact ⟨_, _, _, turn_wait ok hv hc hst, hv, List.suffix_rfl, fun h => absurd h Bool.false_ne_true⟩
  obtain ⟨hsuffix, hlt⟩ := Buffer.behind_line hc
  rcases hst with hst | hst
  · rcases hp : p.context.processRequestLine line with ⟨_ | _, c⟩
    · exact ⟨_, _, _, turn_refused ok hv hst hc hp, hv, List.suffix_rfl, fun h => absurd h Bool.false_ne_true⟩
    · obtain ⟨b, hb, rfl, hturn⟩ := turn_line (t := t) ok hv hst hc hp
      exact ⟨_, _, _, hturn, hb, hsuffix, fun _ => ⟨hlt, HttpRequestParseState.noConfusion⟩⟩
  · rcases ha : p.context.request_.addHeader line with ⟨_ | _, r⟩
    · obtain ⟨b, hb, rfl, hturn⟩ := turn_end (t := t) ok hv hst hc ha
      split_ifs at hturn
      · exact ⟨_, _, _, hturn, hb, hsuffix, fun _ => ⟨hlt, HttpRequestParseState.noConfusion⟩⟩
      · exact ⟨_, _, _, hturn, hb, hsuffix, fun h => absurd h Bool.false_ne_true⟩
    · obtain ⟨b, hb, rfl, hturn⟩ := turn_field (t := t) ok hv hst hc ha
      exact ⟨_, _, _, hturn, hb, hsuffix, fun _ => ⟨hlt, HttpRequestParseState.noConfusion⟩⟩

/-- The first turn fails, and changes nothing, or it has read the request line. -/
theorem turn_first {ok' more : Bool} (hs : p.context.state_ = .kExpectRequestLine)
    (h : p.turn t true = .ok (ok', more, q)) :
    more = false ∧ (ok' = false → q = p) ∨ ok' = true ∧ q.context.state_ ≠ .kExpectRequestLine := by
  unfold turn at h
  rw [hs] at h
  dsimp only at h
  obtain ⟨_ | crlf, -, h⟩ := bind_ok h
  · cases h
    exact .inl ⟨rfl, fun _ => rfl⟩
  obtain ⟨line, -, h⟩ := bind_ok h
  rcases hp : p.context.processRequestLine line with ⟨_ | _, c⟩
  · rw [hp] at h
    obtain rfl := HttpContext.processRequestLine_false hp
    cases h
    exact .inl ⟨rfl, fun _ => rfl⟩
  · rw [hp] at h
    obtain ⟨b, -, h⟩ := bind_ok h
    cases h
    exact .inr ⟨rfl, HttpRequestParseState.noConfusion⟩

/-! ### The loop -/

/-- **The loop ends**, after at most as many turns as there are unread bytes and one. -/
theorem parseLoop_progress : ∀ {turns : ℕ} {p : Parser} (ok : Bool), p.buf.Valid → p.context.state_ ≠ .kGotAll →
    p.buf.content.length < turns →
    ∃ ok' q, parseLoop t turns ok p = .ok (ok', q) ∧ q.buf.Valid ∧ q.buf.content <:+ p.buf.content
  | 0, _, _, _, _, hlen => absurd hlen (Nat.not_lt_zero _)
  | turns + 1, p, ok, hv, hs, hlen => by
    obtain ⟨ok₁, more, p₁, hturn, hv₁, hsuffix₁, hmore⟩ := turn_progress (t := t) hv hs ok
    cases more with
    | false => exact ⟨ok₁, p₁, parseLoop_last hturn, hv₁, hsuffix₁⟩
    | true =>
      obtain ⟨hlt, hs₁⟩ := hmore rfl
      have hlen₁ : p₁.buf.content.length < turns := by omega
      obtain ⟨ok', q, hq, hvq, hsuffix⟩ := parseLoop_progress ok₁ hv₁ hs₁ hlen₁
      exact ⟨ok', q, (parseLoop_more hturn).trans hq, hvq, hsuffix.trans hsuffix₁⟩

/-- More turns than enough change nothing. -/
theorem parseLoop_mono : ∀ {turns more : ℕ} {ok ok' : Bool} {p q : Parser}, turns ≤ more →
    parseLoop t turns ok p = .ok (ok', q) → parseLoop t more ok p = .ok (ok', q)
  | 0, _, _, _, _, _, _, h => by cases h
  | turns + 1, 0, _, _, _, _, hle, _ => absurd hle (Nat.not_succ_le_zero _)
  | turns + 1, more + 1, ok, ok', p, q, hle, h => by
    obtain ⟨⟨ok₁, hasMore, p₁⟩, hturn, h⟩ := bind_ok h
    cases hasMore with
    | false => exact (parseLoop_last hturn).trans h
    | true => exact (parseLoop_more hturn).trans (parseLoop_mono (Nat.le_of_succ_le_succ hle) h)

/-- A call that fails leaves everything as it was. -/
theorem parseLoop_failed (h : parseLoop t turns true p = .ok (false, q)) : q = p := by
  cases turns with
  | zero => cases h
  | succ turns =>
    by_cases hs : p.context.state_ = .kExpectRequestLine
    · obtain ⟨⟨ok₁, more, p₁⟩, hturn, h⟩ := bind_ok h
      rcases turn_first hs hturn with ⟨rfl, hsame⟩ | ⟨rfl, hs₁⟩
      · cases h
        exact hsame rfl
      · cases more with
        | false => cases h
        | true => cases (parseLoop_behind hs₁ h).1
    · cases (parseLoop_behind hs h).1

/-- In `kGotAll` the loop does not end. -/
theorem parseLoop_stuck (hs : p.context.state_ = .kGotAll) : ∀ (turns : ℕ) (ok : Bool),
    parseLoop t turns ok p = .error .diverges
  | 0, _ => rfl
  | turns + 1, ok => by
    have hturn : p.turn t ok = .ok (ok, true, p) := by
      unfold turn
      rw [hs]
      rfl
    exact (parseLoop_more hturn).trans (parseLoop_stuck hs turns ok)

end Parser

/-! ### Runs -/

namespace HttpConn

variable {s t : HttpConn} {e : HttpEvent}

/-- `onMessage` does not leave `kGotAll`. -/
theorem onMessage_open {p q : Parser} {receiveTime now : Timestamp} {calls : List HttpServer.Call}
    (h : HttpServer.onMessage p receiveTime now = .ok (calls, q)) : q.context.state_ ≠ .kGotAll := by
  obtain ⟨ok, p', -, -, rfl⟩ := HttpServer.onMessage_ok h
  split_ifs with hg
  · exact HttpRequestParseState.noConfusion
  · intro hs
    exact hg (beq_iff_eq.mpr hs)

theorem step_open (hs : s.context.state_ ≠ .kGotAll) (h : httpConn.step s e = .ok t) :
    t.context.state_ ≠ .kGotAll := by
  have hstep := step_context h
  cases hm : s.message e with
  | none =>
    rw [hm] at hstep
    rw [show t.context = s.context from hstep]
    exact hs
  | some p =>
    rw [hm] at hstep
    obtain ⟨calls, q, receiveTime, now, hcall, hcontext⟩ := hstep
    rw [hcontext]
    exact onMessage_open hcall

/-- Between two events the context is not in `kGotAll`. -/
theorem run_open {fd : Int} {cap : ℕ} {now : Timestamp} {es : List HttpEvent}
    (h : httpConn.Run (.start fd cap now) es s) : s.context.state_ ≠ .kGotAll :=
  h.invariant (I := fun s => s.context.state_ ≠ .kGotAll) (fun hs _ ht => step_open hs ht)
    HttpRequestParseState.noConfusion

/-- In an event `onMessage` works on the context of the connection. -/
theorem message_context {p : Parser} (h : s.message e = some p) : p.context = s.context := by
  cases e with
  | handleread r i =>
    obtain ⟨⟨n, b⟩, -, h⟩ := Option.bind_eq_some_iff.mp h
    dsimp only at h
    split_ifs at h
    exact congrArg Parser.context (Option.some.inj h).symm
  | handlewrite r => cases h

end HttpConn

/-- A call of `onMessage`: the buffer, the accounts, the times, and the request as the handlers of the
calls before it have left it. -/
structure MessageCall where
  buf : Buffer
  uilt : Uilt
  request : HttpRequest
  receiveTime : Timestamp
  now : Timestamp

/-- The context of a connection under calls of `onMessage`, with any handlers and buffers. -/
def messages : System HttpContext MessageCall Fault where
  guard _ _ := True
  step c m := do
    let (_, p) ← HttpServer.onMessage ⟨⟨c.state_, m.request⟩, m.buf, m.uilt⟩ m.receiveTime m.now
    return p.context

instance (c : HttpContext) (m : MessageCall) : Decidable (messages.guard c m) := inferInstanceAs (Decidable True)

theorem messages_open {now : Timestamp} {ms : List MessageCall} {c : HttpContext}
    (h : messages.Run (.new now) ms c) : c.state_ ≠ .kGotAll := by
  refine h.invariant (I := fun c => c.state_ ≠ .kGotAll) ?_ HttpRequestParseState.noConfusion
  intro s t m _ _ ht
  obtain ⟨⟨calls, p⟩, hcall, ht⟩ := bind_ok ht
  obtain rfl := Except.ok.inj ht
  exact HttpConn.onMessage_open hcall

/-- **The parse loop makes progress and fails cleanly.** In every state but `kGotAll` the loop ends,
has taken bytes off the front and nothing else, and has changed nothing if it fails; in `kGotAll` it
does not end. No run of `onMessage` enters it there, whatever the buffer and the handlers, and so none
of a connection. -/
theorem parse_progresses :
    (∀ (p : Parser) (t : Timestamp), p.buf.Valid → p.context.state_ ≠ .kGotAll → ∃ ok q,
      p.parseRequest t = .ok (ok, q) ∧
        (∀ turns, p.buf.content.length < turns → Parser.parseLoop t turns true p = .ok (ok, q)) ∧
        q.buf.Valid ∧ q.buf.content <:+ p.buf.content ∧ (ok = false → q = p)) ∧
    (∀ (p : Parser) (t : Timestamp) (turns : ℕ) (ok : Bool), p.context.state_ = .kGotAll →
      Parser.parseLoop t turns ok p = .error .diverges) ∧
    (∀ (now : Timestamp) (ms : List MessageCall) (c : HttpContext),
      messages.Run (.new now) ms c → c.state_ ≠ .kGotAll) ∧
    ∀ (fd : Int) (cap : ℕ) (now : Timestamp) (es : List HttpEvent) (s : HttpConn),
      httpConn.Run (.start fd cap now) es s → ∀ e p, s.message e = some p → p.context.state_ ≠ .kGotAll := by
  refine ⟨?_, ?_, ?_, ?_⟩
  · intro p t hv hs
    obtain ⟨ok, q, hq, hvq, hsuffix⟩ := Parser.parseLoop_progress (t := t) true hv hs (Nat.lt_succ_self _)
    have hturns : ∀ turns, p.buf.content.length < turns → Parser.parseLoop t turns true p = .ok (ok, q) :=
      fun turns hlt => Parser.parseLoop_mono hlt hq
    refine ⟨ok, q, ?_, hturns, hvq, hsuffix, ?_⟩
    · unfold Parser.parseRequest
      rw [hv.readsize_eq, sizeT_of_nonneg (Int.natCast_nonneg _)]
      exact hturns _ (Nat.lt_succ_self _)
    · rintro rfl
      exact Parser.parseLoop_failed hq
  · intro p t turns ok hs
    exact Parser.parseLoop_stuck hs turns ok
  · intro now ms c h
    exact messages_open h
  · intro fd cap now es s h e p hp
    rw [HttpConn.message_context hp]
    exact HttpConn.run_open h

/-- A line that is refused, and a request that is answered. -/
theorem parse_progresses_oops :
    (∃ ok q, Parser.parseRequest ⟨.new default, ⟨0, 6, bytes "oops\r\n"⟩, answersHi.uilt⟩ default = .ok (ok, q)) ∧
    (∃ c, messages.Run (.new default)
        [⟨⟨0, 18, bytes "GET / HTTP/1.1\r\n\r\n"⟩, answersHi.uilt, .new default, default, default⟩] c ∧
      c.state_ ≠ .kGotAll) ∧
    ∃ s, httpConn.Run (.start 7 32 default)
        [.handleread (some (bytes "GET / HTTP/1.1\r\n\r\n")) answersHi] s ∧
      ∀ e p, s.message e = some p → p.context.state_ ≠ .kGotAll := by
  obtain ⟨hparse, -, hmessages, hconn⟩ := parse_progresses
  have hcalls : (messages.exec (.new default)
      [⟨⟨0, 18, bytes "GET / HTTP/1.1\r\n\r\n"⟩, answersHi.uilt, .new default, default, default⟩]).map
        (fun _ => ()) = some () := by
    decide +kernel
  have hrun : (httpConn.exec (.start 7 32 default)
      [.handleread (some (bytes "GET / HTTP/1.1\r\n\r\n")) answersHi]).map (fun _ => ()) = some () := by
    decide +kernel
  obtain ⟨c, hc, -⟩ := (System.exec_map_iff _).mp hcalls
  obtain ⟨s, hs, -⟩ := (System.exec_map_iff _).mp hrun
  refine ⟨?_, ⟨c, hc, hmessages _ _ c hc⟩, ⟨s, hs, hconn _ _ _ _ s hs⟩⟩
  obtain ⟨ok, q, hq, -⟩ := hparse ⟨.new default, ⟨0, 6, bytes "oops\r\n"⟩, answersHi.uilt⟩ default
    (by decide) (by decide)
  exact ⟨ok, q, hq⟩

end MuduoSe
