/-
# Parsing does not depend on how the bytes are cut

`feed` is a connection that gets its bytes in chunks: each is appended to the `Buffer` and
followed by a call of `parseRequest`, until a call returned false or the request is
complete; the chunks after that are only appended.

`parse_split`: unless the first line is a POST request line, the outcome is that of one
call with all the bytes. What carries the proof is that after any chunks the parser
is where the reader is after their bytes, or behind a body (`Settled`). A POST is left out
because its body is what has arrived when the head ends.

Key definitions: `Parser.start`, `Parser.feed`, `Parser.Settled`, `PostFirst`.
Key theorems: `Parser.feed_parse`, `Parser.feed_settled`, `Parser.feed_spec`, `parse_split`.
-/
import MuduoSe.Net.HttpHead

namespace MuduoSe

open Buffer (kCRLF)

/-- Bytes that arrive together, and when. -/
abbrev Chunk := Bytes × Timestamp

/-- The bytes of some chunks. -/
def stream (cs : List Chunk) : Bytes := cs.flatMap (·.1)

@[simp] theorem stream_nil : stream [] = [] := rfl

@[simp] theorem stream_cons (c : Chunk) (cs : List Chunk) : stream (c :: cs) = c.1 ++ stream cs := rfl

namespace Parser

/-- A new context and a new buffer. -/
def start (cap : ℕ) (now : Timestamp) (u : Uilt) : Parser := ⟨.new now, .new cap, u⟩

/-- `append(buf)` on the parser's buffer. -/
def append (p : Parser) (c : Bytes) : Res Parser := do
  let b ← p.buf.appendString c
  return { p with buf := b }

/-- The chunks are fed to the parser; `last` is what the last call returned. -/
def feed : List Chunk → Bool → Parser → Res (Bool × Parser)
  | [], last, p => .ok (last, p)
  | (c, t) :: cs, last, p => do
    let p ← p.append c
    if !last || p.context.gotAll then feed cs last p
    else
      let (last, p) ← p.parseRequest t
      feed cs last p

/-- All bytes at once and one call. -/
def parseWhole (p : Parser) (s : Bytes) (t : Timestamp) : Res (Bool × Parser) := do
  let p ← p.append s
  p.parseRequest t

theorem start_valid (cap : ℕ) (now : Timestamp) (u : Uilt) : (start cap now u).buf.Valid :=
  Buffer.new_valid cap

/-- Where the reader stands at the start. -/
def fresh : Scan := ⟨.kExpectRequestLine, (HttpRequest.new default).untimed, []⟩

theorem scan_start (cap : ℕ) (now : Timestamp) (u : Uilt) : (start cap now u).scan = fresh := by
  unfold scan start fresh
  rw [Buffer.content_new]
  rfl

variable {p : Parser} {t : Timestamp} {last : Bool}

theorem append_spec (hv : p.buf.Valid) (c : Bytes) :
    ∃ b, p.append c = .ok { p with buf := b } ∧ b.Valid ∧ b.content = p.buf.content ++ c := by
  obtain ⟨b, hb, hbv, hc, -⟩ := Buffer.appendString_spec hv c
  exact ⟨b, by rw [append, hb]; rfl, hbv, hc⟩

theorem parseWhole_spec (hv : p.buf.Valid) (hs : p.context.state_ ≠ .kGotAll) (c : Bytes) :
    Reads (p.parseWhole c t) (Scan.parse p.uilt (p.scan.more c)) := by
  obtain ⟨b, hb, hbv, hc⟩ := append_spec hv c
  rw [parseWhole, hb, ok_bind]
  have h := parseRequest_spec (p := { p with buf := b }) (t := t) hbv hs
  rwa [show scan { p with buf := b } = p.scan.more c by rw [scan, hc]; rfl] at h

/-- A chunk after the last call is only appended. -/
theorem feed_stopped (hv : p.buf.Valid) (h : (!last || p.context.gotAll) = true) (c : Chunk)
    (cs : List Chunk) : ∃ p', feed (c :: cs) last p = feed cs last p' ∧ p'.buf.Valid ∧
      p'.context = p.context ∧ p'.buf.content = p.buf.content ++ c.1 ∧ p'.uilt = p.uilt := by
  obtain ⟨b, hb, hbv, hc⟩ := append_spec hv c.1
  refine ⟨{ p with buf := b }, ?_, hbv, rfl, hc, rfl⟩
  rw [feed, hb, ok_bind, if_pos h]

/-- Before that, the reader goes on with it. -/
theorem feed_parse (hv : p.buf.Valid) (hs : p.context.state_ ≠ .kGotAll) (c : Chunk) (cs : List Chunk) :
    ∃ p', feed (c :: cs) true p = feed cs (Scan.parse p.uilt (p.scan.more c.1)).1 p' ∧ p'.buf.Valid ∧
      (p'.scan, p'.uilt) = (Scan.parse p.uilt (p.scan.more c.1)).2 := by
  have hgot : (!true || p.context.gotAll) = false := by
    simpa [HttpContext.gotAll] using hs
  have hread := parseWhole_spec (t := c.2) hv hs c.1
  obtain ⟨b, hb, -, -⟩ := append_spec hv c.1
  obtain ⟨p', hp', hv', hscan, huilt⟩ := hread
  rw [parseWhole, hb, ok_bind] at hp'
  refine ⟨p', ?_, hv', by rw [hscan, huilt]⟩
  rw [feed, hb, ok_bind, if_neg (by rw [hgot]; decide), hp', ok_bind]

end Parser

/-! ### No body -/

/-- The first line is complete and a POST request line. -/
def PostFirst (s : Bytes) : Prop :=
  ∃ target version rest, 32 ∉ target ∧ 32 ∉ version ∧
    Cut.cut kCRLF s = some (requestLine (bytes "POST") target version, rest)

namespace Scan

theorem more_more (s : Scan) (a b : Bytes) : (s.more a).more b = s.more (a ++ b) := by
  simp only [more, List.append_assoc]

/-- The reader goes on from where it stopped. -/
theorem head_resume {s s' : Scan} {ok : Bool} {x : Bytes} (h : (ok, s') = (s.more x).head) (c : Bytes) :
    (s.more (x ++ c)).head = (s'.more c).head := by
  rw [← more_more, head_more, ← h]

/-- No header makes a request a POST. -/
theorem head_no_body (s : Scan) (hs : s.state = .kExpectHeaders) (hm : s.request.method_ ≠ .kPost) :
    s.head.2.state ≠ .kExpectBody := by
  induction s using head.induct with
  | case1 s hc => rw [head_wait hc, hs]; decide
  | case2 s line rest hc hst => rw [hs] at hst; cases hst
  | case3 s line rest hc hst => rw [hs] at hst; cases hst
  | case4 s line rest hc _ r ha ih =>
    have hr : r = (s.request.addHeader line).2 := by rw [ha]
    rw [head_field hs hc ha]
    exact ih rfl (by rw [hr, HttpRequest.addHeader_method]; exact hm)
  | case5 s line rest hc _ r ha =>
    have hr : r.method_ ≠ .kPost := HttpRequest.addHeader_false ha ▸ hm
    rw [head_end hs hc ha, if_neg hr]
    exact HttpRequestParseState.noConfusion
  | case6 s line rest hc hst => rw [hs] at hst; cases hst
  | case7 s line rest hc hst => rw [hs] at hst; cases hst

/-- Without a POST line in front the body state is never reached. -/
theorem head_fresh_no_body {x : Bytes} (h : ¬PostFirst x) :
    (Parser.fresh.more x).head.2.state ≠ .kExpectBody := by
  have hx : (Parser.fresh.more x).unread = x := List.nil_append x
  rcases hc : Cut.cut kCRLF x with _ | ⟨line, rest⟩
  · rw [head_wait (hx.symm ▸ hc)]
    exact HttpRequestParseState.noConfusion
  · rcases hp : HttpContext.processRequestLine ⟨(Parser.fresh.more x).state,
      (Parser.fresh.more x).request⟩ line with ⟨ok, c⟩
    cases ok with
    | false =>
      rw [head_refused rfl (hx.symm ▸ hc) hp]
      exact HttpRequestParseState.noConfusion
    | true =>
      obtain ⟨m, p, v, -, hp', hv, rfl, rfl⟩ := (HttpContext.processRequestLine_iff _ _ _).mp hp
      rw [head_line rfl (hx.symm ▸ hc) hp]
      refine head_no_body _ rfl fun hm => h ?_
      obtain rfl : m = bytes "POST" := HttpRequest.methodOf_eq_kPost.mp hm
      exact ⟨p, v, rest, hp', hv, hc⟩

end Scan

/-! ### Any chunks -/

namespace Parser

/-- Where the parser is after a call, with the table `u` before it: where the reader is, or
behind the body, which is what was unread then. -/
structure Settled (u : Uilt) (x : Bool × Scan) (last : Bool) (p : Parser) : Prop where
  valid : p.buf.Valid
  result : last = x.1
  reading : x.2.state ≠ .kExpectBody → p.scan = x.2 ∧ p.uilt = u
  bodied : x.2.state = .kExpectBody → p.context.state_ = .kGotAll ∧
    p.context.request_.method_ = x.2.request.method_ ∧ x.2.unread = p.context.request_.body_ ++ p.buf.content

/-- What a call does. -/
theorem settled_parse {p : Parser} {s : Scan} {u : Uilt} (hv : p.buf.Valid)
    (h : (p.scan, p.uilt) = (Scan.parse u s).2) : Settled u s.head (Scan.parse u s).1 p := by
  refine ⟨hv, rfl, fun hs => ?_, fun hs => ?_⟩
  · unfold Scan.parse Scan.body at h
    rw [if_neg hs] at h
    exact Prod.mk.inj h
  · unfold Scan.parse Scan.body at h
    rw [if_pos hs] at h
    obtain ⟨hscan, -⟩ := Prod.mk.inj h
    have hreq : p.context.request_.untimed = _ := congrArg Scan.request hscan
    have hbody := congrArg HttpRequest.body_ hreq
    have hunread : p.buf.content = [] := congrArg Scan.unread hscan
    rw [HttpRequest.addbody_body] at hbody
    refine ⟨congrArg Scan.state hscan, ?_, ?_⟩
    · exact (congrArg HttpRequest.method_ hreq).trans (HttpRequest.addbody_method _ _ _)
    · rw [hunread, List.append_nil]
      exact hbody.symm

/-- No more calls are made where the reader stopped for good. -/
theorem Settled.stopped {u : Uilt} {x : Bool × Scan} {last : Bool} {p : Parser} (h : Settled u x last p)
    (hst : (!last || p.context.gotAll) = true) : Scan.stopped x = true := by
  obtain ⟨ok, s⟩ := x
  unfold Scan.stopped
  by_cases hs : s.state = .kExpectBody
  · simp [hs]
  · have hstate : p.context.state_ = s.state := congrArg Scan.state (h.reading hs).1
    have hok : last = ok := h.result
    rw [HttpContext.gotAll, hstate, hok] at hst
    rcases Bool.or_eq_true_iff.mp hst with hst | hst <;> simp [hst]

/-- **More bytes, in chunks.** -/
theorem feed_settled : ∀ (cs : List Chunk) {u : Uilt} {x : Bytes} {s : Scan} {p : Parser} {last : Bool},
    Settled u (s.more x).head last p →
    ∃ last' p', feed cs last p = .ok (last', p') ∧ Settled u (s.more (x ++ stream cs)).head last' p'
  | [], u, x, s, p, last, h => ⟨last, p, rfl, by rwa [stream_nil, List.append_nil]⟩
  | c :: cs, u, x, s, p, last, h => by
    rw [stream_cons, ← List.append_assoc]
    by_cases hst : (!last || p.context.gotAll) = true
    · obtain ⟨p', hfeed, hv', hctx, hcont, hu⟩ := feed_stopped h.valid hst c cs
      have hstop := h.stopped hst
      rw [hfeed]
      apply feed_settled cs
      rw [← Scan.more_more, Scan.head_stopped_more hstop]
      refine ⟨hv', h.result, fun hs => ?_, fun hs => ?_⟩
      · obtain ⟨hscan, huilt⟩ := h.reading hs
        refine ⟨?_, hu.trans huilt⟩
        rw [← hscan]
        unfold scan Scan.more
        rw [hctx, hcont]
      · obtain ⟨h1, h2, h3⟩ := h.bodied hs
        rw [hctx, hcont]
        refine ⟨h1, h2, ?_⟩
        show (s.more x).head.2.unread ++ c.1 = _
        rw [h3, List.append_assoc]
    · obtain ⟨rfl, hgot⟩ : last = true ∧ p.context.state_ ≠ .kGotAll := by
        simpa [HttpContext.gotAll] using hst
      have hs : (s.more x).head.2.state ≠ .kExpectBody := fun hs => hgot (h.bodied hs).1
      obtain ⟨hscan, rfl⟩ := h.reading hs
      obtain ⟨p', hfeed, hv', hparse⟩ := feed_parse h.valid hgot c cs
      have hhead : (true, p.scan) = (s.more x).head := by rw [hscan, h.result]
      have hmore : (s.more (x ++ c.1)).head = (p.scan.more c.1).head := Scan.head_resume hhead c.1
      rw [hfeed]
      apply feed_settled cs
      rw [hmore]
      exact settled_parse hv' hparse

/-- At the start the reader has read nothing. -/
theorem start_scan (cap : ℕ) (now : Timestamp) (u : Uilt) :
    (true, (start cap now u).scan) = (fresh.more []).head := by
  rw [scan_start, Scan.head_wait (by decide)]
  rfl

/-- **After any chunks the parser is where the reader is after their bytes**, as long as it
does not come to a body. -/
theorem feed_spec (cap : ℕ) (now : Timestamp) (u : Uilt) (cs : List Chunk)
    (hbody : (fresh.more (stream cs)).head.2.state ≠ .kExpectBody) :
    ∃ last p, feed cs true (start cap now u) = .ok (last, p) ∧ p.buf.Valid ∧ p.uilt = u ∧
      (last, p.scan) = (fresh.more (stream cs)).head := by
  have hstart := start_scan cap now u
  have h : Settled u (fresh.more []).head true (start cap now u) := by
    rw [← hstart]
    refine ⟨start_valid cap now u, rfl, fun _ => ⟨rfl, rfl⟩, fun hs => ?_⟩
    rw [scan_start] at hs
    cases hs
  obtain ⟨last, p, hfeed, hset⟩ := feed_settled cs h
  rw [List.nil_append] at hset
  obtain ⟨hscan, hu⟩ := hset.reading hbody
  exact ⟨last, p, hfeed, hset.valid, hu, by rw [hscan, hset.result]⟩

end Parser

/-- **Parsing does not depend on the cuts.** If the first line is not a POST request line, the
chunks leave the parser with the same return value, state, request (but for its time) and
unread bytes as one call with all of them. -/
theorem parse_split (cap cap' : ℕ) (now now' t : Timestamp) (u : Uilt) (cs : List Chunk)
    (h : ¬PostFirst (stream cs)) :
    ∃ last p q, Parser.feed cs true (.start cap now u) = .ok (last, p) ∧
      (Parser.start cap' now' u).parseWhole (stream cs) t = .ok (last, q) ∧
      p.context.state_ = q.context.state_ ∧
      p.context.request_.untimed = q.context.request_.untimed ∧ p.buf.content = q.buf.content := by
  have hbody := Scan.head_fresh_no_body h
  obtain ⟨last, p, hfeed, -, -, hp⟩ := Parser.feed_spec cap now u cs hbody
  obtain ⟨q, hwhole, -, hq, -⟩ := Parser.parseWhole_spec (t := t) (Parser.start_valid cap' now' u)
    HttpRequestParseState.noConfusion (stream cs)
  rw [Parser.scan_start, Scan.parse_stop _ rfl hbody, ← hp] at hwhole hq
  have hscan : p.scan = q.scan := hq.symm
  exact ⟨last, p, q, hfeed, hwhole, congrArg Scan.state hscan, congrArg Scan.request hscan,
    congrArg Scan.unread hscan⟩

/-- A request in four chunks, cut inside both line ends and inside its header, with a
buffer that is too small at first. -/
theorem parse_split_get : ∃ last p q,
    Parser.feed [(bytes "GET /a HTTP/1.1\r", default), (bytes "\nHo", default),
      (bytes "st: b\r\n\r", default), (bytes "\nGET", default)] true (.start 4 default ⟨∅⟩) =
      .ok (last, p) ∧
    (Parser.start 64 default ⟨∅⟩).parseWhole (bytes "GET /a HTTP/1.1\r\nHost: b\r\n\r\nGET") default =
      .ok (last, q) ∧
    p.context.state_ = q.context.state_ ∧
    p.context.request_.untimed = q.context.request_.untimed ∧ p.buf.content = q.buf.content := by
  refine parse_split 4 64 default default default ⟨∅⟩ [(bytes "GET /a HTTP/1.1\r", default),
    (bytes "\nHo", default), (bytes "st: b\r\n\r", default), (bytes "\nGET", default)] ?_
  rintro ⟨target, version, rest, -, -, h⟩
  have hfirst : some (71 : Byte) = some 80 := congrArg List.head? (Cut.cut_eq h)
  exact absurd hfirst (by decide)

end MuduoSe
