/-
# Bodies and Content-Length

`Message` is a request with a body and a Content-Length field that gives its length.
The parser reads that field like any other and never looks it up: behind the head of a
POST the body is what has arrived with the chunk that completes the head, and behind
any other head there is no body at all.

So a message is framed as its Content-Length says only if it is a POST and the chunk
that completes its head ends exactly with its body, or it is no POST, its body is empty and
the context has no old one: `reset` does not clear `body_` (`body_framed_iff`).

The parser is one that expects a request, new or after any other request, and what it has
of this one already may be unread in its buffer.

Key definitions: `Message`, `Framed`, `EndsWithBody`, `Parser.Waits`.
Key theorems: `Parser.feed_inside`, `Parser.feed_reached`, `body_framed_iff`.
-/
import MuduoSe.Net.HttpSplit

namespace MuduoSe

/-! ### Chunks of a text -/

theorem stream_append (a b : List Chunk) : stream (a ++ b) = stream a ++ stream b :=
  List.flatMap_append

/-- Behind `k` bytes, the first chunk with which there are `n`. -/
theorem exists_reaching {n : ℕ} : ∀ {cs : List Chunk} {k : ℕ}, cs ≠ [] → n ≤ k + (stream cs).length →
    ∃ pre c post, cs = pre ++ c :: post ∧ (pre = [] ∨ k + (stream pre).length < n) ∧
      n ≤ k + (stream pre).length + c.1.length
  | [], _, hne, _ => absurd rfl hne
  | c :: cs, k, _, h => by
    rw [stream_cons, List.length_append, ← Nat.add_assoc] at h
    by_cases hc : n ≤ k + c.1.length
    · exact ⟨[], c, cs, rfl, .inl rfl, hc⟩
    · have hne : cs ≠ [] := by
        rintro rfl
        exact hc h
      obtain ⟨pre, d, post, rfl, hpre, hle⟩ := exists_reaching hne h
      have hlen : k + (stream (c :: pre)).length = k + c.1.length + (stream pre).length := by
        rw [stream_cons, List.length_append, Nat.add_assoc]
      refine ⟨c :: pre, d, post, rfl, .inr ?_, hlen ▸ hle⟩
      rw [hlen]
      rcases hpre with rfl | hlt
      · exact not_le.mp hc
      · exact hlt

/-- Less of a text than its front part is a part of it. -/
theorem inside_of_lt {x y a b : Bytes} (h : x ++ y = a ++ b) (hlt : x.length < a.length) :
    ∃ z, x ++ z = a ∧ z ≠ [] := by
  obtain ⟨z, hz⟩ := List.prefix_of_prefix_length_le ⟨y, h⟩ ⟨b, rfl⟩ hlt.le
  refine ⟨z, hz, fun hnil => ?_⟩
  rw [hnil, List.append_nil] at hz
  rw [hz] at hlt
  omega

/-- More of a text than its front part has it in front. -/
theorem beyond_of_le {x y a b : Bytes} (h : x ++ y = a ++ b) (hle : a.length ≤ x.length) :
    ∃ z, x = a ++ z ∧ z ++ y = b := by
  obtain ⟨z, hz⟩ := List.prefix_of_prefix_length_le ⟨b, rfl⟩ ⟨y, h⟩ hle
  refine ⟨z, hz.symm, ?_⟩
  rw [← hz, List.append_assoc] at h
  exact List.append_cancel_left h

/-- Chunks that reach further than the chunks before `c` contain `c`. -/
theorem reaching_le {pre post pre' post' : List Chunk} {c : Chunk} (h : pre ++ c :: post = pre' ++ post')
    (hlt : pre = [] ∧ pre' ≠ [] ∨ (stream pre).length < (stream pre').length) :
    (stream pre).length + c.1.length ≤ (stream pre').length := by
  rcases List.append_eq_append_iff.mp h with ⟨a, rfl, ha⟩ | ⟨a, rfl, -⟩
  · rcases a with _ | ⟨d, a⟩
    · rw [List.append_nil] at hlt
      rcases hlt with ⟨rfl, hne⟩ | hlt
      · exact absurd rfl hne
      · omega
    · obtain rfl : c = d := (List.cons.inj ha).1
      rw [stream_append, stream_cons, List.length_append, List.length_append]
      omega
  · rw [stream_append, List.length_append] at hlt
    rcases hlt with ⟨hnil, hne⟩ | hlt
    · exact absurd (List.append_eq_nil_iff.mp hnil).1 hne
    · omega

namespace Parser

theorem feed_append : ∀ (a b : List Chunk) (last : Bool) (p : Parser),
    feed (a ++ b) last p = feed a last p >>= fun r => feed b r.1 r.2
  | [], _, _, _ => rfl
  | c :: a, b, last, p => by
    rw [List.cons_append, feed, feed]
    rcases p.append c.1 with e | p
    · rfl
    · rw [ok_bind, ok_bind]
      split_ifs
      · exact feed_append a b last p
      · rcases p.parseRequest c.2 with e | ⟨last, p⟩
        · rfl
        · exact feed_append a b last p

/-- Once the request is complete, chunks are only appended. -/
theorem feed_done : ∀ (cs : List Chunk) (last : Bool) {p : Parser}, p.buf.Valid →
    p.context.gotAll = true → ∃ p', feed cs last p = .ok (last, p') ∧ p'.context = p.context ∧
      p'.buf.content = p.buf.content ++ stream cs
  | [], _, p, _, _ => ⟨p, rfl, rfl, by rw [stream_nil, List.append_nil]⟩
  | c :: cs, last, p, hv, hgot => by
    obtain ⟨p1, hfeed, hv1, hctx, hcont, -⟩ := feed_stopped hv (by rw [hgot, Bool.or_true]) c cs
    obtain ⟨p2, hfeed2, hctx2, hcont2⟩ := feed_done cs last hv1 (hctx ▸ hgot)
    refine ⟨p2, hfeed.trans hfeed2, hctx2.trans hctx, ?_⟩
    rw [hcont2, hcont, stream_cons, List.append_assoc]

/-- `x` has arrived of a request, and the parser has read what it could of it or nothing. -/
structure Waits (p : Parser) (r : HttpRequest) (x : Bytes) : Prop where
  valid : p.buf.Valid
  open_ : p.context.gotAll = false
  scan : p.scan = ⟨.kExpectRequestLine, r, x⟩ ∨ (true, p.scan) = Scan.head ⟨.kExpectRequestLine, r, x⟩

/-- Where a request is expected. -/
theorem waits_of_expect {p : Parser} (hv : p.buf.Valid) (hs : p.context.state_ = .kExpectRequestLine) :
    p.Waits p.context.request_.untimed p.buf.content := by
  refine ⟨hv, ?_, .inl ?_⟩
  · rw [HttpContext.gotAll, hs]
    rfl
  · unfold scan
    rw [hs]

variable {p : Parser} {r : HttpRequest} {x : Bytes}

theorem Waits.open_state (h : p.Waits r x) : p.context.state_ ≠ .kGotAll := by
  simpa [HttpContext.gotAll] using h.open_

/-- A call goes on from where the parser is. -/
theorem Waits.resume (h : p.Waits r x) (c : Bytes) :
    (p.scan.more c).head = Scan.head ⟨.kExpectRequestLine, r, x ++ c⟩ := by
  rcases h.scan with hs | hs
  · rw [hs]
    rfl
  · exact (Scan.head_resume (s := ⟨.kExpectRequestLine, r, []⟩) hs c).symm

/-- **Inside the head the parser waits.** -/
theorem feed_inside (h : Head) {y : Bytes} (hne : y ≠ []) : ∀ {cs : List Chunk} {p : Parser} {x : Bytes},
    p.Waits r x → x ++ stream cs ++ y = h.text →
    ∃ q, feed cs true p = .ok (true, q) ∧ q.Waits r (x ++ stream cs) ∧ q.uilt = p.uilt
  | [], p, x, hw, _ => ⟨p, rfl, (List.append_nil x).symm ▸ hw, rfl⟩
  | c :: cs, p, x, hw, hy => by
    obtain ⟨p1, hfeed, hv, hparse⟩ := feed_parse hw.valid hw.open_state c cs
    have hst : Scan.stopped (Scan.head ⟨.kExpectRequestLine, r, x ++ c.1⟩) = false := by
      apply Scan.head_inside h r (y := stream cs ++ y)
      · simpa using hy
      · exact List.append_ne_nil_of_right_ne_nil _ hne
    rcases hhead : Scan.head ⟨.kExpectRequestLine, r, x ++ c.1⟩ with ⟨ok, s⟩
    rw [hhead] at hst
    simp only [Scan.stopped, Bool.or_eq_false_iff, Bool.not_eq_false', beq_eq_false_iff_ne] at hst
    obtain ⟨⟨rfl, hbody⟩, hdone⟩ := hst
    rw [Scan.parse_stop p.uilt ((hw.resume c.1).trans hhead) hbody] at hfeed hparse
    obtain ⟨hscan, huilt⟩ := Prod.mk.inj hparse
    have hw1 : p1.Waits r (x ++ c.1) := by
      refine ⟨hv, ?_, .inr (by rw [hscan, hhead])⟩
      rw [← hscan] at hdone
      have hdone : p1.context.state_ ≠ .kGotAll := hdone
      simpa [HttpContext.gotAll] using hdone
    have hy : x ++ c.1 ++ stream cs ++ y = h.text := by simpa using hy
    obtain ⟨q, hq, hwq, huq⟩ := feed_inside h hne hw1 hy
    rw [List.append_assoc] at hwq
    exact ⟨q, hfeed.trans hq, hwq, huq.trans huilt⟩

/-- **The chunk that completes the head completes the request.** `z` is what it brings
behind the head. -/
theorem feed_reached (hw : p.Waits r x) (h : Head) {pre : List Chunk} {c : Chunk} (post : List Chunk) {z : Bytes}
    (hpre : pre = [] ∨ (x ++ stream pre).length < h.text.length) (hz : x ++ stream pre ++ c.1 = h.text ++ z) :
    ∃ q, feed (pre ++ c :: post) true p = .ok (true, q) ∧ q.context.gotAll = true ∧
      q.context.request_.body_ = (if h.isPost then z else r.body_) ∧
      q.buf.content = (if h.isPost then [] else z) ++ stream post := by
  obtain ⟨p1, hfeed1, hw1, -⟩ : ∃ p1, feed pre true p = .ok (true, p1) ∧ p1.Waits r (x ++ stream pre) ∧
      p1.uilt = p.uilt := by
    rcases hpre with rfl | hlt
    · exact ⟨p, rfl, by rwa [stream_nil, List.append_nil], rfl⟩
    · obtain ⟨y, hy, hne⟩ := inside_of_lt hz hlt
      exact feed_inside h hne hw hy
  obtain ⟨p2, hfeed2, hv2, hscan2⟩ := feed_parse hw1.valid hw1.open_state c post
  rw [Scan.parse_congr p1.uilt (hw1.resume c.1), hz, Scan.parse_text] at hfeed2 hscan2
  have hres : p2.context.gotAll = true ∧ p2.context.request_.body_ = (if h.isPost then z else r.body_) ∧
      p2.buf.content = if h.isPost then [] else z := by
    by_cases hp : h.isPost = true
    · simp only [if_pos hp, Prod.mk.injEq] at hscan2 ⊢
      obtain ⟨hs, -⟩ := hscan2
      have hbody := congrArg (fun s => s.request.body_) hs
      simp only [HttpRequest.addbody_body] at hbody
      exact ⟨beq_iff_eq.mpr (congrArg Scan.state hs), hbody, congrArg Scan.unread hs⟩
    · simp only [if_neg hp, Prod.mk.injEq] at hscan2 ⊢
      obtain ⟨hs, -⟩ := hscan2
      exact ⟨beq_iff_eq.mpr (congrArg Scan.state hs), congrArg (fun s => s.request.body_) hs,
        congrArg Scan.unread hs⟩
  obtain ⟨hgot2, hbody2, hcont2⟩ := hres
  obtain ⟨p3, hfeed3, hctx3, hcont3⟩ := feed_done post true hv2 hgot2
  refine ⟨p3, ?_, hctx3 ▸ hgot2, hctx3 ▸ hbody2, by rw [hcont3, hcont2]⟩
  rw [feed_append, hfeed1, ok_bind]
  exact hfeed2.trans hfeed3

/-- A complete request has a complete head. -/
theorem head_le_of_gotAll (hw : p.Waits r x) (h : Head) {cs : List Chunk} {y z : Bytes} {last : Bool} {q : Parser}
    (hs : x ++ stream cs ++ z = h.text ++ y) (hfeed : feed cs true p = .ok (last, q))
    (hgot : q.context.gotAll = true) : cs ≠ [] ∧ h.text.length ≤ (x ++ stream cs).length := by
  constructor
  · rintro rfl
    cases hfeed
    rw [hw.open_] at hgot
    cases hgot
  · by_contra hlt
    obtain ⟨w, hwy, hne⟩ := inside_of_lt hs (not_le.mp hlt)
    obtain ⟨q', hq', hwq, -⟩ := feed_inside h hne hw hwy
    rw [hq', Except.ok.injEq, Prod.mk.injEq] at hfeed
    rw [← hfeed.2, hwq.open_] at hgot
    cases hgot

end Parser

/-! ### A message with a body -/

/-- The digits of a number. -/
def decimal (n : ℕ) : Bytes := bytes (toString n)

/-- A request with a body and a header `Content-Length: n` for its `n` bytes. -/
structure Message extends Head where
  body : Bytes
  content_length : ∃ f ∈ fields, f.name = bytes "Content-Length" ∧ f.value = 32 :: decimal body.length

/-- The bytes of the message. -/
def Message.sent (m : Message) : Bytes := m.text ++ m.body

/-- The message is framed by its Content-Length: the request is complete only when all of
the body has arrived, the body is the message's, and what follows it is left unread. -/
def Framed (p : Parser) (m : Message) (t : Bytes) (cs : List Chunk) : Prop :=
  (∀ pre post, cs = pre ++ post → ∀ last q, p.feed pre true = .ok (last, q) →
    q.context.gotAll = true → m.sent.length ≤ (p.buf.content ++ stream pre).length) ∧
  ∃ last q, p.feed cs true = .ok (last, q) ∧ q.context.gotAll = true ∧
    q.context.request_.body_ = m.body ∧ q.buf.content = t

/-- The chunk that completes the head ends where the body ends; `b` was there before the first. -/
def EndsWithBody (b : Bytes) (m : Message) (cs : List Chunk) : Prop :=
  ∃ pre c post, cs = pre ++ c :: post ∧ (pre = [] ∨ (b ++ stream pre).length < m.text.length) ∧
    (b ++ stream pre).length + c.1.length = m.sent.length

section Framing

variable {p : Parser} {m : Message} {t : Bytes} {cs : List Chunk}

/-- A POST is framed if the chunk that completes its head ends with its body. -/
theorem framed_post (hw : p.Waits p.context.request_.untimed p.buf.content)
    (h : p.buf.content ++ stream cs = m.sent ++ t) (hp : m.isPost = true)
    (hend : EndsWithBody p.buf.content m cs) : Framed p m t cs := by
  obtain ⟨pre, c, post, rfl, hpre, hlen⟩ := hend
  have hs : (p.buf.content ++ stream pre ++ c.1) ++ stream post = m.sent ++ t := by
    rw [← h, stream_append, stream_cons]
    simp only [List.append_assoc]
  have hsent : (p.buf.content ++ stream pre ++ c.1).length = m.sent.length := by rw [List.length_append, hlen]
  have hz : p.buf.content ++ stream pre ++ c.1 = m.text ++ m.body := (List.append_inj hs hsent).1
  have ht : stream post = t := (List.append_inj hs hsent).2
  obtain ⟨q, hfeed, hgot, hbody, hcont⟩ := Parser.feed_reached hw m.toHead post hpre hz
  refine ⟨fun pre' post' hcs last q' hq' hgot' => ?_, true, q, hfeed, hgot, ?_, ?_⟩
  · have hs' : p.buf.content ++ stream pre' ++ stream post' = m.text ++ (m.body ++ t) := by
      rw [List.append_assoc, ← stream_append, ← hcs, h, Message.sent, List.append_assoc]
    obtain ⟨hne, hle⟩ := Parser.head_le_of_gotAll hw m.toHead hs' hq' hgot'
    simp only [List.length_append] at hpre hle hlen ⊢
    have hin := reaching_le hcs (hpre.imp (fun hnil => ⟨hnil, hne⟩) fun hlt => by omega)
    omega
  · rw [hbody, if_pos hp]
  · rw [hcont, if_pos hp, List.nil_append, ht]

/-- The chunk that completes the head, and what it brings behind it. -/
theorem exists_completing (hcs : cs ≠ []) (h : p.buf.content ++ stream cs = m.sent ++ t) :
    ∃ pre c post z, cs = pre ++ c :: post ∧
      (pre = [] ∨ (p.buf.content ++ stream pre).length < m.text.length) ∧
      p.buf.content ++ stream pre ++ c.1 = m.text ++ z ∧ z ++ stream post = m.body ++ t := by
  have hlen := congrArg List.length h
  rw [Message.sent, List.length_append, List.length_append, List.length_append] at hlen
  obtain ⟨pre, c, post, rfl, hpre, hle⟩ := exists_reaching (n := m.text.length) (k := p.buf.content.length) hcs
    (by omega)
  have hs : (p.buf.content ++ stream pre ++ c.1) ++ stream post = m.text ++ (m.body ++ t) := by
    rw [← List.append_assoc m.text, ← Message.sent, ← h, stream_append, stream_cons]
    simp only [List.append_assoc]
  obtain ⟨z, hz, hzt⟩ := beyond_of_le hs (by simp only [List.length_append]; exact hle)
  exact ⟨pre, c, post, z, rfl, by rwa [List.length_append], hz, hzt⟩

/-- Without a body any other request is framed, if the context has none either. -/
theorem framed_empty (hw : p.Waits p.context.request_.untimed p.buf.content) (hcs : cs ≠ [])
    (h : p.buf.content ++ stream cs = m.sent ++ t) (hp : m.isPost = false) (hbody : m.body = [])
    (hold : p.context.request_.body_ = []) : Framed p m t cs := by
  have hsent : m.sent = m.text := by rw [Message.sent, hbody, List.append_nil]
  refine ⟨fun pre' post' heq last q' hq' hgot' => ?_, ?_⟩
  · have hs' : p.buf.content ++ stream pre' ++ stream post' = m.text ++ t := by
      rw [List.append_assoc, ← stream_append, ← heq, h, hsent]
    rw [hsent]
    exact (Parser.head_le_of_gotAll hw m.toHead hs' hq' hgot').2
  · obtain ⟨pre, c, post, z, rfl, hpre, hz, hzt⟩ := exists_completing hcs h
    obtain ⟨q, hfeed, hgot, hb, hcont⟩ := Parser.feed_reached hw m.toHead post hpre hz
    rw [hp] at hb hcont
    refine ⟨true, q, hfeed, hgot, ?_, ?_⟩
    · rw [hb, hbody]
      exact hold
    · rw [hcont]
      refine hzt.trans ?_
      rw [hbody, List.nil_append]

/-- **When a body is framed by its Content-Length**, in a context that is new or was reset, with any
part of the request unread in the buffer: for a POST, if and only if the chunk that completes the head
ends where the body ends; for any other method, if and only if there is no body, and none in the
context from an earlier request. -/
theorem body_framed_iff (hv : p.buf.Valid) (hs : p.context.state_ = .kExpectRequestLine) (hcs : cs ≠ [])
    (h : p.buf.content ++ stream cs = m.sent ++ t) :
    Framed p m t cs ↔ (m.isPost = true ∧ EndsWithBody p.buf.content m cs) ∨
      (m.isPost = false ∧ m.body = [] ∧ p.context.request_.body_ = []) := by
  have hw := Parser.waits_of_expect hv hs
  constructor
  · rintro ⟨-, last, q, hfeed, -, hbody, hcont⟩
    obtain ⟨pre, c, post, z, rfl, hpre, hz, hzt⟩ := exists_completing hcs h
    obtain ⟨q', hfeed', -, hb, hc⟩ := Parser.feed_reached hw m.toHead post hpre hz
    rw [hfeed', Except.ok.injEq, Prod.mk.injEq] at hfeed
    rw [← hfeed.2, hb] at hbody
    rw [← hfeed.2, hc] at hcont
    by_cases hp : m.isPost = true
    · rw [if_pos hp] at hbody
      have hlen := congrArg List.length hz
      rw [hbody, List.length_append] at hlen
      exact .inl ⟨hp, pre, c, post, rfl, hpre, hlen⟩
    · -- the body is still unread
      rw [if_neg hp] at hbody hcont
      have hnil : m.body = [] := List.append_left_eq_self.mp (hzt.symm.trans hcont)
      refine .inr ⟨by simpa using hp, hnil, ?_⟩
      rw [← HttpRequest.untimed_body, hbody, hnil]
  · rintro (⟨hp, hend⟩ | ⟨hp, hbody, hold⟩)
    · exact framed_post hw h hp hend
    · exact framed_empty hw hcs h hp hbody hold

end Framing

/-- A POST with the five bytes `hello`. -/
def postHello : Message where
  method := bytes "POST"
  target := bytes "/"
  version := bytes "1.1"
  fields := [⟨bytes "Content-Length", bytes " 5", by decide, by decide, by decide⟩]
  method_word := by decide
  target_word := by decide
  version_word := word_version
  body := bytes "hello"
  content_length := ⟨_, List.mem_singleton.mpr rfl, rfl, by decide⟩

/-- A context that was reset behind a POST with the body `old`, with the first bytes of the next request. -/
def resumed : Parser where
  context := HttpContext.reset ⟨.kGotAll, { HttpRequest.new default with body_ := bytes "old" }⟩ default
  buf := ⟨0, 3, bytes "POS"⟩
  uilt := ⟨∅⟩

/-- With the rest in one segment the POST is framed. -/
theorem body_framed_iff_segment : Framed resumed postHello [] [(postHello.sent.drop 3, default)] :=
  (body_framed_iff (by decide) rfl (List.cons_ne_nil _ _) (by decide)).mpr
    (.inl ⟨by decide, [], _, [], rfl, .inl rfl, by decide⟩)

/-- With its body in a segment of its own it is not: the body is taken to be empty. -/
theorem body_not_framed :
    ¬∀ (p : Parser) (m : Message) (t : Bytes) (cs : List Chunk), p.buf.Valid →
      p.context.state_ = .kExpectRequestLine → p.buf.content ++ stream cs = m.sent ++ t → Framed p m t cs := by
  intro hall
  obtain ⟨-, last, q, hfeed, -, hbody, -⟩ := hall (.start 16 default ⟨∅⟩) postHello []
    [(postHello.text, default), (bytes "hello", default)] (Parser.start_valid ..) rfl (by decide)
  have hrun : (Parser.feed [(postHello.text, default), (bytes "hello", default)] true
      (.start 16 default ⟨∅⟩)).map (fun r => r.2.context.request_.body_) = .ok [] := by
    decide +kernel
  rw [hfeed, Except.map, hbody, Except.ok.injEq] at hrun
  exact absurd hrun (by decide)

-- A GET without a body, behind the POST: `reset` has left the old body.
example : (Parser.feed [(bytes "T / HTTP/1.1\r\nContent-Length: 0\r\n\r\n", default)] true
    { resumed with buf := ⟨0, 2, bytes "GE"⟩ }).map (fun r => (r.2.context.gotAll, r.2.context.request_.body_)) =
    .ok (true, bytes "old") := by
  decide +kernel

end MuduoSe
