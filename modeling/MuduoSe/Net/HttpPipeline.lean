/-
# Requests on a keep-alive connection

A client sends requests without bodies one behind the other. `onMessage` answers at
most one request in a call: it asks `if (gotAll())` once, and the bytes of a second
request that is complete stay in the `Buffer` until more bytes arrive. Behind the head of
a POST it takes all bytes there are for a body, so a POST is only answered as it was
sent if nothing of the next request has arrived with it.

`pipeline_answered_iff` says for which chunks every request is answered: for every block
of requests that ends with a POST or with the last request there are as many chunk ends
between the end of its first request and its own end as it has requests.

Key definitions: `Answered`, `chunkEnds`, `item`.
Key theorems: `serve_iff_served`, `pipeline_answered_iff`.
-/
import MuduoSe.Lib.Ticks
import MuduoSe.Net.HttpBody
import MuduoSe.Net.HttpServer

namespace MuduoSe

open HttpServer

/-- The bytes of some requests. -/
def texts (rs : List Head) : Bytes := rs.flatMap Head.text

/-- The request that a head stands for. -/
def Head.request (h : Head) : HttpRequest := h.into (HttpRequest.new default).untimed

/-- The chunks and the times of their calls, as chunks. -/
def chunks (cs : List (Chunk × Timestamp)) : List Chunk := cs.map (·.1)

/-- `onRequest` is called with the requests that were sent, in their order, and no byte is
left unread. -/
def Answered (p : Parser) (rs : List Head) (cs : List (Chunk × Timestamp)) : Prop :=
  ∃ calls q, serve cs p = .ok (calls, q) ∧ requests calls = rs.map Head.request ∧ q.buf.content = []

/-- How many bytes have arrived after each chunk, if `n` had before. -/
def chunkEnds : ℕ → List Chunk → List ℕ
  | _, [] => []
  | n, c :: cs => (n + c.1.length) :: chunkEnds (n + c.1.length) cs

/-- A request in the stream; a POST has to end with a chunk. -/
def item (h : Head) : Ticks.Item := ⟨h.text.length, h.isPost⟩

/-! ### One call -/

/-- Between two calls: `x` has arrived since the last request, and the parser has read
what it could of it or nothing. -/
structure Between (p : Parser) (x : Bytes) : Prop where
  valid : p.buf.Valid
  open_ : p.context.state_ ≠ .kGotAll
  scan : p.scan = Parser.fresh.more x ∨ (true, p.scan) = (Parser.fresh.more x).head

variable {p : Parser} {x : Bytes}

theorem start_between (cap : ℕ) (now : Timestamp) (u : Uilt) : Between (.start cap now u) [] :=
  ⟨Parser.start_valid cap now u, HttpRequestParseState.noConfusion, .inr (Parser.start_scan cap now u)⟩

/-- A call goes on from where the parser is. -/
theorem Between.resume (h : Between p x) (c : Bytes) :
    (p.scan.more c).head = (Parser.fresh.more (x ++ c)).head := by
  rcases h.scan with hs | hs
  · rw [hs, Scan.more_more]
  · exact (Scan.head_resume hs c).symm

theorem Between.content_nil (h : Between p []) : p.buf.content = [] := by
  have hfresh : (Parser.fresh.more []).head = (true, Parser.fresh) := Scan.head_wait (by decide)
  rcases h.scan with hs | hs
  · exact congrArg Scan.unread hs
  · exact congrArg Scan.unread (Prod.mk.inj (hs.trans hfresh)).2

/-- A call: what the reader says of all bytes since the last request. -/
theorem receive_eq (h : Between p x) (c : Chunk × Timestamp) : ∃ (ok : Bool) (p' : Parser), p'.buf.Valid ∧
    (ok, p'.scan, p'.uilt) = Scan.parse p.uilt (Parser.fresh.more (x ++ c.1.1)) ∧
    (ok = true → receive p c = .ok (if p'.context.gotAll then
      ([.onRequest p'.context.request_], { p' with context := p'.context.reset c.2 })
      else ([], p'))) := by
  obtain ⟨p', hp', hv, hscan, huilt⟩ := Parser.parseWhole_spec (t := c.1.2) h.valid h.open_ c.1.1
  rw [Scan.parse_congr p.uilt (h.resume c.1.1)] at hp' hscan huilt
  rcases hres : Scan.parse p.uilt (Parser.fresh.more (x ++ c.1.1)) with ⟨ok, s, u⟩
  rw [hres] at hp' hscan huilt
  refine ⟨ok, p', hv, by rw [hscan, huilt], fun hok => ?_⟩
  obtain ⟨p1, hp1, hp'⟩ := bind_ok hp'
  rw [hok] at hp'
  rw [receive, hp1, ok_bind, onMessage, hp', ok_bind]
  simp only [Bool.not_true, Bool.false_eq_true, if_false, List.nil_append, res_pure]
  split <;> rfl

/-- A call that completes nothing. -/
theorem receive_wait (h : Between p x) (c : Chunk × Timestamp)
    (hst : Scan.stopped (Parser.fresh.more (x ++ c.1.1)).head = false) :
    ∃ p', receive p c = .ok ([], p') ∧ Between p' (x ++ c.1.1) := by
  obtain ⟨ok, p', hv, hparse, hrec⟩ := receive_eq h c
  rcases hhead : (Parser.fresh.more (x ++ c.1.1)).head with ⟨ok', s⟩
  rw [hhead] at hst
  simp only [Scan.stopped, Bool.or_eq_false_iff, Bool.not_eq_false', beq_eq_false_iff_ne] at hst
  obtain ⟨⟨rfl, hbody⟩, hdone⟩ := hst
  rw [Scan.parse_stop p.uilt hhead hbody] at hparse
  simp only [Prod.mk.injEq] at hparse
  obtain ⟨rfl, hs, -⟩ := hparse
  have hopen : p'.context.state_ ≠ .kGotAll := by
    rw [← hs] at hdone
    exact hdone
  refine ⟨p', ?_, hv, hopen, .inr (by rw [hhead, hs])⟩
  rw [hrec rfl, if_neg (by simpa [HttpContext.gotAll] using hopen)]

/-- Behind a request without a body a new one starts. -/
theorem scan_reset (now : Timestamp) (hbody : p.context.request_.body_ = []) :
    Parser.scan { p with context := p.context.reset now } = Parser.fresh.more p.buf.content := by
  unfold Parser.scan HttpContext.reset HttpRequest.swap
  rw [hbody]
  rfl

/-- A call that completes the request `h` and brings `z` behind it: a POST swallows it. -/
theorem receive_reached (hb : Between p x) (c : Chunk × Timestamp) (h : Head) {z : Bytes}
    (hz : x ++ c.1.1 = h.text ++ z) : ∃ (p' : Parser) (req : HttpRequest),
      receive p c = .ok ([.onRequest req], p') ∧ (h.isPost = true → req.body_ = z) ∧
      ((h.isPost = true → z = []) → req.untimed = h.request ∧ Between p' z) := by
  obtain ⟨ok, p', hv, hparse, hrec⟩ := receive_eq hb c
  rw [hz, show Parser.fresh.more (h.text ++ z) =
    ⟨.kExpectRequestLine, Parser.fresh.request, h.text ++ z⟩ from rfl, Scan.parse_text] at hparse
  obtain ⟨rfl, hres⟩ := Prod.mk.inj hparse
  have hgot : p'.context.state_ = .kGotAll := by
    split_ifs at hres
    · exact congrArg (fun r => r.1.state) hres
    · exact congrArg (fun r => r.1.state) hres
  have hcall := hrec rfl
  rw [if_pos (by rw [HttpContext.gotAll, hgot]; rfl)] at hcall
  refine ⟨_, _, hcall, fun hp => ?_, fun hsw => ?_⟩
  · rw [if_pos hp] at hres
    have hbody := congrArg (fun r => r.1.request.body_) hres
    rwa [HttpRequest.addbody_body] at hbody
  · have hscan : p'.scan = ⟨.kGotAll, h.request, z⟩ := by
      by_cases hp : h.isPost = true
      · rw [if_pos hp, hsw hp] at hres
        rw [hsw hp]
        exact congrArg Prod.fst hres
      · rw [if_neg hp] at hres
        exact congrArg Prod.fst hres
    have hreq : p'.context.request_.untimed = h.request := congrArg Scan.request hscan
    have hbody : p'.context.request_.body_ = [] := congrArg HttpRequest.body_ hreq
    have hcont : p'.buf.content = z := congrArg Scan.unread hscan
    refine ⟨hreq, hv, HttpRequestParseState.noConfusion, .inl ?_⟩
    rw [scan_reset c.2 hbody, hcont]

/-! ### All calls -/

theorem chunkEnds_ge : ∀ (cs : List Chunk) (n : ℕ), ∀ b ∈ chunkEnds n cs, n ≤ b
  | [], _, b, hb => by simp [chunkEnds] at hb
  | _ :: cs, _, b, hb => by
    rcases List.mem_cons.mp hb with rfl | hb
    · exact Nat.le_add_right _ _
    · exact (Nat.le_add_right _ _).trans (chunkEnds_ge cs _ b hb)

theorem chunkEnds_sorted : ∀ (cs : List Chunk) (n : ℕ), (chunkEnds n cs).Pairwise (· ≤ ·)
  | [], _ => List.Pairwise.nil
  | _ :: cs, _ => List.pairwise_cons.mpr ⟨chunkEnds_ge cs _, chunkEnds_sorted cs _⟩

theorem chunkEnds_le : ∀ (cs : List Chunk) (n : ℕ), ∀ b ∈ chunkEnds n cs, b ≤ n + (stream cs).length
  | [], _, b, hb => by simp [chunkEnds] at hb
  | _ :: cs, _, b, hb => by
    rw [stream_cons, List.length_append, ← Nat.add_assoc]
    rcases List.mem_cons.mp hb with rfl | hb
    · exact Nat.le_add_right _ _
    · exact chunkEnds_le cs _ b hb

theorem total_items (rs : List Head) : Ticks.total (rs.map item) = (texts rs).length := by
  induction rs with
  | nil => rfl
  | cons h rs ih =>
    show h.text.length + Ticks.total (rs.map item) = (h.text ++ texts rs).length
    rw [ih, List.length_append]

theorem served_nil (o : ℕ) : ∀ ticks : List ℕ, Ticks.Served o [] ticks
  | [] => rfl
  | _ :: _ => trivial

theorem answered_cons {p' : Parser} {c : Chunk × Timestamp} {cs : List (Chunk × Timestamp)}
    {rs : List Head} {calls : List Call} (h : receive p c = .ok (calls, p')) :
    Answered p rs (c :: cs) ↔ ∃ more q, serve cs p' = .ok (more, q) ∧
      requests calls ++ requests more = rs.map Head.request ∧ q.buf.content = [] := by
  have happ : ∀ more, requests (calls ++ more) = requests calls ++ requests more := fun more =>
    List.filterMap_append
  unfold Answered
  rw [serve, h, ok_bind]
  dsimp only
  constructor
  · rintro ⟨all, q, hall, hreq, hc⟩
    obtain ⟨⟨more, q'⟩, hmore, hall⟩ := bind_ok hall
    obtain ⟨rfl, rfl⟩ := Prod.mk.inj (Except.ok.inj hall)
    exact ⟨more, q', hmore, by rw [← happ, hreq], hc⟩
  · rintro ⟨more, q, hmore, hreq, hc⟩
    exact ⟨calls ++ more, q, by rw [hmore]; rfl, by rw [happ, hreq], hc⟩

/-- **`onMessage` serves the requests one per chunk.** -/
theorem serve_iff_served : ∀ (cs : List (Chunk × Timestamp)) (rs : List Head) {p : Parser} {x : Bytes}
    (o : ℕ), Between p x → x ++ stream (chunks cs) = texts rs →
    (Answered p rs cs ↔ Ticks.Served o (rs.map item) (chunkEnds (o + x.length) (chunks cs)))
  | [], rs, p, x, o, hb, hx => by
    rw [show chunks [] = [] from rfl, stream_nil, List.append_nil] at hx
    show _ ↔ rs.map item = []
    rw [List.map_eq_nil_iff]
    constructor
    · rintro ⟨calls, q, hs, hreq, -⟩
      obtain ⟨rfl, -⟩ := Prod.mk.inj (Except.ok.inj hs)
      exact List.map_eq_nil_iff.mp hreq.symm
    · rintro rfl
      obtain rfl : x = [] := hx
      exact ⟨[], p, rfl, rfl, hb.content_nil⟩
  | c :: cs, rs, p, x, o, hb, hx => by
    have hx' : (x ++ c.1.1) ++ stream (chunks cs) = texts rs := by
      rw [← hx, List.append_assoc]
      rfl
    have hends : chunkEnds (o + x.length) (chunks (c :: cs)) =
        (o + (x ++ c.1.1).length) :: chunkEnds (o + (x ++ c.1.1).length) (chunks cs) := by
      rw [List.length_append, ← Nat.add_assoc]
      rfl
    rw [hends]
    rcases rs with _ | ⟨h, rs⟩
    · -- nothing is left to come
      have hnil : x ++ c.1.1 = [] := (List.append_eq_nil_iff.mp hx').1
      have hst : Scan.stopped (Parser.fresh.more (x ++ c.1.1)).head = false := by
        rw [hnil]
        decide +kernel
      obtain ⟨p', hrec, hb'⟩ := receive_wait hb c hst
      rw [answered_cons hrec]
      exact (serve_iff_served cs [] o hb' hx').trans ⟨fun _ => trivial, fun _ => served_nil _ _⟩
    · rw [List.map_cons, Ticks.Served]
      by_cases hlt : (x ++ c.1.1).length < h.text.length
      · -- the request is not complete
        obtain ⟨y, hy, hne⟩ := inside_of_lt hx' hlt
        have hst := Scan.head_inside h Parser.fresh.request hy hne
        obtain ⟨p', hrec, hb'⟩ := receive_wait hb c hst
        rw [answered_cons hrec, if_pos (show _ < o + (item h).size from Nat.add_lt_add_left hlt o)]
        exact serve_iff_served cs (h :: rs) o hb' hx'
      · obtain ⟨z, hz, hzt⟩ := beyond_of_le hx' (not_lt.mp hlt)
        have hlen : o + (x ++ c.1.1).length = o + h.text.length + z.length := by
          rw [hz, List.length_append, Nat.add_assoc]
        have hiff : h.isPost = true ∧ z ≠ [] ∨ (h.isPost = true → z = []) := by
          by_cases hp : h.isPost = true <;> by_cases hn : z = [] <;> simp [hp, hn]
        obtain ⟨p', req, hrec, hbody, hreq⟩ := receive_reached hb c h hz
        rw [answered_cons hrec, if_neg (by show ¬_ < o + h.text.length; omega)]
        rcases hiff with ⟨hp, hne⟩ | hempty
        · -- a POST takes bytes of the next request for its body
          constructor
          · rintro ⟨more, q, -, hall, -⟩
            have hhead : req.untimed = h.request := (List.cons.inj hall).1
            have hnil : req.body_ = [] := congrArg HttpRequest.body_ hhead
            exact absurd ((hbody hp).symm.trans hnil) hne
          · rintro ⟨hex, -⟩
            have hexact : o + (x ++ c.1.1).length = o + h.text.length := hex hp
            exact absurd (List.length_eq_zero_iff.mp (by omega)) hne
        · obtain ⟨hr, hb'⟩ := hreq hempty
          have hex : h.isPost = true → o + (x ++ c.1.1).length = o + h.text.length := fun hp => by
            rw [hlen, hempty hp]
            rfl
          have hcons : ∀ more, requests [.onRequest req] ++ requests more =
              (h :: rs).map Head.request ↔ requests more = rs.map Head.request := fun more => by
            rw [List.map_cons, ← hr]
            exact List.cons_inj_right _
          simp only [hcons]
          refine (serve_iff_served cs rs (o + h.text.length) hb' hzt).trans ?_
          rw [← hlen]
          exact ⟨fun hs => ⟨hex, hs⟩, fun hs => hs.2⟩

/-- **Which requests on a connection are answered.** For any requests and any chunks of their
bytes: `onRequest` is called with all of them, in their order, and no byte is left, if and
only if every block of requests that ends with a POST or with the last request has as
many chunk ends between the end of its first request and its own end as it has requests. -/
theorem pipeline_answered_iff (cap : ℕ) (now : Timestamp) (u : Uilt) {rs : List Head}
    {cs : List (Chunk × Timestamp)} (h : stream (chunks cs) = texts rs) :
    Answered (.start cap now u) rs cs ↔ Ticks.Covered 0 (rs.map item) (chunkEnds 0 (chunks cs)) := by
  have hle : ∀ b ∈ chunkEnds 0 (chunks cs), b ≤ 0 + Ticks.total (rs.map item) := by
    rw [total_items, ← h]
    exact chunkEnds_le _ 0
  rw [← Ticks.served_iff (chunkEnds_sorted _ 0) hle]
  exact serve_iff_served cs rs 0 (start_between cap now u) h

/-- `GET /a HTTP/1.1` without fields. -/
def getA : Head where
  method := bytes "GET"
  target := bytes "/a"
  version := bytes "1.1"
  fields := []
  method_word := by decide
  target_word := by decide
  version_word := word_version

/-- Two requests are answered if the second one ends with the second chunk. -/
theorem pipeline_answered_iff_two : Answered (.start 16 default ⟨∅⟩) [getA, getA]
    [((getA.text ++ bytes "GE", default), default), ((getA.text.drop 2, default), default)] := by
  refine (pipeline_answered_iff 16 default ⟨∅⟩ (by decide)).mpr ?_
  rw [← Ticks.served_iff (by decide) (by decide)]
  exact ⟨fun h => absurd h (by decide), fun h => absurd h (by decide), rfl⟩

/-- Two requests in one chunk are not: the second one is left in the buffer. -/
theorem pipeline_not_answered :
    ¬∀ (cap : ℕ) (now : Timestamp) (u : Uilt) (rs : List Head) (cs : List (Chunk × Timestamp)),
      stream (chunks cs) = texts rs → Answered (.start cap now u) rs cs := by
  intro hall
  obtain ⟨calls, q, hserve, -, hcont⟩ := hall 16 default ⟨∅⟩ [getA, getA]
    [((getA.text ++ getA.text, default), default)] (by decide)
  have hrun : (serve [((getA.text ++ getA.text, default), default)] (.start 16 default ⟨∅⟩)).map
      (fun r => r.2.buf.content) = .ok getA.text := by
    decide +kernel
  rw [hserve, Except.map, hcont, Except.ok.injEq] at hrun
  exact absurd hrun (by decide)

end MuduoSe
