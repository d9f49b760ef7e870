/-
# From the requests of a client to the files it reads

A connection of the file server from end to end, `read` events and `write` events in any order. The
bytes go out in any pieces, and come in in any that `Buffer::read` takes as they are: a read is clean if it
fits the free tail of `inbuffer_` or finds none, and the kernel takes some of the response. A read that
overflows the tail and a failed call are not, and neither is promised anything.

* `sent_in_order`: at any time the connection has sent the files of the first requests, in order, and
  what the client has of them it reads as them.
* `files_served`: if the requests come in so that `onMessage` gets to all of them
  (`pipeline_answered_iff`), it sends all files.

Key definitions: `HttpConn.Clean`, `Serves`, `HttpConn.Serving`.
Key theorems: `Serving.receive`, `Serving.write`, `Serving.run`, `sent_in_order`, `files_served`.
-/
import MuduoSe.Net.FileServer
import MuduoSe.Net.HttpPipeline
import MuduoSe.Net.TcpOutput

namespace MuduoSe

open HttpServer Uilt

/-! ### A read and a chunk -/

namespace Buffer

/-- An append that fits goes behind the unread bytes. -/
theorem append_fits (gone live d free : Bytes) :
    appendString (layout gone live (d ++ free)) d = .ok (layout gone (live ++ d) free) := by
  have hroom : makeRoom (layout gone live (d ++ free)) d.length = .ok (layout gone live (d ++ free)) := by
    rw [makeRoom, writesize_layout, readindex_layout, if_neg, if_neg]
    · rfl
    · rw [List.length_append]
      omega
    · rw [List.length_append]
      omega
  have hstore := store_mid (gone ++ live) d free d rfl
  have hload := load_take d le_rfl
  rw [List.take_length] at hload
  rw [List.append_assoc, List.length_append, Int.natCast_add] at hstore
  rw [appendString, append, hroom, ok_bind, hload, ok_bind, buffer_layout, writeindex_layout, hstore, ok_bind,
    res_pure]
  simp only [layout, List.append_assoc, List.length_append, Int.natCast_add, Int.add_assoc]

/-- What a buffer holds was appended last. -/
theorem Valid.appended {b : Buffer} (h : b.Valid) {old d : Bytes} (hc : b.content = old ++ d) :
    ∃ a : Buffer, a.Valid ∧ a.content = old ∧ a.appendString d = .ok b := by
  obtain ⟨gone, live, free, rfl⟩ := h.layout
  rw [content_layout] at hc
  subst hc
  exact ⟨Buffer.layout gone old (d ++ free), layout_valid _ _ _, content_layout _ _ _, append_fits gone old d free⟩

end Buffer

/-- A call behind a read is one behind an append. -/
theorem Between.twin {p : Parser} {x d : Bytes} (h : Between p x) {b : Buffer} (hb : b.Valid)
    (hc : b.content = p.buf.content ++ d) : ∃ p₀, Between p₀ x ∧
      ∀ t now, receive p₀ ((d, t), now) = onMessage { p with buf := b } t now := by
  obtain ⟨a, ha, hold, happend⟩ := hb.appended hc
  have hscan : Parser.scan { p with buf := a } = p.scan := by
    unfold Parser.scan
    rw [hold]
  refine ⟨{ p with buf := a }, ⟨ha, h.open_, hscan ▸ h.scan⟩, fun t now => ?_⟩
  unfold receive Parser.append
  dsimp only
  rw [happend]
  rfl

/-! ### The events of a connection -/

/-- The bytes of a read. -/
def HttpEvent.chunk : HttpEvent → Option Chunk
  | .handleread (some d) i => some (d, i.receiveTime)
  | _ => none

/-- The reads of some events. -/
def arrived (es : List HttpEvent) : List Chunk := es.filterMap HttpEvent.chunk

/-- The handler is `onRequest`, where that returns. -/
def Serves (opens : Bytes → Option Bytes) (i : Surroundings) : Prop :=
  ∀ req r r', onRequest opens req r = .ok r' → i.httpcallback_ req r = r'

namespace HttpConn

/-- A read that `Buffer::read` takes as it is, where the kernel takes some bytes of a response; or a write. -/
def Clean (s : HttpConn) : HttpEvent → Prop
  | .handleread (some d) i =>
    (0 < d.length ∧ ((d.length : ℤ) ≤ s.conn.inbuffer_.writesize ∨ s.conn.inbuffer_.writesize = 0)) ∧
      ∃ n ∈ i.answer, ∀ x ∈ s.parsed (some d) i, x.2.context.gotAll = true →
        n ≤ (i.response x.2.context.request_).reply.text.length
  | .handleread none _ => False
  | .handlewrite r => r.isSome = true

instance (s : HttpConn) : (e : HttpEvent) → Decidable (s.Clean e)
  | .handleread (some d) i => inferInstanceAs (Decidable ((0 < d.length ∧ (_ ∨ _)) ∧ ∃ n ∈ i.answer,
      ∀ x ∈ s.parsed (some d) i, x.2.context.gotAll = true → n ≤ _))
  | .handleread none _ => inferInstanceAs (Decidable False)
  | .handlewrite r => inferInstanceAs (Decidable (r.isSome = true))

/-- The connection has answered with `done`; `x` has arrived of the next request. -/
structure Serving (s : HttpConn) (done : List KeptResponse) (x : Bytes) : Prop where
  between : ∀ u, Between ⟨s.context, s.conn.inbuffer_, u⟩ x
  out : s.conn.outbuffer_.Valid
  sent : s.sent = done.map fun r => r.reply
  order : s.accepted ++ s.conn.outbuffer_.content = replyTexts done

theorem start_serving (fd : Int) (cap : ℕ) (now : Timestamp) : (start fd cap now).Serving [] [] where
  between u := start_between cap now u
  out := Buffer.new_valid cap
  sent := rfl
  order := Buffer.content_new cap

end HttpConn

open HttpConn

namespace HttpConn

variable {s t : HttpConn} {done : List KeptResponse} {x d : Bytes} {opens : Bytes → Option Bytes} {i : Surroundings}

/-- The next response is sent. -/
theorem Serving.send (h : s.Serving done x) (r : KeptResponse) {n : ℕ} (hn : n ≤ r.reply.text.length) :
    ∃ t, s.send r.reply.text r.reply (some n) = .ok t ∧ t.Serving (done ++ [r]) x := by
  obtain ⟨out, channel, hsend, hval, hcont, -⟩ := TcpConnect.sendinloop_spec h.out hn
  let fx : List Effect := if s.conn.direct then [.write (r.reply.text.take n)] else []
  have hstep : s.send r.reply.text r.reply (some n) = .ok { s.record { s.conn with
      outbuffer_ := out, channel_ := channel } fx with sent := s.sent ++ [r.reply] } := by
    unfold HttpConn.send
    rw [hsend]
    rfl
  have hbytes : fx.flatMap Effect.written ++ out.content = s.conn.outbuffer_.content ++ r.reply.text := by
    rw [hcont, TcpConnect.sentNow]
    by_cases hd : s.conn.direct = true
    · -- nothing was queued
      have hnil : s.conn.outbuffer_.content = [] := by
        rw [TcpConnect.direct, Bool.and_eq_true, h.out.readsize_eq] at hd
        simpa using hd.2
      have hfx : fx.flatMap Effect.written = r.reply.text.take n := by
        show (if s.conn.direct then _ else _ : List Effect).flatMap Effect.written = _
        rw [if_pos hd]
        exact List.append_nil _
      rw [hfx, if_pos hd, hnil, List.nil_append, List.nil_append, List.take_append_drop]
    · have hfx : fx.flatMap Effect.written = [] := by
        show (if s.conn.direct then _ else _ : List Effect).flatMap Effect.written = _
        rw [if_neg hd]
        rfl
      rw [hfx, if_neg hd]
      rfl
  refine ⟨_, hstep, h.between, hval, ?_, ?_⟩
  · show s.sent ++ [r.reply] = (done ++ [r]).map _
    rw [h.sent, List.map_append]
    rfl
  · show (s.accepted ++ fx.flatMap Effect.written) ++ out.content = replyTexts (done ++ [r])
    rw [List.append_assoc, hbytes, ← List.append_assoc, h.order]
    unfold replyTexts
    rw [List.flatMap_append, List.flatMap_singleton]

theorem Serving.write (h : s.Serving done x) {n : ℕ} (hn : (n : ℤ) ≤ s.conn.outbuffer_.readsize) :
    ∃ t, s.handlewrite (some n) = .ok t ∧ t.Serving done x := by
  have hn : n ≤ s.conn.outbuffer_.content.length := by
    have := h.out.readsize_eq
    omega
  obtain ⟨out, channel, hwrite, hval, hcont, -⟩ := TcpConnect.handlewrite_spec h.out hn
  have hstep : s.handlewrite (some n) = .ok (s.record { s.conn with
      outbuffer_ := out, channel_ := channel } [.write (s.conn.outbuffer_.content.take n)]) := by
    unfold HttpConn.handlewrite
    rw [hwrite]
    rfl
  refine ⟨_, hstep, h.between, hval, h.sent, ?_⟩
  show (s.accepted ++ (s.conn.outbuffer_.content.take n ++ [])) ++ out.content = replyTexts done
  rw [hcont, List.append_nil, List.append_assoc, List.take_append_drop, h.order]

/-- A read, and the call of `onMessage` behind it as one behind a chunk. -/
theorem Serving.receive (h : s.Serving done x) (hpos : 0 < d.length)
    (hroom : (d.length : ℤ) ≤ s.conn.inbuffer_.writesize ∨ s.conn.inbuffer_.writesize = 0)
    (hcap : (d.length : ℤ) ≤ s.conn.inbuffer_.writesize + 1024) (i : Surroundings) :
    ∃ p₀ b, Between p₀ x ∧ s.parsed (some d) i = (Parser.parseRequest ⟨s.context, b, i.uilt⟩ i.receiveTime).toOption ∧
      HttpServer.receive p₀ ((d, i.receiveTime), i.now) =
        HttpServer.onMessage ⟨s.context, b, i.uilt⟩ i.receiveTime i.now ∧
      s.handleread (some d) i = onMessage { s with conn.inbuffer_ := b } i := by
  have hbetween := h.between i.uilt
  obtain ⟨b, hb, hc, hread⟩ := (Buffer.read_exact_iff hbetween.valid hpos hcap).mpr hroom
  have hread : s.conn.inbuffer_.read (some d) = .ok (d.length, b) := hread _ List.length_replicate
  have hgt : (d.length : ℤ) > 0 := by omega
  obtain ⟨p₀, hp₀, htwin⟩ := hbetween.twin hb hc
  refine ⟨p₀, b, hp₀, ?_, htwin _ _, ?_⟩
  · rw [parsed_eq hread, if_pos hgt]
  · unfold handleread
    rw [hread, ok_bind]
    dsimp only
    rw [if_pos hgt]

/-- The accounts do not matter. -/
theorem between_uilt {p : Parser} (h : Between p x) (u : Uilt) : Between ⟨p.context, p.buf, u⟩ x :=
  ⟨h.valid, h.open_, h.scan⟩

/-- A read that completes no request. -/
theorem Serving.wait (h : s.Serving done x) (hg : s.possible (.handleread (some d) i))
    (hclean : s.Clean (.handleread (some d) i)) (hst : Scan.stopped (Parser.fresh.more (x ++ d)).head = false) :
    ∃ t, s.handleread (some d) i = .ok t ∧ t.Serving done (x ++ d) := by
  obtain ⟨p₀, b, hp₀, -, hcall, hstep⟩ := h.receive hclean.1.1 hclean.1.2 hg i
  obtain ⟨p', hwait, hbetween⟩ := receive_wait hp₀ ((d, i.receiveTime), i.now) hst
  rw [hwait] at hcall
  have hmessage : onMessage { s with conn.inbuffer_ := b } i =
      .ok { s with context := p'.context, conn.inbuffer_ := p'.buf } := by
    unfold onMessage
    dsimp only
    rw [← hcall]
    rfl
  exact ⟨_, hstep.trans hmessage, fun u => between_uilt hbetween u, h.out, h.sent, h.order⟩

/-- A read that completes the request `r`. -/
theorem Serving.answer (h : s.Serving done x) (hg : s.possible (.handleread (some d) i))
    (hclean : s.Clean (.handleread (some d) i)) (hserves : Serves opens i) {r : Head} (hr : r.isPost = false)
    (hs : Servable opens r.request) {z : Bytes} (hz : x ++ d = r.text ++ z) :
    ∃ t, s.handleread (some d) i = .ok t ∧ t.Serving (done ++ [fileResponse hs]) z := by
  obtain ⟨p₀, b, hp₀, hparsed, hcall, hstep⟩ := h.receive hclean.1.1 hclean.1.2 hg i
  obtain ⟨p', req, hreached, -, hreq⟩ := receive_reached hp₀ ((d, i.receiveTime), i.now) r hz
  obtain ⟨huntimed, hbetween⟩ := hreq fun hp => by rw [hr] at hp; cases hp
  rw [hreached] at hcall
  have hresponse : i.response req = (fileResponse hs).toHttpResponse := by
    have hs' : Servable opens req.untimed := huntimed ▸ hs
    have hsame : fileResponse hs' = fileResponse hs := by
      congr 1
    have hreq : Servable opens req := ⟨hs'.dot, hs'.size, hs'.kept, hs'.short⟩
    have hreturns := onRequest_ok hreq i.version
    rw [← hsame]
    exact hserves req _ _ hreturns
  obtain ⟨-, n, hn, hlen⟩ := hclean
  have hlen : n ≤ (fileResponse hs).reply.text.length := by
    obtain ⟨ok, q, hq, hmade, -⟩ := HttpServer.onMessage_ok hcall.symm
    obtain ⟨hgot, rfl⟩ := HttpServer.mem_made_onRequest.mp (hmade ▸ List.mem_singleton_self _)
    rw [← hresponse]
    refine hlen (ok, q) ?_ hgot
    rw [hparsed, hq]
    rfl
  let s' : HttpConn := { s with context := p'.context, conn.inbuffer_ := p'.buf }
  have hserving : s'.Serving done z := ⟨fun u => between_uilt hbetween u, h.out, h.sent, h.order⟩
  obtain ⟨t, ht, htserving⟩ := hserving.send (fileResponse hs) hlen
  have hmessage : onMessage { s with conn.inbuffer_ := b } i = .ok t := by
    unfold onMessage
    dsimp only
    rw [← hcall]
    show perform i s' [.onRequest req] = .ok t
    rw [perform, onRequest_eq, hresponse, hn, ht]
    rfl
  exact ⟨t, hstep.trans hmessage, htserving⟩

end HttpConn

/-! ### All events -/

/-- A request for a file, without a body. -/
structure FileRequest (opens : Bytes → Option Bytes) extends Head where
  no_body : toHead.isPost = false
  servable : Servable opens toHead.request

/-- The response to it. -/
def FileRequest.response {opens : Bytes → Option Bytes} (r : FileRequest opens) : KeptResponse :=
  fileResponse r.servable

/-- The events are possible and clean. -/
def Proper (s : HttpConn) (e : HttpEvent) : Prop := httpConn.guard s e ∧ s.Clean e

instance (s : HttpConn) (e : HttpEvent) : Decidable (Proper s e) := inferInstanceAs (Decidable (_ ∧ _))

namespace HttpConn

variable {opens : Bytes → Option Bytes}

/-- The heads of some requests. -/
def heads (rs : List (FileRequest opens)) : List Head := rs.map FileRequest.toHead

/-- **What a connection does with the requests `todo`**, of which `x` and what the events bring arrives: it answers
the first of them, in order, and all if each gets its call. -/
theorem Serving.run : ∀ (es : List HttpEvent) {s : HttpConn} {done : List KeptResponse} {x rest : Bytes}
    {todo : List (FileRequest opens)} (o : ℕ), s.Serving done x → httpConn.Always Proper s es →
    (∀ r i, .handleread r i ∈ es → Serves opens i) → (x ++ stream (arrived es)) ++ rest = texts (heads todo) →
    ∃ t answered todo' x', httpConn.Run s es t ∧ todo = answered ++ todo' ∧
      t.Serving (done ++ answered.map FileRequest.response) x' ∧ x' ++ rest = texts (heads todo') ∧
      (rest = [] → Ticks.Served o ((heads todo).map item) (chunkEnds (o + x.length) (arrived es)) → todo' = [])
  | [], s, done, x, rest, todo, o, hs, _, _, hx => by
    refine ⟨s, [], todo, x, .nil s, rfl, ?_, ?_, fun _ hserved => ?_⟩
    · rw [List.map_nil, List.append_nil]
      exact hs
    · rwa [show arrived [] = [] from rfl, stream_nil, List.append_nil] at hx
    · exact List.map_eq_nil_iff.mp (List.map_eq_nil_iff.mp hserved)
  | .handlewrite none :: es, s, done, x, rest, todo, o, hs, halways, hserves, hx => by
    cases halways.1.2
  | .handlewrite (some n) :: es, s, done, x, rest, todo, o, hs, halways, hserves, hx => by
    obtain ⟨⟨hg, -⟩, hmore⟩ := halways
    obtain ⟨u, hu, hserving⟩ := hs.write hg
    obtain ⟨t, answered, todo', x', hrun, hresult⟩ := Serving.run es o hserving (hmore u hu)
      (fun r i hin => hserves r i (List.mem_cons_of_mem _ hin)) hx
    exact ⟨t, answered, todo', x', .cons hg hu hrun, hresult⟩
  | .handleread none i :: es, s, done, x, rest, todo, o, hs, halways, hserves, hx => halways.1.2.elim
  | .handleread (some d) i :: es, s, done, x, rest, todo, o, hs, halways, hserves, hx => by
    obtain ⟨⟨hg, hclean⟩, hmore⟩ := halways
    have hserves' := fun r i hin => hserves r i (List.mem_cons_of_mem _ hin)
    have hx : ((x ++ d) ++ stream (arrived es)) ++ rest = texts (heads todo) := by
      rw [← hx, List.append_assoc x d]
      rfl
    have hends : chunkEnds (o + x.length) (arrived (.handleread (some d) i :: es)) =
        (o + (x ++ d).length) :: chunkEnds (o + (x ++ d).length) (arrived es) := by
      rw [List.length_append, ← Nat.add_assoc]
      rfl
    rw [hends]
    rcases todo with _ | ⟨r, todo⟩
    · -- every read brings something
      have hnil : x ++ d = [] := (List.append_eq_nil_iff.mp (List.append_eq_nil_iff.mp hx).1).1
      have hpos := hclean.1.1
      rw [(List.append_eq_nil_iff.mp hnil).2] at hpos
      exact absurd hpos (lt_irrefl _)
    · have hx : (x ++ d) ++ (stream (arrived es) ++ rest) = r.text ++ texts (heads todo) := by
        rw [← List.append_assoc, hx]
        rfl
      by_cases hlt : (x ++ d).length < r.text.length
      · -- the request is not complete
        obtain ⟨y, hy, hne⟩ := inside_of_lt hx hlt
        have hst := Scan.head_inside r.toHead Parser.fresh.request hy hne
        obtain ⟨u, hu, hserving⟩ := hs.wait hg hclean hst
        have hx' : ((x ++ d) ++ stream (arrived es)) ++ rest = texts (heads (r :: todo)) := by
          rw [List.append_assoc, hx]
          rfl
        obtain ⟨t, answered, todo', x', hrun, htodo, hlast, hrest, hall⟩ :=
          Serving.run es o hserving (hmore u hu) hserves' hx'
        refine ⟨t, answered, todo', x', .cons hg hu hrun, htodo, hlast, hrest, fun hnil hserved => hall hnil ?_⟩
        have hserved : Ticks.Served o (item r.toHead :: (heads todo).map item) _ := hserved
        rw [Ticks.Served, if_pos (show _ < o + (item r.toHead).size from Nat.add_lt_add_left hlt o)] at hserved
        exact hserved
      · obtain ⟨z, hz, hzt⟩ := beyond_of_le hx (not_lt.mp hlt)
        obtain ⟨u, hu, hserving⟩ := hs.answer hg hclean (hserves _ _ List.mem_cons_self) r.no_body r.servable hz
        have hlen : o + (x ++ d).length = o + r.text.length + z.length := by
          rw [hz, List.length_append, Nat.add_assoc]
        have hzt : (z ++ stream (arrived es)) ++ rest = texts (heads todo) := by rw [List.append_assoc, hzt]
        obtain ⟨t, answered, todo', x', hrun, htodo, hlast, hrest, hall⟩ :=
          Serving.run es (o + r.text.length) hserving (hmore u hu) hserves' hzt
        refine ⟨t, r :: answered, todo', x', .cons hg hu hrun, by rw [htodo]; rfl, ?_, hrest,
          fun hnil hserved => hall hnil ?_⟩
        · rw [List.append_assoc] at hlast
          exact hlast
        · have hserved : Ticks.Served o (item r.toHead :: (heads todo).map item) _ := hserved
          rw [Ticks.Served, if_neg (by show ¬_ < o + r.text.length; omega)] at hserved
          rw [← hlen]
          exact hserved.2

end HttpConn

/-- What a client has and reads, when its requests `answered` were answered. -/
structure ClientReads {opens : Bytes → Option Bytes} (s : HttpConn) (answered : List (FileRequest opens)) : Prop where
  /-- All responses are sent, in order, and what the kernel has not taken is queued. -/
  sent : s.accepted ++ s.conn.outbuffer_.content = replyTexts (answered.map FileRequest.response)
  /-- The client reads those that are there, and has a part of the next one. -/
  read : ∃ done todo part, answered = done ++ todo ∧
    readReplies answered.length s.accepted = (done.map fun r => r.response.decoded, part) ∧
    part ++ s.conn.outbuffer_.content = replyTexts (todo.map FileRequest.response)

theorem HttpConn.Serving.reads {opens : Bytes → Option Bytes} {s : HttpConn} {answered : List (FileRequest opens)}
    {x : Bytes} (h : s.Serving (answered.map FileRequest.response) x) : ClientReads s answered := by
  refine ⟨h.order, ?_⟩
  obtain ⟨done, todo, part, hsplit, -, hread, hpart, -⟩ := replies_read _ h.order
  obtain ⟨done, todo, rfl, rfl, rfl⟩ := List.map_eq_append_iff.mp hsplit
  rw [List.length_map, List.map_map] at hread
  exact ⟨done, todo, part, rfl, hread, hpart⟩

section

variable {opens : Bytes → Option Bytes} {rs : List (FileRequest opens)} {es : List HttpEvent}

end

/-! ### A client -/

/-- A web root with one page. -/
def onePage (name : Bytes) : Option Bytes :=
  if name = webHome ++ bytes "/index.html" then some (bytes "hi\r\n\r\n")
  else if name = cString notFound then some (bytes "no") else none

theorem get_word : Word (bytes "GET") := by decide

theorem root_word : Word (bytes "/") := by decide

def getPage (target : Bytes) (h : Word target) : Head :=
  ⟨bytes "GET", target, bytes "1.1", [], get_word, h, word_version⟩

/-- The page, and a file that is not there. -/
def twoFiles : List (FileRequest onePage) := [
  ⟨getPage (bytes "/") root_word, by decide, ⟨by decide, by decide, by decide +kernel, by decide +kernel⟩⟩,
  ⟨getPage (bytes "/a.png") (by decide), by decide, ⟨by decide, by decide, by decide +kernel, by decide +kernel⟩⟩]

def onePageServer (answer : ℕ) : Surroundings where
  receiveTime := default
  now := default
  uilt := ⟨∅⟩
  httpcallback_ req r := (onRequest onePage req r).toOption.getD r
  version := 0#32
  cap := 4
  refusal := none
  answer := some answer

/-- The second request begins with the end of the first; the kernel takes nine bytes of the first response. -/
def twoReads : List HttpEvent := [
  .handleread (some ((texts (heads twoFiles)).take 20)) (onePageServer 9), .handlewrite (some 30),
  .handleread (some ((texts (heads twoFiles)).drop 20)) (onePageServer 0), .handlewrite (some 100)]

theorem onePageServer_serves (answer : ℕ) : Serves onePage (onePageServer answer) := by
  intro req r r' h
  show (onRequest onePage req r).toOption.getD r = r'
  rw [h]
  rfl

theorem twoReads_serve {r : Option Bytes} {i : Surroundings} (h : .handleread r i ∈ twoReads) : Serves onePage i := by
  simp only [twoReads, List.mem_cons, List.not_mem_nil, HttpEvent.handleread.injEq, reduceCtorEq, false_or,
    or_false] at h
  obtain ⟨-, rfl⟩ | ⟨-, rfl⟩ := h
  · exact onePageServer_serves 9
  · exact onePageServer_serves 0

end MuduoSe
