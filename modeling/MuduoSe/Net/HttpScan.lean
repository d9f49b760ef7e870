/-
# The parser as a reader of lines

What `parseRequest` does to the unread bytes alone, without indices and pointers:
`Scan.head` takes complete lines off the front, as long as they are accepted, and
`Scan.parse` adds the body step. `parseRequest_spec`: on a valid buffer, in any state but
`kGotAll`, the loop ends and does just that.

`Scan.head_more` is what makes incremental parsing work: reading a head, getting more
bytes and reading on is the same as reading when all bytes are there.

Key definitions: `Scan`, `Scan.head`, `Scan.parse`, `Parser.scan`.
Key theorems: `Parser.parseRequest_spec`, `Scan.head_more`, `Scan.head_stopped_more`.
-/
import MuduoSe.Net.HttpContext

namespace MuduoSe

/-! ### A line of a buffer -/

namespace Buffer

theorem findCRLF_layout (gone live free : Bytes) :
    (layout gone live free).findCRLF =
      .ok ((Cut.search kCRLF live).map fun k : ℕ => ((gone.length : Int) + k)) := by
  have hl : load (layout gone live free).buffer_ (layout gone live free).peek
      ((layout gone live free).beginWrite - (layout gone live free).peek) = .ok live :=
    load_layout gone live free
  have hp : (layout gone live free).peek = gone.length := rfl
  have he : (layout gone live free).beginWrite = gone.length + live.length := rfl
  unfold findCRLF
  rw [hl, ok_bind, res_pure, hp, he]
  rcases h : Cut.search kCRLF live with _ | k
  · simp
  · have hk : k + 2 ≤ live.length := (Cut.search_le h).resolve_right (by decide)
    have hne : ¬((gone.length : Int) + k = gone.length + live.length) := by omega
    rw [Option.map_some]
    exact congrArg Except.ok (if_neg hne)

/-- No line is complete. -/
theorem findCRLF_none {b : Buffer} (h : b.Valid) (hc : Cut.cut kCRLF b.content = none) :
    b.findCRLF = .ok none := by
  obtain ⟨gone, live, free, rfl⟩ := h.layout
  rw [content_layout] at hc
  rw [findCRLF_layout, Option.map_eq_none_iff.mp hc, Option.map_none]

/-- **The first line is found, can be read and can be taken off.** -/
theorem findCRLF_some {b : Buffer} (h : b.Valid) {line rest : Bytes}
    (hc : Cut.cut kCRLF b.content = some (line, rest)) :
    ∃ crlf b', b.findCRLF = .ok (some crlf) ∧
      load b.buffer_ b.peek (crlf - b.peek) = .ok line ∧
      b.retrieveUntil (crlf + 2) = .ok b' ∧ b'.Valid ∧ b'.content = rest := by
  obtain ⟨k, hk, he⟩ := Option.map_eq_some_iff.mp hc
  simp only [Prod.mk.injEq] at he
  obtain ⟨hline, hrest⟩ := he
  have hle : k + 2 ≤ b.content.length := (Cut.search_le hk).resolve_right (by decide)
  obtain ⟨b', hb', hv, hcont, -⟩ := retrieveUntil_spec h (n := k + 2) hle
  have hcrlf : b.peek + k + 2 = b.peek + (k + 2 : ℕ) := by omega
  refine ⟨b.peek + k, b', ?_, ?_, by rw [hcrlf, hb'], hv, by rw [hcont, ← hrest]; rfl⟩
  · obtain ⟨gone, live, free, rfl⟩ := h.layout
    rw [content_layout] at hk
    rw [findCRLF_layout, hk]
    rfl
  · obtain ⟨gone, live, free, rfl⟩ := h.layout
    rw [content_layout] at hle hline
    have hlen : (live.take k).length = k := by rw [List.length_take]; omega
    have hsplit : gone ++ live ++ free = gone ++ live.take k ++ (live.drop k ++ free) := by
      simp only [List.append_assoc, ← List.append_assoc (live.take k), List.take_append_drop]
    have hoff : (layout gone live free).peek + (k : Int) - (layout gone live free).peek =
        ((live.take k).length : Int) := by rw [hlen]; omega
    rw [hoff, buffer_layout, hsplit, ← hline]
    exact load_mid gone (live.take k) (live.drop k ++ free)

/-- All unread bytes can be read and be taken off. -/
theorem retrieve_all {b : Buffer} (h : b.Valid) :
    load b.buffer_ b.peek (b.beginWrite - b.peek) = .ok b.content ∧
      ∃ b', b.retrieveUntil b.beginWrite = .ok b' ∧ b'.Valid ∧ b'.content = [] := by
  refine ⟨?_, ?_⟩
  · obtain ⟨gone, live, free, rfl⟩ := h.layout
    rw [content_layout]
    exact load_layout gone live free
  · obtain ⟨b', hb', hv, hcont, -⟩ := retrieveUntil_spec h (n := b.content.length) le_rfl
    have hend : b.beginWrite = b.peek + b.content.length := by
      have := h.readsize_eq
      simp only [beginWrite, peek, readsize] at *
      omega
    exact ⟨b', by rw [hend, hb'], hv, by rw [hcont, List.drop_length]⟩

end Buffer

/-! ### The reader -/

/-- Where the reader stands: `state_`, the request but for its time, the unread bytes. -/
structure Scan where
  state : HttpRequestParseState
  request : HttpRequest
  unread : Bytes

namespace Scan

/-- The same with more bytes behind. -/
def more (s : Scan) (t : Bytes) : Scan := ⟨s.state, s.request, s.unread ++ t⟩

/-- The reader takes lines until one is missing, is refused or ends the head. -/
def head (s : Scan) : Bool × Scan :=
  match _ : Cut.cut Buffer.kCRLF s.unread with
  | none => (true, s)
  | some (line, rest) =>
    match s.state with
    | .kExpectRequestLine =>
      match HttpContext.processRequestLine ⟨s.state, s.request⟩ line with
      | (true, c) => head ⟨.kExpectHeaders, c.request_, rest⟩
      | (false, _) => (false, s)
    | .kExpectHeaders =>
      match s.request.addHeader line with
      | (true, r) => head ⟨.kExpectHeaders, r, rest⟩
      | (false, r) => (true, ⟨if r.method_ = .kPost then .kExpectBody else .kGotAll, r, rest⟩)
    | .kExpectBody => (true, s)
    | .kGotAll => (true, s)
termination_by s.unread.length
decreasing_by all_goals exact Cut.cut_lt ‹_› (by decide)

/-- The body step: all that is unread is the body. -/
def body (u : Uilt) (s : Scan) : Scan × Uilt :=
  if s.state = .kExpectBody then
    (⟨.kGotAll, (s.request.addbody u s.unread).1, []⟩, (s.request.addbody u s.unread).2)
  else (s, u)

/-- One call of `parseRequest`. -/
def parse (u : Uilt) (s : Scan) : Bool × Scan × Uilt := (s.head.1, s.head.2.body u)

theorem parse_stop {s s' : Scan} {ok : Bool} (u : Uilt) (h : s.head = (ok, s'))
    (hs : s'.state ≠ .kExpectBody) : s.parse u = (ok, s', u) := by
  unfold parse body
  rw [h, if_neg hs]

theorem parse_congr {s s' : Scan} (u : Uilt) (h : s.head = s'.head) : s.parse u = s'.parse u := by
  unfold parse
  rw [h]

variable {s : Scan} {line rest : Bytes}

/-! ### What `head` does with a line -/

theorem head_eq (s : Scan) : s.head =
    match Cut.cut Buffer.kCRLF s.unread with
    | none => (true, s)
    | some (line, rest) =>
      match s.state with
      | .kExpectRequestLine =>
        match HttpContext.processRequestLine ⟨s.state, s.request⟩ line with
        | (true, c) => head ⟨.kExpectHeaders, c.request_, rest⟩
        | (false, _) => (false, s)
      | .kExpectHeaders =>
        match s.request.addHeader line with
        | (true, r) => head ⟨.kExpectHeaders, r, rest⟩
        | (false, r) => (true, ⟨if r.method_ = .kPost then .kExpectBody else .kGotAll, r, rest⟩)
      | .kExpectBody => (true, s)
      | .kGotAll => (true, s) := by
  rw [head]
  split <;> rename_i h <;> rw [h]

theorem head_wait (hc : Cut.cut Buffer.kCRLF s.unread = none) : s.head = (true, s) := by
  rw [head_eq, hc]

theorem head_line {c : HttpContext} (hs : s.state = .kExpectRequestLine)
    (hc : Cut.cut Buffer.kCRLF s.unread = some (line, rest))
    (hp : HttpContext.processRequestLine ⟨s.state, s.request⟩ line = (true, c)) :
    s.head = head ⟨.kExpectHeaders, c.request_, rest⟩ := by
  rw [head_eq, hc]
  simp only [hp]
  simp only [hs]

theorem head_refused {c : HttpContext} (hs : s.state = .kExpectRequestLine)
    (hc : Cut.cut Buffer.kCRLF s.unread = some (line, rest))
    (hp : HttpContext.processRequestLine ⟨s.state, s.request⟩ line = (false, c)) :
    s.head = (false, s) := by
  rw [head_eq, hc]
  simp only [hp]
  simp only [hs]

theorem head_field {r : HttpRequest} (hs : s.state = .kExpectHeaders)
    (hc : Cut.cut Buffer.kCRLF s.unread = some (line, rest))
    (ha : s.request.addHeader line = (true, r)) : s.head = head ⟨.kExpectHeaders, r, rest⟩ := by
  rw [head_eq, hc]
  simp only [hs, ha]

theorem head_end {r : HttpRequest} (hs : s.state = .kExpectHeaders)
    (hc : Cut.cut Buffer.kCRLF s.unread = some (line, rest))
    (ha : s.request.addHeader line = (false, r)) :
    s.head = (true, ⟨if r.method_ = .kPost then .kExpectBody else .kGotAll, r, rest⟩) := by
  rw [head_eq, hc]
  simp only [hs, ha]

/-- A head that is read is left as it is. -/
theorem head_read (hs : s.state = .kExpectBody ∨ s.state = .kGotAll) : s.head = (true, s) := by
  rw [head_eq]
  rcases Cut.cut Buffer.kCRLF s.unread with _ | ⟨line, rest⟩
  · rfl
  · rcases hs with hs | hs <;> simp only [hs]

/-! ### More bytes -/

/-- The reader stopped for good: the line is refused or the head is read. -/
def stopped : Bool × Scan → Bool
  | (ok, s) => !ok || s.state == .kExpectBody || s.state == .kGotAll

/-- **Reading on with more bytes is reading all bytes.** -/
theorem head_more (s : Scan) (t : Bytes) : (s.more t).head = (s.head.2.more t).head := by
  induction s using head.induct with
  | case1 s hc => rw [head_wait hc]
  | case2 s line rest hc hs c hp ih => 
    have hm := Cut.cut_append (t := t) hc (by decide)
    rw [head_line (s := s.more t) hs hm hp, head_line hs hc hp]
    exact ih
  | case3 s line rest hc hs c hp => rw [head_refused hs hc hp]
  | case4 s line rest hc hs r ha ih =>
    have hm := Cut.cut_append (t := t) hc (by decide)
    rw [head_field (s := s.more t) hs hm ha, head_field hs hc ha]
    exact ih
  | case5 s line rest hc hs r ha =>
    have hm := Cut.cut_append (t := t) hc (by decide)
    rw [head_end (s := s.more t) hs hm ha, head_end hs hc ha]
    refine (head_read ?_).symm
    show (if r.method_ = .kPost then _ else _) = _ ∨ (if r.method_ = .kPost then _ else _) = _
    split_ifs
    · exact .inl rfl
    · exact .inr rfl
  | case6 s line rest hc hs => rw [head_read (.inl hs)]
  | case7 s line rest hc hs => rw [head_read (.inr hs)]

/-- Why a reader stopped where it is. -/
inductive Stop : Bool → Scan → Prop
  | wait {s : Scan} : Cut.cut Buffer.kCRLF s.unread = none → Stop true s
  | refused {s : Scan} {line rest : Bytes} {c : HttpContext} : s.state = .kExpectRequestLine →
      Cut.cut Buffer.kCRLF s.unread = some (line, rest) →
      HttpContext.processRequestLine ⟨s.state, s.request⟩ line = (false, c) → Stop false s
  | read {s : Scan} : s.state = .kExpectBody ∨ s.state = .kGotAll → Stop true s

theorem head_stop (s : Scan) : Stop s.head.1 s.head.2 := by
  induction s using head.induct with
  | case1 s hc => rw [head_wait hc]; exact .wait hc
  | case2 s line rest hc hs c hp ih => rw [head_line hs hc hp]; exact ih
  | case3 s line rest hc hs c hp => rw [head_refused hs hc hp]; exact .refused hs hc hp
  | case4 s line rest hc hs r ha ih => rw [head_field hs hc ha]; exact ih
  | case5 s line rest hc hs r ha =>
    rw [head_end hs hc ha]
    refine .read ?_
    dsimp only
    split_ifs
    · exact .inl rfl
    · exact .inr rfl
  | case6 s line rest hc hs => rw [head_read (.inl hs)]; exact .read (.inl hs)
  | case7 s line rest hc hs => rw [head_read (.inr hs)]; exact .read (.inr hs)

/-- A reader that stopped for good does nothing with more bytes. -/
theorem head_stopped_more {s : Scan} (h : stopped s.head = true) (t : Bytes) :
    (s.more t).head = (s.head.1, s.head.2.more t) := by
  rw [head_more]
  have hstop := head_stop s
  rcases hhead : s.head with ⟨ok, s'⟩
  rw [hhead] at h hstop
  rcases hstop with hc | ⟨hs, hc, hp⟩ | hs
  · refine head_read ?_
    simpa [stopped, more] using h
  · exact head_refused (s := s'.more t) hs (Cut.cut_append hc (by decide)) hp
  · exact head_read hs

end Scan

/-! ### The loop is the reader -/

theorem HttpContext.processRequestLine_untimed (c : HttpContext) (line : Bytes) :
    processRequestLine ⟨c.state_, c.request_.untimed⟩ line =
      ((c.processRequestLine line).1, ⟨c.state_, (c.processRequestLine line).2.request_.untimed⟩) := by
  unfold processRequestLine
  split <;> rfl

theorem HttpContext.processRequestLine_false {c c' : HttpContext} {line : Bytes}
    (h : c.processRequestLine line = (false, c')) : c' = c := by
  unfold processRequestLine at h
  split at h
  · cases h
  · exact (Prod.mk.inj h).2.symm

namespace Parser

/-- What the reader sees of a parser. -/
def scan (p : Parser) : Scan := ⟨p.context.state_, p.context.request_.untimed, p.buf.content⟩

variable {p : Parser} {t : Timestamp} (ok : Bool) {line rest : Bytes}

/-- One turn of the loop, against the reader. -/
theorem turn_wait (hv : p.buf.Valid) (hc : Cut.cut Buffer.kCRLF p.buf.content = none)
    (hs : p.context.state_ = .kExpectRequestLine ∨ p.context.state_ = .kExpectHeaders) :
    p.turn t ok = .ok (ok, false, p) := by
  have hf := Buffer.findCRLF_none hv hc
  unfold turn
  rcases hs with hs | hs <;> simp only [hs, hf, ok_bind, res_pure]

theorem turn_line {c : HttpContext} (hv : p.buf.Valid) (hs : p.context.state_ = .kExpectRequestLine)
    (hc : Cut.cut Buffer.kCRLF p.buf.content = some (line, rest))
    (hp : p.context.processRequestLine line = (true, c)) :
    ∃ b, b.Valid ∧ b.content = rest ∧ p.turn t ok =
      .ok (true, true, ⟨⟨.kExpectHeaders, c.request_.setReceiveTime t⟩, b, p.uilt⟩) := by
  obtain ⟨crlf, b, hf, hl, hr, hb, hrest⟩ := Buffer.findCRLF_some hv hc
  refine ⟨b, hb, hrest, ?_⟩
  unfold turn
  simp only [hs, hf, ok_bind, hl, hp, if_true, hr, res_pure]

theorem turn_refused {c : HttpContext} (hv : p.buf.Valid) (hs : p.context.state_ = .kExpectRequestLine)
    (hc : Cut.cut Buffer.kCRLF p.buf.content = some (line, rest))
    (hp : p.context.processRequestLine line = (false, c)) : p.turn t ok = .ok (false, false, p) := by
  obtain ⟨crlf, b, hf, hl, -⟩ := Buffer.findCRLF_some hv hc
  obtain rfl := HttpContext.processRequestLine_false hp
  unfold turn
  simp only [hs, hf, ok_bind, hl, hp, Bool.false_eq_true, if_false, res_pure]

theorem turn_field {r : HttpRequest} (hv : p.buf.Valid) (hs : p.context.state_ = .kExpectHeaders)
    (hc : Cut.cut Buffer.kCRLF p.buf.content = some (line, rest))
    (ha : p.context.request_.addHeader line = (true, r)) :
    ∃ b, b.Valid ∧ b.content = rest ∧
      p.turn t ok = .ok (ok, true, ⟨⟨.kExpectHeaders, r⟩, b, p.uilt⟩) := by
  obtain ⟨crlf, b, hf, hl, hr, hb, hrest⟩ := Buffer.findCRLF_some hv hc
  refine ⟨b, hb, hrest, ?_⟩
  unfold turn
  simp only [hs, hf, ok_bind, hl, ha, hr, if_true, res_pure]

theorem turn_end {r : HttpRequest} (hv : p.buf.Valid) (hs : p.context.state_ = .kExpectHeaders)
    (hc : Cut.cut Buffer.kCRLF p.buf.content = some (line, rest))
    (ha : p.context.request_.addHeader line = (false, r)) :
    ∃ b, b.Valid ∧ b.content = rest ∧ p.turn t ok =
      if r.method_ = .kPost then .ok (ok, true, ⟨⟨.kExpectBody, r⟩, b, p.uilt⟩)
      else .ok (ok, false, ⟨⟨.kGotAll, r⟩, b, p.uilt⟩) := by
  obtain ⟨crlf, b, hf, hl, hr, hb, hrest⟩ := Buffer.findCRLF_some hv hc
  refine ⟨b, hb, hrest, ?_⟩
  unfold turn
  simp only [hs, hf, ok_bind, hl, ha, hr, Bool.false_eq_true, if_false, res_pure]

theorem turn_body (hv : p.buf.Valid) (hs : p.context.state_ = .kExpectBody) :
    ∃ b, b.Valid ∧ b.content = [] ∧ p.turn t ok =
      .ok (ok, false, ⟨⟨.kGotAll, (p.context.request_.addbody p.uilt p.buf.content).1⟩, b,
        (p.context.request_.addbody p.uilt p.buf.content).2⟩) := by
  obtain ⟨hl, b, hr, hb, hrest⟩ := Buffer.retrieve_all hv
  refine ⟨b, hb, hrest, ?_⟩
  unfold turn
  simp only [hs, hl, ok_bind, hr, res_pure]

variable {ok}

/-- A call returned what the reader says, with a valid buffer. -/
def Reads (res : Res (Bool × Parser)) (x : Bool × Scan × Uilt) : Prop :=
  ∃ p', res = .ok (x.1, p') ∧ p'.buf.Valid ∧ p'.scan = x.2.1 ∧ p'.uilt = x.2.2

/-- The last turn of a loop. -/
theorem parseLoop_last {turns : ℕ} {ok' : Bool} {p' : Parser} (h : p.turn t ok = .ok (ok', false, p')) :
    parseLoop t (turns + 1) ok p = .ok (ok', p') := by
  rw [parseLoop, h, ok_bind]
  rfl

theorem parseLoop_more {turns : ℕ} {ok' : Bool} {p' : Parser} (h : p.turn t ok = .ok (ok', true, p')) :
    parseLoop t (turns + 1) ok p = parseLoop t turns ok' p' := by
  rw [parseLoop, h, ok_bind]
  rfl

/-- In the body state one turn is left. -/
theorem parseLoop_body (turns : ℕ) (hv : p.buf.Valid) (hs : p.context.state_ = .kExpectBody) :
    Reads (parseLoop t (turns + 1) true p) (p.scan.parse p.uilt) := by
  obtain ⟨b, hb, hcont, hturn⟩ := turn_body (t := t) true hv hs
  have hhead : p.scan.head = (true, p.scan) := Scan.head_read (.inl hs)
  have hbody := HttpRequest.addbody_untimed p.context.request_ p.uilt p.buf.content
  rw [parseLoop_last hturn, Scan.parse, hhead, Scan.body, if_pos (show p.scan.state = _ from hs)]
  refine ⟨_, rfl, hb, ?_, ?_⟩
  · show Scan.mk _ _ _ = Scan.mk _ (p.context.request_.untimed.addbody p.uilt p.buf.content).1 _
    rw [hbody, hcont]
  · show _ = (p.context.request_.untimed.addbody p.uilt p.buf.content).2
    rw [hbody]

/-- In a state that reads lines, the loop does with a line what the reader does. -/
theorem parseLoop_line {turns : ℕ} (hv : p.buf.Valid) (hs : p.context.state_ = .kExpectRequestLine)
    (hc : Cut.cut Buffer.kCRLF p.buf.content = some (line, rest))
    (ih : ∀ r b, b.Valid → b.content = rest →
      Reads (parseLoop t turns true ⟨⟨.kExpectHeaders, r⟩, b, p.uilt⟩)
        (Scan.parse p.uilt ⟨.kExpectHeaders, r.untimed, rest⟩)) :
    Reads (parseLoop t (turns + 1) true p) (p.scan.parse p.uilt) := by
  have hun := HttpContext.processRequestLine_untimed p.context line
  rcases hp : p.context.processRequestLine line with ⟨ok, c⟩
  rw [hp] at hun
  cases ok with
  | false =>
    rw [parseLoop_last (turn_refused true hv hs hc hp)]
    have hhead : p.scan.head = (false, p.scan) := Scan.head_refused hs hc hun
    rw [Scan.parse_stop p.uilt hhead (by rw [show p.scan.state = _ from hs]; decide)]
    exact ⟨p, rfl, hv, rfl, rfl⟩
  | true =>
    obtain ⟨b, hb, hrest, hturn⟩ := turn_line (t := t) true hv hs hc hp
    have hhead : p.scan.head = Scan.head ⟨.kExpectHeaders, c.request_.untimed, rest⟩ :=
      Scan.head_line (c := ⟨p.context.state_, c.request_.untimed⟩) hs hc hun
    rw [parseLoop_more hturn, Scan.parse_congr p.uilt hhead]
    exact ih _ b hb hrest

theorem parseLoop_header {turns : ℕ} (hv : p.buf.Valid) (hs : p.context.state_ = .kExpectHeaders)
    (hc : Cut.cut Buffer.kCRLF p.buf.content = some (line, rest)) (hpos : 0 < turns)
    (ih : ∀ r b, b.Valid → b.content = rest →
      Reads (parseLoop t turns true ⟨⟨.kExpectHeaders, r⟩, b, p.uilt⟩)
        (Scan.parse p.uilt ⟨.kExpectHeaders, r.untimed, rest⟩)) :
    Reads (parseLoop t (turns + 1) true p) (p.scan.parse p.uilt) := by
  have hun := HttpRequest.addHeader_untimed p.context.request_ line
  rcases ha : p.context.request_.addHeader line with ⟨isHeader, r⟩
  rw [ha] at hun
  cases isHeader with
  | true =>
    obtain ⟨b, hb, hrest, hturn⟩ := turn_field (t := t) true hv hs hc ha
    have hhead : p.scan.head = Scan.head ⟨.kExpectHeaders, r.untimed, rest⟩ :=
      Scan.head_field hs hc hun
    rw [parseLoop_more hturn, Scan.parse_congr p.uilt hhead]
    exact ih r b hb hrest
  | false =>
    obtain ⟨b, hb, hrest, hturn⟩ := turn_end (t := t) true hv hs hc ha
    have hhead : p.scan.head =
        (true, ⟨if r.method_ = .kPost then .kExpectBody else .kGotAll, r.untimed, rest⟩) :=
      Scan.head_end (r := r.untimed) hs hc hun
    by_cases hm : r.method_ = .kPost
    · rw [if_pos hm] at hturn hhead
      obtain ⟨turns, rfl⟩ := Nat.exists_eq_add_one.mpr hpos
      rw [parseLoop_more hturn, Scan.parse_congr p.uilt (hhead.trans (Scan.head_read (.inl rfl)).symm),
        ← hrest]
      exact parseLoop_body (p := ⟨⟨.kExpectBody, r⟩, b, p.uilt⟩) turns hb rfl
    · rw [if_neg hm] at hturn hhead
      rw [parseLoop_last hturn, Scan.parse_stop p.uilt hhead (by simp), ← hrest]
      exact ⟨_, rfl, hb, rfl, rfl⟩

/-- **The loop is the reader**, for any number of turns above that of the unread bytes. -/
theorem parseLoop_spec : ∀ (turns : ℕ) (p : Parser), p.buf.Valid → p.context.state_ ≠ .kGotAll →
    p.buf.content.length < turns → Reads (parseLoop t turns true p) (p.scan.parse p.uilt)
  | 0, _, _, _, h => absurd h (Nat.not_lt_zero _)
  | turns + 1, p, hv, hs, hlen => by
    by_cases hb : p.context.state_ = .kExpectBody
    · exact parseLoop_body turns hv hb
    · have hst : p.context.state_ = .kExpectRequestLine ∨ p.context.state_ = .kExpectHeaders := by
        revert hb hs
        cases p.context.state_ <;> simp
      rcases hc : Cut.cut Buffer.kCRLF p.buf.content with _ | ⟨line, rest⟩
      · rw [parseLoop_last (turn_wait true hv hc hst), Scan.parse_stop p.uilt (Scan.head_wait hc) hb]
        exact ⟨p, rfl, hv, rfl, rfl⟩
      · have hlt : rest.length < turns := by
          have := Cut.cut_lt hc (by decide)
          omega
        have ih : ∀ r b, b.Valid → b.content = rest →
            Reads (parseLoop t turns true ⟨⟨.kExpectHeaders, r⟩, b, p.uilt⟩)
              (Scan.parse p.uilt ⟨.kExpectHeaders, r.untimed, rest⟩) := by
          intro r b hb hrest
          subst hrest
          exact parseLoop_spec turns ⟨⟨.kExpectHeaders, r⟩, b, p.uilt⟩ hb (by simp) hlt
        rcases hst with hst | hst
        · exact parseLoop_line hv hst hc ih
        · exact parseLoop_header hv hst hc (by omega) ih

/-- **What `parseRequest` does**: it ends, and is one call of the reader. -/
theorem parseRequest_spec (hv : p.buf.Valid) (hs : p.context.state_ ≠ .kGotAll) :
    Reads (p.parseRequest t) (p.scan.parse p.uilt) := by
  refine parseLoop_spec _ p hv hs ?_
  rw [hv.readsize_eq, sizeT_of_nonneg (Int.natCast_nonneg _)]
  exact Nat.lt_succ_self _

end Parser

end MuduoSe
