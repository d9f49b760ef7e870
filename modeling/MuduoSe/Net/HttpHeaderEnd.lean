/-
# Where the header section ends

A sender's header section is the lines up to the first empty one (`headerSection`). The
parser has no test for the empty line: it leaves `kExpectHeaders` at the first line that
`addHeader` refuses, and returns true. So it ends the section where the sender did exactly
if every complete line in front of the empty line is a field, `name ':' value`; otherwise the
rest of the section is left as a body or as the next request.

The bytes arrive in any chunks, each followed by a call of `parseRequest`, as in `feed`.

Key definitions: `IsField`, `headerSection`, `Parser.EndsHeaders`.
Key theorems: `addHeader_iff`, `Scan.head_section`, `headers_end_iff`.
-/
import MuduoSe.Net.HttpSplit

namespace MuduoSe

open Buffer (kCRLF)

/-! ### The section a sender wrote -/

/-- `name ':' value`, the name without a colon and the value without line terminators. -/
def IsField (line : Bytes) : Prop :=
  ∃ name value, 58 ∉ name ∧ (∀ c ∈ value, dot c = true) ∧ line = name ++ 58 :: value

/-- The complete lines in front of the first empty line, and what is behind that line, if it
is there. -/
def headerSection (s : Bytes) : List Bytes × Option Bytes :=
  match _ : Cut.cut kCRLF s with
  | none => ([], none)
  | some (line, rest) =>
    if line = [] then ([], some rest)
    else (line :: (headerSection rest).1, (headerSection rest).2)
termination_by s.length
decreasing_by all_goals exact Cut.cut_lt ‹_› (by decide)

theorem headerSection_wait {s : Bytes} (hc : Cut.cut kCRLF s = none) : headerSection s = ([], none) := by
  rw [headerSection]
  split <;> simp_all

theorem headerSection_empty {s rest : Bytes} (hc : Cut.cut kCRLF s = some ([], rest)) :
    headerSection s = ([], some rest) := by
  rw [headerSection]
  split <;> simp_all

theorem headerSection_line {s line rest : Bytes} (hc : Cut.cut kCRLF s = some (line, rest)) (hl : line ≠ []) :
    headerSection s = (line :: (headerSection rest).1, (headerSection rest).2) := by
  rw [headerSection]
  split <;> simp_all

/-- **The lines that `addHeader` accepts.** -/
theorem addHeader_iff (r : HttpRequest) (line : Bytes) : (r.addHeader line).1 = true ↔ IsField line := by
  constructor
  · intro h
    unfold HttpRequest.addHeader at h
    split at h
    · rename_i name value hexec
      obtain ⟨name', s, caps, hn, rfl, -, hm⟩ := (Regex.exec_matches hexec).many_lit
      refine ⟨name', s, fun hmem => by simpa using hn 58 hmem, ?_, rfl⟩
      -- the blank is of the class of the value
      cases hm with
      | take hm =>
        intro c hc
        rcases List.mem_cons.mp hc with rfl | hc
        · decide
        · exact (Regex.matches_many_end.mp hm).1 c hc
      | skip hm => exact (Regex.matches_many_end.mp hm).1
    · cases h
  · rintro ⟨name, value, hn, hv, rfl⟩
    rw [HttpRequest.addHeader_field r hn hv]

/-! ### What the reader does with a section -/

namespace Scan

/-- How the reader leaves a section. -/
def Leaves (r : HttpRequest) (s : Bytes) (x : Bool × Scan) : Prop :=
  match (headerSection s).2 with
  | none => x.2.state = .kExpectHeaders
  | some rest => x.2.unread = rest ∧ x.2.state = if r.method_ = .kPost then .kExpectBody else .kGotAll

/-- The reader never refuses a header line, and where all lines are fields it stops behind
the section. -/
theorem head_section (s : Bytes) (r : HttpRequest) : (head ⟨.kExpectHeaders, r, s⟩).1 = true ∧
    (head ⟨.kExpectHeaders, r, s⟩).2.request.method_ = r.method_ ∧
    ((∀ line ∈ (headerSection s).1, IsField line) → Leaves r s (head ⟨.kExpectHeaders, r, s⟩)) := by
  unfold Leaves
  induction s using headerSection.induct generalizing r with
  | case1 s hc =>
    rw [headerSection_wait hc, head_wait hc]
    exact ⟨rfl, rfl, fun _ => rfl⟩
  | case2 s rest hc =>
    rw [headerSection_empty hc, head_end rfl hc (HttpRequest.addHeader_nil r)]
    exact ⟨rfl, rfl, fun _ => ⟨rfl, rfl⟩⟩
  | case3 s line rest hc hl ih =>
    have hiff := addHeader_iff r line
    have hmethod := HttpRequest.addHeader_method r line
    rw [headerSection_line hc hl]
    rcases ha : r.addHeader line with ⟨isHeader, r'⟩
    rw [ha] at hiff hmethod
    cases isHeader with
    | true =>
      rw [head_field rfl hc ha]
      obtain ⟨h1, h2, h3⟩ := ih r'
      rw [hmethod] at h2 h3
      exact ⟨h1, h2, fun hall => h3 fun l hl => hall l (List.mem_cons_of_mem _ hl)⟩
    | false =>
      rw [head_end rfl hc ha]
      refine ⟨rfl, hmethod, fun hall => ?_⟩
      exact absurd (hiff.mpr (hall line (List.mem_cons_self ..))) (by simp)

end Scan

namespace Parser

/-- The bytes `s` of the header section are unread, or a request line the parser accepts and
they are. -/
def AtHeaders (p : Parser) (s : Bytes) : Prop :=
  p.context.state_ = .kExpectHeaders ∧ p.buf.content = s ∨
    p.context.state_ = .kExpectRequestLine ∧ ∃ line, Cut.cut kCRLF p.buf.content = some (line, s) ∧
      (p.context.processRequestLine line).1 = true

/-- The header section `s` ended where its sender ended it: the state is left with the rest
unread, or in the body, and a line that is no field is refused. -/
structure EndsHeaders (s : Bytes) (last : Bool) (p : Parser) : Prop where
  ends : p.context.state_ ≠ .kExpectHeaders → (headerSection s).2 = some
    (if p.context.request_.method_ = .kPost then p.context.request_.body_ ++ p.buf.content else p.buf.content)
  refuses : (∃ line ∈ (headerSection s).1, ¬ IsField line) → last = false

/-- The reader on the bytes of a section. -/
theorem AtHeaders.head {p : Parser} {s : Bytes} (h : p.AtHeaders s) :
    ∃ r, ∀ t, (p.scan.more t).head = Scan.head ⟨.kExpectHeaders, r, s ++ t⟩ := by
  rcases h with ⟨hs, rfl⟩ | ⟨hs, line, hc, hok⟩
  · refine ⟨p.context.request_.untimed, fun t => ?_⟩
    unfold scan Scan.more
    rw [hs]
  · have hline := HttpContext.processRequestLine_untimed p.context line
    rcases hp : p.context.processRequestLine line with ⟨ok, c⟩
    rw [hp] at hline hok
    obtain rfl : ok = true := hok
    refine ⟨c.request_.untimed, fun t => ?_⟩
    exact Scan.head_line (c := ⟨p.context.state_, c.request_.untimed⟩) hs (Cut.cut_append hc (by decide)) hline

end Parser

/-- **The header section ends where it should** exactly if every complete line in front of its
empty line is a field. -/
theorem headers_end_iff (p : Parser) (s : Bytes) (cs : List Chunk) (hv : p.buf.Valid) (hp : p.AtHeaders s)
    (hcs : cs ≠ []) :
    ∃ last p', Parser.feed cs true p = .ok (last, p') ∧
      (Parser.EndsHeaders (s ++ stream cs) last p' ↔
        ∀ line ∈ (headerSection (s ++ stream cs)).1, IsField line) := by
  obtain ⟨c, cs, rfl⟩ := List.exists_cons_of_ne_nil hcs
  obtain ⟨r, hr⟩ := hp.head
  have hgot : p.context.state_ ≠ .kGotAll := by
    rcases hp with ⟨hs, -⟩ | ⟨hs, -⟩ <;> rw [hs] <;> decide
  obtain ⟨p₁, hfeed, hv₁, hscan⟩ := Parser.feed_parse hv hgot c cs
  obtain ⟨last, p', hrest, hset⟩ := Parser.feed_settled cs (x := c.1) (s := p.scan) (Parser.settled_parse hv₁ hscan)
  refine ⟨last, p', hfeed.trans hrest, ?_⟩
  rw [hr, ← stream_cons] at hset
  obtain ⟨h1, h2, h3⟩ := Scan.head_section (s ++ stream (c :: cs)) r
  constructor
  · intro hends line hline
    by_contra hno
    rw [hset.result, h1] at hends
    exact absurd (hends.refuses ⟨line, hline, hno⟩) (by decide)
  · intro hall
    refine ⟨fun hleft => ?_, fun ⟨line, hline, hno⟩ => absurd (hall line hline) hno⟩
    have hleaves := h3 hall
    unfold Scan.Leaves at hleaves
    cases hsec : (headerSection (s ++ stream (c :: cs))).2 with
    | none =>
      rw [hsec] at hleaves
      obtain ⟨hscan, -⟩ := hset.reading (by rw [hleaves]; decide)
      exact absurd ((congrArg Scan.state hscan).trans hleaves) hleft
    | some rest =>
      rw [hsec] at hleaves
      obtain ⟨hunread, hstate⟩ := hleaves
      by_cases hm : r.method_ = .kPost
      · rw [if_pos hm] at hstate
        obtain ⟨-, hmethod, hbody⟩ := hset.bodied hstate
        rw [if_pos (hmethod.trans (h2.trans hm)), ← hbody, hunread]
      · rw [if_neg hm] at hstate
        obtain ⟨hscan, -⟩ := hset.reading (by rw [hstate]; decide)
        have hmethod : p'.context.request_.method_ = r.method_ :=
          (congrArg (fun s => s.request.method_) hscan).trans h2
        have hcontent : p'.buf.content = rest := (congrArg Scan.unread hscan).trans hunread
        rw [hmethod, if_neg hm, hcontent]

/-- A section of two fields in two chunks, with the next request behind it. -/
theorem headers_end_iff_two : ∃ last p',
    Parser.feed [(bytes "a: b\r", default), (bytes "\nc:d\r\n\r\nGET", default)] true
      ⟨⟨.kExpectHeaders, .new default⟩, .new 4, ⟨∅⟩⟩ = .ok (last, p') ∧
    Parser.EndsHeaders (bytes "a: b\r\nc:d\r\n\r\nGET") last p' := by
  obtain ⟨last, p', hfeed, hiff⟩ := headers_end_iff ⟨⟨.kExpectHeaders, .new default⟩, .new 4, ⟨∅⟩⟩ []
    [(bytes "a: b\r", default), (bytes "\nc:d\r\n\r\nGET", default)] (Buffer.new_valid 4)
    (.inl ⟨rfl, Buffer.content_new 4⟩) (by decide)
  have hfirst : Cut.cut kCRLF (bytes "a: b\r\nc:d\r\n\r\nGET") = some (bytes "a: b", bytes "c:d\r\n\r\nGET") := by
    decide +kernel
  have hsecond : Cut.cut kCRLF (bytes "c:d\r\n\r\nGET") = some (bytes "c:d", bytes "\r\nGET") := by decide +kernel
  have hend : Cut.cut kCRLF (bytes "\r\nGET") = some ([], bytes "GET") := by decide +kernel
  have hsection : (headerSection (bytes "a: b\r\nc:d\r\n\r\nGET")).1 = [bytes "a: b", bytes "c:d"] := by
    rw [headerSection_line hfirst (by decide), headerSection_line hsecond (by decide), headerSection_empty hend]
  refine ⟨last, p', hfeed, hiff.mpr ?_⟩
  show ∀ line ∈ (headerSection (bytes "a: b\r\nc:d\r\n\r\nGET")).1, IsField line
  rw [hsection, List.forall_mem_cons, List.forall_mem_singleton]
  exact ⟨⟨bytes "a", bytes " b", by decide, by decide +kernel, rfl⟩,
    bytes "c", bytes "d", by decide, by decide +kernel, rfl⟩

/-- A line without a colon ends the section: the call returns true with the request complete,
and the field behind that line is left to be the next request. -/
theorem bad_line_ends_headers :
    let text := bytes "GET / HTTP/1.1\r\noops\r\na: b\r\n\r\n"
    let p : Parser := ⟨.new default, ⟨0, text.length, text⟩, ⟨∅⟩⟩
    let s := bytes "oops\r\na: b\r\n\r\n"
    p.buf.Valid ∧ p.AtHeaders s ∧ ∃ p', Parser.feed [([], default)] true p = .ok (true, p') ∧
      p'.context.gotAll = true ∧ p'.buf.content = bytes "a: b\r\n\r\n" ∧ ¬ Parser.EndsHeaders s true p' := by
  intro text p s
  refine ⟨by decide, .inr ⟨rfl, bytes "GET / HTTP/1.1", by decide +kernel, by decide +kernel⟩, ?_⟩
  have hrun : (Parser.feed [([], default)] true p).map (fun x => (x.1, x.2.context.gotAll, x.2.buf.content)) =
      .ok (true, true, bytes "a: b\r\n\r\n") := by decide +kernel
  obtain ⟨⟨ok, p'⟩, hp', hx⟩ := map_ok hrun
  obtain ⟨rfl, hgot, hcontent⟩ : ok = true ∧ p'.context.gotAll = true ∧ p'.buf.content = _ := by
    simpa [Prod.mk.injEq] using hx
  refine ⟨p', hp', hgot, hcontent, fun h => ?_⟩
  have hcut : Cut.cut kCRLF s = some (bytes "oops", bytes "a: b\r\n\r\n") := by decide +kernel
  have hsec := headerSection_line hcut (by decide)
  have hbad : ¬ IsField (bytes "oops") := by
    rintro ⟨name, value, -, -, he⟩
    have hmem : (58 : Byte) ∈ bytes "oops" := he ▸ List.mem_append_right _ (List.mem_cons_self ..)
    exact absurd hmem (by decide)
  exact absurd (h.refuses ⟨bytes "oops", by rw [hsec]; exact List.mem_cons_self .., hbad⟩) (by decide)

end MuduoSe
