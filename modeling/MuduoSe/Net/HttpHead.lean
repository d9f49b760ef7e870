/-
# The text of a request and how it is read

`Head` is a request up to its empty line, as a client writes it: three words and header
fields, without the characters that would end them. A field is all that stands around
its colon, so a blank behind it, none or several are all covered.

`Scan.head_text`: the reader takes exactly this text off the front of its bytes, whatever
follows, and `Scan.head_inside`: before the text is complete it waits.

Key definitions: `Head`, `Head.text`, `Head.into`.
Key theorems: `HttpContext.processRequestLine_iff`, `Scan.head_text`, `Scan.head_inside`.
-/
import MuduoSe.Net.HttpScan

namespace MuduoSe

open Buffer (kCRLF)

/-! ### The request line -/

/-- `method target HTTP/version` -/
def requestLine (method target version : Bytes) : Bytes :=
  method ++ 32 :: (target ++ 32 :: (bytes "HTTP/" ++ version))

namespace HttpContext

/-- The context after an accepted request line. -/
def withLine (c : HttpContext) (method target version : Bytes) : HttpContext :=
  { c with request_ := ((c.request_.setMethod method).2.setVersion version).setPath target }

theorem processRequestLine_line (c : HttpContext) {m p v : Bytes} (hm : 32 ∉ m) (hp : 32 ∉ p)
    (hv : 32 ∉ v) : c.processRequestLine (requestLine m p v) = (true, c.withLine m p v) := by
  have hne : ∀ {s : Bytes}, 32 ∉ s → ∀ x ∈ s, (x != 32) = true := fun h x hx => by
    have : x ≠ 32 := fun e => h (e ▸ hx)
    simpa using this
  have hexec : Regex.exec patten (requestLine m p v) = some [m, p, v] := by
    have hall : v.all (· != 32) = true := List.all_eq_true.mpr (hne hv)
    show Regex.exec (.many (· != 32) :: .lit 32 :: .many (· != 32) :: .lit 32 ::
      (Regex.lits (bytes "HTTP/") ++ [.many (· != 32)])) _ = _
    unfold requestLine
    rw [Regex.exec_many_lit_append (by decide) _ (hne hm),
      Regex.exec_many_lit_append (by decide) _ (hne hp), Regex.exec_lits, Regex.exec_many, if_pos hall]
    rfl
  unfold processRequestLine
  rw [hexec]
  rfl

/-- **The request lines that are accepted**: three words without blanks. -/
theorem processRequestLine_iff (c c' : HttpContext) (line : Bytes) :
    c.processRequestLine line = (true, c') ↔
      ∃ m p v, 32 ∉ m ∧ 32 ∉ p ∧ 32 ∉ v ∧ line = requestLine m p v ∧ c' = c.withLine m p v := by
  constructor
  · intro h
    unfold processRequestLine at h
    split at h
    · rename_i m p v hexec
      obtain ⟨m', s1, caps, hm, rfl, hcaps, h1⟩ := (Regex.exec_matches hexec).many_lit
      obtain ⟨p', s2, caps, hp, rfl, rfl, h2⟩ := h1.many_lit
      obtain ⟨s3, rfl, h3⟩ := Regex.matches_lits.mp h2
      obtain ⟨hv, rfl⟩ := Regex.matches_many_end.mp h3
      simp only [List.cons.injEq, and_true] at hcaps
      obtain ⟨rfl, rfl, rfl⟩ := hcaps
      have hne : ∀ {s : Bytes}, (∀ x ∈ s, (x != 32) = true) → 32 ∉ s := fun h hx => by
        simpa using h 32 hx
      exact ⟨m, p, v, hne hm, hne hp, hne hv, rfl, (Prod.mk.inj h).2.symm⟩
    · cases h
  · rintro ⟨m, p, v, hm, hp, hv, rfl, rfl⟩
    exact processRequestLine_line c hm hp hv

end HttpContext

/-! ### A request up to its empty line -/

/-- No blank and no character of a line end. -/
def Word (s : Bytes) : Prop := 32 ∉ s ∧ 13 ∉ s ∧ 10 ∉ s

instance (s : Bytes) : Decidable (Word s) := inferInstanceAs (Decidable (_ ∧ _ ∧ _))

theorem word_version : Word (bytes "1.1") := by decide

/-- A header field: what stands in front of its colon and behind it. -/
structure Field where
  name : Bytes
  value : Bytes
  name_colon : 58 ∉ name
  name_line : 13 ∉ name ∧ 10 ∉ name
  value_line : 13 ∉ value ∧ 10 ∉ value

structure Head where
  method : Bytes
  target : Bytes
  version : Bytes
  fields : List Field
  method_word : Word method
  target_word : Word target
  version_word : Word version

def Field.text (f : Field) : Bytes := f.name ++ 58 :: f.value

/-- The header lines and the empty line. -/
def fieldLines (fs : List Field) : Bytes := fs.flatMap (fun f => f.text ++ kCRLF) ++ kCRLF

/-- The header map after some fields. -/
def addFields (m : StringMap) (fs : List Field) : StringMap :=
  fs.foldl (fun m f => m.insert f.name (Regex.strip 32 f.value)) m

namespace Head

def text (h : Head) : Bytes :=
  requestLine h.method h.target h.version ++ kCRLF ++ fieldLines h.fields

/-- The request `r` with the words and the fields of the head. -/
def into (h : Head) (r : HttpRequest) : HttpRequest :=
  { r with
    method_ := HttpRequest.methodOf h.method
    version_ := HttpRequest.versionOf h.version
    path_ := h.target
    headers_ := addFields r.headers_ h.fields }

def isPost (h : Head) : Bool := h.method == bytes "POST"

/-- Where the parser stands behind the head. -/
def after (h : Head) : HttpRequestParseState := if h.isPost then .kExpectBody else .kGotAll

end Head

theorem requestLine_no_cr {m p v : Bytes} (hm : Word m) (hp : Word p) (hv : Word v) :
    13 ∉ requestLine m p v := by
  have hh : (13 : Byte) ∉ bytes "HTTP/" := by decide
  simp only [requestLine, List.mem_append, List.mem_cons, not_or]
  exact ⟨hm.2.1, by decide, hp.2.1, by decide, hh, hv.2.1⟩

theorem Field.text_no_cr (f : Field) : 13 ∉ f.text := by
  simp only [text, List.mem_append, List.mem_cons, not_or]
  exact ⟨f.name_line.1, by decide, f.value_line.1⟩

/-- A line without a CR ends at the first CRLF. -/
theorem cut_line {line : Bytes} (h : 13 ∉ line) (t : Bytes) :
    Cut.cut kCRLF (line ++ kCRLF ++ t) = some (line, t) := Cut.cut_free h

theorem addHeader_field (r : HttpRequest) (f : Field) :
    r.addHeader f.text = (true, { r with headers_ := addFields r.headers_ [f] }) := by
  refine HttpRequest.addHeader_field r f.name_colon fun c hc => ?_
  have h1 : c ≠ 13 := fun h => f.value_line.1 (h ▸ hc)
  have h2 : c ≠ 10 := fun h => f.value_line.2 (h ▸ hc)
  simp [dot, h1, h2]

namespace Scan

/-- The reader reads header lines up to the empty line. -/
theorem head_fields (t : Bytes) : ∀ (fs : List Field) (r : HttpRequest),
    head ⟨.kExpectHeaders, r, fieldLines fs ++ t⟩ =
      (true, ⟨if r.method_ = .kPost then .kExpectBody else .kGotAll,
        { r with headers_ := addFields r.headers_ fs }, t⟩)
  | [], r => head_end rfl (cut_line (List.not_mem_nil) t) (HttpRequest.addHeader_nil r)
  | f :: fs, r => by
    have hsplit : fieldLines (f :: fs) ++ t = f.text ++ kCRLF ++ (fieldLines fs ++ t) := by
      simp only [fieldLines, List.flatMap_cons, List.append_assoc]
    rw [hsplit, head_field rfl (cut_line f.text_no_cr _) (addHeader_field r f), head_fields t fs]
    rfl

/-- **The reader takes exactly the head off its bytes.** -/
theorem head_text (h : Head) (r : HttpRequest) (t : Bytes) :
    head ⟨.kExpectRequestLine, r, h.text ++ t⟩ = (true, ⟨h.after, h.into r, t⟩) := by
  have hsplit : h.text ++ t =
      requestLine h.method h.target h.version ++ kCRLF ++ (fieldLines h.fields ++ t) := by
    simp only [Head.text, List.append_assoc]
  have hline := HttpContext.processRequestLine_line ⟨.kExpectRequestLine, r⟩
    h.method_word.1 h.target_word.1 h.version_word.1
  have hcr := requestLine_no_cr h.method_word h.target_word h.version_word
  have hpost : h.after = if HttpRequest.methodOf h.method = .kPost then .kExpectBody else .kGotAll := by
    by_cases hm : h.method = bytes "POST"
    · simp [Head.after, Head.isPost, hm, HttpRequest.methodOf_eq_kPost.mpr]
    · simp [Head.after, Head.isPost, hm, HttpRequest.methodOf_eq_kPost]
  rw [hsplit, head_line rfl (cut_line hcr _) hline, head_fields, hpost]
  rfl

/-- **A call with a whole head completes the request**: all that is behind it is the body of
a POST, and is left alone otherwise. -/
theorem parse_text (h : Head) (r : HttpRequest) (u : Uilt) (t : Bytes) :
    parse u ⟨.kExpectRequestLine, r, h.text ++ t⟩ =
      (true, if h.isPost then (⟨.kGotAll, ((h.into r).addbody u t).1, []⟩, ((h.into r).addbody u t).2)
        else (⟨.kGotAll, h.into r, t⟩, u)) := by
  rw [parse, head_text, body, Head.after]
  by_cases hp : h.isPost = true
  · simp [hp]
  · simp [hp]

/-- **Inside the head the reader waits.** -/
theorem head_inside (h : Head) (r : HttpRequest) {x y : Bytes} (hxy : x ++ y = h.text) (hy : y ≠ []) :
    stopped (head ⟨.kExpectRequestLine, r, x⟩) = false := by
  by_contra hst
  rw [Bool.not_eq_false] at hst
  have hmore := head_stopped_more hst y
  have hall := head_text h r []
  rw [List.append_nil, ← hxy] at hall
  have heq := hmore.symm.trans hall
  have hnil := congrArg (fun x => x.2.unread) heq
  exact hy (List.append_eq_nil_iff.mp hnil).2

end Scan

end MuduoSe
