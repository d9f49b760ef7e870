/-
# HttpResponse: what a response is on the wire

`net/HttpResponse.h` and `net/HttpResponse.cc`. A `Reply` is a response as it is written: the
pieces of its head that `appendToBuffer` writes with a line end each, and its body. A piece is a line
unless the handler put CR or LF into the status message or a header; what such a handler makes of its
head is not looked into. A reply is delimited by itself if one of the pieces is the `Content-Length` of
the body; `appendToBuffer` writes that line only where the connection is to be kept, and `snprintf` cuts
it off after 31 characters.

Key definitions: `HttpResponse.appendToBuffer`, `Reply.Carries`, `HttpResponse.Sized`.
Key theorems: `HttpResponse.appendToBuffer_spec`, `HttpResponse.carries_iff`.
-/
import MuduoSe.Net.Decimal

namespace MuduoSe

/-- An enumerator, or another number that was cast to the type. -/
inductive HttpStatusCode
  | kUnknown
  | k200Ok
  | k301MovedPermanently
  | k400BadRequest
  | k404NotFound
  | other (n : BitVec 32)
  deriving DecidableEq, Repr

def HttpStatusCode.value : HttpStatusCode → BitVec 32
  | .kUnknown => 0
  | .k200Ok => 200
  | .k301MovedPermanently => 301
  | .k400BadRequest => 400
  | .k404NotFound => 404
  | .other n => n

structure HttpResponse where
  headers_ : StringMap
  version_ : BitVec 32
  statusCode_ : HttpStatusCode
  statusMessage_ : Bytes
  closeConnection_ : Bool
  body_ : Bytes

/-- The string in a `char buf[32]` after `snprintf(buf, sizeof buf, ..)`. -/
def buf32 (text : Bytes) : Bytes := text.take 31

/-- `"Content-Length: %zd\r\n"`. -/
def contentLength (n : ℕ) : Bytes := bytes "Content-Length: " ++ decimal n ++ bytes "\r\n"

namespace HttpResponse

/-- `HttpResponse(close)`, which leaves `version_` as the memory was. -/
def new (close : Bool) (version : BitVec 32) : HttpResponse := ⟨∅, version, .kUnknown, [], close, []⟩

/-- `"HTTP/1.%d %d "`. -/
def version (r : HttpResponse) : Bytes :=
  bytes "HTTP/1." ++ bytes (toString r.version_.toInt) ++ bytes " " ++
    bytes (toString r.statusCode_.value.toInt) ++ bytes " "

/-- The loop over `headers_`. -/
def appendHeaders (output : Buffer) : List (Bytes × Bytes) → Res Buffer
  | [] => .ok output
  | header :: headers => do
    let output ← output.appendString header.1
    let output ← output.appendString (bytes ": ")
    let output ← output.appendString header.2
    let output ← output.appendString (bytes "\r\n")
    appendHeaders output headers

/-- The branch of `appendToBuffer` on `closeConnection_`. -/
def appendConnection (r : HttpResponse) (output : Buffer) : Res Buffer :=
  if r.closeConnection_ then output.appendString (bytes "Connection: close\r\n")
  else do
    let output ← output.appendString (buf32 (contentLength r.body_.length))
    output.appendString (bytes "Connection: Keep-Alive\r\n")

def appendToBuffer (r : HttpResponse) (output : Buffer) : Res Buffer := do
  let output ← output.appendString (buf32 r.version)
  let output ← output.appendString r.statusMessage_
  let output ← output.appendString (bytes "\r\n")
  let output ← r.appendConnection output
  let output ← appendHeaders output r.headers_.toList
  let output ← output.appendString (bytes "\r\n")
  output.appendString r.body_

end HttpResponse

/-! ### A reply on the wire -/

/-- The pieces of the head, with their line ends, and the body; without CR or LF inside, each is a line. -/
structure Reply where
  head : List Bytes
  body : Bytes
  deriving DecidableEq, Repr

namespace Reply

def text (r : Reply) : Bytes := r.head.flatten ++ bytes "\r\n" ++ r.body

/-- A piece of the head is the line that says how long the body is. -/
def Carries (r : Reply) : Prop := contentLength r.body.length ∈ r.head

instance (r : Reply) : Decidable r.Carries := inferInstanceAs (Decidable (_ ∈ _))

/-- The reply to a request that cannot be parsed. -/
def badRequest : Reply := ⟨[bytes "HTTP/1.1 400 Bad Request\r\n"], []⟩

theorem badRequest_text : badRequest.text = bytes "HTTP/1.1 400 Bad Request\r\n\r\n" := by decide

end Reply

namespace HttpResponse

/-- A header as it is written. -/
def headerText (h : Bytes × Bytes) : Bytes := h.1 ++ bytes ": " ++ h.2 ++ bytes "\r\n"

/-- The lines of `appendConnection`. -/
def connectionLines (r : HttpResponse) : List Bytes :=
  if r.closeConnection_ then [bytes "Connection: close\r\n"]
  else [buf32 (contentLength r.body_.length), bytes "Connection: Keep-Alive\r\n"]

/-- The response as it is written. -/
def reply (r : HttpResponse) : Reply where
  head := (buf32 r.version ++ r.statusMessage_ ++ bytes "\r\n") ::
    (r.connectionLines ++ r.headers_.toList.map headerText)
  body := r.body_

theorem appendHeaders_spec : ∀ (headers : List (Bytes × Bytes)) {b : Buffer}, b.Valid →
    ∃ b', appendHeaders b headers = .ok b' ∧ b'.Valid ∧
      b'.content = b.content ++ (headers.map headerText).flatten
  | [], b, hv => ⟨b, rfl, hv, by simp⟩
  | h :: hs, b, hv => by
    obtain ⟨b₁, h₁, hv₁, hc₁, -⟩ := Buffer.appendString_spec hv h.1
    obtain ⟨b₂, h₂, hv₂, hc₂, -⟩ := Buffer.appendString_spec hv₁ (bytes ": ")
    obtain ⟨b₃, h₃, hv₃, hc₃, -⟩ := Buffer.appendString_spec hv₂ h.2
    obtain ⟨b₄, h₄, hv₄, hc₄, -⟩ := Buffer.appendString_spec hv₃ (bytes "\r\n")
    obtain ⟨b₅, h₅, hv₅, hc₅⟩ := appendHeaders_spec hs hv₄
    refine ⟨b₅, ?_, hv₅, ?_⟩
    · rw [appendHeaders, h₁, ok_bind, h₂, ok_bind, h₃, ok_bind, h₄, ok_bind, h₅]
    · rw [hc₅, hc₄, hc₃, hc₂, hc₁]
      simp [headerText]

theorem appendConnection_spec (r : HttpResponse) {b : Buffer} (hv : b.Valid) :
    ∃ b', r.appendConnection b = .ok b' ∧ b'.Valid ∧ b'.content = b.content ++ r.connectionLines.flatten := by
  unfold appendConnection connectionLines
  cases r.closeConnection_ with
  | true =>
    obtain ⟨b₁, h₁, hv₁, hc₁, -⟩ := Buffer.appendString_spec hv (bytes "Connection: close\r\n")
    exact ⟨b₁, h₁, hv₁, by rw [hc₁]; simp⟩
  | false =>
    obtain ⟨b₁, h₁, hv₁, hc₁, -⟩ := Buffer.appendString_spec hv (buf32 (contentLength r.body_.length))
    obtain ⟨b₂, h₂, hv₂, hc₂, -⟩ := Buffer.appendString_spec hv₁ (bytes "Connection: Keep-Alive\r\n")
    refine ⟨b₂, ?_, hv₂, ?_⟩
    · rw [if_neg (by decide), h₁, ok_bind, h₂]
    · rw [hc₂, hc₁]
      simp

/-- **A response is appended as its reply.** -/
theorem appendToBuffer_spec (r : HttpResponse) {b : Buffer} (hv : b.Valid) :
    ∃ b', r.appendToBuffer b = .ok b' ∧ b'.Valid ∧ b'.content = b.content ++ r.reply.text := by
  obtain ⟨b₁, h₁, hv₁, hc₁, -⟩ := Buffer.appendString_spec hv (buf32 r.version)
  obtain ⟨b₂, h₂, hv₂, hc₂, -⟩ := Buffer.appendString_spec hv₁ r.statusMessage_
  obtain ⟨b₃, h₃, hv₃, hc₃, -⟩ := Buffer.appendString_spec hv₂ (bytes "\r\n")
  obtain ⟨b₄, h₄, hv₄, hc₄⟩ := appendConnection_spec r hv₃
  obtain ⟨b₅, h₅, hv₅, hc₅⟩ := appendHeaders_spec r.headers_.toList hv₄
  obtain ⟨b₆, h₆, hv₆, hc₆, -⟩ := Buffer.appendString_spec hv₅ (bytes "\r\n")
  obtain ⟨b₇, h₇, hv₇, hc₇, -⟩ := Buffer.appendString_spec hv₆ r.body_
  refine ⟨b₇, ?_, hv₇, ?_⟩
  · unfold appendToBuffer
    rw [h₁, ok_bind, h₂, ok_bind, h₃, ok_bind, h₄, ok_bind, h₅, ok_bind, h₆, ok_bind, h₇]
  · rw [hc₇, hc₆, hc₅, hc₄, hc₃, hc₂, hc₁]
    simp [Reply.text, reply]

/-! ### Which replies say how long they are -/

/-- The connection is kept and the length has at most 13 digits, or the handler set the header. -/
def Sized (r : HttpResponse) : Prop :=
  r.closeConnection_ = false ∧ r.body_.length < 10 ^ 13 ∨
    r.headers_[bytes "Content-Length"]? = some (decimal r.body_.length)

instance (r : HttpResponse) : Decidable r.Sized := inferInstanceAs (Decidable (_ ∨ _))

/-- The line is cut off if the number has more than 13 digits. -/
theorem buf32_contentLength (n : ℕ) : buf32 (contentLength n) = contentLength n ↔ n < 10 ^ 13 := by
  have hlen : (contentLength n).length = 18 + (decimal n).length := by
    unfold contentLength
    rw [List.length_append, List.length_append]
    show 16 + (decimal n).length + 2 = _
    omega
  rw [buf32, List.take_eq_self_iff, hlen, ← decimal_length_iff (by decide)]
  omega

/-- A header line is the `Content-Length` only as the header of that name. -/
theorem headerText_eq (h : Bytes × Bytes) (n : ℕ) :
    headerText h = contentLength n ↔ h = (bytes "Content-Length", decimal n) := by
  obtain ⟨k, v⟩ := h
  have hn : 58 ∉ decimal n := decimal_free rfl n
  have hline : headerText (k, v) = contentLength n ↔
      k ++ 58 :: (32 :: v) = bytes "Content-Length" ++ 58 :: (32 :: decimal n) := by
    unfold headerText contentLength
    rw [List.append_left_inj]
    have hl : k ++ bytes ": " ++ v = k ++ 58 :: (32 :: v) := by
      rw [List.append_assoc]
      rfl
    have hr : bytes "Content-Length: " ++ decimal n = bytes "Content-Length" ++ 58 :: (32 :: decimal n) := by
      have hb : bytes "Content-Length: " = bytes "Content-Length" ++ [58, 32] := by decide
      rw [hb, List.append_assoc]
      rfl
    rw [hl, hr]
  rw [hline, Prod.mk.injEq]
  constructor
  · intro he
    have hv : (58 : Byte) ∉ 32 :: decimal n := by
      rw [List.mem_cons]
      exact not_or.mpr ⟨by decide, hn⟩
    obtain ⟨hk, -, hd⟩ := (List.append_cons_inj_of_notMem (by decide) hv).mp he.symm
    rw [List.cons.injEq] at hd
    exact ⟨hk.symm, hd.2.symm⟩
  · rintro ⟨rfl, rfl⟩
    rfl

/-- Any other line starts otherwise. -/
theorem ne_contentLength {l : Bytes} (h : l.take 4 ≠ bytes "Cont") (n : ℕ) : contentLength n ≠ l := by
  rintro rfl
  exact h rfl

theorem contentLength_mem_lines (r : HttpResponse) : contentLength r.body_.length ∈ r.connectionLines ↔
    r.closeConnection_ = false ∧ r.body_.length < 10 ^ 13 := by
  unfold connectionLines
  cases r.closeConnection_ with
  | true =>
    rw [if_pos rfl, List.mem_singleton]
    exact iff_of_false (ne_contentLength (by decide) _) (fun h => absurd h.1 (by decide))
  | false =>
    have hkeep : contentLength r.body_.length ∉ [bytes "Connection: Keep-Alive\r\n"] := by
      rw [List.mem_singleton]
      exact ne_contentLength (by decide) _
    rw [if_neg (by decide), List.mem_cons, or_iff_left hkeep, eq_comm, buf32_contentLength]
    exact (and_iff_right rfl).symm

/-- **Which replies carry their length.** -/
theorem carries_iff (r : HttpResponse) : r.reply.Carries ↔ r.Sized := by
  have hfirst : contentLength r.body_.length ≠ buf32 r.version ++ r.statusMessage_ ++ bytes "\r\n" := by
    apply ne_contentLength
    show bytes "HTTP" ≠ _
    decide
  have hheader : contentLength r.body_.length ∈ r.headers_.toList.map headerText ↔
      r.headers_[bytes "Content-Length"]? = some (decimal r.body_.length) := by
    rw [List.mem_map, ← Std.ExtTreeMap.mem_toList_iff_getElem?_eq_some]
    simp only [headerText_eq, exists_eq_right]
  unfold Reply.Carries reply Sized
  rw [List.mem_cons, or_iff_right hfirst, List.mem_append, contentLength_mem_lines, hheader]

end HttpResponse
end MuduoSe
