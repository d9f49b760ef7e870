/-
# A response can be read back

`decode` is a client that reads a response to its end: the status line, the header lines up to the
first empty line, and all that follows as the body. `serialised_decodes`: whatever `appendToBuffer`
appends for a response is read back as that response, with the `Content-Length` of its body or with
`Connection: close`, behind the bytes that were in the `Buffer`; and no `snprintf` runs out of its
32 bytes. A status code or a version is any 32-bit number: the two of them fill `buf` to its last
byte.

Key definitions: `decode`, `PlainResponse`, `HttpResponse.Decodes`.
Key theorems: `headerSection_fields`, `PlainResponse.decode_text`, `serialised_decodes`.
-/
import MuduoSe.Net.HttpHeaderEnd
import MuduoSe.Net.HttpResponse
import MuduoSe.Net.HttpRoundTrip

namespace MuduoSe

open Buffer (kCRLF)

/-! ### Reading a response -/

structure Decoded where
  version : ℤ
  status : ℤ
  message : Bytes
  fields : List (Bytes × Bytes)
  body : Bytes
  deriving DecidableEq, Repr

/-- `HTTP/1.version status message` -/
def decodeStatus (line : Bytes) : Option (ℤ × ℤ × Bytes) := do
  let (front, rest) ← Cut.cut (bytes "HTTP/1.") line
  if front ≠ [] then none
  else
    let (version, rest) ← Cut.cut [32] rest
    let (status, message) ← Cut.cut [32] rest
    return (← integer version, ← integer status, message)

/-- `name: value` -/
def decodeField (line : Bytes) : Option (Bytes × Bytes) := Cut.cut (bytes ": ") line

/-- A response that the connection ends behind. -/
def decode (s : Bytes) : Option Decoded := do
  let (line, rest) ← Cut.cut kCRLF s
  let (version, status, message) ← decodeStatus line
  let body ← (headerSection rest).2
  let fields ← (headerSection rest).1.mapM decodeField
  return ⟨version, status, message, fields, body⟩

/-- The headers that the connection adds by itself. -/
def framing : List Bytes := [bytes "Connection", bytes "Content-Length"]

/-- The other headers. -/
def Decoded.headers (d : Decoded) : StringMap := .ofList (d.fields.filter fun h => h.1 ∉ framing)

/-- A response whose texts contain nothing that ends them. -/
structure PlainResponse extends HttpResponse where
  message_line : 13 ∉ statusMessage_ ∧ 10 ∉ statusMessage_
  headers_plain : ∀ h ∈ headers_.toList, PlainHeader h
  headers_own : ∀ h ∈ headers_.toList, h.1 ∉ framing

namespace HttpResponse

/-- What was read is the response. -/
structure Decodes (r : HttpResponse) (d : Decoded) : Prop where
  version : d.version = r.version_.toInt
  status : d.status = r.statusCode_.value.toInt
  message : d.message = r.statusMessage_
  headers : d.headers = r.headers_
  body : d.body = r.body_
  kept : r.closeConnection_ = false → (bytes "Content-Length", decimal r.body_.length) ∈ d.fields ∧
    (bytes "Connection", bytes "Keep-Alive") ∈ d.fields
  closed : r.closeConnection_ = true → (bytes "Connection", bytes "close") ∈ d.fields ∧
    ∀ h ∈ d.fields, h.1 ≠ bytes "Content-Length"

/-- What `snprintf` prints fits `buf`. -/
def Untruncated (r : HttpResponse) : Prop :=
  r.version.length < 32 ∧ (r.closeConnection_ = false → (contentLength r.body_.length).length < 32)

variable {r : HttpResponse}

/-- The longest version and status are 31 characters. -/
theorem version_length (r : HttpResponse) : r.version.length < 32 := by
  have hversion := toString_length (n := r.version_.toInt) (by have := r.version_.le_toInt; omega)
    (by have := r.version_.toInt_lt; omega)
  have hstatus := toString_length (n := r.statusCode_.value.toInt)
    (by have := r.statusCode_.value.le_toInt; omega) (by have := r.statusCode_.value.toInt_lt; omega)
  have htext : (bytes "HTTP/1.").length = 7 ∧ (bytes " ").length = 1 := by decide
  unfold version
  simp only [List.length_append, htext]
  omega

theorem buf32_version (r : HttpResponse) : buf32 r.version = r.version :=
  List.take_of_length_le (Nat.le_of_lt_succ r.version_length)

/-- A body that fits a `Buffer` has a short length. -/
theorem untruncated (r : HttpResponse) (h : r.body_.length < 2 ^ 31) : r.Untruncated := by
  refine ⟨r.version_length, fun _ => ?_⟩
  have hlen : (decimal r.body_.length).length ≤ 10 := (decimal_length_iff (by decide)).mpr (by omega)
  have htext : (bytes "Content-Length: ").length = 16 ∧ (bytes "\r\n").length = 2 := by decide
  unfold contentLength
  simp only [List.length_append, htext]
  omega

end HttpResponse

/-! ### The text of a response -/

theorem PlainHeader.line {h : Bytes × Bytes} (hh : PlainHeader h) :
    13 ∉ PlainRequest.headerLine h ∧ PlainRequest.headerLine h ≠ [] ∧
      decodeField (PlainRequest.headerLine h) = some h := by
  refine ⟨?_, ?_, Cut.cut_free hh.name_colon⟩
  · unfold PlainRequest.headerLine
    rw [List.mem_append, List.mem_append, not_or, not_or]
    exact ⟨⟨hh.name_line.1, by decide⟩, hh.value_line.1⟩
  · unfold PlainRequest.headerLine
    simp [bytes]

/-- The section of some headers ends where they end, whatever follows. -/
theorem headerSection_fields (body : Bytes) : ∀ {fields : List (Bytes × Bytes)}, (∀ h ∈ fields, PlainHeader h) →
    headerSection ((fields.map HttpResponse.headerText).flatten ++ kCRLF ++ body) =
      (fields.map PlainRequest.headerLine, some body)
  | [], _ => headerSection_empty (cut_line List.not_mem_nil body)
  | h :: fields, hall => by
    obtain ⟨hline, hne, -⟩ := (hall h List.mem_cons_self).line
    have ih := headerSection_fields body fun k hk => hall k (List.mem_cons_of_mem _ hk)
    have htext : ((h :: fields).map HttpResponse.headerText).flatten ++ kCRLF ++ body =
        PlainRequest.headerLine h ++ kCRLF ++
          ((fields.map HttpResponse.headerText).flatten ++ kCRLF ++ body) := by
      rw [List.map_cons, List.flatten_cons, List.append_assoc, List.append_assoc,
        List.append_assoc _ kCRLF body]
      rfl
    rw [htext, headerSection_line (cut_line hline _) hne, ih]
    rfl

/-- The headers are read back. -/
theorem decodeFields : ∀ {fields : List (Bytes × Bytes)}, (∀ h ∈ fields, PlainHeader h) →
    (fields.map PlainRequest.headerLine).mapM decodeField = some fields
  | [], _ => rfl
  | h :: fields, hall => by
    have ih := decodeFields fun k hk => hall k (List.mem_cons_of_mem _ hk)
    rw [List.map_cons, List.mapM_cons, (hall h List.mem_cons_self).line.2.2, ih]
    rfl

namespace HttpResponse

/-- The headers of the response, as they are written. -/
def fields (r : HttpResponse) : List (Bytes × Bytes) :=
  (if r.closeConnection_ then [(bytes "Connection", bytes "close")]
    else [(bytes "Content-Length", decimal r.body_.length), (bytes "Connection", bytes "Keep-Alive")]) ++
  r.headers_.toList

/-- The status line is read back, whatever the message. -/
theorem decodeStatus_version (r : HttpResponse) : decodeStatus (r.version ++ r.statusMessage_) =
    some (r.version_.toInt, r.statusCode_.value.toInt, r.statusMessage_) := by
  have htext : r.version ++ r.statusMessage_ = [] ++ bytes "HTTP/1." ++
      (bytes (toString r.version_.toInt) ++ [32] ++ (bytes (toString r.statusCode_.value.toInt) ++ [32] ++
        r.statusMessage_)) := by
    unfold version
    simp [bytes]
  have hfront : Cut.cut (bytes "HTTP/1.") ([] ++ bytes "HTTP/1." ++
      (bytes (toString r.version_.toInt) ++ [32] ++ (bytes (toString r.statusCode_.value.toInt) ++ [32] ++
        r.statusMessage_))) = some ([], _) := Cut.cut_free List.not_mem_nil
  unfold decodeStatus
  rw [htext, hfront]
  dsimp only [Option.bind_eq_bind, Option.bind_some]
  rw [if_neg (not_not.mpr rfl), Cut.cut_free (toString_free rfl (by decide) _)]
  dsimp only [Option.bind_some]
  rw [Cut.cut_free (toString_free rfl (by decide) _)]
  dsimp only [Option.bind_some]
  rw [integer_toString, integer_toString]
  rfl

/-- Without truncation the reply is the status line, the headers and the body. -/
theorem reply_text {r : HttpResponse} (h : r.Untruncated) : r.reply.text =
    (r.version ++ r.statusMessage_) ++ kCRLF ++ ((r.fields.map headerText).flatten ++ kCRLF ++ r.body_) := by
  have hlines : r.connectionLines = ((if r.closeConnection_ then [(bytes "Connection", bytes "close")]
      else [(bytes "Content-Length", decimal r.body_.length), (bytes "Connection", bytes "Keep-Alive")]) :
        List (Bytes × Bytes)).map headerText := by
    unfold connectionLines
    cases hc : r.closeConnection_ with
    | true =>
      rw [if_pos rfl, if_pos rfl]
      decide
    | false =>
      have hlength : buf32 (contentLength r.body_.length) =
          headerText (bytes "Content-Length", decimal r.body_.length) := by
        rw [(headerText_eq _ _).mpr rfl]
        exact List.take_of_length_le (Nat.le_of_lt_succ (h.2 hc))
      have hkeep : bytes "Connection: Keep-Alive\r\n" = headerText (bytes "Connection", bytes "Keep-Alive") := by
        decide
      rw [if_neg (by decide), if_neg (by decide), hlength, hkeep]
      rfl
  unfold Reply.text reply fields
  rw [buf32_version, hlines, List.flatten_cons, List.map_append]
  simp only [List.append_assoc]
  rfl

end HttpResponse

namespace PlainResponse

variable (r : PlainResponse)

/-- What is added is plain, too. -/
theorem fields_plain : ∀ h ∈ r.fields, PlainHeader h := by
  intro h hh
  unfold HttpResponse.fields at hh
  rcases List.mem_append.mp hh with hh | hh
  · split_ifs at hh
    · rw [List.mem_singleton.mp hh]
      decide
    · rcases List.mem_cons.mp hh with rfl | hh
      · exact ⟨(by decide : (58 : Byte) ∉ bytes "Content-Length"),
          (by decide : (13 : Byte) ∉ bytes "Content-Length" ∧ (10 : Byte) ∉ bytes "Content-Length"),
          decimal_free rfl _, decimal_free rfl _⟩
      · rw [List.mem_singleton.mp hh]
        decide
  · exact r.headers_plain h hh

/-- And can be told from the response's own. -/
theorem fields_own : r.fields.filter (fun h => h.1 ∉ framing) = r.headers_.toList := by
  have hown : r.headers_.toList.filter (fun h => h.1 ∉ framing) = r.headers_.toList :=
    List.filter_eq_self.mpr fun h hh => decide_eq_true (r.headers_own h hh)
  unfold HttpResponse.fields
  rw [List.filter_append, hown]
  apply List.append_left_eq_self.mpr
  apply List.filter_eq_nil_iff.mpr
  intro h hh
  have hframing : h.1 ∈ framing := by
    split_ifs at hh
    · rw [List.mem_singleton.mp hh]
      decide
    · rcases List.mem_cons.mp hh with rfl | hh
      · exact (by decide : bytes "Content-Length" ∈ framing)
      · rw [List.mem_singleton.mp hh]
        decide
  simpa using hframing

/-- What the text is read as. -/
def decoded : Decoded where
  version := r.version_.toInt
  status := r.statusCode_.value.toInt
  message := r.statusMessage_
  fields := r.fields
  body := r.body_

theorem decode_text (h : r.Untruncated) : decode r.reply.text = some r.decoded := by
  have hline : 13 ∉ r.version ++ r.statusMessage_ := by
    unfold HttpResponse.version
    simp only [List.mem_append, not_or]
    exact ⟨⟨⟨⟨⟨by decide, toString_free rfl (by decide) _⟩, by decide⟩,
      toString_free rfl (by decide) _⟩, by decide⟩, r.message_line.1⟩
  unfold decode
  rw [HttpResponse.reply_text h, cut_line hline]
  dsimp only [Option.bind_eq_bind, Option.bind_some]
  rw [HttpResponse.decodeStatus_version, headerSection_fields _ r.fields_plain]
  dsimp only [Option.bind_some]
  rw [decodeFields r.fields_plain]
  rfl

/-- That is the response. -/
theorem decodes : r.Decodes r.decoded := by
  refine ⟨rfl, rfl, rfl, ?_, rfl, ?_, ?_⟩
  · unfold Decoded.headers decoded
    dsimp only
    rw [r.fields_own, Std.ExtTreeMap.ofList_eq_insertMany_empty]
    exact insertMany_toList (List.Perm.refl _)
  · intro hc
    unfold decoded HttpResponse.fields
    rw [hc]
    simp
  · intro hc
    unfold decoded HttpResponse.fields
    rw [hc]
    refine ⟨by simp, ?_⟩
    intro h hh
    rcases List.mem_append.mp hh with hh | hh
    · rw [if_pos rfl] at hh
      rw [List.mem_singleton.mp hh]
      decide
    · intro heq
      exact r.headers_own h hh (by rw [heq]; decide)

end PlainResponse

/-- **A response can be read back.** -/
theorem serialised_decodes (r : PlainResponse) {b : Buffer} (hb : b.Valid) :
    ∃ b' text, r.appendToBuffer b = .ok b' ∧ b'.Valid ∧ b'.content = b.content ++ text ∧
      (b'.buffer_.length < 2 ^ 31 → r.Untruncated ∧ ∃ d, decode text = some d ∧ r.Decodes d) := by
  obtain ⟨b', happend, hv, hcontent⟩ := r.appendToBuffer_spec hb
  refine ⟨b', r.reply.text, happend, hv, hcontent, ?_⟩
  intro hsize
  have hbody : r.body_.length ≤ b'.buffer_.length := by
    have hlen := congrArg List.length hcontent
    have hle : b'.content.length ≤ b'.buffer_.length := by
      unfold Buffer.content
      rw [List.length_take, List.length_drop]
      omega
    have htext : r.body_.length ≤ r.reply.text.length := by
      unfold Reply.text HttpResponse.reply
      simp only [List.length_append]
      omega
    rw [List.length_append] at hlen
    omega
  have hfits := r.untruncated (by omega)
  exact ⟨hfits, r.decoded, r.decode_text hfits, r.decodes⟩

/-- A body with an empty line in it, and a `Buffer` that has to grow. -/
def binary : PlainResponse where
  headers_ := .ofList [(bytes "", bytes " :"), (bytes "Server", bytes "muduo_se")]
  version_ := -2147483648
  statusCode_ := .k404NotFound
  statusMessage_ := bytes "Not Found"
  closeConnection_ := false
  body_ := bytes "a\r\n\r\nb" ++ [0, 255]
  message_line := by decide
  headers_plain := by decide +kernel
  headers_own := by decide +kernel

theorem serialised_decodes_binary : ∃ b' text, binary.appendToBuffer ⟨1, 3, bytes "xyz"⟩ = .ok b' ∧
    b'.content = bytes "yz" ++ text ∧ binary.Untruncated ∧ ∃ d, decode text = some d ∧ binary.Decodes d := by
  obtain ⟨b', text, happend, -, hcontent, hdecodes⟩ := serialised_decodes binary (b := ⟨1, 3, bytes "xyz"⟩)
    ⟨by decide, by decide, by decide⟩
  have hsize : (binary.appendToBuffer ⟨1, 3, bytes "xyz"⟩).map (fun b => decide (b.buffer_.length < 200)) =
      .ok true := by
    decide +kernel
  rw [happend] at hsize
  have hsize : b'.buffer_.length < 200 := of_decide_eq_true (Except.ok.inj hsize)
  exact ⟨b', text, happend, hcontent, hdecodes (by omega)⟩

end MuduoSe
