/-
# Parsing undoes the serialisation of a request

`PlainRequest` is a request as its sender has it: a method without a body, a path, a version and
a finite map of headers. `PlainRequest.text` writes it out, the headers in any order, each as
`name: value`. A parser that expects a request line and has this text in its buffer, with
anything behind it, reads back exactly the request and leaves exactly the rest
(`parse_serialised`).

Key definitions: `PlainRequest`, `PlainRequest.text`.
Key theorems: `insertMany_toList`, `PlainRequest.head_into`, `parse_serialised`.
-/
import MuduoSe.Net.HttpHead

namespace MuduoSe

/-- A method as it is written. -/
def methodText : Method → Bytes
  | .kGet => bytes "GET"
  | .kHead => bytes "HEAD"
  | .kPut => bytes "PUT"
  | .kDelete => bytes "DELETE"
  | .kPost => bytes "POST"
  | .kInvalid => []

def versionText : Version → Bytes
  | .kHttp10 => bytes "1.0"
  | .kHttp11 => bytes "1.1"

theorem methodOf_text {m : Method} (h : m ≠ .kInvalid) : HttpRequest.methodOf (methodText m) = m := by
  cases m with
  | kInvalid => exact absurd rfl h
  | _ => decide

theorem versionOf_text (v : Version) : HttpRequest.versionOf (versionText v) = v := by
  cases v <;> decide

/-- A name without a colon, and no character of a line end. -/
structure PlainHeader (l : Bytes × Bytes) : Prop where
  name_colon : 58 ∉ l.1
  name_line : 13 ∉ l.1 ∧ 10 ∉ l.1
  value_line : 13 ∉ l.2 ∧ 10 ∉ l.2

instance (l : Bytes × Bytes) : Decidable (PlainHeader l) :=
  decidable_of_iff ((58 ∉ l.1 ∧ (13 ∉ l.1 ∧ 10 ∉ l.1)) ∧ 13 ∉ l.2 ∧ 10 ∉ l.2)
    ⟨fun h => ⟨h.1.1, h.1.2, h.2⟩, fun h => ⟨⟨h.1, h.2⟩, h.3⟩⟩

structure PlainRequest where
  method : Method
  path : Bytes
  version : Version
  headers : StringMap
  method_plain : method ∈ [.kGet, .kHead, .kPut, .kDelete]
  path_word : Word path
  headers_plain : ∀ l ∈ headers.toList, PlainHeader l

namespace PlainRequest

/-- `name: value` -/
def headerLine (h : Bytes × Bytes) : Bytes := h.1 ++ bytes ": " ++ h.2

/-- The text of the request, with its headers in the order of `lines`. -/
def text (m : PlainRequest) (lines : List (Bytes × Bytes)) : Bytes :=
  methodText m.method ++ bytes " " ++ m.path ++ bytes " HTTP/" ++ versionText m.version ++ bytes "\r\n" ++
    lines.flatMap (fun h => headerLine h ++ bytes "\r\n") ++ bytes "\r\n"

end PlainRequest

/-! ### The header lines -/

/-- A header line with a blank behind its colon. -/
def Field.ofLine (l : Bytes × Bytes) (h : PlainHeader l) : Field where
  name := l.1
  value := 32 :: l.2
  name_colon := h.name_colon
  name_line := h.name_line
  value_line := ⟨by simp [h.value_line.1], by simp [h.value_line.2]⟩

theorem fieldLines_ofLine : ∀ (lines : List (Bytes × Bytes))
    (h : ∀ l ∈ lines, PlainHeader l),
    fieldLines (lines.pmap Field.ofLine h) =
      lines.flatMap (fun l => PlainRequest.headerLine l ++ bytes "\r\n") ++ bytes "\r\n"
  | [], _ => rfl
  | l :: lines, h => by
    have ih := fieldLines_ofLine lines fun l hl => h l (List.mem_cons_of_mem _ hl)
    have hline : (Field.ofLine l (h l (List.mem_cons_self ..))).text = PlainRequest.headerLine l := by
      unfold Field.text Field.ofLine PlainRequest.headerLine
      rw [List.append_assoc]
      rfl
    unfold fieldLines at ih ⊢
    rw [List.pmap_cons, List.flatMap_cons, List.flatMap_cons, List.append_assoc, ih, hline, List.append_assoc,
      List.append_assoc, List.append_assoc]
    rfl

/-- Reading the lines is inserting them. -/
theorem addFields_ofLine : ∀ (lines : List (Bytes × Bytes)) (m : StringMap)
    (h : ∀ l ∈ lines, PlainHeader l),
    addFields m (lines.pmap Field.ofLine h) = m.insertMany lines
  | [], _, _ => rfl
  | l :: lines, m, h => by
    rw [Std.ExtTreeMap.insertMany_cons]
    exact addFields_ofLine lines _ fun l hl => h l (List.mem_cons_of_mem _ hl)

/-- The entries of a map, inserted in any order, make up the map. -/
theorem insertMany_toList {lines : List (Bytes × Bytes)} {m : StringMap} (h : lines.Perm m.toList) :
    (∅ : StringMap).insertMany lines = m := by
  have hdistinct : lines.Pairwise fun a b => ¬ compare a.1 b.1 = .eq :=
    (h.pairwise_iff fun hab hba => hab (Std.OrientedCmp.eq_symm hba)).mpr Std.ExtTreeMap.distinct_keys_toList
  apply Std.ExtTreeMap.ext_getElem?
  intro n
  cases hn : m[n]? with
  | some v =>
    have hmem : (n, v) ∈ lines := h.mem_iff.mpr (Std.ExtTreeMap.mem_toList_iff_getElem?_eq_some.mpr hn)
    exact Std.ExtTreeMap.getElem?_insertMany_list_of_mem Std.ReflCmp.compare_self hdistinct hmem
  | none =>
    rw [Std.ExtTreeMap.getElem?_insertMany_list_of_contains_eq_false]
    · simp
    · rw [List.contains_eq_mem, decide_eq_false_iff_not]
      intro hmem
      obtain ⟨l, hl, rfl⟩ := List.mem_map.mp hmem
      rw [Std.ExtTreeMap.mem_toList_iff_getElem?_eq_some.mp (h.mem_iff.mp hl)] at hn
      cases hn

namespace PlainRequest

/-- The head that the text of a request is. -/
def head (m : PlainRequest) (lines : List (Bytes × Bytes)) (h : lines.Perm m.headers.toList) : Head where
  method := methodText m.method
  target := m.path
  version := versionText m.version
  fields := lines.pmap Field.ofLine (fun l hl => m.headers_plain l (h.mem_iff.mp hl))
  method_word := by
    have := m.method_plain
    revert this
    cases m.method <;> decide
  target_word := m.path_word
  version_word := by cases m.version <;> decide

theorem head_text (m : PlainRequest) {lines : List (Bytes × Bytes)} (h : lines.Perm m.headers.toList) :
    (m.head lines h).text = m.text lines := by
  unfold Head.text text requestLine head
  dsimp only
  have hblank : bytes " " = [32] := rfl
  have hversion : bytes " HTTP/" = 32 :: bytes "HTTP/" := rfl
  rw [fieldLines_ofLine, hblank, hversion]
  simp only [List.append_assoc, List.cons_append, List.nil_append]
  rfl

/-- What the head makes of a request without headers. -/
theorem head_into (m : PlainRequest) {lines : List (Bytes × Bytes)} (h : lines.Perm m.headers.toList)
    {r : HttpRequest} (hr : r.headers_ = ∅) : (m.head lines h).into r =
      { r with method_ := m.method, version_ := m.version, path_ := m.path, headers_ := m.headers } := by
  have hm : m.method ≠ .kInvalid := by
    have := m.method_plain
    rintro he
    rw [he] at this
    revert this
    decide
  unfold Head.into head
  dsimp only
  rw [methodOf_text hm, versionOf_text, addFields_ofLine, hr, insertMany_toList h]

theorem head_isPost (m : PlainRequest) {lines : List (Bytes × Bytes)} (h : lines.Perm m.headers.toList) :
    (m.head lines h).isPost = false := by
  have := m.method_plain
  show (methodText m.method == bytes "POST") = false
  revert this
  cases m.method <;> decide

end PlainRequest

/-- **Parsing undoes the serialisation.** For every plain request, its headers written in any order,
and every `t` behind it: `parseRequest` in a context that is new or was reset, and so expects
a request line and has no headers, returns true with all of the request, as it was written,
and leaves exactly `t`. -/
theorem parse_serialised (m : PlainRequest) (lines : List (Bytes × Bytes))
    (hl : lines.Perm m.headers.toList) (t : Bytes) (p : Parser) (receiveTime : Timestamp) (hv : p.buf.Valid)
    (hs : p.context.state_ = .kExpectRequestLine) (hh : p.context.request_.headers_ = ∅)
    (hb : p.buf.content = m.text lines ++ t) :
    ∃ p', p.parseRequest receiveTime = .ok (true, p') ∧ p'.context.gotAll = true ∧
      p'.context.request_.method_ = m.method ∧ p'.context.request_.path_ = m.path ∧
      p'.context.request_.version_ = m.version ∧ p'.context.request_.headers_ = m.headers ∧
      p'.buf.content = t := by
  have hread := Parser.parseRequest_spec (p := p) (t := receiveTime) hv (by rw [hs]; decide)
  have hscan : p.scan = ⟨.kExpectRequestLine, p.context.request_.untimed, (m.head lines hl).text ++ t⟩ := by
    unfold Parser.scan
    rw [hs, hb, m.head_text]
  rw [hscan, Scan.parse_text, m.head_isPost, m.head_into hl (r := p.context.request_.untimed) hh] at hread
  obtain ⟨p', hp, -, hp', -⟩ := hread
  have hreq := congrArg Scan.request hp'
  refine ⟨p', hp, ?_, ?_, ?_, ?_, ?_, congrArg Scan.unread hp'⟩
  · have hstate : p'.context.state_ = .kGotAll := congrArg Scan.state hp'
    rw [HttpContext.gotAll, hstate]
    rfl
  · exact congrArg HttpRequest.method_ hreq
  · exact congrArg HttpRequest.path_ hreq
  · exact congrArg HttpRequest.version_ hreq
  · exact congrArg HttpRequest.headers_ hreq

/-- A header with an empty name, one whose value starts with a blank and has a colon, and the
next request behind them. -/
theorem parse_serialised_corners :
    let m : PlainRequest := ⟨.kGet, bytes "/HTTP/a", .kHttp11,
      .ofList [(bytes "", bytes "x"), (bytes "b", bytes " c:d")], by decide, by decide, by decide +kernel⟩
    let lines := [(bytes "b", bytes " c:d"), (bytes "", bytes "x")]
    let b : Buffer := ⟨0, (m.text lines ++ bytes "GET").length, m.text lines ++ bytes "GET"⟩
    ∃ p', Parser.parseRequest ⟨.new default, b, ⟨∅⟩⟩ default = .ok (true, p') ∧ p'.context.gotAll = true ∧
      p'.context.request_.headers_ = m.headers ∧ p'.buf.content = bytes "GET" := by
  intro m lines b
  obtain ⟨p', hp, hgot, -, -, -, hheaders, hrest⟩ := parse_serialised m lines (by decide +kernel) (bytes "GET")
    ⟨.new default, b, ⟨∅⟩⟩ default ⟨by decide, by decide, by decide⟩ rfl rfl (by decide +kernel)
  exact ⟨p', hp, hgot, hheaders, hrest⟩

end MuduoSe
