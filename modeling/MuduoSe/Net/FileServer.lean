/-
# The file server

`test/HttpServer_test.cc`, the program of the repository: `onRequest` answers a request with the file
of its path, and `net/Uilt.cc` has the content types by extension. The files are what `open` says, `opens`.

`onRequest_ok`: a request whose file has an extension is answered with a response that a client can
read (`KeptResponse`): with status 200, the content type of the extension, and the content of the
file or of the page for files that are not there.

Key definitions: `HttpResponse.addHeader`, `Uilt.getContentType`, `onRequest`, `fileResponse`, `Servable`.
Key theorems: `contentType_plain`, `onRequest_ok`.
-/
import MuduoSe.Net.HttpClient
import MuduoSe.Net.HttpFraming
import MuduoSe.Net.Uilt

namespace MuduoSe

/-! ### What the handler calls -/

namespace HttpResponse

def setVersion (r : HttpResponse) (v : BitVec 32) : HttpResponse := { r with version_ := v }

def setStatusCode (r : HttpResponse) (code : HttpStatusCode) : HttpResponse := { r with statusCode_ := code }

def setStatusMessage (r : HttpResponse) (message : Bytes) : HttpResponse := { r with statusMessage_ := message }

def addHeader (r : HttpResponse) (key value : Bytes) : HttpResponse :=
  { r with headers_ := r.headers_.insert key value }

def setContentType (r : HttpResponse) (contentType : Bytes) : HttpResponse :=
  r.addHeader (bytes "Content-Type") contentType

def setBody (r : HttpResponse) (body : Bytes) : HttpResponse := { r with body_ := body }

end HttpResponse

/-- The number of a `Version`. -/
def Version.value : Version → BitVec 32
  | .kHttp10 => 0
  | .kHttp11 => 1

namespace Uilt

def mime : StringMap := .ofList [
  (bytes "html", bytes "text/html"), (bytes "avi", bytes "video/x-msvideo"), (bytes "bmp", bytes "image/bmp"),
  (bytes "c", bytes "text/plain"), (bytes "doc", bytes "application/msword"), (bytes "gif", bytes "image/gif"),
  (bytes "gz", bytes "application/x-gzip"), (bytes "htm", bytes "text/html"), (bytes "ico", bytes "image/x-icon"),
  (bytes "jpg", bytes "image/jpeg"), (bytes "png", bytes "image/png"), (bytes "txt", bytes "text/plain"),
  (bytes "mp3", bytes "audio/mp3")]

def getContentType (extension : Bytes) : Bytes :=
  match mime[extension]? with
  | some contentType => contentType
  | none => bytes "text/html"

end Uilt

open Uilt

/-- `onRequest(req, resp)`. -/
def onRequest (opens : Bytes → Option Bytes) (req : HttpRequest) (resp : HttpResponse) : Res HttpResponse := do
  let path := constructPath req.path_
  let extent ← getExtent path
  let contentType := getContentType extent
  let content := (getContent opens path).2
  let resp := resp.setVersion req.version_.value
  let resp := resp.setStatusCode .k200Ok
  let resp := resp.setStatusMessage (bytes "OK")
  let resp := resp.setContentType contentType
  let resp := resp.addHeader (bytes "Server") (bytes "muduo_se")
  return resp.setBody content

/-! ### Its response -/

/-- A content type is a word of a header. -/
theorem contentType_plain (extension : Bytes) :
    13 ∉ getContentType extension ∧ 10 ∉ getContentType extension := by
  have hall : ∀ h ∈ mime.toList, 13 ∉ h.2 ∧ 10 ∉ h.2 := by decide +kernel
  unfold getContentType
  split
  · next contentType hmime => exact hall _ (Std.ExtTreeMap.mem_toList_iff_getElem?_eq_some.mpr hmime)
  · decide

/-- The content of the file of a request. -/
def fileContent (opens : Bytes → Option Bytes) (req : HttpRequest) : Bytes :=
  (getContent opens (constructPath req.path_)).2

/-- A request that is answered with a file on a kept connection. -/
structure Servable (opens : Bytes → Option Bytes) (req : HttpRequest) : Prop where
  dot : req.path_ = bytes "/" ∨ 46 ∈ req.path_
  size : (constructPath req.path_).length ≤ 2 ^ 31
  kept : req.closes = false
  short : (fileContent opens req).length < 10 ^ 13

/-- The headers of a file. -/
def fileHeaders (req : HttpRequest) : StringMap :=
  ((∅ : StringMap).insert (bytes "Content-Type") (getContentType (extension (constructPath req.path_)))).insert
    (bytes "Server") (bytes "muduo_se")

theorem mem_fileHeaders {req : HttpRequest} {h : Bytes × Bytes} (hh : h ∈ (fileHeaders req).toList) :
    h = (bytes "Server", bytes "muduo_se") ∨
      h = (bytes "Content-Type", getContentType (extension (constructPath req.path_))) := by
  obtain ⟨key, value⟩ := h
  have hget := Std.ExtTreeMap.mem_toList_iff_getElem?_eq_some.mp hh
  unfold fileHeaders at hget
  rw [Std.ExtTreeMap.getElem?_insert, Std.ExtTreeMap.getElem?_insert] at hget
  split_ifs at hget with hserver htype
  · rw [← Std.LawfulEqCmp.eq_of_compare hserver, ← Option.some.inj hget]
    exact .inl rfl
  · rw [← Std.LawfulEqCmp.eq_of_compare htype, ← Option.some.inj hget]
    exact .inr rfl
  · cases hget

/-- The response with the file of a request. -/
def fileResponse {opens : Bytes → Option Bytes} {req : HttpRequest} (h : Servable opens req) : KeptResponse where
  headers_ := fileHeaders req
  version_ := req.version_.value
  statusCode_ := .k200Ok
  statusMessage_ := bytes "OK"
  closeConnection_ := false
  body_ := fileContent opens req
  message_line := by decide
  headers_plain := by
    intro l hl
    rcases mem_fileHeaders hl with rfl | rfl
    · decide
    · exact ⟨(by decide : (58 : Byte) ∉ bytes "Content-Type"),
        (by decide : (13 : Byte) ∉ bytes "Content-Type" ∧ (10 : Byte) ∉ bytes "Content-Type"), contentType_plain _⟩
  headers_own := by
    intro l hl
    rcases mem_fileHeaders hl with rfl | rfl
    · exact (by decide : bytes "Server" ∉ framing)
    · exact (by decide : bytes "Content-Type" ∉ framing)
  kept := rfl
  short := h.short

/-- **A request is answered with its file.** -/
theorem onRequest_ok {opens : Bytes → Option Bytes} {req : HttpRequest} (h : Servable opens req)
    (version : BitVec 32) :
    onRequest opens req (.new req.closes version) = .ok (fileResponse h).toHttpResponse := by
  have hsize := h.size
  have hdot : 46 ∈ constructPath req.path_ := by
    unfold constructPath
    split_ifs with hroot
    · decide
    · exact List.mem_append_right _ (h.dot.resolve_left hroot)
  have hextent : getExtent (constructPath req.path_) = .ok (extension (constructPath req.path_)) := by
    rw [getExtent_eq (by omega), if_pos ⟨hdot, hsize⟩]
  unfold onRequest
  dsimp only
  rw [hextent, ok_bind, h.kept]
  rfl

end MuduoSe
