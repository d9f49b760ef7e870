/-
# HttpRequest: a request and what is read into it

`net/HttpRequest.h`, and of `net/Uilt.h` and `net/Uilt.cc` the account table. The two
ends of a range of `char`s are the bytes between them. The patterns are matched
against a whole line, so they are written without their anchors; `.` is any
character but a line terminator. The header map and the account table are
`Std.ExtTreeMap`s over strings, which are ordered byte by byte.

`Uilt::uilt()` is the one object of its class: a function that uses it takes it and
returns it.

Key definitions: `HttpRequest.addHeader`, `HttpRequest.addbody`, `HttpRequest.swap`.
Key theorems: `HttpRequest.addHeader_field`, `HttpRequest.addHeader_nil`, `HttpRequest.form_iff`.
-/
import MuduoSe.Base.Timestamp
import MuduoSe.Lib.Regex

namespace MuduoSe

/-- `std::map<std::string, std::string>`. -/
abbrev StringMap := Std.ExtTreeMap Bytes Bytes compare

/-! ### The accounts -/

structure Uilt where
  table : StringMap
  deriving DecidableEq

namespace Uilt

def settable (u : Uilt) (name key : Bytes) : Uilt :=
  if u.table.contains name then u else ⟨u.table.insert name key⟩

def gettablekey (u : Uilt) (name key : Bytes) : Bool :=
  match u.table[name]? with
  | some k => k == key
  | none => false

end Uilt

/-! ### The request -/

inductive Method
  | kInvalid
  | kGet
  | kPost
  | kHead
  | kPut
  | kDelete
  deriving DecidableEq, Repr

inductive Version
  | kHttp10
  | kHttp11
  deriving DecidableEq, Repr

/-- `kUnknown` and `kHttp10` are both 0. -/
def Version.kUnknown : Version := .kHttp10

structure HttpRequest where
  method_ : Method
  version_ : Version
  path_ : Bytes
  query_ : Bytes
  receiveTime_ : Timestamp
  headers_ : StringMap
  body_ : Bytes
  deriving DecidableEq

/-- The character of the class `.`. -/
def dot (c : Byte) : Bool := c != 10 && c != 13

namespace HttpRequest

/-- The constructor; `receiveTime_` is the time `now`. -/
def new (now : Timestamp) : HttpRequest := ⟨.kInvalid, .kUnknown, [], [], now, ∅, []⟩

/-- The version that `setVersion` stores. -/
def versionOf (v : Bytes) : Version :=
  if v = bytes "1.1" then .kHttp11
  else if v = bytes "1.0" then .kHttp10
  else .kUnknown

def setVersion (r : HttpRequest) (v : Bytes) : HttpRequest := { r with version_ := versionOf v }

/-- The method that `setMethod` stores. -/
def methodOf (m : Bytes) : Method :=
  if m = bytes "GET" then .kGet
  else if m = bytes "POST" then .kPost
  else if m = bytes "HEAD" then .kHead
  else if m = bytes "PUT" then .kPut
  else if m = bytes "DELETE" then .kDelete
  else .kInvalid

def setMethod (r : HttpRequest) (m : Bytes) : Bool × HttpRequest :=
  (methodOf m != .kInvalid, { r with method_ := methodOf m })

def setPath (r : HttpRequest) (p : Bytes) : HttpRequest := { r with path_ := p }

def setReceiveTime (r : HttpRequest) (t : Timestamp) : HttpRequest := { r with receiveTime_ := t }

/-- `([^:]*): ?(.*)` -/
def headerPatten : List (Regex.Piece Byte) :=
  [.many (· != 58), .lit 58, .opt 32, .many dot]

def addHeader (r : HttpRequest) (line : Bytes) : Bool × HttpRequest :=
  match Regex.exec headerPatten line with
  | some [name, value] => (true, { r with headers_ := r.headers_.insert name value })
  | _ => (false, r)

/-- `username=(.*)&password=(.*)` -/
def bodyPatten : List (Regex.Piece Byte) :=
  Regex.lits (bytes "username=") ++ [.many dot] ++ Regex.lits (bytes "&password=") ++ [.many dot]

/-- What `addbody` makes of the body it has stored. -/
def login (r : HttpRequest) (u : Uilt) : HttpRequest × Uilt :=
  match Regex.exec bodyPatten r.body_ with
  | some [a, b] =>
    if r.path_ = bytes "/login" then (r.setPath (bytes "/welcome.html"), u.settable a b)
    else if u.gettablekey a b then (r.setPath (bytes "/welcome.html"), u)
    else (r.setPath (bytes "/404.html"), u)
  | _ => (r, u)

def addbody (r : HttpRequest) (u : Uilt) (body : Bytes) : HttpRequest × Uilt :=
  login { r with body_ := body } u

def getHeader (r : HttpRequest) (field : Bytes) : Bytes := (r.headers_[field]?).getD []

/-- `swap(that)`: the two requests after it. `receiveTime_` is copied and `body_` stays. -/
def swap (r that : HttpRequest) : HttpRequest × HttpRequest :=
  ({ that with body_ := r.body_ }, { r with receiveTime_ := that.receiveTime_, body_ := that.body_ })

/-- The request but for `receiveTime_`. -/
def untimed (r : HttpRequest) : HttpRequest := { r with receiveTime_ := default }

/-! ### What a line does to a request -/

@[simp] theorem untimed_body (r : HttpRequest) : r.untimed.body_ = r.body_ := rfl

theorem methodOf_eq_kPost {m : Bytes} : methodOf m = .kPost ↔ m = bytes "POST" := by
  constructor
  · intro h
    unfold methodOf at h
    split_ifs at h with h1 h2
    exact h2
  · intro h
    subst h
    decide

theorem addHeader_untimed (r : HttpRequest) (line : Bytes) :
    r.untimed.addHeader line = ((r.addHeader line).1, (r.addHeader line).2.untimed) := by
  unfold addHeader
  split <;> rfl

theorem login_untimed (r : HttpRequest) (u : Uilt) :
    r.untimed.login u = ((r.login u).1.untimed, (r.login u).2) := by
  unfold login
  rw [untimed_body]
  split
  · by_cases hp : r.path_ = bytes "/login"
    · rw [if_pos (show r.untimed.path_ = _ from hp), if_pos hp]
      rfl
    · rw [if_neg (show ¬r.untimed.path_ = _ from hp), if_neg hp]
      split_ifs <;> rfl
  · rfl

theorem addbody_untimed (r : HttpRequest) (u : Uilt) (body : Bytes) :
    r.untimed.addbody u body = ((r.addbody u body).1.untimed, (r.addbody u body).2) :=
  login_untimed { r with body_ := body } u

/-- A line that is no header leaves the request as it is. -/
theorem addHeader_false {r r' : HttpRequest} {line : Bytes} (h : r.addHeader line = (false, r')) :
    r' = r := by
  unfold addHeader at h
  split at h
  · cases h
  · exact (Prod.mk.inj h).2.symm

theorem addHeader_method (r : HttpRequest) (line : Bytes) :
    (r.addHeader line).2.method_ = r.method_ := by
  unfold addHeader
  split <;> rfl

/-- The empty line is no header. -/
theorem addHeader_nil (r : HttpRequest) : r.addHeader [] = (false, r) := rfl

/-- **A header line is stored under its name**, without one blank in front of its value. -/
theorem addHeader_field (r : HttpRequest) {name value : Bytes} (hn : 58 ∉ name)
    (hv : ∀ c ∈ value, dot c = true) :
    r.addHeader (name ++ 58 :: value) =
      (true, { r with headers_ := r.headers_.insert name (Regex.strip 32 value) }) := by
  have hname : ∀ c ∈ name, (c != 58) = true := fun c hc => by
    have hne : c ≠ 58 := fun h => hn (h ▸ hc)
    simpa using hne
  have hall : value.all dot = true := List.all_eq_true.mpr hv
  have hexec : Regex.exec headerPatten (name ++ 58 :: value) = some [name, Regex.strip 32 value] := by
    unfold headerPatten
    rw [Regex.exec_many_lit_append (by decide) _ hname, Regex.exec_opt_many (by decide), if_pos hall]
    rfl
  unfold addHeader
  rw [hexec]

/-- **The bodies that are taken as a form.** -/
theorem form_iff (body : Bytes) : (Regex.exec bodyPatten body).isSome ↔
    ∃ a b, (∀ c ∈ a, dot c = true) ∧ (∀ c ∈ b, dot c = true) ∧
      body = bytes "username=" ++ (a ++ (bytes "&password=" ++ b)) := by
  rw [show bodyPatten = Regex.lits (bytes "username=") ++ (.many dot :: (Regex.lits (bytes "&password=") ++
    [.many dot])) from rfl]
  constructor
  · intro h
    obtain ⟨caps, hexec⟩ := Option.isSome_iff_exists.mp h
    obtain ⟨s, rfl, h1⟩ := Regex.matches_lits.mp (Regex.exec_matches hexec)
    obtain ⟨a, s, caps, ha, rfl, rfl, h2⟩ := Regex.matches_many.mp h1
    obtain ⟨b, rfl, h3⟩ := Regex.matches_lits.mp h2
    exact ⟨a, b, ha, (Regex.matches_many_end.mp h3).1, rfl⟩
  · rintro ⟨a, b, ha, hb, rfl⟩
    have hend : Regex.Matches [.many dot] b [b] := Regex.matches_many_end.mpr ⟨hb, rfl⟩
    have hpassword : Regex.Matches (Regex.lits (bytes "&password=") ++ [.many dot])
        (bytes "&password=" ++ b) [b] := Regex.matches_lits.mpr ⟨b, rfl, hend⟩
    exact (Regex.matches_lits.mpr ⟨_, rfl, .many ha hpassword⟩).exec_isSome

theorem login_body (r : HttpRequest) (u : Uilt) : (r.login u).1.body_ = r.body_ := by
  unfold login
  split
  · split_ifs <;> rfl
  · rfl

theorem addbody_method (r : HttpRequest) (u : Uilt) (body : Bytes) :
    (r.addbody u body).1.method_ = r.method_ := by
  unfold addbody login
  split
  · split_ifs <;> rfl
  · rfl

/-- The body is stored as it came. -/
theorem addbody_body (r : HttpRequest) (u : Uilt) (body : Bytes) :
    (r.addbody u body).1.body_ = body := login_body { r with body_ := body } u

end HttpRequest
end MuduoSe
