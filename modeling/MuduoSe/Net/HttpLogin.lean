/-
# The login form: the first key of a name counts

What `HttpRequest::addbody` makes of the bodies of the login form, over any series of
requests that starts with no account. The form's pattern is greedy, so a name may contain
`=` and even `&password=`; the key may not. `Uilt::settable` writes an account once, so the
table is a view of the history: the key of a name is that of the first request for `/login`
that carried it.

Key definitions: `Form.body`, `posts`, `firstKey`.
Key theorems: `Form.login_eq`, `posts_table`, `login_iff_firstKey`.
-/
import MuduoSe.Net.HttpRequest

namespace MuduoSe

/-- A name and a key as the form sends them. -/
structure Form where
  name : Bytes
  key : Bytes
  name_dot : ∀ c ∈ name, dot c = true
  key_dot : ∀ c ∈ key, dot c = true
  key_once : ¬ bytes "&password=" <:+: key

namespace Form

def body (f : Form) : Bytes := bytes "username=" ++ (f.name ++ (bytes "&password=" ++ f.key))

/-- The pattern splits a body of the form where it was put together. -/
theorem exec_body (f : Form) : Regex.exec HttpRequest.bodyPatten f.body = some [f.name, f.key] := by
  have hpatten : HttpRequest.bodyPatten = Regex.lits (bytes "username=") ++
      (.many dot :: (Regex.lits (bytes "&password=") ++ [.many dot])) := rfl
  rw [hpatten, body, Regex.exec_lits]
  apply Regex.exec_many_lits_many f.name_dot (by decide +kernel) f.key_dot
  intro j hj
  exact Regex.not_prefix_drop (c := 38) (w := bytes "password=") (by decide +kernel) f.key_once hj

/-- What `addbody` does with a body of the form. -/
theorem login_eq (f : Form) (r : HttpRequest) (u : Uilt) : r.addbody u f.body =
    if r.path_ = bytes "/login" then
      ({ r with body_ := f.body, path_ := bytes "/welcome.html" }, u.settable f.name f.key)
    else ({ r with body_ := f.body,
                   path_ := if u.gettablekey f.name f.key then bytes "/welcome.html" else bytes "/404.html" }, u) := by
  unfold HttpRequest.addbody HttpRequest.login
  dsimp only
  rw [f.exec_body]
  dsimp only
  split_ifs <;> rfl

end Form

/-- The accounts after these requests, each with its form, one after the other. -/
def posts (u : Uilt) : List (HttpRequest × Form) → Uilt
  | [] => u
  | (r, f) :: ps => posts (r.addbody u f.body).2 ps

/-- The key that the first request for `/login` with this name carried. -/
def firstKey (ps : List (HttpRequest × Form)) (name : Bytes) : Option Bytes :=
  (ps.find? fun p => p.1.path_ = bytes "/login" ∧ p.2.name = name).map (·.2.key)

theorem gettablekey_iff (u : Uilt) (name key : Bytes) : u.gettablekey name key = true ↔ u.table[name]? = some key := by
  unfold Uilt.gettablekey
  cases u.table[name]? with
  | none => simp
  | some k => simp

/-- An account is written once. -/
theorem settable_get (u : Uilt) (name key n : Bytes) :
    (u.settable name key).table[n]? = (u.table[n]?).or (if name = n then some key else none) := by
  unfold Uilt.settable
  split_ifs with hc hn hn
  · subst hn
    rw [Std.ExtTreeMap.contains_eq_isSome_getElem?] at hc
    obtain ⟨k, hk⟩ := Option.isSome_iff_exists.mp hc
    rw [hk, Option.some_or]
  · rw [Option.or_none]
  · subst hn
    have hnone : u.table[name]? = none := by
      simpa using hc
    rw [hnone, Option.none_or]
    simp
  · rw [Option.or_none, Std.ExtTreeMap.getElem?_insert]
    simp [hn]

/-- **The table is the history.** -/
theorem posts_table (n : Bytes) : ∀ (ps : List (HttpRequest × Form)) (u : Uilt),
    (posts u ps).table[n]? = (u.table[n]?).or (firstKey ps n)
  | [], u => by simp [posts, firstKey]
  | (r, f) :: ps, u => by
    rw [posts, posts_table n ps, f.login_eq]
    unfold firstKey
    by_cases hp : r.path_ = bytes "/login"
    · rw [if_pos hp, settable_get, Option.or_assoc]
      by_cases hn : f.name = n
      · simp [hp, hn]
      · simp [hn]
    · simp [hp]

/-- Later requests do not change the first key of a name. -/
theorem firstKey_append {ps : List (HttpRequest × Form)} {n k : Bytes} (h : firstKey ps n = some k)
    (qs : List (HttpRequest × Form)) : firstKey (ps ++ qs) n = some k := by
  unfold firstKey at h ⊢
  rw [List.find?_append, Option.map_or, h, Option.some_or]

/-- **A login succeeds exactly with the first key.** After any requests `ps` from no account
on, a request whose path is not `/login` ends at `/welcome.html` if the first request for
`/login` with its name carried its key, at `/404.html` if not; once there was one, this does
not change, whatever requests `qs` follow. -/
theorem login_iff_firstKey (ps : List (HttpRequest × Form)) (r : HttpRequest) (f : Form)
    (hr : r.path_ ≠ bytes "/login") :
    (r.addbody (posts ⟨∅⟩ ps) f.body).1.path_ =
        (if firstKey ps f.name = some f.key then bytes "/welcome.html" else bytes "/404.html") ∧
      ∀ qs, firstKey ps f.name ≠ none → (r.addbody (posts ⟨∅⟩ (ps ++ qs)) f.body).1.path_ =
        (r.addbody (posts ⟨∅⟩ ps) f.body).1.path_ := by
  have hpath : ∀ ps, (r.addbody (posts ⟨∅⟩ ps) f.body).1.path_ =
      if firstKey ps f.name = some f.key then bytes "/welcome.html" else bytes "/404.html" := by
    intro ps
    have hkey := gettablekey_iff (posts ⟨∅⟩ ps) f.name f.key
    rw [posts_table, Std.ExtTreeMap.getElem?_empty, Option.none_or] at hkey
    rw [f.login_eq, if_neg hr]
    exact if_congr hkey rfl rfl
  refine ⟨hpath ps, fun qs hne => ?_⟩
  obtain ⟨k, hk⟩ := Option.ne_none_iff_exists'.mp hne
  rw [hpath, hpath, hk, firstKey_append hk]

/-- A name with the text between name and key in it. -/
theorem login_iff_firstKey_split :
    let f : Form := ⟨bytes "a&password=b", bytes "k", by decide +kernel, by decide +kernel, by decide +kernel⟩
    let r := HttpRequest.new default
    bytes "/sign" ≠ bytes "/login" ∧ firstKey [(r.setPath (bytes "/login"), f)] f.name = some f.key ∧
      ((r.setPath (bytes "/sign")).addbody (posts ⟨∅⟩ [(r.setPath (bytes "/login"), f)]) f.body).1.path_ =
        bytes "/welcome.html" := by
  intro f r
  have hkey : firstKey [(r.setPath (bytes "/login"), f)] f.name = some f.key := by decide
  refine ⟨by decide, hkey, ?_⟩
  rw [(login_iff_firstKey [(r.setPath (bytes "/login"), f)] (r.setPath (bytes "/sign")) f (by decide)).1, if_pos hkey]

end MuduoSe
