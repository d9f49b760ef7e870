/-
# The files of the web root

`net/Uilt.cc`, from the path of a request to the file that is sent: `ConstructPath`, `GetExtent`
and `GetContent`. The files are what `open` says, `opens`: it gets a C string, so a file name ends
at its first NUL.

* `extent_safe_iff`: the loop of `GetExtent` goes down from the last character and only stops at a
  `.`, and the web root has none. So it leaves the string unless the path is `/` or has a `.`
  itself (and fits the `int` it counts with).
* `served_inside_iff`: nothing looks at the components of the path, and nothing asks for its first
  `/`. So the file is under the web root only if the path leads back into it.

Key definitions: `Uilt.constructPath`, `Uilt.getExtent`, `Uilt.getContent`, `Requested`, `Stays`.
Key theorems: `getExtent_eq`, `inside_iff`, `extent_safe_iff`, `served_inside_iff`.
-/
import MuduoSe.Lib.Path
import MuduoSe.Net.HttpHead

namespace MuduoSe

namespace Uilt

def webHome : Bytes := bytes "/home/ldx/muduo_se/muduo_se/material"

def constructPath (path : Bytes) : Bytes :=
  if path = bytes "/" then webHome ++ bytes "/index.html" else webHome ++ path

/-- The loop of `GetExtent` from the index `i - 1` on. -/
def extentLoop (path : Bytes) : ℕ → Res ℕ
  | 0 => .error .outOfBounds
  | i + 1 =>
    match path[i]? with
    | none => .error .outOfBounds
    | some c => if c = 46 then .ok i else extentLoop path i

/-- `GetExtent(path)`; `path.size() - 1` becomes an `int`. -/
def getExtent (path : Bytes) : Res Bytes := do
  let i : ℤ := ((path.length : ℤ) - 1).bmod (2 ^ 32)
  let dot ← extentLoop path (i + 1).toNat
  return path.drop (dot + 1)

/-- The string of `c_str()`, as a system call reads it. -/
def cString (s : Bytes) : Bytes := s.takeWhile (· ≠ 0)

/-- The page for a file that cannot be opened. -/
def notFound : Bytes := bytes "/home/ldx/muduo_se-master/muduo_se/material/404.html"

/-- `GetContent(fileName)`, where `opens` has the files that can be opened: the names that are
opened, and the content. -/
def getContent (opens : Bytes → Option Bytes) (fileName : Bytes) : List Bytes × Bytes :=
  match opens (cString fileName) with
  | some content => ([cString fileName], content)
  | none => ([cString fileName, cString notFound], (opens (cString notFound)).getD [])

end Uilt

open Uilt

/-! ### The extension -/

/-- What stands behind the last `.`, if there is one. -/
def extension (path : Bytes) : Bytes :=
  if 46 ∈ path then (path.reverse.takeWhile (· ≠ 46)).reverse else []

/-- A path that the parser can leave in a request: a word of what a `Buffer` holds. -/
def Requested (path : Bytes) : Prop := 32 ∉ path ∧ path.length < 2 ^ 31

instance (path : Bytes) : Decidable (Requested path) := inferInstanceAs (Decidable (_ ∧ _))

theorem processRequestLine_requested {c c' : HttpContext} {line : Bytes} (hline : line.length < 2 ^ 31)
    (h : c.processRequestLine line = (true, c')) : Requested c'.request_.path_ := by
  obtain ⟨m, p, v, -, hp, -, rfl, rfl⟩ := (HttpContext.processRequestLine_iff c c' line).mp h
  have hlen : p.length ≤ (requestLine m p v).length := by
    unfold requestLine
    simp only [List.length_append, List.length_cons]
    omega
  refine ⟨hp, ?_⟩
  show p.length < 2 ^ 31
  omega

/-- `addbody` writes its own pages there. -/
theorem addbody_requested {r : HttpRequest} (h : Requested r.path_) (u : Uilt) (body : Bytes) :
    Requested (r.addbody u body).1.path_ := by
  unfold HttpRequest.addbody HttpRequest.login
  split
  · split_ifs
    · exact (by decide : Requested (bytes "/welcome.html"))
    · exact (by decide : Requested (bytes "/welcome.html"))
    · exact (by decide : Requested (bytes "/404.html"))
  · exact h

/-- The loop goes down to the last `.`. -/
theorem extentLoop_dot {a b : Bytes} (hb : 46 ∉ b) :
    extentLoop (a ++ 46 :: b) (a ++ 46 :: b).length = .ok a.length := by
  have hloop : ∀ j ≤ b.length, extentLoop (a ++ 46 :: b) (a.length + 1 + j) = .ok a.length := by
    intro j
    induction j with
    | zero =>
      intro _
      have hget : (a ++ 46 :: b)[a.length]? = some 46 := by simp
      rw [Nat.add_zero, extentLoop, hget]
      rfl
    | succ j ih =>
      intro hj
      have hget : (a ++ 46 :: b)[a.length + 1 + j]? = some b[j] := by
        rw [List.getElem?_append_right (by omega), show a.length + 1 + j - a.length = j + 1 by omega,
          List.getElem?_cons_succ, List.getElem?_eq_getElem]
      have hne : b[j] ≠ 46 := fun h => hb (h ▸ List.getElem_mem _)
      rw [← Nat.add_assoc, extentLoop, hget]
      dsimp only
      rw [if_neg hne]
      exact ih (by omega)
  have hlen : (a ++ 46 :: b).length = a.length + 1 + b.length := by
    rw [List.length_append, List.length_cons]
    omega
  rw [hlen]
  exact hloop b.length le_rfl

/-- Without one it leaves the string. -/
theorem extentLoop_none {path : Bytes} (h : 46 ∉ path) : ∀ i, extentLoop path i = .error .outOfBounds
  | 0 => rfl
  | i + 1 => by
    unfold extentLoop
    split
    · rfl
    · rename_i c hc
      have hne : c ≠ 46 := fun hdot => h (hdot ▸ List.mem_of_getElem? hc)
      rw [if_neg hne]
      exact extentLoop_none h i

theorem extension_dot {a b : Bytes} (hb : 46 ∉ b) : extension (a ++ 46 :: b) = b := by
  have hall : ∀ c ∈ b.reverse, decide (c ≠ 46) = true := by
    intro c hc
    have hne : c ≠ 46 := fun h => hb (h ▸ List.mem_reverse.mp hc)
    exact decide_eq_true hne
  unfold extension
  rw [if_pos (by simp), List.reverse_append, List.reverse_cons, List.append_assoc,
    List.takeWhile_append_of_pos hall]
  simp

/-- **What `GetExtent` does** with a string that is not longer than an `int` can count twice. -/
theorem getExtent_eq {path : Bytes} (h : path.length ≤ 2 ^ 32) : getExtent path =
    if 46 ∈ path ∧ path.length ≤ 2 ^ 31 then .ok (extension path) else .error .outOfBounds := by
  have hindex : (((path.length : ℤ) - 1).bmod (2 ^ 32) + 1).toNat =
      if path.length ≤ 2 ^ 31 then path.length else 0 := by
    rw [Int.bmod_def]
    split_ifs <;> omega
  unfold getExtent
  dsimp only
  rw [hindex]
  by_cases hdot : 46 ∈ path
  · obtain ⟨x, y, hxy, hx⟩ := List.eq_append_cons_of_mem (List.mem_reverse.mpr hdot)
    have hpath : path = y.reverse ++ 46 :: x.reverse := by
      rw [← List.reverse_reverse path, hxy, List.reverse_append, List.reverse_cons, List.append_assoc]
      rfl
    have hx : 46 ∉ x.reverse := fun h => hx (List.mem_reverse.mp h)
    by_cases hlen : path.length ≤ 2 ^ 31
    · have hdrop : (y.reverse ++ 46 :: x.reverse).drop (y.reverse.length + 1) = x.reverse := by
        rw [List.append_cons, ← List.length_concat (a := 46), List.concat_eq_append, List.drop_left]
      rw [if_pos hlen, if_pos ⟨hdot, hlen⟩, hpath, extentLoop_dot hx, extension_dot hx, ok_bind, res_pure, hdrop]
    · rw [if_neg hlen, if_neg fun h => hlen h.2]
      rfl
  · rw [extentLoop_none hdot, if_neg fun h => hdot h.1]
    rfl

theorem webHome_dot : 46 ∉ webHome := by decide

/-- **When the extension of a request's file is found.** -/
theorem extent_safe_iff {p : Bytes} (hp : Requested p) :
    getExtent (constructPath p) = .ok (extension (constructPath p)) ↔
      (p = bytes "/" ∨ 46 ∈ p) ∧ (constructPath p).length ≤ 2 ^ 31 := by
  have hdot : 46 ∈ constructPath p ↔ p = bytes "/" ∨ 46 ∈ p := by
    unfold constructPath
    split_ifs with h
    · exact iff_of_true (by decide) (.inl h)
    · rw [List.mem_append, or_iff_right webHome_dot, or_iff_right h]
  have hlen : (constructPath p).length ≤ 2 ^ 32 := by
    have hhome : webHome.length = 36 := by decide
    have hpage : (bytes "/index.html").length = 11 := by decide
    have hsize := hp.2
    unfold constructPath
    split_ifs
    · rw [List.length_append, hhome, hpage]
      omega
    · rw [List.length_append, hhome]
      omega
  rw [getExtent_eq hlen, ← hdot]
  split_ifs with h
  · exact iff_of_true rfl h
  · exact iff_of_false (fun he => by cases he) h

/-- The last of two extensions, in a directory with a `.`. -/
theorem extent_safe_iff_html : getExtent (constructPath (bytes "/a.b/c.tar.gz")) = .ok (bytes "gz") := by
  have hsafe := (extent_safe_iff (p := bytes "/a.b/c.tar.gz") (by decide)).mpr ⟨.inr (by decide), by decide⟩
  have hext : extension (constructPath (bytes "/a.b/c.tar.gz")) = bytes "gz" := by decide +kernel
  rw [hsafe, hext]

/-- A page without an extension. -/
theorem extent_not_safe :
    ((HttpContext.new default).processRequestLine (bytes "GET /login HTTP/1.1")).2.request_.path_ = bytes "/login" ∧
      getExtent (constructPath (bytes "/login")) = .error .outOfBounds := by
  constructor
  · decide +kernel
  · decide +kernel

/-! ### The directory -/

/-- What the system makes of a file name, from the root on. -/
def resolve (file : Bytes) : List Bytes := Path.walk [] (Path.steps 47 46 file)

/-- The directory of the web root. -/
def home : List Bytes :=
  [bytes "home", bytes "ldx", bytes "muduo_se", bytes "muduo_se", bytes "material"]

/-- The file is in the web root, or is it. -/
def Inside (file : Bytes) : Prop := home <+: resolve file

/-- Where a path leads from the web root. Without a `/` in front it is part of another name. -/
def fromHome : Bytes → List (Path.Step Bytes)
  | [] => []
  | 47 :: path => Path.steps 47 46 path
  | path => .up :: Path.steps 47 46 (bytes "material" ++ path)

/-- The path leads back into the web root: behind its `k` steps up come the last `k` names of it. -/
def Stays (path : Bytes) : Prop :=
  home.drop (home.length - (Path.climb (fromHome path)).ups) <+: (Path.climb (fromHome path)).names

instance (file : Bytes) : Decidable (Inside file) := inferInstanceAs (Decidable (_ <+: _))

instance (path : Bytes) : Decidable (Stays path) := inferInstanceAs (Decidable (_ <+: _))

theorem resolve_webHome : resolve webHome = home := by decide +kernel

theorem resolve_append (file path : Bytes) :
    resolve (file ++ 47 :: path) = Path.walk (resolve file) (Path.steps 47 46 path) := by
  unfold resolve
  rw [Path.steps_append, Path.walk_append]

theorem resolve_fromHome (path : Bytes) : resolve (webHome ++ path) = Path.walk home (fromHome path) := by
  unfold fromHome
  split
  · rw [List.append_nil, resolve_webHome]
    rfl
  · rw [resolve_append, resolve_webHome]
  · have hname : webHome ++ path = bytes "/home/ldx/muduo_se/muduo_se" ++ 47 :: (bytes "material" ++ path) := by
      rw [← List.cons_append, ← List.append_assoc]
      rfl
    have hdir : resolve (bytes "/home/ldx/muduo_se/muduo_se") = home.dropLast := by decide +kernel
    rw [hname, resolve_append, hdir]
    rfl

/-- **Which files are in the web root.** -/
theorem inside_iff (path : Bytes) : Inside (webHome ++ path) ↔ Stays path := by
  unfold Inside Stays
  rw [resolve_fromHome, Path.prefix_walk_iff]

theorem constructPath_inside_iff (path : Bytes) : Inside (constructPath path) ↔ Stays path := by
  unfold constructPath
  split_ifs with h
  · rw [h, inside_iff]
    exact iff_of_true (by decide +kernel) (by decide +kernel)
  · exact inside_iff path

/-- The file that is opened, up to its first NUL. -/
theorem opened_inside_iff (path : Bytes) : Inside (cString (constructPath path)) ↔ Stays (cString path) := by
  have hhome : ∀ c ∈ webHome, decide (c ≠ 0) = true := by decide +kernel
  unfold constructPath
  split_ifs with h
  · rw [h]
    exact iff_of_true (by decide +kernel) (by decide +kernel)
  · rw [← inside_iff]
    unfold cString
    rw [List.takeWhile_append_of_pos hhome]

/-- **When only files of the web root are served.** -/
theorem served_inside_iff (opens : Bytes → Option Bytes) (p : Bytes) :
    (Inside (constructPath p) ↔ Stays p) ∧
      ((∀ file ∈ (getContent opens (constructPath p)).1, Inside file) ↔
        Stays (cString p) ∧ (opens (cString (constructPath p))).isSome) := by
  refine ⟨constructPath_inside_iff p, ?_⟩
  have hout : ¬Inside (cString notFound) := by decide +kernel
  unfold getContent
  split
  · rename_i content hopen
    simp [hopen, opened_inside_iff]
  · rename_i hopen
    simp [hopen, hout]

/-- A source file, next to the web root. -/
theorem served_outside :
    ((HttpContext.new default).processRequestLine (bytes "GET /../net/Uilt.cc HTTP/1.1")).2.request_.path_ =
        bytes "/../net/Uilt.cc" ∧
      resolve (constructPath (bytes "/../net/Uilt.cc")) = home.dropLast ++ [bytes "net", bytes "Uilt.cc"] ∧
      ¬Inside (constructPath (bytes "/../net/Uilt.cc")) := by
  refine ⟨?_, ?_, ?_⟩
  · decide +kernel
  · decide +kernel
  · decide +kernel

end MuduoSe
