/-
# The rotation of the log files

`decis_file` gives the log file the number 1 when it has `LOG_USE_LIMIT` bytes, and first every file
with a number the next one, from `log_cnt_-1` down. `log_cnt_` counts the opens of all days, so it is
never less than what is needed: one more than the files with a number that there are of the date.

* `rotation_keeps`: over any calls of `decis_file` and any writes between them, the files with
  numbers of a date are the rotated ones, the latest with the number 1, and no call renames onto a
  file that is there or truncates one that is not empty.

The date is that of the open file: a date whose day of the month is the same is taken for the same.
The assumptions on the system are in the model: `env_ok` is set, the opens succeed, the stream is open
when it is written, there are no log files at the start, and no date comes back.

Key definitions: `LogFile.calls`, `Harmless`, `rotation`, `Rotation.Numbered`.
Key theorems: `decisFile_calls`, `shift_harmless`, `shift_up`, `numbered_step`, `rotation_keeps`.
-/
import MuduoSe.Base.RlogShutdown

namespace MuduoSe

/-! ### What is done to the files -/

/-- A call on the files or the stream. -/
inductive FileCall
  | close
  | rename (p q : LogPath)
  /-- `fp_.open`, for output only. -/
  | openOut (p : LogPath)
  deriving DecidableEq, Repr

def FileCall.run (d : Disk LogPath Byte) : FileCall → Disk LogPath Byte
  | .close => d.close
  | .rename p q => d.rename p q
  | .openOut p => d.openOut p true

/-- No file is renamed onto another one, and no file that is not empty is truncated. -/
def Harmless : Disk LogPath Byte → List FileCall → Prop
  | _, [] => True
  | d, c :: cs =>
    (match c with
      | .close => True
      | .rename p q => d.files p ≠ none → d.files q = none
      | .openOut p => d.files p = none ∨ d.files p = some []) ∧
    Harmless (c.run d) cs

namespace LogFile

/-- The calls of the loop. -/
def shiftCalls (date : Int × Int × Int) : ℕ → List FileCall
  | 0 => []
  | n + 1 => .rename ⟨date, some (n + 1)⟩ ⟨date, some (n + 2)⟩ :: shiftCalls date n

/-- The log file is long enough, and the day is the same. -/
def Rotates (f : LogFile) (date : Int × Int × Int) : Prop :=
  f.disk.failbit = false ∧ f.date_.2.2 = date.2.2 ∧ LOG_USE_LIMIT ≤ f.disk.tellp

instance (f : LogFile) (date : Int × Int × Int) : Decidable (f.Rotates date) :=
  inferInstanceAs (Decidable (_ ∧ _ ∧ _))

/-- The calls of `decis_file`. -/
def calls (f : LogFile) (date : Int × Int × Int) : List FileCall :=
  if f.disk.failbit then [.openOut ⟨date, none⟩]
  else if f.date_.2.2 ≠ date.2.2 then [.close, .openOut ⟨date, none⟩]
  else if LOG_USE_LIMIT ≤ f.disk.tellp then
    .close :: shiftCalls f.date_ (f.log_cnt_ - 1) ++
      [.rename ⟨f.date_, none⟩ ⟨f.date_, some 1⟩, .openOut ⟨f.date_, none⟩]
  else []

variable {f : LogFile} {date : Int × Int × Int} {d : Disk LogPath Byte} {k n : ℕ} {cs : List FileCall}

theorem shift_calls : ∀ (n : ℕ) (d : Disk LogPath Byte),
    shift date n d = (shiftCalls date n).foldl FileCall.run d
  | 0, _ => rfl
  | n + 1, d => by
    rw [shift, shift_calls n]
    rfl

/-- These are what `decis_file` does. -/
theorem decisFile_calls (henv : f.env_ok = true) (date : Int × Int × Int) :
    (f.decisFile date true).disk = (f.calls date).foldl FileCall.run f.disk := by
  unfold decisFile calls
  rw [henv, if_neg (by decide)]
  split_ifs with hfail hday hlong
  · exact count_disk
  · exact count_disk
  · dsimp only
    rw [count_disk, List.cons_append, List.foldl_cons, List.foldl_append, ← shift_calls]
    rfl
  · rfl

theorem harmless_append : ∀ {cs cs' : List FileCall} {d : Disk LogPath Byte},
    Harmless d (cs ++ cs') ↔ Harmless d cs ∧ Harmless (cs.foldl FileCall.run d) cs'
  | [], _, _ => by simp [Harmless]
  | c :: cs, cs', d => by
    simp only [List.cons_append, Harmless, List.foldl_cons, harmless_append, and_assoc]

/-! ### The loop -/

/-- The first name that the loop gives is free, so all of them are. -/
theorem shift_harmless : ∀ (n : ℕ) (d : Disk LogPath Byte), d.files ⟨date, some (n + 1)⟩ = none →
    Harmless d (shiftCalls date n) ∧ (shift date n d).files ⟨date, some 1⟩ = none
  | 0, _, hfree => ⟨trivial, hfree⟩
  | n + 1, d, hfree => by
    obtain ⟨-, hgone⟩ := d.rename_free (p := ⟨date, some (n + 1)⟩) hfree (by simp)
    obtain ⟨hrest, hone⟩ := shift_harmless n (d.rename ⟨date, some (n + 1)⟩ ⟨date, some (n + 2)⟩) hgone
    exact ⟨⟨fun _ => hfree, hrest⟩, hone⟩

/-- The files with numbers up to `n` have the next ones. -/
theorem shift_up : ∀ (n : ℕ) (d : Disk LogPath Byte), d.files ⟨date, some (n + 1)⟩ = none →
    ∀ k, 1 ≤ k → k ≤ n → (shift date n d).files ⟨date, some (k + 1)⟩ = d.files ⟨date, some k⟩
  | 0, _, _, k, h1, hk => absurd (h1.trans hk) (by decide)
  | n + 1, d, hfree, k, h1, hk => by
    obtain ⟨hmoved, hgone⟩ := d.rename_free (p := ⟨date, some (n + 1)⟩) hfree (by simp)
    rw [shift]
    rcases Nat.lt_or_eq_of_le hk with hlt | rfl
    · rw [shift_up n _ hgone k h1 (Nat.lt_succ_iff.mp hlt)]
      exact Disk.rename_other (by simp; omega) (by simp; omega)
    · exact (shift_other n _ (n := n + 2) (.inr (by omega))).trans hmoved

/-- No file has the number 0. -/
theorem shift_zero (date' : Int × Int × Int) : ∀ (n : ℕ) (d : Disk LogPath Byte),
    (shift date n d).files ⟨date', some 0⟩ = d.files ⟨date', some 0⟩
  | 0, _ => rfl
  | n + 1, d => by
    rw [shift, shift_zero date' n]
    exact Disk.rename_other (by simp) (by simp)

/-- The loop and the rename after it: the files `old` have the next numbers, and the log file has the
number 1. -/
theorem rotate_exact {old : List Bytes} {content : Bytes} (hlen : old.length ≤ n)
    (hold : ∀ i, d.files ⟨date, some (i + 1)⟩ = old[i]?) (hlog : d.files ⟨date, none⟩ = some content)
    {d' : Disk LogPath Byte} (hd' : d' = (shift date n d).rename ⟨date, none⟩ ⟨date, some 1⟩) :
    (∀ path : LogPath, path.date ≠ date ∨ path.number = some 0 → d'.files path = d.files path) ∧
    (∀ i, d'.files ⟨date, some (i + 1)⟩ = (content :: old)[i]?) ∧
    d'.files ⟨date, none⟩ = none ∧
    Harmless d (shiftCalls date n ++ [.rename ⟨date, none⟩ ⟨date, some 1⟩, .openOut ⟨date, none⟩]) := by
  have hnone : ∀ k, n ≤ k → d.files ⟨date, some (k + 1)⟩ = none := fun k hk =>
    (hold k).trans (List.getElem?_eq_none_iff.mpr (hlen.trans hk))
  obtain ⟨hharmless, hone⟩ := shift_harmless n d (hnone n (le_refl n))
  obtain ⟨hmoved, hgone⟩ := (shift date n d).rename_free (p := ⟨date, none⟩) hone (by simp)
  rw [hd']
  refine ⟨?_, ?_, hgone, ?_⟩
  · rintro ⟨date', number⟩ (hpath | rfl)
    · have hne : ∀ k, (⟨date', number⟩ : LogPath) ≠ ⟨date, k⟩ := by
        intro k he
        exact hpath (congrArg LogPath.date he)
      rw [Disk.rename_other (hne _) (hne _), shift_elsewhere hpath]
    · rw [Disk.rename_other (by simp) (by simp), shift_zero]
  · intro i
    cases i with
    | zero =>
      refine hmoved.trans ?_
      exact (shift_other n d (n := 0) (.inl rfl)).trans hlog
    | succ i =>
      rw [Disk.rename_other (by simp) (by simp), List.getElem?_cons_succ, ← hold i]
      rcases Nat.lt_or_ge n (i + 1) with hlt | hle
      · refine (shift_other n d (n := i + 2) (.inr (by omega))).trans ?_
        exact (hnone (i + 1) (by omega)).trans (hnone i (by omega)).symm
      · exact shift_up n d (hnone n (le_refl n)) (i + 1) (by omega) hle
  · refine harmless_append.mpr ⟨hharmless, ?_⟩
    rw [← shift_calls]
    exact ⟨fun _ => hone, .inl hgone, trivial⟩

end LogFile

/-! ### Every run -/

/-- The files, the dates that `decis_file` was called with, the latest first, and what was in the files
that were rotated, for each date the latest first. -/
structure Rotation where
  file : LogFile
  dates : List (Int × Int × Int)
  rotated : Int × Int × Int → List Bytes

inductive RotationEvent
  | decis (date : Int × Int × Int)
  | write (text : Bytes)
  deriving DecidableEq, Repr

namespace Rotation

/-- `LOG_INIT` can use `log_dir`, and there are no log files. -/
def start : Rotation := ⟨{ LogFile.start fun _ => none with env_ok := true }, [], fun _ => []⟩

/-- The file that is rotated is the latest of its date. -/
def rotate (s : Rotation) (date : Int × Int × Int) : Int × Int × Int → List Bytes :=
  if s.file.Rotates date then
    Function.update s.rotated s.file.date_
      ((s.file.disk.files ⟨s.file.date_, none⟩).getD [] :: s.rotated s.file.date_)
  else s.rotated

/-- The files with numbers are those that were rotated. -/
def Numbered (s : Rotation) : Prop :=
  ∀ date, s.file.disk.files ⟨date, some 0⟩ = none ∧
    ∀ i, s.file.disk.files ⟨date, some (i + 1)⟩ = (s.rotated date)[i]?

/-- The calls of `decis_file` do no harm. -/
def Spares (s : Rotation) : RotationEvent → Prop
  | .decis date => Harmless s.file.disk (s.file.calls date)
  | .write _ => True

end Rotation

/-- Any calls and writes, where the date does not come back. -/
def rotation : System Rotation RotationEvent Fault where
  guard s
    | .decis date => date ∉ s.dates ∨ s.dates.head? = some date
    | .write _ => s.file.disk.isOpen = true
  step s
    | .decis date => .ok ⟨s.file.decisFile date true, date :: s.dates, s.rotate date⟩
    | .write text => .ok { s with file := { s.file with disk := s.file.disk.write text } }

namespace Rotation

variable {s t : Rotation} {ev : RotationEvent} {date : Int × Int × Int}

/-- The log file of the date is open; its day is the one of the latest call, and `log_cnt_` is more
than the files of the date with a number. -/
structure On (s : Rotation) : Prop where
  on : s.file.On
  numbered : s.Numbered
  file : (s.file.disk.files ⟨s.file.date_, none⟩).isSome = true
  count : (s.rotated s.file.date_).length < s.file.log_cnt_
  seen : s.file.date_ ∈ s.dates
  day : ∀ date ∈ s.dates.head?, date.2.2 = s.file.date_.2.2
  unseen : ∀ date, date ∉ s.dates → s.file.disk.files ⟨date, none⟩ = none ∧ s.rotated date = []

/-- A file for a date that was not seen: the first, or on another day. -/
theorem opened {f g : LogFile} {rotated : Int × Int × Int → List Bytes}
    {dates : List (Int × Int × Int)} (hnum : Numbered ⟨f, dates, rotated⟩)
    (hunseen : ∀ date, date ∉ dates → f.disk.files ⟨date, none⟩ = none ∧ rotated date = [])
    (hdate : date ∉ dates) (hon : g.On) (hg : g.date_ = date) (hcount : g.log_cnt_ = f.log_cnt_ + 1)
    (hfiles : g.disk.files = Function.update f.disk.files ⟨date, none⟩ (some [])) :
    On ⟨g, date :: dates, rotated⟩ := by
  have hother : ∀ path : LogPath, path ≠ ⟨date, none⟩ → g.disk.files path = f.disk.files path := by
    intro path hpath
    rw [hfiles]
    exact Function.update_of_ne hpath ..
  refine ⟨hon, ?_, ?_, ?_, ?_, ?_, ?_⟩
  · intro date'
    obtain ⟨hzero, hnum⟩ := hnum date'
    exact ⟨(hother _ (by simp)).trans hzero, fun i => (hother _ (by simp)).trans (hnum i)⟩
  · dsimp only
    rw [hg, hfiles, Function.update_self]
    rfl
  · dsimp only
    rw [hg, (hunseen date hdate).2, hcount]
    exact Nat.succ_pos _
  · dsimp only
    rw [hg]
    exact List.mem_cons_self
  · rintro _ ⟨⟩
    dsimp only
    rw [hg]
  · intro date' hnew
    obtain ⟨hne, hnew⟩ := not_or.mp (mt List.mem_cons.mpr hnew)
    obtain ⟨hnone, hnil⟩ := hunseen date' hnew
    exact ⟨(hother _ (by simpa using hne)).trans hnone, hnil⟩

theorem first_step (hg : rotation.guard start ev) (hs : rotation.step start ev = .ok t) :
    t.On ∧ start.Spares ev := by
  cases ev with
  | decis date =>
    cases hs
    obtain ⟨hon, hcount, hdate, hfiles⟩ :=
      LogFile.count_opened (f := { start.file with date_ := date }) rfl rfl
    have hrotate : start.rotate date = start.rotated := by
      unfold rotate
      rw [if_neg (by rintro ⟨h, -⟩; cases h)]
    rw [hrotate]
    refine ⟨opened (f := start.file) (fun _ => ⟨rfl, fun _ => rfl⟩) (fun _ _ => ⟨rfl, rfl⟩)
      List.not_mem_nil hon hdate hcount hfiles, ?_⟩
    exact ⟨.inl rfl, trivial⟩
  | write text => cases hg

/-- A call on another day. -/
theorem On.newDate (h : s.On) (hdate : date ∉ s.dates) (hday : s.file.date_.2.2 ≠ date.2.2) :
    On ⟨s.file.decisFile date true, date :: s.dates, s.rotate date⟩ ∧ s.Spares (.decis date) := by
  have hclose : s.file.disk.close.files = s.file.disk.files := Disk.close_files
  have hfile : s.file.decisFile date true =
      LogFile.openDate { s.file with disk := s.file.disk.close } date true := by
    unfold LogFile.decisFile
    rw [if_neg (by simp [h.on.env_ok]), if_neg (by simp [h.on.stream])]
    exact if_pos hday
  have hcalls : s.file.calls date = [.close, .openOut ⟨date, none⟩] := by
    unfold LogFile.calls
    rw [h.on.stream]
    exact if_pos hday
  have hrotate : s.rotate date = s.rotated := by
    unfold rotate
    rw [if_neg fun hr => hday hr.2.1]
  obtain ⟨hon, hcount, hdate', hfiles⟩ := LogFile.count_opened
    (f := { s.file with date_ := date, disk := s.file.disk.close }) h.on.env_ok (Disk.close_isOpen _)
  have hunseen := (h.unseen date hdate).1
  rw [hfile, hrotate]
  refine ⟨opened (f := s.file) h.numbered h.unseen hdate hon hdate' hcount ?_, ?_⟩
  · rw [← hclose]
    exact hfiles
  · show Harmless s.file.disk (s.file.calls date)
    rw [hcalls]
    refine ⟨trivial, .inl ?_, trivial⟩
    exact (congrFun hclose _).trans hunseen

/-- A call when the file is long enough. -/
theorem On.rotates (h : s.On) (hr : s.file.Rotates date) :
    On ⟨s.file.decisFile date true, date :: s.dates, s.rotate date⟩ ∧ s.Spares (.decis date) := by
  obtain ⟨hstream, hday, hlong⟩ := id hr
  obtain ⟨content, hcontent⟩ := Option.isSome_iff_exists.mp h.file
  have hclose : s.file.disk.close.files = s.file.disk.files := Disk.close_files
  set d := (LogFile.shift s.file.date_ (s.file.log_cnt_ - 1) s.file.disk.close).rename
    ⟨s.file.date_, none⟩ ⟨s.file.date_, some 1⟩ with hd
  obtain ⟨helse, hnum, hgone, hharmless⟩ := LogFile.rotate_exact (Nat.le_sub_one_of_lt h.count)
    (fun i => (congrFun hclose _).trans ((h.numbered s.file.date_).2 i))
    ((congrFun hclose _).trans hcontent) hd
  rw [hclose] at helse
  have hclosed : d.isOpen = false := by
    rw [hd, Disk.rename_isOpen, (LogFile.shift_frame s.file.date_ _ _).1, Disk.close_isOpen]
  set g := LogFile.count { s.file with disk := d.openOut ⟨s.file.date_, none⟩ true } with hgdef
  obtain ⟨hon, hcount, hdate, hfiles⟩ : g.On ∧ g.log_cnt_ = s.file.log_cnt_ + 1 ∧
      g.date_ = s.file.date_ ∧ g.disk.files = Function.update d.files ⟨s.file.date_, none⟩ (some []) :=
    LogFile.count_opened (f := { s.file with disk := d }) h.on.env_ok hclosed
  have hopen : ∀ path : LogPath, path ≠ ⟨s.file.date_, none⟩ → g.disk.files path = d.files path := by
    intro path hpath
    rw [hfiles]
    exact Function.update_of_ne hpath ..
  have hfile : s.file.decisFile date true = g := by
    unfold LogFile.decisFile
    rw [if_neg (by simp [h.on.env_ok]), if_neg (by simp [hstream]), if_neg (not_not.mpr hday), if_pos hlong]
  have hcalls : s.file.calls date = .close :: LogFile.shiftCalls s.file.date_ (s.file.log_cnt_ - 1) ++
      [.rename ⟨s.file.date_, none⟩ ⟨s.file.date_, some 1⟩, .openOut ⟨s.file.date_, none⟩] := by
    unfold LogFile.calls
    rw [if_neg (by simp [hstream]), if_neg (not_not.mpr hday), if_pos hlong]
  have hrotate : s.rotate date =
      Function.update s.rotated s.file.date_ (content :: s.rotated s.file.date_) := by
    unfold rotate
    rw [if_pos hr, hcontent]
    rfl
  rw [hfile, hrotate]
  refine ⟨⟨hon, ?_, ?_, ?_, ?_, ?_, ?_⟩, ?_⟩
  · intro date'
    refine ⟨?_, ?_⟩
    · rw [hopen _ (by simp), helse _ (.inr rfl)]
      exact (h.numbered date').1
    · intro i
      rw [hopen _ (by simp)]
      dsimp only
      by_cases hdate' : date' = s.file.date_
      · rw [hdate', Function.update_self]
        exact hnum i
      · rw [Function.update_of_ne hdate', helse _ (.inl hdate')]
        exact (h.numbered date').2 i
  · dsimp only
    rw [hdate, hfiles, Function.update_self]
    rfl
  · dsimp only
    rw [hdate, hcount, Function.update_self]
    exact Nat.succ_lt_succ h.count
  · dsimp only
    rw [hdate]
    exact List.mem_cons_of_mem _ h.seen
  · rintro _ ⟨⟩
    dsimp only
    rw [hdate]
    exact hday.symm
  · intro date' hnew
    have hnew : date' ∉ s.dates := fun hin => hnew (List.mem_cons_of_mem _ hin)
    obtain ⟨hnone, hnil⟩ := h.unseen date' hnew
    have hne : date' ≠ s.file.date_ := fun he => hnew (he ▸ h.seen)
    dsimp only
    rw [hopen _ (by simpa using hne), helse _ (.inl hne), Function.update_of_ne hne]
    exact ⟨hnone, hnil⟩
  · show Harmless s.file.disk (s.file.calls date)
    rw [hcalls, List.cons_append]
    exact ⟨trivial, hharmless⟩

theorem On.keeps (h : s.On) (hday : s.file.date_.2.2 = date.2.2) (hr : ¬s.file.Rotates date) :
    On ⟨s.file.decisFile date true, date :: s.dates, s.rotate date⟩ ∧ s.Spares (.decis date) := by
  have hshort : ¬LOG_USE_LIMIT ≤ s.file.disk.tellp := fun hlong => hr ⟨h.on.stream, hday, hlong⟩
  have hfile : s.file.decisFile date true = s.file := by
    unfold LogFile.decisFile
    rw [h.on.env_ok, h.on.stream]
    exact (if_neg (not_not.mpr hday)).trans (if_neg hshort)
  have hcalls : s.file.calls date = [] := by
    unfold LogFile.calls
    rw [h.on.stream]
    exact (if_neg (not_not.mpr hday)).trans (if_neg hshort)
  have hrotate : s.rotate date = s.rotated := by
    unfold rotate
    rw [if_neg hr]
  rw [hfile, hrotate]
  refine ⟨⟨h.on, h.numbered, h.file, h.count, List.mem_cons_of_mem _ h.seen, ?_, ?_⟩, ?_⟩
  · rintro _ ⟨⟩
    exact hday.symm
  · exact fun date' hnew => h.unseen date' fun hin => hnew (List.mem_cons_of_mem _ hin)
  · show Harmless s.file.disk (s.file.calls date)
    rw [hcalls]
    trivial

theorem On.write (h : s.On) (text : Bytes) :
    On { s with file := { s.file with disk := s.file.disk.write text } } := by
  obtain ⟨hon, -⟩ := h.on.write text
  have hstream : s.file.disk.Coherent := by
    unfold Disk.Coherent
    rw [h.on.stream, h.on.isOpen]
    rfl
  obtain ⟨-, -, -, hfiles⟩ := Disk.write_open text hstream h.on.isOpen
  rw [h.on.target] at hfiles
  have hother : ∀ path : LogPath, path ≠ ⟨s.file.date_, none⟩ →
      (s.file.disk.write text).files path = s.file.disk.files path := by
    intro path hpath
    rw [hfiles]
    exact Function.update_of_ne hpath ..
  refine ⟨hon, ?_, ?_, h.count, h.seen, h.day, ?_⟩
  · intro date'
    obtain ⟨hzero, hnum⟩ := h.numbered date'
    exact ⟨(hother _ (by simp)).trans hzero, fun i => (hother _ (by simp)).trans (hnum i)⟩
  · dsimp only
    rw [hfiles]
    dsimp only [LogFile.name]
    rw [Function.update_self]
    rfl
  · intro date' hnew
    obtain ⟨hnone, hnil⟩ := h.unseen date' hnew
    have hne : date' ≠ s.file.date_ := fun he => hnew (he ▸ h.seen)
    exact ⟨(hother _ (by simpa using hne)).trans hnone, hnil⟩

/-- **Every call keeps the numbers and does no harm.** -/
theorem on_step (h : s.On) (hg : rotation.guard s ev) (hs : rotation.step s ev = .ok t) :
    t.On ∧ s.Spares ev := by
  cases ev with
  | decis date =>
    cases hs
    by_cases hday : s.file.date_.2.2 = date.2.2
    · by_cases hr : s.file.Rotates date
      · exact h.rotates hr
      · exact h.keeps hday hr
    · have hdate : date ∉ s.dates := hg.resolve_right fun hhead => hday (h.day date hhead).symm
      exact h.newDate hdate hday
  | write text =>
    cases hs
    exact ⟨h.write text, trivial⟩

end Rotation

/-- **A rotation destroys no file and keeps the order of age.** -/
theorem rotation_keeps {s : Rotation} {es : List RotationEvent} (h : rotation.Run .start es s) :
    s.Numbered ∧ rotation.Always Rotation.Spares .start es := by
  have hall : (s = .start ∨ s.On) ∧ rotation.Always Rotation.Spares .start es := by
    refine h.history (P := fun es s => (s = .start ∨ s.On) ∧ rotation.Always Rotation.Spares .start es)
      ⟨.inl rfl, trivial⟩ ?_
    rintro es t ev u hrun ⟨hi, hall⟩ hg hs
    rw [hrun.always_snoc]
    rcases hi with rfl | hon
    · obtain ⟨hon, hspares⟩ := Rotation.first_step hg hs
      exact ⟨.inr hon, hall, hspares⟩
    · obtain ⟨hon, hspares⟩ := Rotation.on_step hon hg hs
      exact ⟨.inr hon, hall, hspares⟩
  refine ⟨?_, hall.2⟩
  rcases hall.1 with rfl | hon
  · exact fun _ => ⟨rfl, fun _ => rfl⟩
  · exact hon.numbered

/-- A file is filled and rotated, and then the date changes. -/
theorem rotation_keeps_full : ∃ s, rotation.Run .start
    [.decis (2024, 1, 5), .write (List.replicate LOG_USE_LIMIT 97), .decis (2024, 1, 5), .decis (2024, 1, 6)] s ∧
    s.Numbered ∧ rotation.Always Rotation.Spares .start
      [.decis (2024, 1, 5), .write (List.replicate LOG_USE_LIMIT 97), .decis (2024, 1, 5),
        .decis (2024, 1, 6)] := by
  have hrun : rotation.Run .start
      [.decis (2024, 1, 5), .write (List.replicate LOG_USE_LIMIT 97), .decis (2024, 1, 5),
        .decis (2024, 1, 6)] _ :=
    .cons (.inl List.not_mem_nil) rfl
      (.cons rfl rfl (.cons (.inr rfl) rfl (.single (.inl (by decide)) rfl)))
  exact ⟨_, hrun, rotation_keeps hrun⟩

end MuduoSe
