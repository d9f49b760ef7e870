/-
# The end of the logger

`~rlog` joins the persister, which may be in the middle of its loop, and then writes one buffer: it
opens the log file for it and persists `prst_buf`.

* `nothing_lost_iff`: where every open of a closed stream succeeds, each line that was stored before
  `~rlog` is in a log file when it returns, in a block that was written for it, if and only if these
  lines have no NUL and, when the thread has been joined, those that are still in a buffer are all in
  `prst_buf` and the stream is not open (it would not open a second time); a logger that was never
  started must not have lines.
* `last_line_lost`: two lines are enough.

The date of the log changes at most once (`Timestamp.getNowTime_date`), so no file is truncated once
it has lines, and a rotation renames the files of its date to names that are free.

Key definitions: `Rlog.Opens`, `Rlog.Spared`, `Rlog.Written`, `Rlog.Filed`.
Key theorems: `On.decisFile`, `filed_step`, `flush_written`, `nothing_lost_iff`.
-/
import Mathlib.Data.List.TakeWhile
import MuduoSe.Base.RlogLines

namespace MuduoSe

/-! ### The files -/

namespace LogFile

variable {date : Int × Int × Int} {content : Bytes} {f : LogFile}

/-- The log file and the rotated ones. -/
def name (date : Int × Int × Int) : ℕ → LogPath
  | 0 => ⟨date, none⟩
  | n + 1 => ⟨date, some (n + 1)⟩

theorem name_date (n : ℕ) : (name date n).date = date := by
  cases n <;> rfl

theorem name_ne {m n : ℕ} (h : m ≠ n) : name date m ≠ name date n := by
  cases m <;> cases n <;> simp_all [name]

/-- The shift leaves the log file and the higher numbers alone. -/
theorem shift_other : ∀ (m : ℕ) (d : Disk LogPath Byte) {n : ℕ}, n = 0 ∨ m + 1 < n →
    (shift date m d).files (name date n) = d.files (name date n)
  | 0, _, _, _ => rfl
  | m + 1, d, n, hn => by
    rw [shift, shift_other m _ (by omega)]
    exact Disk.rename_other (name_ne (n := m + 1) (by omega)) (name_ne (n := m + 2) (by omega))

/-- The files up to `m` go up by one. -/
theorem shift_moves : ∀ (m : ℕ) (d : Disk LogPath Byte) {n : ℕ}, 1 ≤ n → n ≤ m →
    d.files (name date n) = some content →
      (shift date m d).files (name date (n + 1)) = some content
  | 0, _, _, h1, hm, _ => absurd (h1.trans hm) (by decide)
  | m + 1, d, n, h1, hm, hfile => by
    rw [shift]
    rcases Nat.lt_or_eq_of_le hm with hlt | rfl
    · refine shift_moves m _ h1 (Nat.lt_succ_iff.mp hlt) (Eq.trans ?_ hfile)
      exact Disk.rename_other (name_ne (n := m + 1) (by omega)) (name_ne (n := m + 2) (by omega))
    · rw [shift_other m _ (.inr (by omega))]
      exact Disk.rename_moves hfile (show name date (m + 1) ≠ name date (m + 2) from name_ne (by omega))

/-- What has another date stays where it is. -/
theorem shift_elsewhere {path : LogPath} (hpath : path.date ≠ date) :
    ∀ (m : ℕ) (d : Disk LogPath Byte), (shift date m d).files path = d.files path
  | 0, _ => rfl
  | m + 1, d => by
    rw [shift, shift_elsewhere hpath m]
    exact Disk.rename_other (fun he => hpath (he ▸ rfl)) (fun he => hpath (he ▸ rfl))

/-- A rotation keeps the files that there are, under higher numbers. -/
theorem rotate_files {d : Disk LogPath Byte} {m n : ℕ} (hn : n < m)
    (hfile : d.files (name date n) = some content) :
    ((shift date (m - 1) d).rename (name date 0) (name date 1)).files (name date (n + 1)) =
      some content := by
  rcases Nat.eq_zero_or_pos n with rfl | hpos
  · rw [← shift_other (m - 1) d (.inl rfl)] at hfile
    exact Disk.rename_moves hfile (name_ne (by omega))
  · have hshift := shift_moves (m - 1) d hpos (by omega) hfile
    exact (Disk.rename_other (name_ne (n := 0) (by omega)) (name_ne (n := 1) (by omega))).trans hshift

/-- A file of the date has `text`. -/
def Keeps (f : LogFile) (text : Bytes) : Prop :=
  ∃ n < f.log_cnt_, ∃ content, f.disk.files (name f.date_ n) = some content ∧ text <:+: content

/-- A file of another date has `text`. -/
def Left (f : LogFile) (text : Bytes) : Prop :=
  ∃ path content, path.date ≠ f.date_ ∧ f.disk.files path = some content ∧ text <:+: content

/-- The stream is open on the log file. -/
structure On (f : LogFile) : Prop where
  env_ok : f.env_ok = true
  stream : f.disk.failbit = false
  target : f.disk.target = some (.file (name f.date_ 0))
  count : 1 ≤ f.log_cnt_

theorem On.isOpen (h : f.On) : f.disk.isOpen = true := by
  unfold Disk.isOpen
  rw [h.target]
  rfl

/-- The closed stream opens the log file. -/
theorem count_opened {f : LogFile} (henv : f.env_ok = true) (hclosed : f.disk.isOpen = false) :
    (count { f with disk := f.disk.openOut (name f.date_ 0) true }).On ∧
      (count { f with disk := f.disk.openOut (name f.date_ 0) true }).log_cnt_ = f.log_cnt_ + 1 ∧
      (count { f with disk := f.disk.openOut (name f.date_ 0) true }).date_ = f.date_ ∧
      (count { f with disk := f.disk.openOut (name f.date_ 0) true }).disk.files =
        Function.update f.disk.files (name f.date_ 0) (some []) := by
  unfold Disk.openOut
  rw [Disk.openOn_closed hclosed]
  exact ⟨⟨henv, rfl, rfl, Nat.le_add_left 1 _⟩, rfl, rfl, rfl⟩

/-- The first call opens the log file. -/
theorem decisFile_first (henv : f.env_ok = true) (hfail : f.disk.failbit = true)
    (hclosed : f.disk.isOpen = false) :
    (f.decisFile date true).On ∧ (f.decisFile date true).date_ = date := by
  unfold decisFile
  rw [henv, hfail]
  obtain ⟨hon, -, hdate, -⟩ := count_opened (f := { f with date_ := date }) henv hclosed
  exact ⟨hon, hdate⟩

/-- A call on another day opens a file of that date. -/
theorem On.newDate (h : f.On) (hne : f.date_ ≠ date) {g : LogFile}
    (hg : g = openDate { f with disk := f.disk.close } date true) :
    g.On ∧ g.date_ = date ∧ ∀ text, f.Keeps text → g.Left text := by
  obtain ⟨hon, -, hdate, hfiles⟩ := count_opened
    (f := { f with date_ := date, disk := f.disk.close }) h.env_ok (Disk.close_isOpen _)
  rw [hg]
  refine ⟨hon, hdate, ?_⟩
  rintro text ⟨n, -, content, hfile, htext⟩
  refine ⟨name f.date_ n, content, ?_, ?_, htext⟩
  · rw [name_date]
    exact fun he => hne (he.trans hdate)
  · refine (congrFun hfiles _).trans ?_
    rw [Function.update_of_ne]
    · exact (congrFun Disk.close_files _).trans hfile
    · intro he
      exact hne ((name_date n).symm.trans (congrArg LogPath.date he))

/-- A call when the file is long enough rotates the files. -/
theorem On.rotate (h : f.On) {disk : Disk LogPath Byte}
    (hdisk : disk = (shift f.date_ (f.log_cnt_ - 1) f.disk.close).rename (name f.date_ 0)
      (name f.date_ 1)) {g : LogFile}
    (hg : g = LogFile.count { f with disk := disk.openOut (name f.date_ 0) true }) :
    g.On ∧ g.date_ = f.date_ ∧ (∀ text, f.Keeps text → g.Keeps text) ∧
      ∀ text, f.Left text → g.Left text := by
  have hclosed : disk.isOpen = false := by
    rw [hdisk, Disk.rename_isOpen, (shift_frame f.date_ _ _).1, Disk.close_isOpen]
  obtain ⟨hon, hcount, hdate, hfiles⟩ := count_opened (f := { f with disk := disk }) h.env_ok hclosed
  rw [hg]
  refine ⟨hon, hdate, ?_, ?_⟩
  · rintro text ⟨n, hn, content, hfile, htext⟩
    refine ⟨n + 1, ?_, content, ?_, htext⟩
    · exact lt_of_lt_of_eq (Nat.succ_lt_succ hn) hcount.symm
    · rw [hdate]
      refine (congrFun hfiles _).trans ?_
      rw [Function.update_of_ne (name_ne (by omega)), hdisk]
      exact rotate_files hn (by rw [Disk.close_files]; exact hfile)
  · rintro text ⟨path, content, hpath, hfile, htext⟩
    have hne : ∀ n, path ≠ name f.date_ n := by
      rintro n rfl
      exact hpath (name_date n)
    refine ⟨path, content, fun he => hpath (he.trans hdate), ?_, htext⟩
    refine (congrFun hfiles _).trans ?_
    rw [Function.update_of_ne (hne 0), hdisk, Disk.rename_other (hne 0) (hne 1),
      shift_elsewhere hpath, Disk.close_files]
    exact hfile

/-- After the first, a call stays with the date or goes on to the new one. -/
theorem On.decisFile (h : f.On) (date : Int × Int × Int) : (f.decisFile date true).On ∧
    (((f.decisFile date true).date_ = f.date_ ∧
        (∀ text, f.Keeps text → (f.decisFile date true).Keeps text) ∧
        ∀ text, f.Left text → (f.decisFile date true).Left text) ∨
      f.date_ ≠ date ∧ (f.decisFile date true).date_ = date ∧
        ∀ text, f.Keeps text → (f.decisFile date true).Left text) := by
  unfold LogFile.decisFile
  rw [if_neg (by simp [h.env_ok]), if_neg (by simp [h.stream])]
  split_ifs with hday hlong
  · have hne : f.date_ ≠ date := fun he => hday (he ▸ rfl)
    obtain ⟨hon, hnew⟩ := h.newDate hne rfl
    exact ⟨hon, .inr ⟨hne, hnew⟩⟩
  · obtain ⟨hon, hsame⟩ := h.rotate rfl rfl
    exact ⟨hon, .inl hsame⟩
  · exact ⟨h, .inl ⟨rfl, fun _ hk => hk, fun _ hl => hl⟩⟩

/-- What is written is in the log file. -/
theorem On.write (h : f.On) (text : Bytes) :
    On { f with disk := f.disk.write text } ∧ Keeps { f with disk := f.disk.write text } text ∧
      (∀ old, f.Keeps old → Keeps { f with disk := f.disk.write text } old) ∧
      ∀ old, f.Left old → Left { f with disk := f.disk.write text } old := by
  have hstream : f.disk.Coherent := by
    unfold Disk.Coherent
    rw [h.stream, h.isOpen]
    rfl
  obtain ⟨hstream', htarget, -, hfiles⟩ := Disk.write_open text hstream h.isOpen
  rw [h.target] at htarget hfiles
  have hself : (f.disk.write text).files (name f.date_ 0) =
      some ((f.disk.files (name f.date_ 0)).getD [] ++ text) := by
    rw [hfiles]
    exact Function.update_self ..
  have hother : ∀ path, path ≠ name f.date_ 0 →
      (f.disk.write text).files path = f.disk.files path := by
    intro path hpath
    rw [hfiles]
    exact Function.update_of_ne hpath ..
  refine ⟨⟨h.env_ok, ?_, htarget, h.count⟩, ?_, ?_, ?_⟩
  · unfold Disk.Coherent Disk.isOpen at hstream'
    rw [htarget] at hstream'
    exact hstream'
  · exact ⟨0, h.count, _, hself, (List.suffix_append _ _).isInfix⟩
  · rintro old ⟨n, hn, content, hfile, hold⟩
    rcases Nat.eq_zero_or_pos n with rfl | hpos
    · refine ⟨0, hn, _, hself, ?_⟩
      rw [hfile]
      exact hold.trans (List.prefix_append _ _).isInfix
    · exact ⟨n, hn, content, (hother _ (name_ne (by omega))).trans hfile, hold⟩
  · rintro old ⟨path, content, hpath, hfile, hold⟩
    refine ⟨path, content, hpath, (hother _ ?_).trans hfile, hold⟩
    rintro rfl
    exact hpath rfl

end LogFile

/-! ### Every run -/

section

variable {ι : Type} {s t : Rlog ι}

namespace Rlog

/-- `LOG_INIT` can use `log_dir`, and every open of a closed stream succeeds. -/
def Opens : LogEvent ι → Prop
  | .init ok | .decis ok | .flush ok _ => ok = true
  | _ => True

instance : (ev : LogEvent ι) → Decidable (Opens ev)
  | .init _ | .decis _ | .flush _ _ => inferInstanceAs (Decidable (_ = _))
  | .store | .enter _ _ _ | .reset _ | .append _ _ | .test | .lock | .wake | .take | .write _ | .advance
  | .dtor | .join => isTrue trivial

/-- The line is in a log file. -/
def Logged (s : Rlog ι) (k : ℕ) : Prop :=
  ∃ path content, s.file.disk.files path = some content ∧ s.ring.line k <:+: content

/-- The line is in a log file, in a block that was written for it. -/
def Written (s : Rlog ι) (k : ℕ) : Prop :=
  ∃ b ∈ s.ring.persisted, k ∈ b.ids ∧ s.ring.line k <:+: b.text ∧
    ∃ path content, s.file.disk.files path = some content ∧ b.text <:+: content

theorem Written.logged {k : ℕ} (h : s.Written k) : s.Logged k := by
  obtain ⟨b, -, -, hline, path, content, hfile, htext⟩ := h
  exact ⟨path, content, hfile, hline.trans htext⟩

/-- The date will not change any more, and the log file is of that date. -/
structure Final (tm_ : Timestamp) (file : LogFile) (persister : Persister) : Prop where
  minute : tm_.sys_acc_min = 0
  date_ : file.date_ = tm_.date
  deciding : ∀ date, persister = .deciding date → date = tm_.date

/-- What was persisted is in the files of the logger, where the date may change once. -/
structure Filed (s : Rlog ι) : Prop where
  env_ok : s.persister ≠ .absent → s.file.env_ok = true
  deciding : ∀ date, s.persister = .deciding date →
    date = s.tm_.date ∨ s.tm_.sys_acc_min = 0 ∧ (s.file.On → date = s.file.date_)
  date : s.file.On → s.file.date_ = s.tm_.date ∨ s.tm_.sys_acc_min = 0
  file : s.file.On ∨ s.file.disk.isOpen = false ∧ s.ring.persisted = []
  keeps : ∀ b ∈ s.ring.persisted, s.file.Keeps b.text ∨
    Final s.tm_ s.file s.persister ∧ s.file.Left b.text
  fresh : s.persister = .absent → s.file.disk.isOpen = false ∧ s.ring.persisted = []
  stored : ∀ n, s.life.joins = some n ∨ s.life.flushes = some n → n ≤ s.ring.lines.length

/-- Where the lines of a block are. -/
theorem Filed.found (h : s.Filed) {b : Block} (hb : b ∈ s.ring.persisted) :
    ∃ path content, s.file.disk.files path = some content ∧ b.text <:+: content := by
  rcases h.keeps b hb with ⟨n, -, content, hfile, hin⟩ | ⟨-, path, content, -, hfile, hin⟩
  · exact ⟨_, content, hfile, hin⟩
  · exact ⟨path, content, hfile, hin⟩

/-- The persister goes on, and leaves the files alone. -/
theorem Filed.go (h : s.Filed) {p p' : Persister} (hp : s.persister = p) (hne : p ≠ .absent)
    (hp' : p' ≠ .absent) {ring : LogRing} (hdate : ∀ date, p' = .deciding date → date = s.tm_.date)
    (hring : ring.persisted = s.ring.persisted) (hlines : ring.lines = s.ring.lines) :
    Filed { s with persister := p', ring := ring } := by
  refine ⟨fun _ => h.env_ok (hp ▸ hne), fun date hd => .inl (hdate date hd), h.date, ?_, ?_,
    fun he => absurd he hp', ?_⟩
  · dsimp only
    rw [hring]
    exact h.file
  · intro b hb
    dsimp only at hb
    rw [hring] at hb
    rcases h.keeps b hb with hk | ⟨hfinal, hl⟩
    · exact .inl hk
    · exact .inr ⟨⟨hfinal.minute, hfinal.date_, hdate⟩, hl⟩
  · dsimp only
    rw [hlines]
    exact h.stored

/-- The clock is read: nothing changes, or the date does for the first and the last time. -/
theorem Filed.clock (h : s.Filed) (localtime : ℕ → Tm) (tv_sec tv_usec : ℕ) (thread : ι → Producer) :
    Filed { s with tm_ := (s.tm_.getNowTime localtime tv_sec tv_usec).1, thread := thread } := by
  rcases s.tm_.getNowTime_date localtime tv_sec tv_usec with ⟨hdate, hminute⟩ | ⟨hminute, hsettled⟩
  · refine ⟨h.env_ok, ?_, ?_, h.file, ?_, h.fresh, h.stored⟩
    · dsimp only
      rw [hdate, hminute]
      exact h.deciding
    · dsimp only
      rw [hdate, hminute]
      exact h.date
    · intro b hb
      refine (h.keeps b hb).imp_right ?_
      rintro ⟨hfinal, hl⟩
      refine ⟨⟨hminute.trans hfinal.minute, hfinal.date_.trans hdate.symm, ?_⟩, hl⟩
      dsimp only
      rw [hdate]
      exact hfinal.deciding
  · have hold : s.file.On → s.file.date_ = s.tm_.date := fun hon =>
      (h.date hon).resolve_right hminute
    refine ⟨h.env_ok, ?_, fun _ => .inr hsettled, h.file, ?_, h.fresh, h.stored⟩
    · intro date hd
      refine .inr ⟨hsettled, fun hon => ?_⟩
      rcases h.deciding date hd with heq | ⟨hzero, -⟩
      · exact heq.trans (hold hon).symm
      · exact absurd hzero hminute
    · intro b hb
      rcases h.keeps b hb with hk | ⟨hfinal, -⟩
      · exact .inl hk
      · exact absurd hfinal.minute hminute

/-- `decis_file` leaves what was persisted in the files. -/
theorem Filed.decis (h : s.Filed) {date : Int × Int × Int} (hper : s.persister = .deciding date)
    (hstream : s.file.disk.Coherent) {p : Persister} (hp : ∀ date, p ≠ .deciding date)
    (hne : p ≠ .absent) : Filed { s with file := s.file.decisFile date true, persister := p } := by
  have henv : s.file.env_ok = true := h.env_ok (by rw [hper]; simp)
  rcases h.file with hon | ⟨hclosed, hnone⟩
  · obtain ⟨hon', hsame | ⟨hne', hdate, hleft⟩⟩ := hon.decisFile date
    · obtain ⟨hdate, hkeeps, hleft⟩ := hsame
      refine ⟨fun _ => hon'.env_ok, fun d hd => absurd hd (hp d), ?_, .inl hon', ?_,
        fun he => absurd he hne, h.stored⟩
      · intro _
        dsimp only
        rw [hdate]
        exact h.date hon
      · intro b hb
        refine (h.keeps b hb).imp (hkeeps _) ?_
        rintro ⟨hfinal, hl⟩
        exact ⟨⟨hfinal.minute, hdate.trans hfinal.date_, fun d hd => absurd hd (hp d)⟩, hleft _ hl⟩
    · -- The date is the new one, and will stay.
      have htm : date = s.tm_.date := by
        rcases h.deciding date hper with heq | ⟨-, hsame⟩
        · exact heq
        · exact absurd (hsame hon).symm hne'
      have hsettled : s.tm_.sys_acc_min = 0 := by
        refine (h.date hon).resolve_left ?_
        rw [← htm]
        exact hne'
      refine ⟨fun _ => hon'.env_ok, fun d hd => absurd hd (hp d), fun _ => .inr hsettled, .inl hon', ?_,
        fun he => absurd he hne, h.stored⟩
      intro b hb
      rcases h.keeps b hb with hk | ⟨hfinal, -⟩
      · exact .inr ⟨⟨hsettled, hdate.trans htm, fun d hd => absurd hd (hp d)⟩, hleft _ hk⟩
      · exact absurd (hfinal.date_.trans htm.symm) hne'
  · have hfail : s.file.disk.failbit = true := by
      rw [hstream, hclosed]
      rfl
    obtain ⟨hon', hdate⟩ := LogFile.decisFile_first henv hfail hclosed
    refine ⟨fun _ => hon'.env_ok, fun d hd => absurd hd (hp d), ?_, .inl hon', ?_,
      fun he => absurd he hne, h.stored⟩
    · intro _
      dsimp only
      rw [hdate]
      exact (h.deciding date hper).imp_right And.left
    · dsimp only
      rw [hnone]
      exact fun b hb => absurd hb List.not_mem_nil

end Rlog

open Rlog

variable [DecidableEq ι] {raw : ℕ → ℕ → Byte} {localtime : ℕ → Tm} {ev : LogEvent ι}

/-- **A step keeps what was persisted in the files.** -/
theorem filed_step (h : s.Filed) (hsound : s.Sound) (hg : (logger raw localtime).guard s ev)
    (hs : (logger raw localtime).step s ev = .ok t) (hopens : Opens ev) : t.Filed ∨ t.Over := by
  cases ev with
  | init ok =>
    obtain ⟨hclosed, hnone⟩ := h.fresh (hsound.absent.mpr hg)
    obtain rfl : ok = true := hopens
    cases hs
    refine .inl ⟨fun _ => rfl, by simp, ?_, .inr ⟨hclosed, hnone⟩, ?_, by simp, by
      simp [LogLife.joins, LogLife.flushes]⟩
    · intro hon
      rw [show s.file.disk.isOpen = true from hon.isOpen] at hclosed
      cases hclosed
    · dsimp only
      rw [hnone]
      exact fun b hb => absurd hb List.not_mem_nil
  | store =>
    cases hs
    exact .inl ⟨h.env_ok, h.deciding, h.date, h.file, h.keeps, h.fresh, by
      simp [LogLife.joins, LogLife.flushes]⟩
  | enter i tv_sec tv_usec =>
    obtain ⟨thread, rfl, -⟩ := enter_inv hs
    exact .inl (h.clock localtime tv_sec tv_usec thread)
  | reset i =>
    obtain ⟨curr_sec, -, rfl⟩ := reset_inv hg hs
    exact .inl ⟨h.env_ok, h.deciding, h.date, h.file, h.keeps, h.fresh, h.stored⟩
  | append i log_line =>
    obtain ⟨curr_sec, -, rfl⟩ := append_inv hg hs
    refine .inl ⟨h.env_ok, h.deciding, h.date, ?_, ?_, ?_, ?_⟩
    · dsimp only [move]
      rw [LogRing.critical_same.1]
      exact h.file
    · dsimp only [move]
      rw [LogRing.critical_same.1]
      exact h.keeps
    · dsimp only [move]
      rw [LogRing.critical_same.1]
      exact h.fresh
    · exact fun n hn => (h.stored n hn).trans LogRing.critical_lines
  | test =>
    cases hs
    refine .inl (h.go (show s.persister = .top from hg) (by simp) ?_ ?_ rfl rfl)
    · split_ifs <;> simp
    · split_ifs <;> simp
  | lock =>
    cases hs
    refine .inl (h.go (show s.persister = .entering from hg) (by simp) ?_ ?_ rfl rfl)
    · split_ifs <;> simp
    · split_ifs <;> simp
  | wake =>
    cases hs
    exact .inl (h.go (show s.persister = .waiting from hg) (by simp) (by simp) (by simp) rfl rfl)
  | take =>
    have hper : s.persister = .taking := hg
    rcases take_inv hs with rfl | rfl
    · exact .inl (h.go hper (by simp) (by simp) (by simp) rfl rfl)
    · refine .inl (h.go hper (by simp) (by simp) ?_ LogRing.take_persisted LogRing.take_lines)
      intro date hdate
      cases hdate
      rfl
  | decis ok =>
    obtain rfl : ok = true := hopens
    obtain ⟨date, hper, rfl⟩ := decis_inv hg hs
    refine .inl (h.decis hper hsound.stream ?_ ?_)
    · intro d
      split_ifs <;> simp
    · split_ifs <;> simp
  | write beyond =>
    have hopen := hsound.writing hg
    cases hs
    rcases h.file with hon | ⟨hclosed, -⟩
    · obtain ⟨hon', hself, hkeeps, hleft⟩ := hon.write ((s.ring.buf s.ring.prst_buf).text beyond)
      refine .inl ⟨fun _ => hon'.env_ok, by simp, fun _ => h.date hon, .inl hon', ?_, by simp, h.stored⟩
      intro b hb
      rcases List.mem_append.mp hb with hb | hb
      · refine (h.keeps b hb).imp (hkeeps _) ?_
        rintro ⟨hfinal, hl⟩
        exact ⟨⟨hfinal.minute, hfinal.date_, by simp⟩, hleft _ hl⟩
      · rw [List.mem_singleton.mp hb]
        exact .inl hself
    · rw [hopen] at hclosed
      cases hclosed
  | advance =>
    cases hs
    exact .inl (h.go (show s.persister = .advancing from hg) (by simp) (by simp) (by simp) rfl rfl)
  | dtor =>
    rcases dtor_inv hs with ⟨hper, rfl⟩ | ⟨-, rfl⟩
    · exact .inr ⟨⟨_, rfl⟩, .inl hper⟩
    · refine .inl ⟨h.env_ok, h.deciding, h.date, h.file, h.keeps, h.fresh, ?_⟩
      rintro n (hn | hn) <;> cases hn
      exact le_refl _
  | join =>
    obtain ⟨stored, hlife, rfl⟩ := join_inv hg hs
    refine .inl ⟨h.env_ok, h.deciding, h.date, h.file, h.keeps, h.fresh, ?_⟩
    rintro n (hn | hn) <;> cases hn
    exact h.stored stored (.inl (by rw [hlife]; rfl))
  | flush ok beyond => exact .inr (flush_over hsound hg hs)

omit [DecidableEq ι] in
theorem start_filed (one_buff_len now : ℕ) (files : LogPath → Option Bytes) :
    (Rlog.start raw localtime one_buff_len now files : Rlog ι).Filed := by
  refine ⟨fun he => absurd rfl he, ?_, ?_, .inr ⟨rfl, rfl⟩, ?_, fun _ => ⟨rfl, rfl⟩, ?_⟩
  · rintro date ⟨⟩
  · intro hon
    cases hon.isOpen
  · exact fun b hb => absurd hb List.not_mem_nil
  · rintro n (hn | hn) <;> cases hn

variable {one_buff_len now stored : ℕ} {files : LogPath → Option Bytes} {es : List (LogEvent ι)}

theorem logger_filed
    (h : (logger raw localtime).Run (.start raw localtime one_buff_len now files) es s)
    (hopens : ∀ e ∈ es, Opens e) : s.Filed ∧ s.Sound ∨ s.Over := by
  revert hopens
  refine System.Run.history (P := fun es s => (∀ e ∈ es, Opens e) → s.Filed ∧ s.Sound ∨ s.Over)
    ?_ ?_ h
  · exact fun _ => .inl ⟨start_filed .., start_sound ..⟩
  · intro es t ev u _ ih hg hs hopens
    rcases ih fun e he => hopens e (List.mem_append_left _ he) with ⟨hfiled, hsound⟩ | hover
    · exact hsound.and_step hg hs (filed_step hfiled hsound hg hs (hopens ev (by simp)))
    · exact .inr (over_step hover hg hs)

/-! ### The last buffer -/

/-- `~rlog` writes every line that was stored before it: if the logger was started, the lines that are
in a buffer when the thread has been joined are in `prst_buf`, and the stream is closed. -/
def Rlog.Spared (s : Rlog ι) : LogEvent ι → Prop
  | .dtor => s.life = .fresh → s.ring.lines = []
  | .flush _ _ => ∀ stored ∈ s.life.flushes, ∀ k < stored, ∀ p < s.ring.fresh, k ∈ s.ring.held p →
      p = s.ring.prst_buf ∧ (s.ring.buf p).empty = false ∧ s.file.disk.isOpen = false
  | _ => True

instance (s : Rlog ι) : (ev : LogEvent ι) → Decidable (s.Spared ev)
  | .dtor => inferInstanceAs (Decidable (_ → _))
  | .flush _ _ => inferInstanceAs (Decidable (∀ stored ∈ s.life.flushes, ∀ k < stored,
      ∀ p < s.ring.fresh, _ → _))
  | .init _ | .store | .enter _ _ _ | .reset _ | .append _ _ | .test | .lock | .wake | .take | .decis _
  | .write _ | .advance | .join => isTrue trivial

/-- The step with which `~rlog` returns. -/
theorem returns_inv (hg : (logger raw localtime).guard s ev)
    (hs : (logger raw localtime).step s ev = .ok t) (hlife : ∀ n, s.life ≠ .returned n)
    (hreturned : t.life = .returned stored) :
    (ev = .dtor ∧ s.persister = .absent ∧ stored = s.ring.lines.length ∧ t.ring = s.ring) ∨
    (∃ ok beyond, ev = .flush ok beyond ∧ s.life = .joined stored ∧
      t = { s.flush ok beyond with life := .returned stored }) := by
  cases ev with
  | init _ | store =>
    cases hs
    cases hreturned
  | enter i tv_sec tv_usec =>
    obtain ⟨thread, rfl, -⟩ := enter_inv hs
    exact absurd hreturned (hlife stored)
  | reset i =>
    obtain ⟨curr_sec, -, rfl⟩ := reset_inv hg hs
    exact absurd hreturned (hlife stored)
  | append i log_line =>
    obtain ⟨curr_sec, -, rfl⟩ := append_inv hg hs
    exact absurd hreturned (hlife stored)
  | decis ok =>
    obtain ⟨date, -, rfl⟩ := decis_inv hg hs
    exact absurd hreturned (hlife stored)
  | take =>
    rcases take_inv hs with rfl | rfl <;> exact absurd hreturned (hlife stored)
  | test | lock | wake | write _ | advance =>
    cases hs
    exact absurd hreturned (hlife stored)
  | dtor =>
    rcases dtor_inv hs with ⟨hper, rfl⟩ | ⟨-, rfl⟩ <;> cases hreturned
    exact .inl ⟨rfl, hper, rfl, rfl⟩
  | join =>
    obtain ⟨n, -, rfl⟩ := join_inv hg hs
    cases hreturned
  | flush ok beyond =>
    obtain ⟨n, hn, rfl⟩ := flush_inv hg hs
    cases hreturned
    exact .inr ⟨ok, beyond, rfl, hn, rfl⟩

/-- Until it returns, nothing that is asked of `~rlog` has gone wrong. -/
theorem spared_before
    (h : (logger raw localtime).Run (.start raw localtime one_buff_len now files) es s) :
    s.Over ∨ (logger raw localtime).Always Spared (.start raw localtime one_buff_len now files) es := by
  refine System.Run.history (P := fun es s => s.Over ∨
    (logger raw localtime).Always Spared (.start raw localtime one_buff_len now files) es) ?_ ?_ h
  · exact .inr trivial
  · intro es t ev u hrun ih hg hs
    rcases ih with hover | hall
    · exact .inl (over_step hover hg hs)
    rw [hrun.always_snoc]
    rcases logger_sound hrun with hsound | hover
    · cases ev with
      | dtor =>
        by_cases hfresh : t.life = .fresh
        · left
          rcases dtor_inv hs with ⟨hper, rfl⟩ | ⟨hper, -⟩
          · exact ⟨⟨_, rfl⟩, .inl hper⟩
          · exact absurd (hsound.absent.mpr hfresh) hper
        · exact .inr ⟨hall, fun he => absurd he hfresh⟩
      | flush ok beyond => exact .inl (flush_over hsound hg hs)
      | _ => exact .inr ⟨hall, trivial⟩
    · exact .inl (over_step hover hg hs)

omit [DecidableEq ι] in
/-- The last buffer is written if it has room for anything and the stream is closed. -/
theorem mem_flush {beyond : Bytes} {b : Block} : b ∈ (s.flush true beyond).ring.persisted ↔
    b ∈ s.ring.persisted ∨ (s.ring.buf s.ring.prst_buf).empty = false ∧ s.file.disk.isOpen = false ∧
      b = ⟨s.ring.held s.ring.prst_buf, (s.ring.buf s.ring.prst_buf).text beyond⟩ := by
  unfold Rlog.flush
  dsimp only
  rw [Disk.openApp_failbit]
  split_ifs with hempty hopen
  · simp [hempty]
  · simp [hopen]
  · unfold LogRing.persist
    dsimp only
    rw [List.mem_append, List.mem_singleton]
    simp [hempty, hopen]

omit [DecidableEq ι] in
/-- **What `~rlog` loses.** -/
theorem flush_spared (hsound : s.Sound) (hlife : s.life = .joined stored)
    (hstored : stored ≤ s.ring.lines.length) (beyond : Bytes) :
    (∀ k < stored, ∃ b ∈ (s.flush true beyond).ring.persisted, k ∈ b.ids) ↔
      s.Spared (.flush true beyond) := by
  have hkept := hsound.kept
  unfold Spared
  rw [hlife]
  constructor
  · rintro hall n ⟨⟩ k hk p - hp
    obtain ⟨b, hb, hkb⟩ := hall k hk
    rcases mem_flush.mp hb with hb | ⟨hempty, hclosed, rfl⟩
    · exact absurd hp ((hkept.gone b hb k hkb).2 p)
    · obtain rfl := hkept.once k p _ hp hkb
      exact ⟨rfl, hempty, hclosed⟩
  · intro hspared k hk
    rcases hkept.all k (lt_of_lt_of_le hk hstored) with ⟨p, hp⟩ | ⟨b, hb, hkb⟩
    · have hlt : p < s.ring.fresh := by
        by_contra hge
        rw [hkept.unused p (not_lt.mp hge)] at hp
        cases hp
      obtain ⟨rfl, hempty, hclosed⟩ := hspared stored rfl k hk p hlt hp
      exact ⟨_, mem_flush.mpr (.inr ⟨hempty, hclosed, rfl⟩), hp⟩
    · exact ⟨b, mem_flush.mpr (.inl hb), hkb⟩

omit [DecidableEq ι] in
/-- What `~rlog` and the persister have written is in the files. -/
theorem flush_files (hfiled : s.Filed) {beyond : Bytes} {b : Block}
    (hb : b ∈ (s.flush true beyond).ring.persisted) :
    ∃ path content, (s.flush true beyond).file.disk.files path = some content ∧
      b.text <:+: content := by
  have hfiles : (s.flush true beyond).file.disk.files =
      if (s.ring.buf s.ring.prst_buf).empty ∨ s.file.disk.isOpen then s.file.disk.files
      else Function.update s.file.disk.files ⟨s.tm_.date, none⟩
        (some ((s.file.disk.files ⟨s.tm_.date, none⟩).getD [] ++
          (s.ring.buf s.ring.prst_buf).text beyond)) := by
    unfold Rlog.flush
    by_cases hempty : (s.ring.buf s.ring.prst_buf).empty
    · rw [if_pos hempty, if_pos (.inl hempty)]
    · rw [if_neg hempty]
      refine (Disk.append_files _ _ _).trans ?_
      simp only [hempty, Bool.false_eq_true, false_or]
  rw [hfiles]
  rcases mem_flush.mp hb with hb | ⟨hempty, hclosed, rfl⟩
  · obtain ⟨path, content, hfile, hin⟩ := hfiled.found hb
    have hopen : s.file.disk.isOpen = true := by
      rcases hfiled.file with hon | ⟨-, hnone⟩
      · exact hon.isOpen
      · rw [hnone] at hb
        cases hb
    refine ⟨path, content, ?_, hin⟩
    rw [if_pos (.inr hopen)]
    exact hfile
  · rw [if_neg (by simp [hempty, hclosed])]
    exact ⟨_, _, Function.update_self .., (List.suffix_append _ _).isInfix⟩

/-- A block has the lines that it was written for, up to the first that has a NUL. -/
theorem line_within {r : LogRing} {b : Block} {k : ℕ}
    (htext : (b.ids.flatMap r.line).takeWhile (· ≠ 0) <+: b.text) (hsorted : b.ids.Pairwise (· < ·))
    (hnul : ∀ j ≤ k, (0 : Byte) ∉ r.line j) (hk : k ∈ b.ids) : r.line k <:+: b.text := by
  obtain ⟨before, after, hids⟩ := List.append_of_mem hk
  rw [hids] at htext hsorted
  have hbefore : ∀ j ∈ before, j ≤ k := fun j hj =>
    le_of_lt ((List.pairwise_append.mp hsorted).2.2 j hj k (by simp))
  have hfree : ∀ x ∈ before.flatMap r.line ++ r.line k, decide (x ≠ 0) = true := by
    intro x hx
    refine decide_eq_true ?_
    rintro rfl
    rcases List.mem_append.mp hx with hx | hx
    · obtain ⟨j, hj, hxj⟩ := List.mem_flatMap.mp hx
      exact hnul j (hbefore j hj) hxj
    · exact hnul k (le_refl k) hx
  rw [List.flatMap_append, List.flatMap_cons, ← List.append_assoc,
    List.takeWhile_append_of_pos hfree] at htext
  refine List.IsInfix.trans ?_ htext.isInfix
  exact (List.suffix_append _ _).isInfix.trans (List.prefix_append _ _).isInfix

omit [DecidableEq ι] in
/-- **Which lines are in the files when `~rlog` has joined the thread.** -/
theorem flush_written (hsound : s.Sound) (hfiled : s.Filed) (hlife : s.life = .joined stored)
    (beyond : Bytes) : (∀ k < stored, (s.flush true beyond).Written k) ↔
      (∀ k < stored, (0 : Byte) ∉ s.ring.line k) ∧ s.Spared (.flush true beyond) := by
  have hstored := hfiled.stored stored (.inr (by rw [hlife]; rfl))
  have hpersist := hsound.kept.persist beyond
  have hblock : ∀ b ∈ (s.flush true beyond).ring.persisted, b ∈ (s.ring.persist beyond).persisted := by
    intro b hb
    rcases mem_flush.mp hb with hb | ⟨-, -, rfl⟩
    · exact List.mem_append_left _ hb
    · exact List.mem_append_right _ (List.mem_singleton_self _)
  have hline : (s.flush true beyond).ring.line = s.ring.line := by
    unfold Rlog.flush
    split_ifs <;> rfl
  rw [← flush_spared hsound hlife hstored beyond]
  unfold Rlog.Written
  rw [hline]
  constructor
  · intro hall
    constructor
    · intro k hk hnul
      obtain ⟨b, hb, -, hin, -⟩ := hall k hk
      exact (hpersist.blocks b (hblock b hb)).2 (hin.subset hnul)
    · intro k hk
      obtain ⟨b, hb, hkb, -⟩ := hall k hk
      exact ⟨b, hb, hkb⟩
  · rintro ⟨hnul, hall⟩ k hk
    obtain ⟨b, hb, hkb⟩ := hall k hk
    have hin : s.ring.line k <:+: b.text :=
      line_within (hpersist.text b (hblock b hb)) (hpersist.blocks b (hblock b hb)).1
        (fun j hj => hnul j (lt_of_le_of_lt hj hk)) hkb
    exact ⟨b, hb, hkb, hin, flush_files hfiled hb⟩

/-- **When the end of the logger loses nothing.** `s` is the state in which `~rlog` takes its last step,
and `t` the one in which it has returned. -/
theorem nothing_lost_iff
    (h : (logger raw localtime).Run (.start raw localtime one_buff_len now files) es s)
    (hlife : ∀ n, s.life ≠ .returned n) (hg : (logger raw localtime).guard s ev)
    (hs : (logger raw localtime).step s ev = .ok t) (hreturned : t.life = .returned stored)
    (hopens : ∀ e ∈ es ++ [ev], Opens e) :
    (∀ k < stored, t.Written k) ↔ (∀ k < stored, (0 : Byte) ∉ s.ring.line k) ∧
      (logger raw localtime).Always Spared (.start raw localtime one_buff_len now files)
        (es ++ [ev]) := by
  obtain ⟨hfiled, hsound⟩ : s.Filed ∧ s.Sound := by
    rcases logger_filed h fun e he => hopens e (List.mem_append_left _ he) with hi | hover
    · exact hi
    · obtain ⟨⟨n, hn⟩, -⟩ := hover
      exact absurd hn (hlife n)
  have hbefore : (logger raw localtime).Always Spared (.start raw localtime one_buff_len now files) es := by
    rcases spared_before h with hover | hall
    · obtain ⟨⟨n, hn⟩, -⟩ := hover
      exact absurd hn (hlife n)
    · exact hall
  rw [h.always_snoc, and_iff_right hbefore]
  rcases returns_inv hg hs hlife hreturned with
    ⟨rfl, hper, rfl, hring⟩ | ⟨ok, beyond, rfl, hjoined, rfl⟩
  · -- The logger was not started: no line has been persisted.
    have hspared : s.Spared .dtor ↔ s.ring.lines = [] := by
      show (s.life = .fresh → _) ↔ _
      rw [← hsound.absent]
      exact ⟨fun hl => hl hper, fun hl _ => hl⟩
    rw [hspared]
    constructor
    · intro hall
      have hnone : s.ring.lines = [] := by
        rw [← List.length_eq_zero_iff]
        by_contra hne
        obtain ⟨b, hb, -⟩ := hall 0 (Nat.pos_of_ne_zero hne)
        rw [hring, (hfiled.fresh hper).2] at hb
        cases hb
      refine ⟨?_, hnone⟩
      rw [hnone]
      exact fun k hk => absurd hk (Nat.not_lt_zero k)
    · rintro ⟨-, hnone⟩ k hk
      rw [hnone] at hk
      exact absurd hk (Nat.not_lt_zero k)
  · obtain rfl : ok = true := hopens (.flush ok beyond) (by simp)
    exact flush_written hsound hfiled hjoined beyond

end

/-! ### Two runs -/

/-- Buffers of four bytes each. -/
def small : Rlog Unit := .start (fun _ _ => 0) (fun _ => default) 4 0 fun _ => none

/-- A line is stored, and the logger is destroyed before it writes anything. -/
def oneLine : List (LogEvent Unit) := [.init true, .store] ++ logLine [97] ++ [.dtor, .test, .join]

theorem nothing_lost_iff_oneLine : ∃ s t, (logger (fun _ _ => 0) fun _ => default).Run small oneLine s ∧
    (logger (fun _ _ => 0) fun _ => default).step s (.flush true []) = .ok t ∧
    t.life = .returned 1 ∧ t.Logged 0 := by
  have hrun : (((logger (fun _ _ => 0) fun _ => default).exec small oneLine).map fun s =>
      (s.life, s.ring.lines)) = some (.joined 1, [[97]]) := by
    decide +kernel
  have hmore : (((logger (fun _ _ => 0) fun _ => default).exec small
      (oneLine ++ [.flush true []])).map fun t => t.life) = some (.returned 1) := by
    decide +kernel
  obtain ⟨s, hs, hview⟩ := (System.exec_map_iff _).mp hrun
  obtain ⟨t, ht, hreturned⟩ := (System.exec_map_iff _).mp hmore
  obtain ⟨hjoined, hlines⟩ := Prod.mk.inj hview
  obtain ⟨s', hs', hst⟩ := ht.split
  obtain rfl : s = s' := hs.unique hs'
  cases hst with
  | cons hg hstep hnil =>
    cases hnil
    have hiff := nothing_lost_iff hs (by simp [hjoined]) hg hstep hreturned (by decide +kernel)
    refine ⟨s, t, hs, hstep, hreturned, (hiff.mpr ⟨?_, by decide +kernel⟩ 0 (by decide)).logged⟩
    intro k hk
    obtain rfl : k = 0 := Nat.lt_one_iff.mp hk
    unfold LogRing.line
    rw [hlines]
    decide

/-- The first line has been persisted; the second is in the next buffer when the logger is
destroyed. -/
def lastLine : List (LogEvent Unit) :=
  [.init true, .store] ++ logLine [97] ++ [.test, .lock, .wake, .take, .decis true, .write [], .advance] ++
    logLine [98] ++ [.dtor, .test, .join, .flush true []]

/-- **The last line is lost**: the stream is open on the log file and does not open it again. -/
theorem last_line_lost : ∃ t, (logger (fun _ _ => 0) fun _ => default).Run small lastLine t ∧
    t.life = .returned 2 ∧ t.ring.lines = [[97], [98]] ∧ ¬t.Logged 1 := by
  have hrun : (((logger (fun _ _ => 0) fun _ => default).exec small lastLine).map fun t =>
      (t.life, t.ring.lines)) = some (.returned 2, [[97], [98]]) := by
    decide +kernel
  have hfiles : (((logger (fun _ _ => 0) fun _ => default).exec small lastLine).map fun t =>
      t.file.disk.files) = some (Function.update (Function.update (fun _ => none)
        (LogFile.name (1900, 1, 0) 0) (some [])) (LogFile.name (1900, 1, 0) 0) (some [97, 10])) := by
    rfl
  obtain ⟨t, ht, hview⟩ := (System.exec_map_iff _).mp hrun
  obtain ⟨t', ht', hfiles⟩ := (System.exec_map_iff _).mp hfiles
  obtain rfl : t = t' := ht.unique ht'
  obtain ⟨hlife, hlines⟩ := Prod.mk.inj hview
  refine ⟨t, ht, hlife, hlines, ?_⟩
  rintro ⟨path, content, hfile, hin⟩
  have hline : t.ring.line 1 = [98] := by
    unfold LogRing.line
    rw [hlines]
    rfl
  have hmem : (98 : Byte) ∈ content := hin.subset (by rw [hline]; simp)
  rw [hfiles, Function.update_idem] at hfile
  by_cases hpath : path = LogFile.name (1900, 1, 0) 0
  · rw [hpath, Function.update_self] at hfile
    cases hfile
    exact absurd hmem (by decide)
  · rw [Function.update_of_ne hpath] at hfile
    cases hfile

end MuduoSe
