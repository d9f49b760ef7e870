/-
# The line that a thread logs

`try_append` formats a line into `log_line`, an array of `LOG_LEN_LIMIT` bytes, with two calls of
`snprintf`, the second behind what the first one wrote, and hands `append` as many bytes as the sum
of what they returned. But `snprintf` returns how long its whole output would be, also when there
was no room for it, and a negative number when it fails.

* `line_safe_iff`: the bytes that are appended are those of `log_line`, and just the characters that
  were written there, if and only if both calls succeed and the outputs together are shorter than
  the array; then a FREE buffer that is selected always takes them.
* `long_line_overruns`: a message of 4090 characters is enough.

A FREE buffer other than the current one is empty, in every run (`LogRing.Spare`), so the check of
the space in `append` fails only for a line that is longer than a whole buffer (`critical_stores`).

Key definitions: `Printed`, `Rlog.format`, `LogRing.Selects`, `Rlog.LineSafe`.
Key theorems: `Spare.moved`, `critical_stores`, `format_safe_iff`, `line_safe_iff`.
-/
import MuduoSe.Base.RlogCycle

namespace MuduoSe

def LOG_LEN_LIMIT : ℕ := 4 * 1024

/-! ### The two calls of `snprintf` -/

/-- What a call of `snprintf` comes to. -/
inductive Printed
  /-- It has formatted `text`. -/
  | output (text : Bytes)
  /-- It has failed, returns `ret` and leaves some bytes. -/
  | error (ret : Int) (left : Bytes)
  deriving DecidableEq, Repr

namespace Printed

def ret : Printed → Int
  | output text => text.length
  | error ret _ => ret

/-- The characters that get into an array of `size` bytes: with an output, one byte is for the NUL. -/
def stored (size : ℕ) : Printed → Bytes
  | output text => text.take (size - 1)
  | error _ left => left.take size

/-- What the array `dst` holds after a call for its place `off`. -/
def into (dst : Bytes) (off size : ℕ) : Printed → Bytes
  | output text => if size = 0 then dst else snprintf dst off size text
  | error _ left => dst.take off ++ left.take size ++ dst.drop (off + (left.take size).length)

/-- What is specified of a call whose whole output would be `text`: it returns the length of `text`,
or a negative number. -/
inductive Of (text : Bytes) : Printed → Prop
  | output : text.length < 2 ^ 31 → Of text (.output text)
  | error (ret : Int) (left : Bytes) : -2 ^ 31 ≤ ret → ret < 0 → Of text (.error ret left)

end Printed

namespace Rlog

/-- `"%s[%s.%03d]"`, where `fmt_` is an array with a NUL. -/
def linePrefix (lv fmt_ : Bytes) (ms : Int) : Bytes :=
  lv ++ bytes "[" ++ fmt_.takeWhile (· ≠ 0) ++ bytes "." ++ formatInt 3 ms ++ bytes "]"

/-- `log_line` and `len_all`. -/
def format (log_line : Bytes) (prev main : Printed) : Res (Bytes × ℕ) :=
  let prev_len := prev.ret
  let log_line := prev.into log_line 0 LOG_LEN_LIMIT
  -- `log_line+prev_len`
  if prev_len < 0 ∨ (LOG_LEN_LIMIT : Int) < prev_len then .error .outOfBounds
  else
    let main_len := main.ret
    let log_line := main.into log_line prev_len.toNat (LOG_LEN_LIMIT - prev_len.toNat)
    if 2 ^ 31 ≤ prev_len + main_len then .error .overflow
    else .ok (log_line, ((prev_len + main_len) % 2 ^ 32).toNat)

/-- The bytes that `append` is to copy are in `log_line`, and are the characters that were written
there. -/
def FormatSafe (log_line : Bytes) (prev main : Printed) : Prop :=
  ∃ line len_all, format log_line prev main = .ok (line, len_all) ∧ len_all ≤ LOG_LEN_LIMIT ∧
    line.take len_all =
      prev.stored LOG_LEN_LIMIT ++ main.stored (LOG_LEN_LIMIT - prev.ret.toNat)

/-- Both calls succeed, and the array is longer than what they format; or the prefix is as long as the
array, and the second call, which has no room, returns -1. -/
def Fits (a b : Bytes) (prev main : Printed) : Prop :=
  prev = .output a ∧
    (main = .output b ∧ a.length + b.length < LOG_LEN_LIMIT ∨ a.length = LOG_LEN_LIMIT ∧ main.ret = -1)

end Rlog

section

variable {log_line a b : Bytes} {prev main : Printed}

/-- The characters are in their place. -/
theorem snprintf_take {dst : Bytes} {off : ℕ} (text : Bytes) (size : ℕ) (hlen : off ≤ dst.length) :
    (snprintf dst off size text).take (off + (text.take (size - 1)).length) =
      dst.take off ++ text.take (size - 1) := by
  have hoff : (dst.take off ++ text.take (size - 1)).length = off + (text.take (size - 1)).length := by
    rw [List.length_append, List.length_take, Nat.min_eq_left hlen]
  unfold snprintf
  dsimp only
  rw [← hoff, List.append_assoc, List.append_assoc, ← List.append_assoc, List.take_left]

theorem snprintf_length {dst text : Bytes} {off size : ℕ} (hpos : 0 < size)
    (hlen : off + size ≤ dst.length) : (snprintf dst off size text).length = dst.length := by
  unfold snprintf
  simp only [List.length_append, List.length_take, List.length_drop, List.length_singleton]
  omega

theorem Printed.into_length {dst : Bytes} {off size : ℕ} (p : Printed) (hlen : off + size ≤ dst.length) :
    (p.into dst off size).length = dst.length := by
  unfold Printed.into
  cases p with
  | output text =>
    dsimp only
    split_ifs with hsize
    · rfl
    · exact snprintf_length (Nat.pos_of_ne_zero hsize) hlen
  | error ret left =>
    simp only [List.length_append, List.length_take, List.length_drop]
    omega

/-- The second output goes behind the first. -/
theorem format_outputs (log_line : Bytes) (ha : a.length ≤ LOG_LEN_LIMIT)
    (hsum : a.length + b.length < 2 ^ 31) :
    Rlog.format log_line (.output a) (.output b) =
      .ok ((Printed.output b).into ((Printed.output a).into log_line 0 LOG_LEN_LIMIT) a.length
        (LOG_LEN_LIMIT - a.length), a.length + b.length) := by
  unfold Rlog.format Printed.ret
  dsimp only
  rw [if_neg (by omega), Int.toNat_natCast, if_neg (by omega)]
  congr 2
  omega

/-- Outputs that fit are formatted one behind the other. -/
theorem format_fits (hsize : log_line.length = LOG_LEN_LIMIT) (hfit : a.length + b.length < LOG_LEN_LIMIT) :
    ∃ line, Rlog.format log_line (.output a) (.output b) = .ok (line, a.length + b.length) ∧
      line.take (a.length + b.length) = a ++ b := by
  have hformat : Rlog.format log_line (.output a) (.output b) = _ :=
    format_outputs log_line (Nat.le_of_lt (lt_of_le_of_lt (Nat.le_add_right _ _) hfit))
      (lt_trans hfit (by decide))
  refine ⟨_, hformat, ?_⟩
  unfold LOG_LEN_LIMIT at hfit hsize
  set line := snprintf log_line 0 (4 * 1024) a with hline
  have ha : a.take (4 * 1024 - 1) = a := List.take_of_length_le (by omega)
  have hb : b.take (4 * 1024 - a.length - 1) = b := List.take_of_length_le (by omega)
  have hlen : line.length = 4 * 1024 := (snprintf_length (by omega) (by omega)).trans hsize
  have htake : line.take a.length = a := by
    have htake := snprintf_take a (4 * 1024) (Nat.zero_le log_line.length)
    rwa [ha, Nat.zero_add, List.take_zero, List.nil_append] at htake
  have hroom : 4 * 1024 - a.length ≠ 0 := by omega
  have hinto : (Printed.output b).into ((Printed.output a).into log_line 0 LOG_LEN_LIMIT) a.length
      (LOG_LEN_LIMIT - a.length) = snprintf line a.length (4 * 1024 - a.length) b := by
    unfold Printed.into LOG_LEN_LIMIT
    dsimp only
    rw [if_neg hroom, if_neg (by decide)]
  have hle : a.length ≤ line.length := by omega
  have hplace := snprintf_take b (4 * 1024 - a.length) hle
  rw [hinto]
  rwa [hb, htake] at hplace

/-- A prefix as long as the array leaves all but its last character. -/
theorem format_full (ha : a.length = LOG_LEN_LIMIT) (log_line left : Bytes) :
    ∃ line, Rlog.format log_line (.output a) (.error (-1) left) = .ok (line, LOG_LEN_LIMIT - 1) ∧
      line.take (LOG_LEN_LIMIT - 1) = a.take (LOG_LEN_LIMIT - 1) := by
  unfold LOG_LEN_LIMIT at ha ⊢
  set line := snprintf log_line 0 (4 * 1024) a with hline
  have htake : (a.take (4 * 1024 - 1)).length = 4 * 1024 - 1 := by
    rw [List.length_take, ha]
    rfl
  refine ⟨line, ?_, ?_⟩
  · unfold Rlog.format Printed.ret Printed.into LOG_LEN_LIMIT
    dsimp only
    rw [ha, if_neg (by decide), Int.toNat_natCast, Nat.sub_self, List.take_zero, if_neg (by decide),
      if_neg (by decide), List.length_nil, Nat.add_zero, List.append_nil, List.take_append_drop]
    rfl
  · have hstored := snprintf_take a (4 * 1024) (Nat.zero_le log_line.length)
    rwa [htake, Nat.zero_add, List.take_zero, List.nil_append] at hstored

/-- **When the bytes are safe.** -/
theorem format_safe_iff (hsize : log_line.length = LOG_LEN_LIMIT) (hprev : prev.Of a) (hmain : main.Of b) :
    Rlog.FormatSafe log_line prev main ↔ Rlog.Fits a b prev main := by
  constructor
  · rintro ⟨line, len_all, hformat, hle, htake⟩
    unfold Rlog.format at hformat
    dsimp only at hformat
    split_ifs at hformat with hout hover
    obtain ⟨hline, rfl⟩ := Prod.mk.inj (Except.ok.inj hformat)
    have hlen := congrArg List.length htake
    cases hprev with
    | error ret left _ hneg => exact absurd (.inl hneg) hout
    | output _ =>
      have hlong : line.length = LOG_LEN_LIMIT := by
        have hfirst : ((Printed.output a).into log_line 0 LOG_LEN_LIMIT).length = LOG_LEN_LIMIT :=
          (Printed.into_length _ (by omega)).trans hsize
        rw [← hline]
        exact (Printed.into_length _ (by omega)).trans hfirst
      refine ⟨rfl, ?_⟩
      unfold Printed.ret at hover hout hle hlen
      unfold LOG_LEN_LIMIT at *
      dsimp only at hover hout hle hlen
      cases hmain with
      | output _ =>
        left
        refine ⟨rfl, ?_⟩
        unfold Printed.stored at hlen
        simp only [List.length_append, List.length_take, hlong, Int.toNat_natCast] at hlen
        omega
      | error ret left hmin hneg =>
        right
        show _ ∧ ret = -1
        dsimp only at hle
        unfold Printed.stored at hlen
        simp only [List.length_append, List.length_take, hlong, Int.toNat_natCast] at hlen
        omega
  · rintro ⟨rfl, ⟨rfl, hfit⟩ | ⟨ha, hret⟩⟩
    · obtain ⟨line, hformat, htake⟩ := format_fits hsize hfit
      refine ⟨line, _, hformat, Nat.le_of_lt hfit, htake.trans ?_⟩
      unfold Printed.stored Printed.ret
      dsimp only
      rw [Int.toNat_natCast, List.take_of_length_le (by omega), List.take_of_length_le (by omega)]
    · cases hmain with
      | output _ =>
        have hneg : (b.length : Int) = -1 := hret
        omega
      | error ret left _ _ =>
        obtain rfl : ret = -1 := hret
        obtain ⟨line, hformat, htake⟩ := format_full ha log_line left
        refine ⟨line, _, hformat, Nat.sub_le _ _, htake.trans ?_⟩
        unfold Printed.stored Printed.ret
        dsimp only
        rw [Int.toNat_natCast, ha, Nat.sub_self, List.take_zero, List.append_nil]

end

/-! ### The buffer that is selected -/

namespace LogRing

variable {r s : LogRing} {l : List ℕ} {raw : ℕ → ℕ → Byte} {line : Bytes} {curr_sec p q k : ℕ}

def index (r : LogRing) (p : ℕ) : ℕ := (r.buf p).index_

@[simp] theorem setStatus_index {status : BufferStatus} : (r.setStatus p status).index q = r.index q :=
  setBuf_same CellBuffer.index_ rfl

@[simp] theorem setNext_index : (r.setNext p k).index q = r.index q := setBuf_same CellBuffer.index_ rfl

@[simp] theorem setPre_index : (r.setPre p k).index q = r.index q := setBuf_same CellBuffer.index_ rfl

theorem grow_index : (r.grow raw p).index q = if q = r.fresh then 0 else r.index q := by
  have hgrow : (r.grow raw p).index q =
      (((((r.alloc raw).setNext r.fresh p).setNext r.cur_buf r.fresh).setPre p r.fresh).setPre r.fresh
        r.cur_buf).index q := rfl
  rw [hgrow, setPre_index, setPre_index, setNext_index, setNext_index]
  exact setBuf_view CellBuffer.index_

theorem put_index (hq : q ≠ r.cur_buf) : (r.put line).index q = r.index q := by
  rcases r.put_cases line with ⟨-, hput⟩ | ⟨-, hput⟩ <;> rw [hput]
  exact congrArg CellBuffer.index_ (setBuf_of_ne hq)

/-- A FREE buffer other than the current one is empty. -/
def Spare (r : LogRing) : Prop := ∀ p, p ≠ r.cur_buf → r.status p = .FREE → r.index p = 0

theorem Spare.put (h : r.Spare) (line : Bytes) : (r.put line).Spare := by
  intro p hp hfree
  have hcur : (r.put line).cur_buf = r.cur_buf := put_same.1
  rw [hcur] at hp
  rw [put_status] at hfree
  rw [put_index hp]
  exact h p hp hfree

/-- The current buffer has become FULL, and another one is the current one. -/
theorem Spare.fill (h : r.Spare) (hindex : ∀ p, s.index p = r.index p)
    (hstatus : ∀ p, s.status p = if p = r.cur_buf then .FULL else r.status p) : s.Spare := by
  intro p _ hfree
  rw [hstatus] at hfree
  split_ifs at hfree with hcur
  rw [hindex]
  exact h p hcur hfree

theorem Spare.turnOver (h : r.Spare) (raw : ℕ → ℕ → Byte) (curr_sec : ℕ) :
    (r.turnOver raw curr_sec).Spare := by
  have hfill : (r.setStatus r.cur_buf .FULL).Spare :=
    h.fill (fun _ => setStatus_index) (fun _ => setStatus_status)
  unfold LogRing.turnOver
  dsimp only
  split_ifs
  · exact h.fill (fun _ => setStatus_index) (fun _ => setStatus_status)
  · intro p _ hfree
    rw [grow_status] at hfree
    rw [grow_index]
    split_ifs at hfree ⊢ with hnew
    · rfl
    · by_cases hcur : p = r.cur_buf
      · have hfull : (r.setStatus r.cur_buf .FULL).status p = .FULL :=
          setStatus_status.trans (if_pos hcur)
        exact absurd (hfull.symm.trans hfree) (by decide)
      · exact hfill p hcur hfree
  · exact h.fill (fun _ => setStatus_index) (fun _ => setStatus_status)

theorem Spare.moved (h : r.Spare) (hm : r.Moved raw s) : s.Spare := by
  cases hm with
  | same => exact h
  | reset => exact h
  | critical log_line curr_sec =>
    unfold LogRing.critical
    dsimp only
    split_ifs
    · exact h.put log_line
    · exact (h.turnOver raw curr_sec).put log_line
    · exact h.turnOver raw curr_sec
    · exact h
  | take =>
    unfold LogRing.take
    dsimp only
    split_ifs
    · exact h.fill (fun _ => setStatus_index) (fun _ => setStatus_status)
    · exact h
  | persist beyond persisted =>
    intro p hp hfree
    have hindex : LogRing.index { r.persist beyond with persisted := persisted } p =
        if p = r.prst_buf then 0 else r.index p := setBuf_view CellBuffer.index_
    have hstatus : LogRing.status { r.persist beyond with persisted := persisted } p =
        if p = r.prst_buf then .FREE else r.status p := setBuf_view CellBuffer.status
    rw [hindex]
    rw [hstatus] at hfree
    split_ifs at hfree ⊢
    · rfl
    · exact h p hp hfree
  | advance => exact h

/-- The critical section comes to `cur_buf->append`. -/
def Selects (r : LogRing) (raw : ℕ → ℕ → Byte) (line : Bytes) (curr_sec : ℕ) : Prop :=
  r.status r.cur_buf = .FREE ∧
    (line.length ≤ (r.buf r.cur_buf).availLen ∨ (r.turnOver raw curr_sec).lst_lts = 0)

/-- The buffer that is appended to is FREE, and it has taken the line. -/
structure Stored (r s : LogRing) (line : Bytes) : Prop where
  lines : s.lines = r.lines ++ [line]
  content : line <:+ (s.buf s.cur_buf).content
  free : s.status s.cur_buf = .FREE

theorem put_stored (hfree : r.status r.cur_buf = .FREE)
    (hfits : line.length ≤ (r.buf r.cur_buf).availLen) : r.Stored (r.put line) line := by
  rcases r.put_cases line with ⟨hout, -⟩ | ⟨-, hput⟩
  · exact absurd hfits (not_le.mpr hout)
  · have hstatus : (r.put line).status (r.put line).cur_buf = .FREE := by
      have hcur : (r.put line).cur_buf = r.cur_buf := put_same.1
      rw [put_status, hcur]
      exact hfree
    refine ⟨by rw [hput], ?_, hstatus⟩
    have hbuf : (r.setBuf r.cur_buf ((r.buf r.cur_buf).append line)).buf r.cur_buf =
        (r.buf r.cur_buf).append line := setBuf_self
    rw [hput]
    show line <:+ ((r.setBuf r.cur_buf ((r.buf r.cur_buf).append line)).buf r.cur_buf).content
    rw [hbuf, CellBuffer.content_append hfits]
    exact List.suffix_append _ _

/-- The buffer that the critical section turns to is FREE and has room for a whole buffer. -/
theorem turnOver_room (hl : r.Cycle l) (hspare : r.Spare) (hsec : 0 < curr_sec)
    (hlst : (r.turnOver raw curr_sec).lst_lts = 0) :
    (r.turnOver raw curr_sec).status (r.turnOver raw curr_sec).cur_buf = .FREE ∧
      ((r.turnOver raw curr_sec).buf (r.turnOver raw curr_sec).cur_buf).availLen =
        r.one_buff_len % 2 ^ 32 := by
  have hcycle : (r.setStatus r.cur_buf .FULL).Cycle l := hl.congr (setStatus_alike ..) hl.cur hl.prst
  unfold turnOver at hlst ⊢
  dsimp only at hlst ⊢
  split_ifs at hlst ⊢ with hfull hex
  · exact absurd hlst (Nat.ne_of_gt hsec)
  · rw [grow_cur]
    refine ⟨grow_status.trans (if_pos rfl), ?_⟩
    show LogRing.len _ _ - LogRing.index _ _ = _
    rw [grow_len, grow_index, if_pos rfl, if_pos rfl]
    rfl
  · set t := r.setStatus r.cur_buf .FULL
    have hfree : t.status (t.next t.cur_buf) = .FREE := by
      cases hstatus : t.status (t.next t.cur_buf) with
      | FREE => rfl
      | FULL => exact absurd hstatus hfull
    refine ⟨hfree, ?_⟩
    have hne : t.next t.cur_buf ≠ r.cur_buf := hcycle.next_ne hcycle.cur
    have hindex : t.index (t.next t.cur_buf) = 0 := by
      rw [setStatus_status, if_neg hne] at hfree
      rw [setStatus_index]
      exact hspare _ hne hfree
    show LogRing.len _ _ - LogRing.index _ _ = _
    exact (congrArg₂ (· - ·) (hcycle.len _ hcycle.cur_next) hindex).trans (Nat.sub_zero _)

/-- **No line is discarded by the check in `append`** that is not longer than a buffer. -/
theorem critical_stores (hl : r.Cycle l) (hspare : r.Spare) (hsec : 0 < curr_sec)
    (hlen : line.length ≤ r.one_buff_len % 2 ^ 32) (hsel : r.Selects raw line curr_sec) :
    r.Stored (r.critical raw line curr_sec) line := by
  obtain ⟨hfree, hsel⟩ := hsel
  unfold critical
  dsimp only
  rw [if_pos hfree]
  split_ifs with hfits hlst
  · exact put_stored hfree hfits
  · obtain ⟨hfree', hroom⟩ := turnOver_room hl hspare hsec hlst
    have hstored := put_stored hfree' (hroom.symm ▸ hlen)
    exact ⟨hstored.lines.trans (by rw [turnOver_lines]), hstored.content, hstored.free⟩
  · exact (hsel.elim hfits hlst).elim

end LogRing

/-! ### Every run -/

section

variable {ι : Type} [DecidableEq ι] {raw : ℕ → ℕ → Byte} {localtime : ℕ → Tm} {s : Rlog ι} {now : ℕ}
  {files : LogPath → Option Bytes} {es : List (LogEvent ι)}

theorem logger_spare {one_buff_len : ℕ}
    (h : (logger raw localtime).Run (.start raw localtime one_buff_len now files) es s) : s.ring.Spare := by
  refine h.invariant (I := fun s => s.ring.Spare) (fun hi hg hs => hi.moved (logger_moved hg hs)) ?_
  intro p _ _
  show CellBuffer.index_ _ = 0
  unfold Rlog.start LogRing.start
  dsimp only
  split <;> rfl

theorem logger_past {one_buff_len : ℕ}
    (h : (logger raw localtime).Run (.start raw localtime one_buff_len now files) es s) {i : ι}
    {curr_sec : ℕ} (hi : (s.thread i).logs = some curr_sec) : 0 < curr_sec := by
  refine h.invariant (I := fun s => ∀ i curr_sec, (s.thread i).formats = some curr_sec ∨
    (s.thread i).logs = some curr_sec → 0 < curr_sec) ?_ ?_ i curr_sec (.inr hi)
  · exact fun hi hg hs => thread_past hg hs hi
  · rintro j sec (hj | hj) <;> cases hj

/-- The line of a thread that has read `curr_sec` is safe: `append` copies what was written to
`log_line`, and where a buffer is selected for it, this takes it. -/
def Rlog.LineSafe (raw : ℕ → ℕ → Byte) (s : Rlog ι) (curr_sec : ℕ) (log_line : Bytes)
    (prev main : Printed) : Prop :=
  Rlog.FormatSafe log_line prev main ∧
    ∀ line len_all, Rlog.format log_line prev main = .ok (line, len_all) →
      s.ring.Selects raw (line.take len_all) curr_sec →
        s.ring.Stored (s.ring.critical raw (line.take len_all) curr_sec) (line.take len_all)

/-- **When the line of a thread is safe.** In any reachable state, for any level, format and
arguments. -/
theorem line_safe_iff
    (h : (logger raw localtime).Run (.start raw localtime Rlog.one_buff_len now files) es s) {i : ι}
    {curr_sec : ℕ} (hi : (s.thread i).logs = some curr_sec) {log_line lv fmt_ text : Bytes} {ms : Int}
    (hsize : log_line.length = LOG_LEN_LIMIT) {prev main : Printed}
    (hprev : prev.Of (Rlog.linePrefix lv fmt_ ms)) (hmain : main.Of text) :
    s.LineSafe raw curr_sec log_line prev main ↔ Rlog.Fits (Rlog.linePrefix lv fmt_ ms) text prev main := by
  unfold Rlog.LineSafe
  rw [format_safe_iff hsize hprev hmain, and_iff_left_iff_imp]
  intro hfits line len_all hformat hsel
  obtain ⟨⟨l, hl⟩, hlen⟩ := logger_cycle h
  obtain ⟨line', len', hformat', hle, -⟩ := (format_safe_iff hsize hprev hmain).mpr hfits
  obtain ⟨rfl, rfl⟩ := Prod.mk.inj (Except.ok.inj (hformat.symm.trans hformat'))
  refine LogRing.critical_stores hl (logger_spare h) (logger_past h hi) ?_ hsel
  have htake := List.length_take_le len_all line
  rw [hlen]
  unfold LOG_LEN_LIMIT at hle
  unfold Rlog.one_buff_len
  omega

end

/-! ### Two lines -/

/-- A thread at the lock, before the first line. -/
def firstLine : List (LogEvent Unit) := [.init true, .store, .enter () 1 0, .reset ()]

theorem firstLine_run : ∃ s, (logger (fun _ _ => 0) fun _ => default).Run
    (.start (fun _ _ => 0) (fun _ => default) Rlog.one_buff_len 0 fun _ => none) firstLine s ∧
    (s.thread ()).logs = some 1 := by
  have hrun : (((logger (fun _ _ => 0) fun _ => default).exec
      (.start (fun _ _ => 0) (fun _ => default) Rlog.one_buff_len 0 fun _ => none) firstLine).map fun s =>
        (s.thread ()).logs) = some (some 1) := by
    decide +kernel
  exact (System.exec_map_iff _).mp hrun

theorem line_safe_iff_ab : ∃ s : Rlog Unit, (logger (fun _ _ => 0) fun _ => default).Run
    (.start (fun _ _ => 0) (fun _ => default) Rlog.one_buff_len 0 fun _ => none) firstLine s ∧
    s.LineSafe (fun _ _ => 0) 1 (List.replicate LOG_LEN_LIMIT 0)
      (.output (Rlog.linePrefix (bytes "[INFO]") [] 0)) (.output (bytes "ab")) := by
  obtain ⟨s, hs, hthread⟩ := firstLine_run
  refine ⟨s, hs, (line_safe_iff hs hthread List.length_replicate (.output ?_) (.output ?_)).mpr
    ⟨rfl, .inl ⟨rfl, ?_⟩⟩⟩
  all_goals decide +kernel

/-- **The sum of the two lengths is past the array.** -/
theorem long_line_overruns : ∃ s : Rlog Unit, (logger (fun _ _ => 0) fun _ => default).Run
    (.start (fun _ _ => 0) (fun _ => default) Rlog.one_buff_len 0 fun _ => none) firstLine s ∧
    (∃ line, Rlog.format (List.replicate LOG_LEN_LIMIT 0) (.output (Rlog.linePrefix (bytes "[INFO]") [] 0))
      (.output (List.replicate 4090 97)) = .ok (line, 4102)) ∧
    ¬s.LineSafe (fun _ _ => 0) 1 (List.replicate LOG_LEN_LIMIT 0)
      (.output (Rlog.linePrefix (bytes "[INFO]") [] 0)) (.output (List.replicate 4090 97)) := by
  obtain ⟨s, hs, -⟩ := firstLine_run
  have hlen : (Rlog.linePrefix (bytes "[INFO]") [] 0).length = 12 := by decide +kernel
  refine ⟨s, hs, ?_, ?_⟩
  · have hformat := format_outputs (a := Rlog.linePrefix (bytes "[INFO]") [] 0)
      (b := List.replicate 4090 97) (List.replicate LOG_LEN_LIMIT 0) (by rw [hlen]; decide)
      (by rw [hlen, List.length_replicate]; decide)
    rw [hlen, List.length_replicate] at hformat
    exact ⟨_, hformat⟩
  · rintro ⟨hsafe, -⟩
    obtain ⟨-, ⟨-, hlt⟩ | ⟨hfull, -⟩⟩ := (format_safe_iff (b := List.replicate 4090 97)
      List.length_replicate (.output (by rw [hlen]; decide)) (.output (by decide +kernel))).mp hsafe
    · rw [hlen, List.length_replicate] at hlt
      exact absurd hlt (by decide)
    · rw [hlen] at hfull
      exact absurd hfull (by decide)

end MuduoSe
