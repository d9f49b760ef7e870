/-
# Timestamp: the time a message arrived

`base/timestamp.h`, class `timestamp`: the fields of one reading of the clock, and of the time at
which the logger read it last. The time zone is what `localtime` makes of the seconds since the
epoch; the clock is past the epoch.

* `getNowTime_date`: `get_now_time` keeps the second of the minute where it should keep the seconds
  since the epoch, so for it the minute is always the same, and it replaces the date at most once:
  when the constructor has read a leap second.

Key definitions: `Timestamp.new`, `Timestamp.getNowTime`.
-/
import MuduoSe.Base.Buffer

namespace MuduoSe

structure Timestamp where
  year : Int
  mon : Int
  day : Int
  hour : Int
  min : Int
  sec : Int
  fmt_ : Bytes
  sys_acc_sec : ℕ
  sys_acc_min : ℕ
  deriving DecidableEq, Repr, Inhabited

/-- `struct tm`, as far as it is read. -/
structure Tm where
  tm_year : Int
  tm_mon : Int
  tm_mday : Int
  tm_hour : Int
  tm_min : Int
  tm_sec : Int
  deriving DecidableEq, Repr, Inhabited

/-- `%d` with zeros up to a width. -/
def formatInt (width : ℕ) (n : Int) : Bytes :=
  let sign := if n < 0 then bytes "-" else []
  let digits := bytes (toString n.natAbs)
  sign ++ bytes (String.ofList (List.replicate (width - sign.length - digits.length) '0')) ++ digits

/-- `snprintf` to the place `off` of an array, where `size` is its second argument. -/
def snprintf (dst : Bytes) (off size : ℕ) (text : Bytes) : Bytes :=
  let text := text.take (size - 1) ++ [0]
  dst.take off ++ text ++ dst.drop (off + text.length)

namespace Timestamp

def resetFmt (t : Timestamp) : Timestamp :=
  { t with
    fmt_ := snprintf t.fmt_ 0 20 (formatInt 0 t.year ++ bytes "-" ++ formatInt 2 t.mon ++ bytes "-" ++
      formatInt 2 t.day ++ bytes " " ++ formatInt 2 t.hour ++ bytes ":" ++ formatInt 2 t.min ++
      bytes ":" ++ formatInt 2 t.sec) }

def resetFmtSec (t : Timestamp) : Timestamp :=
  { t with fmt_ := snprintf t.fmt_ 17 3 (formatInt 2 t.sec) }

section

variable (localtime : ℕ → Tm)

/-- `timestamp()`; `now` is the time. -/
def new (now : ℕ) : Timestamp :=
  let cur_tm := localtime now
  let acc := cur_tm.tm_sec.toNat
  resetFmt
    { year := cur_tm.tm_year + 1900
      mon := cur_tm.tm_mon + 1
      day := cur_tm.tm_mday
      hour := cur_tm.tm_hour
      min := cur_tm.tm_min
      sec := cur_tm.tm_sec
      fmt_ := List.replicate 20 0
      sys_acc_sec := acc
      sys_acc_min := acc / 60 }

/-- `get_now_time`, where `gettimeofday` says `tv_sec` and `tv_usec`: the object, the milliseconds
and the result. -/
def getNowTime (t : Timestamp) (tv_sec tv_usec : ℕ) : Timestamp × ℕ × ℕ :=
  let t :=
    if tv_sec % 2 ^ 32 ≠ t.sys_acc_sec then
      let sec := tv_sec % 60
      let t := { t with sec := sec, sys_acc_sec := sec }
      if t.sys_acc_sec / 60 ≠ t.sys_acc_min then
        let cur_tm := localtime t.sys_acc_sec
        resetFmt
          { t with
            sys_acc_min := t.sys_acc_sec / 60
            year := cur_tm.tm_year + 1900
            mon := cur_tm.tm_mon + 1
            day := cur_tm.tm_mday
            hour := cur_tm.tm_hour
            min := cur_tm.tm_min }
      else t.resetFmtSec
    else t
  (t, tv_usec / 1000, tv_sec)

end

/-- The date that the logger puts into the name of its file. -/
def date (t : Timestamp) : Int × Int × Int := (t.year, t.mon, t.day)

/-- A second of a minute is in the first minute. -/
theorem getNowTime_date (localtime : ℕ → Tm) (t : Timestamp) (tv_sec tv_usec : ℕ) :
    ((t.getNowTime localtime tv_sec tv_usec).1.date = t.date ∧
      (t.getNowTime localtime tv_sec tv_usec).1.sys_acc_min = t.sys_acc_min) ∨
    (t.sys_acc_min ≠ 0 ∧ (t.getNowTime localtime tv_sec tv_usec).1.sys_acc_min = 0) := by
  have hminute : tv_sec % 60 / 60 = 0 := Nat.div_eq_of_lt (Nat.mod_lt _ (by decide))
  unfold getNowTime
  dsimp only
  split_ifs with hnew hmin
  · rw [hminute] at hmin
    exact .inr ⟨hmin.symm, hminute⟩
  · exact .inl ⟨rfl, rfl⟩
  · exact .inl ⟨rfl, rfl⟩

end Timestamp

end MuduoSe
