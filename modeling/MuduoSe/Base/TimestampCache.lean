/-
# The cached timestamp and the clock

`get_now_time` formats the whole text when the minute has changed, and else only the two places of
the seconds. What is formatted directly is `Shows`.

The minute it compares is that of the second of the minute, so it never changes; the date, the hour
and the minute stay those of the construction, and only the seconds follow the clock.

* `shown_iff`: after each reading of a sequence the fields and the text are those of its local time,
  if and only if each reading is in the minute of the cached fields (and the cached second is not
  taken for the clock, and the text has its seconds at the place 17, as for years of four digits).

Key definitions: `Tm.text`, `Timestamp.Shows`, `Zone`, `Timestamp.Fresh`, `Timestamp.Cached`.
Key theorems: `shows_iff_fresh`, `shown_iff`.
-/
import MuduoSe.Base.Timestamp
import MuduoSe.Lib.System

namespace MuduoSe

/-- The text in front of the seconds. -/
def frontText (year mon day hour min : Int) : Bytes :=
  formatInt 0 year ++ bytes "-" ++ formatInt 2 mon ++ bytes "-" ++ formatInt 2 day ++ bytes " " ++
    formatInt 2 hour ++ bytes ":" ++ formatInt 2 min ++ bytes ":"

/-- A local time as it is formatted. -/
def Tm.text (tm : Tm) : Bytes :=
  frontText (tm.tm_year + 1900) (tm.tm_mon + 1) tm.tm_mday tm.tm_hour tm.tm_min ++ formatInt 2 tm.tm_sec

/-- Local time differs from UTC by whole minutes, and the clock is past the epoch. -/
structure Zone (localtime : ℕ → Tm) : Prop where
  seconds : ∀ now : ℕ, (localtime now).tm_sec = (now % 60 : ℕ)
  epoch : ∀ now : ℕ, 69 ≤ (localtime now).tm_year

namespace Timestamp

/-- The fields are those of a local time, and the text is what it is formatted to. -/
structure Shows (t : Timestamp) (tm : Tm) : Prop where
  year : t.year = tm.tm_year + 1900
  mon : t.mon = tm.tm_mon + 1
  day : t.day = tm.tm_mday
  hour : t.hour = tm.tm_hour
  min : t.min = tm.tm_min
  sec : t.sec = tm.tm_sec
  fmt : t.fmt_ = tm.text.take 19 ++ [0]

/-- The local time is in the minute of the cached fields. -/
def SameMinute (t : Timestamp) (tm : Tm) : Prop :=
  t.year = tm.tm_year + 1900 ∧ t.mon = tm.tm_mon + 1 ∧ t.day = tm.tm_mday ∧ t.hour = tm.tm_hour ∧
    t.min = tm.tm_min

/-- A reading for which the cache is right. -/
def Fresh (localtime : ℕ → Tm) (t : Timestamp) (now : ℕ) : Prop :=
  t.SameMinute (localtime now) ∧
    if now % 2 ^ 32 = t.sys_acc_sec then now % 60 = t.sys_acc_sec
    else ((localtime now).text.drop 17).take 2 = formatInt 2 (now % 60 : ℕ)

instance (t : Timestamp) (tm : Tm) : Decidable (t.SameMinute tm) :=
  inferInstanceAs (Decidable (_ ∧ _ ∧ _ ∧ _ ∧ _))

instance (localtime : ℕ → Tm) (t : Timestamp) (now : ℕ) : Decidable (t.Fresh localtime now) :=
  inferInstanceAs (Decidable (t.SameMinute (localtime now) ∧
    if now % 2 ^ 32 = t.sys_acc_sec then now % 60 = t.sys_acc_sec
    else ((localtime now).text.drop 17).take 2 = formatInt 2 (now % 60 : ℕ)))

/-- What is known of the cache: the second is that of a minute, so its minute is 0, and the text is
that of the fields. -/
structure Cached (t : Timestamp) : Prop where
  acc_sec : t.sec = (t.sys_acc_sec : ℕ)
  acc_lt : t.sys_acc_sec < 60
  acc_min : t.sys_acc_min = 0
  year : 1000 ≤ t.year
  fmt : t.fmt_ = (frontText t.year t.mon t.day t.hour t.min ++ formatInt 2 t.sec).take 19 ++ [0]

end Timestamp

/-! ### The text -/

theorem le_formatInt_length (width : ℕ) (n : Int) : width ≤ (formatInt width n).length := by
  have hzeros : (bytes (String.ofList (List.replicate
      (width - (if n < 0 then bytes "-" else []).length - (bytes (toString n.natAbs)).length) '0'))).length =
        width - (if n < 0 then bytes "-" else []).length - (bytes (toString n.natAbs)).length := by
    rw [bytes, String.toList_ofList, List.length_map, List.length_replicate]
  unfold formatInt
  dsimp only
  rw [List.length_append, List.length_append, hzeros]
  omega

theorem formatInt_year {year : Int} (h : 1000 ≤ year) : 4 ≤ (formatInt 0 year).length := by
  have hdigits : ¬(toString year.natAbs).length ≤ 3 := by
    rw [Nat.toString_eq_repr, Nat.length_repr_le_iff (by decide)]
    omega
  have hlen : 4 ≤ (bytes (toString year.natAbs)).length := by
    rw [bytes, List.length_map, String.length_toList]
    omega
  unfold formatInt
  dsimp only
  rw [List.length_append]
  omega

theorem formatInt_sec : ∀ n < 60, (formatInt 2 (n : ℕ)).length = 2 := by decide +kernel

theorem frontText_length {year : Int} (h : 1000 ≤ year) (mon day hour min : Int) :
    17 ≤ (frontText year mon day hour min).length := by
  have hyear := formatInt_year h
  have hmon := le_formatInt_length 2 mon
  have hday := le_formatInt_length 2 day
  have hhour := le_formatInt_length 2 hour
  have hmin := le_formatInt_length 2 min
  have hsep : (bytes "-").length = 1 ∧ (bytes " ").length = 1 ∧ (bytes ":").length = 1 := by decide
  unfold frontText
  simp only [List.length_append, hsep]
  omega

/-- The seconds are put where they are if the text has them there. -/
theorem patch_iff {front : Bytes} (h : 17 ≤ front.length) (ss : Bytes) :
    front.take 17 ++ ss ++ [0] = (front ++ ss).take 19 ++ [0] ↔ ((front ++ ss).drop 17).take 2 = ss := by
  have htake : (front ++ ss).take 17 = front.take 17 := List.take_append_of_le_length h
  rw [List.append_left_inj, show 19 = 17 + 2 from rfl, List.take_add, htake, List.append_right_inj, eq_comm]

theorem snprintf_all {dst text : Bytes} (hdst : dst.length = 20) (htext : 19 ≤ text.length) :
    snprintf dst 0 20 text = text.take 19 ++ [0] := by
  have hlen : (text.take 19 ++ [0]).length = 20 := by
    rw [List.length_append, List.length_take, Nat.min_eq_left htext]
    rfl
  unfold snprintf
  dsimp only
  rw [List.take_zero, List.nil_append, hlen, List.drop_eq_nil_of_le (le_of_eq hdst), List.append_nil]

theorem snprintf_sec {front ss old : Bytes} (h : 17 ≤ front.length) (hold : old.length = 2) (hss : ss.length = 2) :
    snprintf ((front ++ old).take 19 ++ [0]) 17 3 ss = front.take 17 ++ ss ++ [0] := by
  have hlen : ((front ++ old).take 19).length = 19 := by
    rw [List.length_take, List.length_append]
    omega
  have hfront : ((front ++ old).take 19 ++ [0]).take 17 = front.take 17 := by
    rw [List.take_append_of_le_length (by omega), List.take_take, List.take_append_of_le_length (by omega)]
    rfl
  have hrest : ((front ++ old).take 19 ++ [0]).drop (17 + (ss ++ [0]).length) = [] := by
    apply List.drop_eq_nil_of_le
    rw [List.length_append, List.length_append, hlen, hss]
    rfl
  unfold snprintf
  dsimp only
  rw [List.take_of_length_le (le_of_eq hss), hfront, hrest, List.append_nil, List.append_assoc]

namespace Timestamp

variable {localtime : ℕ → Tm} {t : Timestamp}

theorem new_cached (hz : Zone localtime) (now : ℕ) : (new localtime now).Cached := by
  have hsec := hz.seconds now
  have hyear := hz.epoch now
  have hacc : (localtime now).tm_sec.toNat = now % 60 := by rw [hsec, Int.toNat_natCast]
  have hlt : now % 60 < 60 := Nat.mod_lt _ (by decide)
  have hyear' : 1000 ≤ (localtime now).tm_year + 1900 := by omega
  refine ⟨?_, ?_, ?_, hyear', ?_⟩
  · show (localtime now).tm_sec = ((localtime now).tm_sec.toNat : ℕ)
    rw [hacc, hsec]
  · show (localtime now).tm_sec.toNat < 60
    omega
  · show (localtime now).tm_sec.toNat / 60 = 0
    omega
  · have hlen : 19 ≤ (localtime now).text.length := by
      have hfront := frontText_length hyear' ((localtime now).tm_mon + 1) (localtime now).tm_mday
        (localtime now).tm_hour (localtime now).tm_min
      have hss := le_formatInt_length 2 (localtime now).tm_sec
      unfold Tm.text
      rw [List.length_append]
      omega
    exact snprintf_all List.length_replicate hlen

theorem getNowTime_hit {now : ℕ} (hnow : now % 2 ^ 32 = t.sys_acc_sec) (usec : ℕ) :
    (t.getNowTime localtime now usec).1 = t := by
  unfold getNowTime
  dsimp only
  rw [if_neg (not_not.mpr hnow)]

/-- The seconds follow the clock, and nothing else. -/
theorem Cached.getNowTime_miss (h : t.Cached) {now : ℕ} (hnow : now % 2 ^ 32 ≠ t.sys_acc_sec) (usec : ℕ) :
    (t.getNowTime localtime now usec).1 = { t with
      sec := (now % 60 : ℕ)
      sys_acc_sec := now % 60
      fmt_ := (frontText t.year t.mon t.day t.hour t.min).take 17 ++ formatInt 2 (now % 60 : ℕ) ++ [0] } := by
  have hmin : now % 60 / 60 = t.sys_acc_min := by
    rw [h.acc_min]
    exact Nat.div_eq_of_lt (Nat.mod_lt _ (by decide))
  have hold : (formatInt 2 t.sec).length = 2 := by
    rw [h.acc_sec]
    exact formatInt_sec _ h.acc_lt
  have hss := formatInt_sec (now % 60) (Nat.mod_lt _ (by decide))
  have hfmt := snprintf_sec (frontText_length h.year t.mon t.day t.hour t.min) hold hss
  rw [← h.fmt] at hfmt
  unfold getNowTime
  dsimp only
  rw [if_pos hnow, if_neg (not_not.mpr hmin)]
  unfold resetFmtSec
  dsimp only
  rw [← hfmt]

/-- **When a reading is shown.** -/
theorem Cached.shows_iff_fresh (h : t.Cached) (hz : Zone localtime) (now usec : ℕ) :
    (t.getNowTime localtime now usec).1.Shows (localtime now) ↔ t.Fresh localtime now := by
  have hsec := hz.seconds now
  by_cases hnow : now % 2 ^ 32 = t.sys_acc_sec
  · rw [getNowTime_hit hnow]
    unfold Fresh SameMinute
    rw [if_pos hnow]
    constructor
    · intro hs
      refine ⟨⟨hs.year, hs.mon, hs.day, hs.hour, hs.min⟩, ?_⟩
      have hs := hs.sec
      rw [h.acc_sec, hsec] at hs
      exact_mod_cast hs.symm
    · rintro ⟨⟨hyear, hmon, hday, hhour, hmin⟩, hacc⟩
      have hs : t.sec = (localtime now).tm_sec := by rw [h.acc_sec, hsec, hacc]
      refine ⟨hyear, hmon, hday, hhour, hmin, hs, ?_⟩
      rw [h.fmt, Tm.text, hyear, hmon, hday, hhour, hmin, hs]
  · rw [h.getNowTime_miss hnow]
    unfold Fresh
    rw [if_neg hnow]
    have htext : t.SameMinute (localtime now) → (localtime now).text =
        frontText t.year t.mon t.day t.hour t.min ++ formatInt 2 (now % 60 : ℕ) := by
      rintro ⟨hyear, hmon, hday, hhour, hmin⟩
      rw [Tm.text, hyear, hmon, hday, hhour, hmin, hsec]
    have hpatch := patch_iff (frontText_length h.year t.mon t.day t.hour t.min) (formatInt 2 (now % 60 : ℕ))
    constructor
    · intro hs
      have hsame : t.SameMinute (localtime now) := ⟨hs.year, hs.mon, hs.day, hs.hour, hs.min⟩
      have hfmt := hs.fmt
      rw [htext hsame] at hfmt ⊢
      exact ⟨hsame, hpatch.mp hfmt⟩
    · rintro ⟨hsame, hplace⟩
      rw [htext hsame] at hplace
      refine ⟨hsame.1, hsame.2.1, hsame.2.2.1, hsame.2.2.2.1, hsame.2.2.2.2, hsec.symm, ?_⟩
      rw [htext hsame]
      exact hpatch.mpr hplace

/-- A reading that is shown leaves a cache of the same kind. -/
theorem Cached.step (h : t.Cached) (hz : Zone localtime) {now : ℕ} (hf : t.Fresh localtime now) (usec : ℕ) :
    (t.getNowTime localtime now usec).1.Cached := by
  have hs := (h.shows_iff_fresh hz now usec).mpr hf
  by_cases hnow : now % 2 ^ 32 = t.sys_acc_sec
  · rw [getNowTime_hit hnow]
    exact h
  · have hfmt := hs.fmt
    rw [Tm.text, ← hs.year, ← hs.mon, ← hs.day, ← hs.hour, ← hs.min, ← hs.sec] at hfmt
    rw [h.getNowTime_miss hnow] at hfmt ⊢
    exact ⟨rfl, Nat.mod_lt _ (by decide), h.acc_min, h.year, hfmt⟩

end Timestamp

/-! ### Sequences of readings -/

/-- The calls of `get_now_time` on one object, each with what `gettimeofday` says. -/
def readings (localtime : ℕ → Tm) : System Timestamp (ℕ × ℕ) Fault where
  guard _ _ := True
  step t r := .ok (t.getNowTime localtime r.1 r.2).1

open Timestamp

/-- **When the cache agrees with the clock.** For any sequence of readings. -/
theorem shown_iff {localtime : ℕ → Tm} (hz : Zone localtime) (now : ℕ) (rs : List (ℕ × ℕ)) :
    (readings localtime).Always (fun t r => (t.getNowTime localtime r.1 r.2).1.Shows (localtime r.1))
        (.new localtime now) rs ↔
      (readings localtime).Always (fun t r => t.Fresh localtime r.1) (.new localtime now) rs := by
  refine System.always_congr (I := Cached) (G := fun _ _ => True) ?_ ?_ (new_cached hz now)
    (System.always_of_forall (fun _ _ => trivial) rs _)
  · intro t t' r h _ hf ht
    cases ht
    exact h.step hz hf r.2
  · intro t r h _
    exact h.shows_iff_fresh hz r.1 r.2

/-- `localtime` without an offset from UTC. -/
def utc (now : ℕ) : Tm :=
  let z := now / 86400 + 719468
  let era := z / 146097
  let doe := z % 146097
  let yoe := (doe - doe / 1460 + doe / 36524 - doe / 146096) / 365
  let doy := doe - (365 * yoe + yoe / 4 - yoe / 100)
  let mp := (5 * doy + 2) / 153
  let mon := if mp < 10 then mp + 3 else mp - 9
  let year := yoe + era * 400 + if mon ≤ 2 then 1 else 0
  ⟨year - 1900, mon - 1, doy - (153 * mp + 2) / 5 + 1, now / 3600 % 24, now / 60 % 60, (now % 60 : ℕ)⟩

example : (utc 1700000000).text = bytes "2023-11-14 22:13:20" := by decide +kernel

theorem utc_zone : Zone utc := by
  refine ⟨fun _ => rfl, ?_⟩
  intro now
  unfold utc
  dsimp only
  omega

/-- Three readings in one minute, two of them in the same second. -/
theorem shown_iff_minute : (readings utc).Always (fun t r => (t.getNowTime utc r.1 r.2).1.Shows (utc r.1))
    (.new utc 1700000000) [(1700000000, 5), (1700000000, 900000), (1700000039, 0)] :=
  (shown_iff utc_zone _ _).mpr (by decide +kernel)

/-- Forty seconds later, in the next minute. -/
theorem minute_not_shown :
    ((Timestamp.new utc 1700000000).getNowTime utc 1700000040 0).1.fmt_ = bytes "2023-11-14 22:13:00" ++ [0] ∧
    (utc 1700000040).text = bytes "2023-11-14 22:14:00" ∧
    ¬∀ (localtime : ℕ → Tm) (now : ℕ) (rs : List (ℕ × ℕ)), Zone localtime →
      (now :: rs.map (·.1)).Pairwise (· ≤ ·) → (readings localtime).Always
        (fun t r => (t.getNowTime localtime r.1 r.2).1.Shows (localtime r.1)) (.new localtime now) rs := by
  refine ⟨by decide +kernel, by decide +kernel, ?_⟩
  intro h
  have hshows := (h utc 1700000000 [(1700000040, 0)] utc_zone (by decide)).1.min
  exact absurd hshows (by decide +kernel)

end MuduoSe
