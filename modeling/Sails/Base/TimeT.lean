import Sails.Library.Scanf

/-!
# Time strings (`base/time_t.cc`)

- `timeStr`: `TimeT::time_str`, at a time given as a `struct tm`
- `coverStrToTime`: `TimeT::coverStrToTime`, with the `struct tm` it hands to `mktime`
- `CalendarTime`: a date and a time of day
- `timeRoundTrips_iff`: the times that are read back

What is printed has a space between the date and the time, and what is scanned has a `T` there.
-/

namespace Sails.Base

open TransitionRun (Fault)
open CMemory
open Scanf

/-- `struct tm`, as far as it is read here. -/
structure Tm where
  tmYear : Int32
  tmMon : Int32
  tmMday : Int32
  tmHour : Int32
  tmMin : Int32
  tmSec : Int32
  tmIsdst : Int32

/-! ## Printing -/

/-- `%Y`. -/
def printYear (y : Int) : Bytes := if 0 ≤ y then decimal y.toNat else 45 :: decimal (-y).toNat

/-- The text of `"%Y-%m-%d %H:%M:%S"`. -/
def Tm.text (t : Tm) : Bytes :=
  printYear (t.tmYear.toInt + 1900) ++ ascii "-" ++ padded 2 (t.tmMon.toInt + 1).toNat ++ ascii "-" ++
    padded 2 t.tmMday.toInt.toNat ++ ascii " " ++ padded 2 t.tmHour.toInt.toNat ++ ascii ":" ++
    padded 2 t.tmMin.toInt.toNat ++ ascii ":" ++ padded 2 t.tmSec.toInt.toNat

/-- Write a run of bytes to the front of a buffer. -/
def writeFront (s bs : Bytes) : Except Fault Bytes :=
  if bs.length ≤ s.length then .ok (splice s 0 bs) else .error .outOfBounds

/-- `strftime(s, max, format, &t)` for a format that prints `text`: the buffer, and 0 if the text and
its NUL do not fit. -/
def strftime (s : Bytes) (max : Nat) (text : Bytes) : Except Fault (Bytes × Nat) :=
  if text.length + 1 ≤ max then do
    let s ← writeFront s (text ++ [0])
    return (s, text.length)
  else .ok (s, 0)

/-- `time_str(s, max)` at the local time `t`: the buffer and the value returned. -/
def timeStr (s : Bytes) (max : Nat) (t : Tm) : Except Fault (Bytes × Nat) :=
  if max < 20 then .ok (s, 0)
  else do
    let s ← writeFront s (List.replicate 20 0)
    let (s, n) ← strftime s max t.text
    if n ≠ 0 then do
      let len ← strlen s
      return (s, len)
    else return (s, 0)

/-! ## Reading -/

/-- The format of `coverStrToTime`, `"%4u-%2u-%2uT%2u:%2u:%2u"`. -/
def timeFormat : List Directive :=
  [.number 4, .literal 45, .number 2, .literal 45, .number 2, .literal 84, .number 2, .literal 58,
    .number 2, .literal 58, .number 2]

/-- The `struct tm` made of the numbers that were scanned; those that were not are 0. -/
def tmOf (numbers : List UInt32) : Tm where
  tmYear := (numbers.getD 0 0 - 1900).toInt32
  tmMon := (numbers.getD 1 0 - 1).toInt32
  tmMday := (numbers.getD 2 0).toInt32
  tmHour := (numbers.getD 3 0).toInt32
  tmMin := (numbers.getD 4 0).toInt32
  tmSec := (numbers.getD 5 0).toInt32
  tmIsdst := 0

/-- `coverStrToTime(timestr)`: what `mktime` is called with; for NULL it is not called. -/
def coverStrToTime : Option Bytes → Except Fault (Option Tm)
  | none => .ok none
  | some memory => do
    let timestr ← stringAt memory 0
    return some (tmOf (scan timeFormat timestr))

/-! ## Dates -/

/-- The days of a month in the Gregorian calendar. -/
def daysIn (year month : Nat) : Nat :=
  if month = 2 then if year % 4 = 0 ∧ (year % 100 ≠ 0 ∨ year % 400 = 0) then 29 else 28
  else if month = 4 ∨ month = 6 ∨ month = 9 ∨ month = 11 then 30
  else 31

/-- A calendar date with a year of four digits, and a time of day; a minute can have a leap second. -/
structure CalendarTime where
  year : Nat
  month : Nat
  day : Nat
  hour : Nat
  minute : Nat
  second : Nat
  year_digits : 1000 ≤ year ∧ year ≤ 9999
  month_range : 1 ≤ month ∧ month ≤ 12
  day_range : 1 ≤ day ∧ day ≤ daysIn year month
  hour_range : hour ≤ 23
  minute_range : minute ≤ 59
  second_range : second ≤ 60

namespace CalendarTime

/-- The `struct tm` of the date and time. -/
def tm (d : CalendarTime) (isdst : Int32) : Tm where
  tmYear := Int32.ofNat d.year - 1900
  tmMon := Int32.ofNat d.month - 1
  tmMday := Int32.ofNat d.day
  tmHour := Int32.ofNat d.hour
  tmMin := Int32.ofNat d.minute
  tmSec := Int32.ofNat d.second
  tmIsdst := isdst

end CalendarTime

/-- The same year, month, day, hour, minute and second. -/
structure Tm.Same (a b : Tm) : Prop where
  year : a.tmYear = b.tmYear
  mon : a.tmMon = b.tmMon
  mday : a.tmMday = b.tmMday
  hour : a.tmHour = b.tmHour
  min : a.tmMin = b.tmMin
  sec : a.tmSec = b.tmSec

/-- **The time string is read back**: whatever `time_str` prints for the time, `coverStrToTime` hands
`mktime` the same time. -/
def TimeRoundTrips (d : CalendarTime) (isdst : Int32) : Prop :=
  ∀ s max, 20 ≤ max → max ≤ s.length → ∃ s' n t, timeStr s max (d.tm isdst) = .ok (s', n) ∧
    coverStrToTime (some s') = .ok (some t) ∧ t.Same (d.tm isdst)

/-! ## The text of a time -/

section Text

variable {d : CalendarTime} {isdst : Int32}

theorem toInt_sub {n : Nat} {k : Int32} (hn : n < 10000) (hk : 0 ≤ k.toInt ∧ k.toInt ≤ 1900) :
    (Int32.ofNat n - k).toInt = n - k.toInt := by
  have hval : (Int32.ofNat n).toInt = n := Int32.toInt_ofNat_of_lt (by omega)
  rw [Int32.toInt_sub, hval]
  exact Int.bmod_eq_of_le (by omega) (by omega)

theorem CalendarTime.day_le (d : CalendarTime) : d.day ≤ 31 := by
  have hday := d.day_range.2
  unfold daysIn at hday
  split_ifs at hday <;> omega

/-- The fields are printed in as many digits as they have. -/
theorem CalendarTime.text_eq (d : CalendarTime) (isdst : Int32) :
    (d.tm isdst).text = padded 4 d.year ++ 45 :: (padded 2 d.month ++ 45 :: (padded 2 d.day ++ 32 ::
      (padded 2 d.hour ++ 58 :: (padded 2 d.minute ++ 58 :: padded 2 d.second)))) := by
  have hyear := d.year_digits
  have hmonth := d.month_range
  have hday := d.day_le
  have hhour := d.hour_range
  have hminute := d.minute_range
  have hsecond := d.second_range
  have hcast {n : Nat} (hn : n < 10000) : (Int32.ofNat n).toInt.toNat = n := by
    rw [Int32.toInt_ofNat_of_lt (by omega)]
    rfl
  have h1900 : (1900 : Int32).toInt = 1900 := by decide
  have hone : (1 : Int32).toInt = 1 := by decide
  have hyear' : printYear ((Int32.ofNat d.year - 1900).toInt + 1900) = padded 4 d.year := by
    rw [toInt_sub (by omega) (by omega), h1900, printYear, if_pos (by omega)]
    have hval : ((d.year : Int) - 1900 + 1900).toNat = d.year := by omega
    rw [hval]
    exact decimal_eq_padded (k := 3) hyear.1 (by omega)
  have hmonth' : ((Int32.ofNat d.month - 1).toInt + 1).toNat = d.month := by
    rw [toInt_sub (by omega) (by omega), hone]
    omega
  rw [Tm.text, CalendarTime.tm]
  simp only [hyear', hmonth', hcast (show d.day < 10000 by omega),
    hcast (show d.hour < 10000 by omega), hcast (show d.minute < 10000 by omega),
    hcast (show d.second < 10000 by omega), List.append_assoc]
  rfl

theorem CalendarTime.length_text (d : CalendarTime) (isdst : Int32) :
    (d.tm isdst).text.length = 19 := by
  rw [d.text_eq]
  simp only [List.length_append, List.length_cons, length_padded]

theorem CalendarTime.text_ne_zero (d : CalendarTime) (isdst : Int32) :
    ∀ c ∈ (d.tm isdst).text, c ≠ 0 := by
  have hdigits {k n : Nat} {c : UInt8} (hc : c ∈ padded k n) : c ≠ 0 := by
    rintro rfl
    exact absurd (isDigit_of_mem_padded hc) (by decide)
  rw [d.text_eq]
  simp only [List.mem_append, List.mem_cons]
  rintro c (h | rfl | h | rfl | h | rfl | h | rfl | h | rfl | h)
  all_goals first | exact hdigits h | decide

theorem strftime_eq {s text : Bytes} {max : Nat} (hmax : text.length + 1 ≤ max)
    (hs : max ≤ s.length) :
    strftime s max text = .ok (text ++ 0 :: s.drop (text.length + 1), text.length) := by
  have hsplice : splice s 0 (text ++ [0]) = text ++ 0 :: s.drop (text.length + 1) := by
    rw [splice, List.take_zero, List.nil_append, List.append_assoc, Nat.zero_add,
      List.length_append]
    rfl
  have hfit : (text ++ [0]).length ≤ s.length := by
    rw [List.length_append, List.length_singleton]
    omega
  have hwrite : writeFront s (text ++ [0]) = .ok (text ++ 0 :: s.drop (text.length + 1)) := by
    rw [writeFront, if_pos hfit, hsplice]
  rw [strftime, if_pos hmax, hwrite]
  rfl

/-- `time_str` prints the text and a NUL, and returns its length. -/
theorem timeStr_eq {s : Bytes} {max : Nat} {t : Tm} (hmax : 20 ≤ max) (hs : max ≤ s.length)
    (hlen : t.text.length = 19) (htext : ∀ c ∈ t.text, c ≠ 0) :
    ∃ s', timeStr s max t = .ok (s', 19) ∧ stringAt s' 0 = .ok t.text := by
  have hzeros : (splice s 0 (List.replicate 20 0)).length = s.length :=
    length_splice (by rw [List.length_replicate]; omega)
  have hfirst : writeFront s (List.replicate 20 0) = .ok (splice s 0 (List.replicate 20 0)) :=
    if_pos (by rw [List.length_replicate]; omega)
  have hformat := strftime_eq (show t.text.length + 1 ≤ max by omega) (hs.trans_eq hzeros.symm)
  have hstrlen := strlen_append_zero htext
    ((splice s 0 (List.replicate 20 0)).drop (t.text.length + 1))
  rw [hlen] at hformat hstrlen
  refine ⟨t.text ++ 0 :: (splice s 0 (List.replicate 20 0)).drop (19 + 1), ?_, ?_⟩
  · rw [timeStr, if_neg (by omega), hfirst]
    simp only [bind, Except.bind, hformat, hstrlen, pure, Except.pure]
    rfl
  · rw [stringAt_eq, List.drop_zero, if_pos (by simp), text_append_zero htext]

/-- **The scan stops at the space**: the date is read, the time of day is not. -/
theorem scan_text (d : CalendarTime) (isdst : Int32) :
    scan timeFormat (d.tm isdst).text =
      [UInt32.ofNat d.year, UInt32.ofNat d.month, UInt32.ofNat d.day] := by
  have hyear := d.year_digits
  have hmonth := d.month_range
  have hday := d.day_le
  have hyear' : d.year < 10 ^ 4 := by omega
  have hmonth' : d.month < 10 ^ 2 := by omega
  have hday' : d.day < 10 ^ 2 := by omega
  rw [d.text_eq, timeFormat, scan, scanNumber_padded hyear']
  simp only [scan, if_true, scanNumber_padded hmonth', scanNumber_padded hday']
  rfl

/-- Hence the time that is read is midnight. -/
theorem tmOf_scan_text (d : CalendarTime) (isdst : Int32) :
    tmOf (scan timeFormat (d.tm isdst).text) =
      { d.tm 0 with tmHour := 0, tmMin := 0, tmSec := 0 } := by
  rw [scan_text]
  rfl

theorem coverStrToTime_text (d : CalendarTime) {isdst : Int32} {s : Bytes}
    (hs : stringAt s 0 = .ok (d.tm isdst).text) :
    coverStrToTime (some s) = .ok (some { d.tm 0 with tmHour := 0, tmMin := 0, tmSec := 0 }) := by
  rw [coverStrToTime, hs, ← tmOf_scan_text d isdst]
  rfl

end Text

theorem zero_eq_ofNat_iff {n : Nat} (hn : n ≤ 60) : 0 = Int32.ofNat n ↔ n = 0 := by
  have hcast : (Int32.ofNat n).toInt = n := Int32.toInt_ofNat_of_lt (by omega)
  have hzero : (0 : Int32).toInt = 0 := rfl
  rw [← Int32.toInt_inj, hcast, hzero]
  omega

/-- At midnight the fields of the time of day are all 0, and only then. -/
theorem CalendarTime.midnight_iff (d : CalendarTime) (isdst : Int32) :
    (0 = (d.tm isdst).tmHour ∧ 0 = (d.tm isdst).tmMin ∧ 0 = (d.tm isdst).tmSec) ↔
      d.hour = 0 ∧ d.minute = 0 ∧ d.second = 0 := by
  have hhour := d.hour_range
  have hminute := d.minute_range
  exact and_congr (zero_eq_ofNat_iff (by omega))
    (and_congr (zero_eq_ofNat_iff (by omega)) (zero_eq_ofNat_iff d.second_range))

/-- **Which times are read back**: midnight. -/
theorem timeRoundTrips_iff (d : CalendarTime) (isdst : Int32) :
    TimeRoundTrips d isdst ↔ d.hour = 0 ∧ d.minute = 0 ∧ d.second = 0 := by
  have hprint (s : Bytes) (max : Nat) (hmax : 20 ≤ max) (hs : max ≤ s.length) :=
    timeStr_eq hmax hs (d.length_text isdst) (d.text_ne_zero isdst)
  rw [← d.midnight_iff isdst]
  constructor
  · intro htrips
    obtain ⟨s', n, t, hok, ht, hsame⟩ := htrips (List.replicate 20 0) 20 (Nat.le_refl _)
      (Nat.le_of_eq List.length_replicate.symm)
    obtain ⟨s'', hok', hs''⟩ := hprint (List.replicate 20 0) 20 (Nat.le_refl _)
      (Nat.le_of_eq List.length_replicate.symm)
    cases hok'.symm.trans hok
    cases (coverStrToTime_text d hs'').symm.trans ht
    exact ⟨hsame.hour, hsame.min, hsame.sec⟩
  · rintro ⟨hh, hm, hs⟩ s max hmax hlen
    obtain ⟨s', hok, hs'⟩ := hprint s max hmax hlen
    exact ⟨s', 19, _, hok, coverStrToTime_text d hs', rfl, rfl, rfl, hh, hm, hs⟩

/-- 2014-04-11 10:10:10, as in the comment of the header: read back as midnight. -/
theorem timeRoundTrips_comment :
    ¬TimeRoundTrips ⟨2014, 4, 11, 10, 10, 10, by decide, by decide, by decide, by decide, by decide,
      by decide⟩ 0 := by
  intro htrips
  obtain ⟨s', n, t, hok, ht, hsame⟩ := htrips (List.replicate 20 0) 20 (by decide) (by decide)
  have hok' : timeStr (List.replicate 20 0) 20 (CalendarTime.tm ⟨2014, 4, 11, 10, 10, 10, by decide,
      by decide, by decide, by decide, by decide, by decide⟩ 0) =
      .ok (ascii "2014-04-11 10:10:10" ++ [0], 19) := by rfl
  cases hok'.symm.trans hok
  have ht' : coverStrToTime (some (ascii "2014-04-11 10:10:10" ++ [0])) =
      .ok (some ⟨114, 3, 11, 0, 0, 0, 0⟩) := by rfl
  cases ht'.symm.trans ht
  exact absurd hsame.hour (by decide)

end Sails.Base
