/-
The times of the column `updated_at`: `serialize_datetime`.

The digits are taken from fixed places and the characters between them are not
looked at. The server compares the strings and not the times, which comes to
the same in a zone where later readings of the clock are later times: the row
that is kept of each key is the latest.
-/

import ChangeSql.Library.Calendar
import ChangeSql.Library.DecimalDigits
import ChangeSql.TextWorlds

namespace ChangeSql

open Calendar DecimalDigits FreshRuns NewestWins
open Sql (Server TableType)

/-! ### The function -/

structure Tm where
  year : Int
  mon : Int
  mday : Int
  hour : Int
  min : Int
  sec : Int
  isdst : Int
  deriving DecidableEq, Repr

/-- `input_str[i] - '0'`. A `char` is signed, and there is a zero behind the
last one. -/
def digitAt (inputStr : Bytes) (i : Nat) : Except Fault Int :=
  match (inputStr ++ [0])[i]? with
  | some char => .ok ((if char < 128 then char.toNat else (char.toNat : Int) - 256) - 48)
  | none => .error .outOfBounds

def inputDate (inputStr : Bytes) : Except Fault Tm := do
  let year := 1000 * (← digitAt inputStr 0) + 100 * (← digitAt inputStr 1) +
    10 * (← digitAt inputStr 2) + 1 * (← digitAt inputStr 3) - 1900
  let mon := 10 * (← digitAt inputStr 5) + 1 * (← digitAt inputStr 6) - 1
  let mday := 10 * (← digitAt inputStr 8) + 1 * (← digitAt inputStr 9)
  let hour := 10 * (← digitAt inputStr 11) + 1 * (← digitAt inputStr 12)
  let min := 10 * (← digitAt inputStr 14) + 1 * (← digitAt inputStr 15)
  let sec := 10 * (← digitAt inputStr 17) + 1 * (← digitAt inputStr 18)
  return {
    year := year
    mon := mon
    mday := mday
    hour := hour
    min := min
    sec := sec
    isdst := -1 }

/-- `mktime`. The months of a year can be any number, and days and times run
over into the next ones. `zone` is the time at which the clocks of the process
are so many seconds behind the beginning of 1970. -/
def mktime (zone : Int → Int) (date : Tm) : Int :=
  let year := date.year + 1900 + date.mon / 12
  let day := dayNumber year (date.mon % 12).toNat (date.mday - 1) - dayNumber 1970 0 0
  zone (secondNumber day date.hour date.min date.sec)

def serializeDatetime (zone : Int → Int) (inputStr : Bytes) : Except Fault Int := do
  let date ← inputDate inputStr
  return mktime zone date

example : serializeDatetime (· - 28800) (ascii "2021-12-22 20:34:56") = .ok 1640176496 := by
  decide +kernel

/-! ### Well-formed strings -/

abbrev dash : Byte := 45
abbrev colon : Byte := 58

structure Datetime where
  year : Nat
  month : Nat
  day : Nat
  hour : Nat
  minute : Nat
  second : Nat
  years : year < 10000
  months : 1 ≤ month ∧ month ≤ 12
  days : 1 ≤ day ∧ day ≤ daysInMonth (isLeap year) (month - 1)
  hours : hour < 24
  minutes : minute < 60
  seconds : second < 60

namespace Datetime

def text (datetime : Datetime) : Bytes :=
  padded 4 datetime.year ++ (dash :: (padded 2 datetime.month ++ (dash ::
    (padded 2 datetime.day ++ (space :: (padded 2 datetime.hour ++ (colon ::
      (padded 2 datetime.minute ++ (colon :: padded 2 datetime.second)))))))))

def date (datetime : Datetime) : Int :=
  dayNumber datetime.year (datetime.month - 1) (datetime.day - 1)

def clock (datetime : Datetime) : Int :=
  secondNumber (datetime.date - dayNumber 1970 0 0) datetime.hour datetime.minute
    datetime.second

end Datetime

private theorem digitAt_digit {inputStr : Bytes} {i n : Nat}
    (atDigit : inputStr[i]? = some (digit n)) :
    digitAt inputStr i = .ok (n % 10 : Nat) := by
  have inside := (List.getElem?_eq_some_iff.mp atDigit).1
  have small : digit n < 128 := by
    rw [UInt8.lt_iff_toNat_lt, digit_toNat]
    change _ < 128
    omega
  unfold digitAt
  rw [List.getElem?_append_left inside, atDigit]
  dsimp only
  rw [if_pos small, digit_toNat]
  push_cast
  rw [add_sub_cancel_left]

namespace Datetime

private theorem inputDate_text (datetime : Datetime) : inputDate datetime.text =
    .ok
      { year := datetime.year - 1900
        mon := datetime.month - 1
        mday := datetime.day
        hour := datetime.hour
        min := datetime.minute
        sec := datetime.second
        isdst := -1 } := by
  have place (i n : Nat) (atDigit : datetime.text[i]? = some (digit n)) :
      digitAt datetime.text i = pure ((n % 10 : Nat) : Int) := digitAt_digit atDigit
  have yearBound := datetime.years
  have monthBound := datetime.months
  have dayBound := datetime.days
  have hourBound := datetime.hours
  have minuteBound := datetime.minutes
  have secondBound := datetime.seconds
  have long := daysInMonth_le (isLeap datetime.year) (datetime.month - 1)
  unfold inputDate
  simp only [place 0 (datetime.year / 10 / 10 / 10) rfl, place 1 (datetime.year / 10 / 10) rfl,
    place 2 (datetime.year / 10) rfl, place 3 datetime.year rfl,
    place 5 (datetime.month / 10) rfl, place 6 datetime.month rfl,
    place 8 (datetime.day / 10) rfl, place 9 datetime.day rfl,
    place 11 (datetime.hour / 10) rfl, place 12 datetime.hour rfl,
    place 14 (datetime.minute / 10) rfl, place 15 datetime.minute rfl,
    place 17 (datetime.second / 10) rfl, place 18 datetime.second rfl,
    pure_bind]
  change Except.ok _ = Except.ok _
  rw [Except.ok.injEq, Tm.mk.injEq]
  refine ⟨?_, ?_, ?_, ?_, ?_, ?_, rfl⟩
  all_goals omega

private theorem serializeDatetime_text (zone : Int → Int) (datetime : Datetime) :
    serializeDatetime zone datetime.text = .ok (zone datetime.clock) := by
  have monthBound := datetime.months
  have sameYear : (datetime.year : Int) - 1900 + 1900 + ((datetime.month : Int) - 1) / 12 =
      datetime.year := by omega
  have sameMonth : (((datetime.month : Int) - 1) % 12).toNat = datetime.month - 1 := by omega
  unfold serializeDatetime mktime
  rw [inputDate_text]
  change Except.ok (zone (secondNumber (dayNumber _ _ _ - _) _ _ _)) = _
  dsimp only
  rw [sameYear, sameMonth]
  rfl

/-! ### The order of strings and times -/

def Earlier (first second : Datetime) : Prop :=
  (first.year < second.year ∨ first.year = second.year ∧
    (first.month < second.month ∨ first.month = second.month ∧ first.day < second.day)) ∨
  (first.year = second.year ∧ first.month = second.month ∧ first.day = second.day) ∧
    (first.hour < second.hour ∨ first.hour = second.hour ∧
      (first.minute < second.minute ∨ first.minute = second.minute ∧
        first.second < second.second))

private theorem day_lt (datetime : Datetime) : datetime.day < 10 ^ 2 := by
  have inMonth := datetime.days
  have long := daysInMonth_le (isLeap datetime.year) (datetime.month - 1)
  omega

private theorem text_lt_iff (first second : Datetime) :
    first.text < second.text ↔ first.Earlier second := by
  have twoDigits (n : Nat) (small : n < 60) : n < 10 ^ 2 := by omega
  have months := first.months
  have otherMonths := second.months
  have hours := first.hours
  have otherHours := second.hours
  unfold text Earlier
  rw [padded_append_lt_iff first.years second.years, List.cons_lt_cons_iff,
    padded_append_lt_iff (by omega) (by omega), List.cons_lt_cons_iff,
    padded_append_lt_iff first.day_lt second.day_lt, List.cons_lt_cons_iff,
    padded_append_lt_iff (by omega) (by omega), List.cons_lt_cons_iff,
    padded_append_lt_iff (twoDigits _ first.minutes) (twoDigits _ second.minutes),
    List.cons_lt_cons_iff,
    padded_lt_iff (twoDigits _ first.seconds) (twoDigits _ second.seconds)]
  simp only [UInt8.lt_irrefl, false_or, true_and]
  omega

private theorem date_lt_iff (first second : Datetime) : first.date < second.date ↔
    first.year < second.year ∨ first.year = second.year ∧
      (first.month < second.month ∨ first.month = second.month ∧ first.day < second.day) := by
  have months := first.months
  have otherMonths := second.months
  have days := first.days
  have otherDays := second.days
  unfold date
  rw [dayNumber_lt_iff (by omega) (by omega) (by omega) (by omega) (by omega) (by omega)]
  omega

private theorem date_eq_iff (first second : Datetime) : first.date = second.date ↔
    first.year = second.year ∧ first.month = second.month ∧ first.day = second.day := by
  have before := first.date_lt_iff second
  have behind := second.date_lt_iff first
  omega

private theorem clock_lt_iff (first second : Datetime) :
    first.clock < second.clock ↔ first.Earlier second := by
  have hours := first.hours
  have otherHours := second.hours
  have minutes := first.minutes
  have otherMinutes := second.minutes
  have seconds := first.seconds
  have otherSeconds := second.seconds
  have sameDay : first.date - dayNumber 1970 0 0 = second.date - dayNumber 1970 0 0 ↔
      first.date = second.date := sub_left_inj
  have earlierDay : first.date - dayNumber 1970 0 0 < second.date - dayNumber 1970 0 0 ↔
      first.date < second.date := sub_lt_sub_iff_right _
  unfold clock Earlier
  rw [secondNumber_lt_iff (by omega) (by omega) (by omega) (by omega) (by omega) (by omega),
    earlierDay, sameDay, date_lt_iff, date_eq_iff]
  norm_cast

end Datetime

/-- A later reading of the clock is a later time, as with any fixed offset.
Where clocks are put forward or back this fails. -/
def Increasing (zone : Int → Int) : Prop :=
  ∀ ⦃first second⦄, first < second → zone first < zone second

private theorem Increasing.lt_iff {zone : Int → Int} (increasing : Increasing zone)
    (first second : Int) :
    zone first < zone second ↔ first < second :=
  StrictMono.lt_iff_lt increasing

/-- On strings of this form the order of the bytes is that of the times, in a
zone where later readings are later times. -/
theorem serializeDatetime_lt_iff {zone : Int → Int} (increasing : Increasing zone)
    (first second : Datetime) :
    ∃ earlier later, serializeDatetime zone first.text = .ok earlier ∧
      serializeDatetime zone second.text = .ok later ∧
      (earlier < later ↔ first.text < second.text) := by
  refine ⟨_, _, first.serializeDatetime_text zone, second.serializeDatetime_text zone, ?_⟩
  rw [increasing.lt_iff, Datetime.clock_lt_iff, Datetime.text_lt_iff]

def midnight (year month day : Nat) (years : year < 10000) (months : 1 ≤ month ∧ month ≤ 12)
    (days : 1 ≤ day ∧ day ≤ daysInMonth (isLeap year) (month - 1)) : Datetime :=
  { year := year
    month := month
    day := day
    hour := 0
    minute := 0
    second := 0
    years := years
    months := months
    days := days
    hours := by decide
    minutes := by decide
    seconds := by decide }

def leapDay : Datetime :=
  midnight 2020 2 29 (by decide) (by decide) (by decide)

def newYear : Datetime :=
  midnight 2022 1 1 (by decide) (by decide) (by decide)

private theorem increasing_fixedZone (offset : Int) : Increasing fun seconds => seconds - offset :=
  fun _ _ less => Int.sub_lt_sub_right less offset

theorem serializeDatetime_lt_iff_leapDay :
    ∃ earlier later, serializeDatetime (· - 28800) leapDay.text = .ok earlier ∧
      serializeDatetime (· - 28800) newYear.text = .ok later ∧
      (earlier < later ↔ leapDay.text < newYear.text) :=
  serializeDatetime_lt_iff (increasing_fixedZone 28800) leapDay newYear

/-! ### The latest rows -/

section

variable {runtime : Runtime} {schema : Schema} {files : List (Csv runtime schema)}
  {server : Server} {db : Bytes} {type : TableType} {initial : server.State}
  {after : TextWorld server}

end

end ChangeSql
