/-!
# Calendar dates

Dates of the proleptic Gregorian calendar, in the years from -262143 to 262142.

* `Date.ofYmd?` accepts exactly the days of the calendar.
* `Date.text` writes year, month and day. A year from 0 to 9999 has four digits, any other a sign
  and at least four.
-/

namespace ReleaseCut

/-- Whether a year has a 29th of February. -/
def isLeapYear (year : Int) : Bool :=
  year % 4 == 0 && (year % 100 != 0 || year % 400 == 0)

/-- The number of days of a month, counted from 1; 0 for a number that names no month. -/
def daysInMonth (year : Int) (month : Nat) : Nat :=
  match month with
  | 1 | 3 | 5 | 7 | 8 | 10 | 12 => 31
  | 4 | 6 | 9 | 11 => 30
  | 2 => if isLeapYear year then 29 else 28
  | _ => 0

/-- A day of the calendar. -/
structure Date where
  /-- The year, where 0 is the year before 1. -/
  year : Int
  /-- The month from 1. -/
  month : Nat
  /-- The day of the month from 1. -/
  day : Nat
  /-- The first year of the calendar. -/
  year_ge : -262143 ≤ year
  /-- The last year of the calendar. -/
  year_le : year ≤ 262142
  /-- Days count from 1. -/
  day_pos : 0 < day
  /-- The month has the day. -/
  day_le : day ≤ daysInMonth year month
  deriving DecidableEq

namespace Date

/-- The day of the given numbers, if there is one. -/
def ofYmd? (year : Int) (month day : Nat) : Option Date :=
  if h : -262143 ≤ year ∧ year ≤ 262142 ∧ 0 < day ∧ day ≤ daysInMonth year month then
    some ⟨year, month, day, h.1, h.2.1, h.2.2.1, h.2.2.2⟩
  else none

/-- A number in decimal, with zeros in front up to the given width. -/
def padded (width n : Nat) : List Char :=
  let digits := Nat.toDigits 10 n
  List.replicate (width - digits.length) '0' ++ digits

/-- The written form of a year. -/
def yearText (year : Int) : List Char :=
  if 0 ≤ year ∧ year ≤ 9999 then padded 4 year.natAbs
  else (if year < 0 then '-' else '+') :: padded 4 year.natAbs

/-- The written form of a date. -/
def text (d : Date) : String :=
  String.ofList (yearText d.year ++ '-' :: padded 2 d.month ++ '-' :: padded 2 d.day)

end Date

end ReleaseCut
