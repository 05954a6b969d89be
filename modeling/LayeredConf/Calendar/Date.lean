/-!
# Days of the calendar

The proleptic calendar with leap years, as a count of days from 1970-01-01 in either direction.

    dayNumber d          the day's number
    ofDayNumber n        the day with that number
-/

namespace LayeredConf.Calendar

structure Date where
  year : Int
  month : Nat
  day : Nat
  deriving DecidableEq, Repr

def isLeapYear (year : Int) : Bool :=
  year % 400 = 0 || (year % 4 = 0 && year % 100 ≠ 0)

def daysInMonth (year : Int) (month : Nat) : Nat :=
  match month with
  | 2 => if isLeapYear year then 29 else 28
  | 4 | 6 | 9 | 11 => 30
  | _ => 31

def Date.isValid (d : Date) : Bool :=
  1 ≤ d.month && d.month ≤ 12 && 1 ≤ d.day && d.day ≤ daysInMonth d.year d.month

/-- Counted from 1 March of year 0, so that a leap day is the last day of its year; the months of
such a year are `153` days for every five. -/
def Date.dayNumber (d : Date) : Int :=
  let year : Int := if d.month ≤ 2 then d.year - 1 else d.year
  let month : Int := if d.month ≤ 2 then d.month + 9 else (d.month : Int) - 3
  let day : Int := (153 * month + 2) / 5 + d.day - 1
  365 * year + year / 4 - year / 100 + year / 400 + day - 719468

/-- The day with this number, found within its era of 400 years. -/
def Date.ofDayNumber (n : Int) : Date :=
  let n := n + 719468
  let era := n / 146097
  let day := n % 146097
  let year := (day - day / 1460 + day / 36524 - day / 146096) / 365
  let day := day - (365 * year + year / 4 - year / 100)
  let month := (5 * day + 2) / 153
  { year := year + era * 400 + (if month < 10 then 0 else 1)
    month := (if month < 10 then month + 3 else month - 9).toNat
    day := (day - (153 * month + 2) / 5 + 1).toNat }

/-- Sunday is 0; day 0 was a Thursday. -/
def weekday (dayNumber : Int) : Nat := ((dayNumber + 4) % 7).toNat

def dayNames : List (List Char) :=
  ["Sunday", "Monday", "Tuesday", "Wednesday", "Thursday", "Friday", "Saturday"].map String.toList

def monthNames : List (List Char) :=
  ["January", "February", "March", "April", "May", "June", "July", "August", "September",
   "October", "November", "December"].map String.toList

end LayeredConf.Calendar
