import LayeredConf.Calendar.Instant
import LayeredConf.Number.Decimal
import LayeredConf.Text.Blank

/-!
# Time layouts

A layout is a list of items, read from left to right, each taking as much text as it can.  A layout
reads a text when every item reads, what is left is blank, and what was read names a moment.  A
layout without a zone is in UTC.
-/

namespace LayeredConf.Calendar

/-- What a layout asks for next. -/
inductive Item where
  | literal (c : Char)
  | weekday
  | longWeekday
  | monthName
  /-- One or two digits, up to 31. -/
  | day
  /-- One or two digits. -/
  | twoDigitDay
  | month
  | shortYear
  | year
  | hour
  | minute
  | second
  | zone
  deriving DecidableEq, Repr

/-- What has been read so far, starting at midnight. -/
structure Reading where
  year : Int := 1970
  month : Nat := 1
  day : Nat := 1
  hour : Nat := 0
  minute : Nat := 0
  second : Nat := 0
  /-- Milliseconds the zone is ahead. -/
  offset : Int := 0
  deriving DecidableEq, Repr

/-! ## Reading items -/

/-- One to `most` digits. -/
def readDigits? (most : Nat) (s : List Char) : Option (Nat × List Char) :=
  let ds := (s.take most).takeWhile Char.isDigit
  if ds = [] then none else some (Decimal.digitsValue ds, s.drop ds.length)

/-- Exactly `count` digits. -/
def readFixed? (count : Nat) (s : List Char) : Option (Nat × List Char) :=
  let ds := s.take count
  if ds.length = count ∧ ds.all Char.isDigit then
    some (Decimal.digitsValue ds, s.drop count)
  else none

def readChar? (c : Char) : List Char → Option (List Char)
  | d :: r => if d = c then some r else none
  | [] => none

/-- The first name that the text starts with, whatever the case of its letters: its place in the
list and the rest. -/
def readName? (names : List (List Char)) (s : List Char) : Option (Nat × List Char) :=
  let lower (t : List Char) := t.map Char.toLower
  (names.findIdx? fun n => (lower n).isPrefixOf (lower s)).map fun i =>
    (i, s.drop (names.getD i []).length)

/-- The days by their first letters, each day's shortest form last. -/
def dayPrefixes (lengths : List Nat) : List (List Char) :=
  lengths.flatMap fun n => dayNames.map (·.take n)

/-- A day number up to 31: a second digit counts as long as it fits. -/
def readDay? (s : List Char) : Option (Nat × List Char) :=
  match readDigits? 2 s with
  | some (n, r) => if n ≤ 31 then some (n, r) else readDigits? 1 s
  | none => none

def clockOffset (hours minutes : Nat) : Int := hours * 3600000 + minutes * 60000

/-- `+hhmm`, `-hhmm` or `Z`. -/
def readZone? : List Char → Option (Int × List Char)
  | 'Z' :: r => some (0, r)
  | sign :: r => do
    guard (sign = '+' ∨ sign = '-')
    let (hours, r) ← readFixed? 2 r
    let (minutes, r) ← readFixed? 2 r
    let offset := clockOffset hours minutes
    pure (if sign = '+' then offset else -offset, r)
  | [] => none

/-- Two-digit years run from 1920 to 2019. -/
def fullYear (n : Nat) : Int := if n < 20 then 2000 + n else 1900 + n

def Item.read? (item : Item) (f : Reading) (s : List Char) : Option (Reading × List Char) :=
  match item with
  | .literal c => (readChar? c s).map (f, ·)
  | .weekday => (readName? (dayPrefixes [3, 2, 1]) s).map (f, ·.2)
  | .longWeekday => (readName? (dayPrefixes [9, 3, 2, 1]) s).map (f, ·.2)
  | .monthName =>
    (readName? (monthNames.map (·.take 3) ++ monthNames.map (·.take 1)) s).map fun (i, r) =>
      ({ f with month := i % 12 + 1 }, r)
  | .day => (readDay? s).map fun (n, r) => ({ f with day := n }, r)
  | .twoDigitDay => (readDigits? 2 s).map fun (n, r) => ({ f with day := n }, r)
  | .month => (readDigits? 2 s).map fun (n, r) => ({ f with month := n }, r)
  | .shortYear => (readDigits? 2 s).map fun (n, r) => ({ f with year := fullYear n }, r)
  | .year => (readDigits? 4 s).map fun (n, r) => ({ f with year := n }, r)
  | .hour => (readDigits? 2 s).map fun (n, r) => ({ f with hour := n }, r)
  | .minute => (readDigits? 2 s).map fun (n, r) => ({ f with minute := n }, r)
  | .second => (readDigits? 2 s).map fun (n, r) => ({ f with second := n }, r)
  | .zone => (readZone? s).map fun (n, r) => ({ f with offset := n }, r)

/-- The moment that was named; there is no year 0. -/
def Reading.moment? (f : Reading) : Option Instant :=
  let date : Date := ⟨f.year, f.month, f.day⟩
  if 1 ≤ f.year ∧ date.isValid ∧ f.hour ≤ 23 ∧ f.minute ≤ 59 ∧ f.second ≤ 59 then
    some (.at (date.dayNumber * Instant.dayLength + clockOffset f.hour f.minute +
      f.second * 1000 - f.offset))
  else none

/-! ## Layouts -/

abbrev Layout := List Item

def Layout.readFrom? : Layout → Reading → List Char → Option Instant
  | [], f, s => if s.all Text.isBlank then f.moment? else none
  | item :: layout, f, s =>
    match item.read? f s with
    | some (f, r) => readFrom? layout f r
    | none => none

def Layout.read? (layout : Layout) (s : List Char) : Option Instant := layout.readFrom? {} s

/-- `15:04:05` -/
def clock : Layout := [.hour, .literal ':', .minute, .literal ':', .second]

def spaced (parts : List Layout) : Layout := [Item.literal ' '].intercalate parts

/-- `2006-01-02` -/
def plainDate : Layout := [.year, .literal '-', .month, .literal '-', .twoDigitDay]

/-- The layouts in the order in which they are tried. -/
def layouts : List Layout :=
  [ -- Mon Jan 2 15:04:05 2006
    spaced [[.weekday], [.monthName], [.day], clock, [.year]],
    -- Mon Jan 2 15:04:05 -0700 2006, with a day that may have a leading zero or not
    spaced [[.weekday], [.monthName], [.day], clock, [.zone], [.year]],
    spaced [[.weekday], [.monthName], [.twoDigitDay], clock, [.zone], [.year]],
    -- 02 Jan 06 15:04 -0700
    spaced [[.twoDigitDay], [.monthName], [.shortYear], [.hour, .literal ':', .minute], [.zone]],
    -- Monday, 02-Jan-06 15:04:05 -0700
    spaced [[.longWeekday, .literal ','],
      [.twoDigitDay, .literal '-', .monthName, .literal '-', .shortYear], clock, [.zone]],
    -- Mon, 02 Jan 2006 15:04:05 -0700
    spaced [[.weekday, .literal ','], [.twoDigitDay], [.monthName], [.year], clock, [.zone]],
    -- 2006-01-02 15:04:05
    spaced [plainDate, clock],
    plainDate ]

end LayeredConf.Calendar
