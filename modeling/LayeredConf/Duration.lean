import LayeredConf.Number.Arith
import LayeredConf.Number.Decimal
import LayeredConf.Text.Blank

/-!
# Durations

A span of time in milliseconds.  It is written with hours, minutes and seconds, as `2h0m0s`,
`2m0s`, `1.5s`, `250ms` or `0s`; days are 24 hours.

What is read is a clock `hh:mm` or `hh:mm:ss`, or days, hours, minutes and seconds in this order,
each with its unit and each of them optional, as `1d2h`, `90 min` or `2 hours 5s`.
-/

namespace LayeredConf

/-- A span of time; there is one zero. -/
structure Duration where
  milliseconds : Number
  deriving DecidableEq

namespace Duration

def zero : Duration := ⟨.zero false⟩

instance : Inhabited Duration := ⟨zero⟩

def ofMilliseconds (ms : Number) : Duration := if ms.isZero then zero else ⟨ms⟩

/-- How many of each unit; a unit that is not given counts as 0. -/
structure Parts where
  days : Number := .zero false
  hours : Number := .zero false
  minutes : Number := .zero false
  seconds : Number := .zero false
  milliseconds : Number := .zero false

def msPerSecond : Number := .ofNat 1000
def msPerMinute : Number := .ofNat 60000
def msPerHour : Number := .ofNat 3600000
def msPerDay : Number := .ofNat 86400000

def ofParts (p : Parts) : Duration :=
  .ofMilliseconds (p.days * msPerDay + p.hours * msPerHour + p.minutes * msPerMinute +
    p.seconds * msPerSecond + p.milliseconds)

def text (d : Duration) : String :=
  let ms := d.milliseconds
  let zero := Number.zero false
  if ms.isZero then "0s"
  else
    let sign := if ms.lt zero then "-" else ""
    let size := ms.abs
    if size.lt msPerSecond then sign ++ size.text ++ "ms"
    else
      let hours := (size / msPerHour).floor
      let minutes := (size % msPerHour / msPerMinute).floor
      let seconds := size % msPerMinute / msPerSecond
      let seconds := seconds.text ++ "s"
      let minutesText := minutes.text ++ "m" ++ seconds
      if zero.lt hours then sign ++ hours.text ++ "h" ++ minutesText
      else if zero.lt minutes then sign ++ minutesText
      else sign ++ seconds

/-! ## Reading -/

/-- The spellings of the units, longer ones first. -/
def dayUnits : List (List Char) := ["days", "day", "d"].map String.toList
def hourUnits : List (List Char) := ["hours", "hour", "h"].map String.toList
def minuteUnits : List (List Char) :=
  ["minutes", "minute", "mins", "min", "m"].map String.toList
def secondUnits : List (List Char) := ["seconds", "second", "s"].map String.toList

def ofDigits (ds : List Char) : Number :=
  Decimal.toNumber false ⟨Decimal.digitsValue ds, 0⟩

/-- A count with one of the units, with blanks before either: the count, or 0 without moving on
when there is none. -/
def takePart (units : List (List Char)) (s : List Char) : Number × List Char :=
  let (ds, r) := Decimal.takeDigits (Text.trimLeft s)
  let r := Text.trimLeft r
  match ds, units.find? (·.isPrefixOf r) with
  | _ :: _, some unit => (ofDigits ds, r.drop unit.length)
  | _, _ => (.zero false, s)

def readUnits? (s : List Char) : Option Duration :=
  let (days, r) := takePart dayUnits s
  let (hours, r) := takePart hourUnits r
  let (minutes, r) := takePart minuteUnits r
  let (seconds, r) := takePart secondUnits r
  if s = [] ∨ r ≠ [] then none else some (.ofParts { days, hours, minutes, seconds })

def isTwoDigits (s : List Char) : Bool := s.length = 2 && s.all Char.isDigit

def readClock? (s : List Char) : Option Duration :=
  match s.splitOn ':' with
  | hours :: minutes :: seconds =>
    let hoursOk := 2 ≤ hours.length ∧ hours.length ≤ 10 ∧ hours.all Char.isDigit
    if hoursOk ∧ isTwoDigits minutes then
      match seconds with
      | [] => some (.ofParts { hours := ofDigits hours, minutes := ofDigits minutes })
      | [seconds] =>
        if isTwoDigits seconds then
          some (.ofParts { hours := ofDigits hours, minutes := ofDigits minutes,
                           seconds := ofDigits seconds })
        else none
      | _ => none
    else none
  | _ => none

def read? (s : List Char) : Option Duration := (readClock? s).or (readUnits? s)

end Duration

end LayeredConf
