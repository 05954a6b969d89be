import LayeredConf.Calendar.Date
import LayeredConf.Number.Basic

/-!
# Instants

A moment in milliseconds from 1970-01-01T00:00:00Z, or no moment at all: what lies more than a
hundred million days away is `invalid`.
-/

namespace LayeredConf.Calendar

inductive Instant where
  | at (milliseconds : Int)
  | invalid
  deriving DecidableEq, Repr

namespace Instant

def epoch : Instant := .at 0

/-- The instant a number of milliseconds away, its fraction dropped. -/
def ofNumber (x : Number) : Instant :=
  match x.truncate with
  | some n => if n.natAbs ≤ 8640000000000000 then .at n else .invalid
  | none => .invalid

def isValid : Instant → Bool
  | .at _ => true
  | .invalid => false

/-- The second that holds the instant. -/
def startOfSecond : Instant → Instant
  | .at ms => .at (ms / 1000 * 1000)
  | .invalid => .invalid

def dayLength : Int := 86400000

/-- Decimal digits, with zeros in front up to a width. -/
def padded (width n : Nat) : List Char :=
  let ds := Nat.toDigits 10 n
  List.replicate (width - ds.length) '0' ++ ds

/-- Four digits, or a sign and six digits for a year outside them. -/
def yearText (year : Int) : List Char :=
  if 0 ≤ year ∧ year ≤ 9999 then padded 4 year.natAbs
  else (if year < 0 then '-' else '+') :: padded 6 year.natAbs

/-- The clock of a day, `hh:mm:ss`. -/
def clockText (ms : Nat) : List Char :=
  padded 2 (ms / 3600000) ++ ':' :: padded 2 (ms / 60000 % 60) ++ ':' :: padded 2 (ms / 1000 % 60)

/-- The instant as `2006-01-02T15:04:05.000Z`. -/
def isoText : Instant → String
  | .invalid => "Invalid Date"
  | .at ms =>
    let d := Date.ofDayNumber (ms / dayLength)
    let clock := (ms % dayLength).toNat
    String.ofList (yearText d.year ++ '-' :: padded 2 d.month ++ '-' :: padded 2 d.day ++
      'T' :: clockText clock ++ '.' :: padded 3 (clock % 1000) ++ ['Z'])

/-- The instant in words, `Mon Jan 02 2006 15:04:05 GMT+0000 (Coordinated Universal Time)`; the
year has at least four digits, behind a sign if it is negative. -/
def longText : Instant → String
  | .invalid => "Invalid Date"
  | .at ms =>
    let n := ms / dayLength
    let d := Date.ofDayNumber n
    let year := (if d.year < 0 then ['-'] else []) ++ padded 4 d.year.natAbs
    String.ofList ((dayNames.getD (weekday n) []).take 3 ++
      ' ' :: (monthNames.getD (d.month - 1) []).take 3 ++
      ' ' :: padded 2 d.day ++ ' ' :: year ++ ' ' :: clockText (ms % dayLength).toNat) ++
      " GMT+0000 (Coordinated Universal Time)"

end Instant

end LayeredConf.Calendar
