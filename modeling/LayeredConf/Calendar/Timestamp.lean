import LayeredConf.Calendar.Layout
import LayeredConf.Number.Arith

/-!
# Reading a time

A time is a timestamp `2006-01-02T15:04:05.999-07:00` or a text in one of the layouts.  Blanks
around it are dropped and runs of blanks count as one space.  The answer is cut to whole seconds.
-/

namespace LayeredConf.Calendar

/-- The parts of a timestamp; the seconds keep their fraction. -/
structure Timestamp where
  date : Date
  hours : Nat
  minutes : Nat
  seconds : Number
  /-- Milliseconds the zone is behind. -/
  behind : Int
  offsetMinutes : Nat

namespace Timestamp

/-- `Z`, or a sign, two digits, a colon and two digits, up to the end of the text. -/
def readOffset? : List Char → Option (Int × Nat)
  | ['Z'] => some (0, 0)
  | sign :: r => do
    guard (sign = '+' ∨ sign = '-')
    let (hours, r) ← readFixed? 2 r
    let (minutes, r) ← readFixed? 2 (← readChar? ':' r)
    guard (r = [])
    let offset := clockOffset hours minutes
    pure (if sign = '+' then -offset else offset, minutes)
  | [] => none

def read? (s : List Char) : Option Timestamp := do
  let (year, s) ← readFixed? 4 s
  let (month, s) ← readFixed? 2 (← readChar? '-' s)
  let (day, s) ← readFixed? 2 (← readChar? '-' s)
  let (hours, s) ← readFixed? 2 (← readChar? 'T' s)
  let (minutes, s) ← readFixed? 2 (← readChar? ':' s)
  let (seconds, s) ← readFixed? 2 (← readChar? ':' s)
  let (part, s) ← Decimal.takeFraction? s
  let (behind, offsetMinutes) ← readOffset? s
  let digits := seconds * Nat.pow 10 part.length + Decimal.digitsValue part
  pure { date := ⟨year, month, day⟩, hours, minutes, behind, offsetMinutes,
         seconds := Decimal.toNumber false ⟨digits, -part.length⟩ }

/-- Hour 24 is only the end of the day. -/
def isValid (t : Timestamp) : Bool :=
  t.date.isValid && t.minutes < 60 && t.seconds.lt (.ofNat 60) && t.offsetMinutes < 60 &&
    (t.hours < 24 || (t.hours = 24 && t.minutes = 0 && t.seconds.isZero))

def toInstant (t : Timestamp) : Instant :=
  let clock := Number.ofInt (clockOffset t.hours t.minutes) + t.seconds * .ofNat 1000
  .ofNumber (.ofInt (t.date.dayNumber * Instant.dayLength) + clock + .ofInt t.behind)

end Timestamp

/-! ## Reading -/

/-- A zone name that ends a word: `UTC` or `GMT`, and what follows. -/
def zoneName? : List Char → Option (List Char)
  | ' ' :: a :: b :: c :: r =>
    let ends : Bool := match r with
      | d :: _ => !(d.isAlphanum || d = '_')
      | [] => true
    if ([a, b, c] = ['U', 'T', 'C'] ∨ [a, b, c] = ['G', 'M', 'T']) ∧ ends then some r else none
  | _ => none

/-- The first zone name becomes the offset `+0000`. -/
def numericZone : List Char → List Char
  | [] => []
  | c :: r =>
    match zoneName? (c :: r) with
    | some rest => [' ', '+', '0', '0', '0', '0'] ++ rest
    | none => c :: numericZone r

def Instant.read? (s : List Char) : Option Instant :=
  let s := Text.collapse (Text.trim s)
  let found := match Timestamp.read? s with
    | some t => if t.isValid then some t.toInstant else none
    | none => layouts.findSome? (Layout.read? · (numericZone s))
  found.map Instant.startOfSecond

end LayeredConf.Calendar
