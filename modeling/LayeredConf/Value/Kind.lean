import LayeredConf.Calendar.Timestamp
import LayeredConf.Duration
import LayeredConf.Failure

/-!
# Kinds of values

The kinds that texts and values convert to.  `Kind.read?` reads a text, `Kind.convert` converts a
value: one that already is of the kind stays, any other is read from its text.
-/

namespace LayeredConf

inductive Kind where
  | string
  | int
  | float
  | bool
  | duration
  | time
  deriving DecidableEq, Repr

/-! ## Reading texts -/

def yesWords : List String := ["1", "t", "true", "on"]
def noWords : List String := ["0", "f", "false", "off"]

/-- A word for true or false, in any case. -/
def readBool? (text : String) : Option Bool :=
  let word := String.ofList (text.toList.map Char.toLower)
  if word ∈ yesWords then some true
  else if word ∈ noWords then some false
  else none

/-- Digits with an optional sign, for an integer below `2^53` either way. -/
def readInt? (text : String) : Option Number :=
  match Decimal.readInteger? text.toList with
  | some (negative, n) =>
    let x := Decimal.toNumber negative ⟨n, 0⟩
    if x.isExactInteger then some x else none
  | none => none

namespace Kind

def name : Kind → String
  | .string => "string"
  | .int => "int"
  | .float => "float"
  | .bool => "bool"
  | .duration => "duration"
  | .time => "time"

def read? (kind : Kind) (text : String) : Option Value :=
  match kind with
  | .string => some (.text text)
  | .int => (readInt? text).map .number
  | .float => (Decimal.read? text.toList).map .number
  | .bool => (readBool? text).map .bool
  | .duration => (Duration.read? text.toList).map .duration
  | .time => (Calendar.Instant.read? text.toList).map .date

/-! ## Converting values -/

/-- Is the value of the kind already? -/
def holds (kind : Kind) (v : Value) : Bool :=
  match kind, v with
  | .string, .text _ => true
  | .int, .number x => x.isExactInteger
  | .float, .number x => x.isFinite
  | .bool, .bool _ => true
  | .duration, .duration _ => true
  | .time, .date t => t.isValid
  | _, _ => false

/-- An unset value converts to the empty string and to nothing else. -/
def convert (kind : Kind) (v : Value) : Except Failure Value :=
  if !v.isSettled then .error (.invalidInput kind.name v)
  else if kind = .string then .ok (.text v.asText)
  else if v.isUnset then .error (.unconvertible kind.name v)
  else if kind.holds v then .ok v
  else
    match kind.read? v.asText with
    | some w => .ok w
    | none => .error (.unconvertible kind.name v)

/-- What stands for a value that is missing or does not convert. -/
def zero : Kind → Value
  | .string => .text ""
  | .int => .number (.zero false)
  | .float => .number (.zero false)
  | .bool => .bool false
  | .duration => .duration .zero
  | .time => .date .epoch

end Kind

end LayeredConf
