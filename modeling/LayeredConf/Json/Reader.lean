import LayeredConf.Json.Basic
import LayeredConf.Json.Quoted

/-!
# Reading JSON

A text is read as one value with blanks around it, or refused.  An object whose text gives a name
twice keeps the last value; its fields are put in enumeration order.
-/

namespace LayeredConf.Json

/-- The blanks of the format: space, tab, line feed and carriage return. -/
def isSpace (c : Char) : Bool := c = ' ' || c = '\t' || c = '\n' || c = '\r'

def skipSpaces (s : List Char) : List Char := s.dropWhile isSpace

/-- The rest after a fixed word. -/
def readWord? (word : List Char) (value : Json) (s : List Char) : Option (Json × List Char) :=
  if word.isPrefixOf s then some (value, s.drop word.length) else none

/-- Is this the whole part of a number: `0`, or digits that do not begin with `0`? -/
def isWhole (ds : List Char) : Bool :=
  match ds with
  | [] => false
  | ['0'] => true
  | '0' :: _ => false
  | _ => true

/-- Digits with an optional fraction and exponent. -/
def readMagnitude? (negative : Bool) (s : List Char) : Option (Json × List Char) :=
  let (whole, r) := Decimal.takeDigits s
  if isWhole whole then do
    let (part, r) ← Decimal.takeFraction? r
    let (power, r) ← Decimal.takeExponent? r
    let d : Decimal := ⟨Decimal.digitsValue (whole ++ part), power - part.length⟩
    pure (.number (d.toNumber negative), r)
  else none

def readNumber? : List Char → Option (Json × List Char)
  | '-' :: r => readMagnitude? true r
  | r => readMagnitude? false r

mutual

/-- A value and the rest.  Each nested call has read something, or is the first one for an item, so
twice the length of the text is fuel enough. -/
def readValue? : Nat → List Char → Option (Json × List Char)
  | 0, _ => none
  | fuel + 1, s =>
    match skipSpaces s with
    | '"' :: r => (readQuoted? r).map fun (t, r) => (.text (String.ofList t), r)
    | '[' :: r =>
      match skipSpaces r with
      | ']' :: r => some (.array [], r)
      | r => (readItems? fuel r).map fun (vs, r) => (.array vs, r)
    | '\x7b' :: r =>
      match skipSpaces r with
      | '\x7d' :: r => some (.object [], r)
      | r => (readFields? fuel r).map fun (fs, r) => (.object (Record.ofPairs fs), r)
    | 't' :: r => readWord? "rue".toList (.bool true) r
    | 'f' :: r => readWord? "alse".toList (.bool false) r
    | 'n' :: r => readWord? "ull".toList .null r
    | r => readNumber? r

/-- The items of an array up to its closing bracket. -/
def readItems? : Nat → List Char → Option (List Json × List Char)
  | 0, _ => none
  | fuel + 1, s =>
    match readValue? fuel s with
    | none => none
    | some (v, r) =>
      match skipSpaces r with
      | ',' :: r => (readItems? fuel r).map fun (vs, r) => (v :: vs, r)
      | ']' :: r => some ([v], r)
      | _ => none

/-- The fields of an object up to its closing brace. -/
def readFields? : Nat → List Char → Option (List (String × Json) × List Char)
  | 0, _ => none
  | fuel + 1, s =>
    match skipSpaces s with
    | '"' :: r =>
      match readQuoted? r with
      | none => none
      | some (name, r) =>
        match skipSpaces r with
        | ':' :: r =>
          match readValue? fuel r with
          | none => none
          | some (v, r) =>
            match skipSpaces r with
            | ',' :: r =>
              (readFields? fuel r).map fun (fs, r) => ((String.ofList name, v) :: fs, r)
            | '\x7d' :: r => some ([(String.ofList name, v)], r)
            | _ => none
        | _ => none
    | _ => none

end

def read? (text : String) : Option Json :=
  let s := text.toList
  match readValue? (2 * s.length + 2) s with
  | some (v, r) => if skipSpaces r = [] then some v else none
  | none => none

end LayeredConf.Json
