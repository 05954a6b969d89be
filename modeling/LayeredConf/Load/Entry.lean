import LayeredConf.Text.Escaped
import LayeredConf.Value.Kind

/-!
# Lines of configuration text

A line is blank or a comment, an include of another file, an entry `key:type=value`, or none of
these.  Key, type and value are taken as in

    server.hosts:[]string = a.example,b.example

where the type may be missing, and blanks around the key and the value do not count.

    Line.read s        what a line is
    readTyped type raw the value of an entry
-/

namespace LayeredConf.Load

/-! ## Typed values -/

/-- What a type reads its texts with: a kind, or one of the names that every table of names answers
to. -/
inductive Reader where
  | kind (k : Kind)
  /-- An object that holds the text.  It is no value of any kind, but where a value is written it is
  written as its text, so the text stands for it. -/
  | boxed
  /-- The same value for every text. -/
  | always (v : Value)
  /-- No text can be read. -/
  | never

def reader? (type : String) : Option Reader :=
  match type with
  | "string" => some (.kind .string)
  | "int" => some (.kind .int)
  | "float" => some (.kind .float)
  | "bool" => some (.kind .bool)
  | "duration" => some (.kind .duration)
  | "date" => some (.kind .time)
  | "time" => some (.kind .time)
  | "constructor" => some .boxed
  | "toString" => some (.always (.text "[object Undefined]"))
  | "isPrototypeOf" => some (.always (.bool false))
  | "__defineGetter__" | "__defineSetter__" | "__lookupGetter__" | "__lookupSetter__" | "__proto__"
  | "hasOwnProperty" | "propertyIsEnumerable" | "toLocaleString" | "valueOf" => some .never
  | _ => none

def readScalar (type : String) (reader : Reader) (raw : List Char) : Except Failure Value :=
  let raw := String.ofList raw
  match reader with
  | .boxed => .ok (.text raw)
  | .always v => .ok v
  | .never => .error (.unusableType type)
  | .kind k =>
    match k.read? raw with
    | some v => .ok v
    | none => .error (.unconvertible type (.text raw))

/-- The items in order; the first that fails decides. -/
def readItems (type : String) (reader : Reader) : List (List Char) → Except Failure (List Value)
  | [] => .ok []
  | raw :: raws =>
    match readScalar type reader raw with
    | .error e => .error e
    | .ok v => (readItems type reader raws).map (v :: ·)

/-- Is it a list type, written with brackets in front, and the type of its items; no type at all is
`string`. -/
def itemType (type : List Char) : Bool × String :=
  let (isList, scalar) := match type with
    | '[' :: ']' :: r => (true, r)
    | r => (false, r)
  (isList, if scalar = [] then "string" else String.ofList scalar)

/-- The value of a text under a type.  A list has its items between commas, and a backslash before a
comma keeps it in the item. -/
def readTyped (type : String) (raw : String) : Except Failure Value :=
  let (isList, scalar) := itemType type.toList
  match reader? scalar with
  | none => .error (.unknownType type raw)
  | some reader =>
    if isList then
      (readItems scalar reader (Text.split [','] ['\\'] raw.toList)).map .list
    else readScalar scalar reader raw.toList

/-! ## Lines -/

structure Entry where
  key : String
  /-- Empty if the entry declares no type. -/
  type : String
  raw : String
  deriving DecidableEq, Repr

inductive Line where
  | ignored
  | including (target : String)
  | entry (e : Entry)
  | unknown
  deriving DecidableEq, Repr

/-- The types that an entry can declare. -/
def entryTypes : List (List Char) :=
  ["string", "int", "float", "bool", "duration", "date", "time"].map String.toList

def isEntryType (s : List Char) : Bool :=
  s ∈ entryTypes || match s with
    | '[' :: ']' :: r => r ∈ entryTypes
    | _ => false

/-- The text before the last colon and the text behind it. -/
def lastColon? (s : List Char) : Option (List Char × List Char) :=
  let type := (s.reverse.takeWhile (· ≠ ':')).reverse
  match (s.reverse.dropWhile (· ≠ ':')).reverse with
  | [] => none
  | keyColon => some (keyColon.dropLast, type)

/-- The key and the declared type; what follows the last colon is a type only if it is one of the
types, and a key comes before it. -/
def keyAndType (s : List Char) : List Char × List Char :=
  match lastColon? s with
  | some (key, type) => if key ≠ [] ∧ isEntryType type then (key, type) else (s, [])
  | none => (s, [])

/-- An entry has a key before the first equals sign, and a value that ends no line. -/
def readEntry? (s : List Char) : Option Entry :=
  match Text.cut? ['='] s with
  | none => none
  | some (before, after) =>
    let left := Text.trim before
    let raw := Text.trim after
    if left = [] ∨ raw.any Text.isLineEnd then none
    else
      let (key, type) := keyAndType left
      some ⟨String.ofList key, String.ofList type, String.ofList raw⟩

/-- Blank, or blanks and a comment up to the end; a comment does not reach over a line end. -/
def isIgnored (s : List Char) : Bool :=
  match Text.trimLeft s with
  | [] => true
  | '#' :: r => !r.any Text.isLineEnd
  | _ => false

/-- The word `include`, one space and a file name. -/
def readInclude? (s : List Char) : Option (List Char) :=
  let s := Text.trim s
  let word := "include ".toList
  let target := s.drop word.length
  if word.isPrefixOf s ∧ target ≠ [] ∧ !target.any Text.isBlank then some target else none

/-- What a line of a file is. -/
def Line.read (s : List Char) : Line :=
  if isIgnored s then .ignored
  else
    match readInclude? s, readEntry? s with
    | some target, _ => .including (String.ofList target)
    | none, some e => .entry e
    | none, none => .unknown

/-- What a line of a text is, where nothing can be included. -/
def Line.readPlain (s : List Char) : Line :=
  if isIgnored s then .ignored
  else
    match readEntry? s with
    | some e => .entry e
    | none => .unknown

end LayeredConf.Load
