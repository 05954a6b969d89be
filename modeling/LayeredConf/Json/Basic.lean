import LayeredConf.Json.Quoted
import LayeredConf.Number.Decimal
import LayeredConf.Record

/-!
# JSON values

In the text of a value there are no blanks, and fields are in their order.  A number without JSON
text is written as null.

    chars v        the text of a value
-/

namespace LayeredConf

/-- A JSON value; the fields of an object are in enumeration order. -/
inductive Json where
  | null
  | bool (b : Bool)
  | number (x : Number)
  | text (s : String)
  | array (items : List Json)
  | object (fields : List (String × Json))

namespace Json

instance : Inhabited Json := ⟨.null⟩

/-- A number that JSON can write; the others become null. -/
def ofNumber (x : Number) : Json := if x.isFinite then .number x else .null

/-! ## Text -/

def numberChars (x : Number) : List Char := if x.isFinite then x.chars else "null".toList

mutual

def chars : Json → List Char
  | .null => "null".toList
  | .bool true => "true".toList
  | .bool false => "false".toList
  | .number x => numberChars x
  | .text s => quoteChars s.toList
  | .array items => '[' :: ([','].intercalate (itemChars items) ++ [']'])
  | .object fields => '\x7b' :: ([','].intercalate (fieldChars fields) ++ ['\x7d'])

def itemChars : List Json → List (List Char)
  | [] => []
  | v :: vs => chars v :: itemChars vs

def fieldChars : List (String × Json) → List (List Char)
  | [] => []
  | (name, v) :: fs => (quoteChars name.toList ++ ':' :: chars v) :: fieldChars fs

end

def print (v : Json) : String := String.ofList v.chars

end Json

end LayeredConf
