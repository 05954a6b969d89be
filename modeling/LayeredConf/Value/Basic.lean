import LayeredConf.Calendar.Instant
import LayeredConf.Duration
import LayeredConf.Json.Basic

/-!
# Values

What a configuration node may hold: a scalar, a list of values, or nothing yet.

    asText v      how a value reads as text; an unset one is empty, a list is joined by commas
    same v w      equality of values; as numbers, the zeros are equal and `nan` is not itself
    toJson v      the JSON form; what JSON cannot write is null
-/

namespace LayeredConf

inductive Value where
  | unset
  | text (s : String)
  | number (x : Number)
  | bool (b : Bool)
  | duration (d : Duration)
  | date (t : Calendar.Instant)
  | list (items : List Value)

namespace Value

instance : Inhabited Value := ⟨.unset⟩

def isUnset : Value → Bool
  | .unset => true
  | _ => false

theorem eq_unset_of_isUnset {v : Value} (h : v.isUnset = true) : v = .unset := by
  cases v with
  | unset => rfl
  | _ => cases h

def boolText (b : Bool) : String := if b then "true" else "false"

mutual

def asText : Value → String
  | .unset => ""
  | .text s => s
  | .number x => x.text
  | .bool b => boolText b
  | .duration d => d.text
  | .date t => t.isoText
  | .list items => ",".intercalate (textsOf items)

def textsOf : List Value → List String
  | [] => []
  | v :: vs => asText v :: textsOf vs

end

mutual

def same : Value → Value → Bool
  | .unset, .unset => true
  | .text s, .text t => s = t
  | .number x, .number y => x.eqv y
  | .bool a, .bool b => a = b
  | .duration d, .duration e => d.milliseconds.eqv e.milliseconds
  | .date (.at a), .date (.at b) => a = b
  | .list vs, .list ws => sameAll vs ws
  | _, _ => false

def sameAll : List Value → List Value → Bool
  | [], [] => true
  | v :: vs, w :: ws => same v w && sameAll vs ws
  | _, _ => false

end

mutual

def toJson : Value → Json
  | .unset => .null
  | .text s => .text s
  | .number x => .ofNumber x
  | .bool b => .bool b
  | .duration d => .text d.text
  | .date t => if t.isValid then .text t.isoText else .null
  | .list items => .array (toJsons items)

def toJsons : List Value → List Json
  | [] => []
  | v :: vs => toJson v :: toJsons vs

end

mutual

/-- Is every item of every list in it set? -/
def isSettled : Value → Bool
  | .list items => allSettled items
  | _ => true

def allSettled : List Value → Bool
  | [] => true
  | v :: vs => !v.isUnset && isSettled v && allSettled vs

end

end Value

end LayeredConf
