import LayeredConf.Json.Basic
import LayeredConf.Json.Reader
import LayeredConf.Forest.Writing
import LayeredConf.Tree.Basic

/-!
# Trees and JSON

A leaf without flags is its value.  Any other node is an array when it is forced to be one, or when
all its keys are integers and it is not forced to be an object; otherwise it is an object.

    toJson t            the JSON value; fields are in enumeration order
    jsonChars t         JSON text with the children in their own order
    readJson f n s      writes the parts of a JSON object below a node
-/

namespace LayeredConf

namespace Tree

/-! ## Encoding -/

inductive Encoding where
  | leaf
  | array
  | object
  deriving DecidableEq, Repr

def encodingOf (flags : Int) (keys : List String) : Encoding :=
  if keys = [] ∧ !forcesArray flags ∧ !forcesMap flags then .leaf
  else if forcesArray flags ∨ !forcesMap flags ∧ onlyIntegerKeys keys then .array
  else .object

def keys (ts : List Tree) : List String := ts.map key

mutual

def toJson : Tree → Json
  | .node _ v flags children =>
    match encodingOf flags (keys children) with
    | .leaf => v.toJson
    | .array => .array (toJsons children)
    | .object => .object (Record.ofAssigned ((keys children).zip (toJsons children)))

def toJsons : List Tree → List Json
  | [] => []
  | t :: ts => toJson t :: toJsons ts

end

mutual

def jsonChars : Tree → List Char
  | .node _ v flags children =>
    match encodingOf flags (keys children) with
    | .leaf => v.toJson.chars
    | .array => '[' :: ([','].intercalate (jsonItems children) ++ [']'])
    | .object => '\x7b' :: ([','].intercalate (jsonFields children) ++ ['\x7d'])

def jsonItems : List Tree → List (List Char)
  | [] => []
  | t :: ts => jsonChars t :: jsonItems ts

def jsonFields : List Tree → List (List Char)
  | [] => []
  | .node k v b cs :: ts =>
    (Json.quoteChars k.toList ++ ':' :: jsonChars (.node k v b cs)) :: jsonFields ts

end

end Tree

/-! ## Decoding -/

namespace Json

mutual

/-- The parts of a value below a path that hold something: null holds an unset value, an array or an
object nothing of its own.  Items count from 1. -/
def leaves (path : List String) : Json → List (List String × Value)
  | .null => [(path, .unset)]
  | .bool b => [(path, .bool b)]
  | .number x => [(path, .number x)]
  | .text s => [(path, .text s)]
  | .array items => itemLeaves path 1 items
  | .object fields => fieldLeaves path fields

def itemLeaves (path : List String) : Nat → List Json → List (List String × Value)
  | _, [] => []
  | i, v :: vs => leaves (path ++ [toString i]) v ++ itemLeaves path (i + 1) vs

def fieldLeaves (path : List String) : List (String × Json) → List (List String × Value)
  | [] => []
  | (name, v) :: fs => leaves (path ++ [name]) v ++ fieldLeaves path fs

end

end Json

namespace Forest

/-- The path of each part is joined with dots and read as a key, so dots in names split it. -/
def writeLeaves (f : Forest) (n : NodeId) (leaves : List (List String × Value)) : Forest :=
  leaves.foldl (fun f (path, v) => (f.setDotted n (dotted path) v).1) f

def readJson (f : Forest) (n : NodeId) (text : String) : Except Failure Forest :=
  match Json.read? text with
  | none => .error .malformedJson
  | some (.object fields) => .ok (f.writeLeaves n (Json.fieldLeaves [] fields))
  | some _ => .error .notAnObject

end Forest

end LayeredConf
