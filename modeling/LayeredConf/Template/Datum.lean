import LayeredConf.Json.Basic
import LayeredConf.Multimap
import LayeredConf.Tree.Text

/-!
# Data in templates

What template functions take and return: values, and besides them null, records, multimaps and
nodes.  A list may mix them all.

    display f d      the plain text of a datum
    render f d       its text in a template, where a record is JSON
-/

namespace LayeredConf.Template

inductive Datum where
  | absent
  | null
  | text (s : String)
  | number (x : Number)
  | bool (b : Bool)
  | duration (d : Duration)
  | date (t : Calendar.Instant)
  | list (items : List Datum)
  | record (fields : List (String × Datum))
  | multimap (m : Multimap)
  | node (n : NodeId)

namespace Datum

instance : Inhabited Datum := ⟨.absent⟩

mutual

def ofValue : Value → Datum
  | .unset => .absent
  | .text s => .text s
  | .number x => .number x
  | .bool b => .bool b
  | .duration d => .duration d
  | .date t => .date t
  | .list items => .list (ofValues items)

def ofValues : List Value → List Datum
  | [] => []
  | v :: vs => ofValue v :: ofValues vs

end

def isMissing : Datum → Bool
  | .absent => true
  | .null => true
  | _ => false

mutual

/-- Is it a value, and all in it? -/
def isPlain : Datum → Bool
  | .text _ => true
  | .number _ => true
  | .bool _ => true
  | .duration _ => true
  | .date _ => true
  | .list items => allPlain items
  | _ => false

def allPlain : List Datum → Bool
  | [] => true
  | d :: ds => isPlain d && allPlain ds

end

/-! ## Plain text -/

mutual

def display (f : Forest) : Datum → String
  | .absent => "undefined"
  | .null => "null"
  | .text s => s
  | .number x => x.text
  | .bool b => Value.boolText b
  | .duration d => d.text
  | .date t => t.longText
  | .list items => ",".intercalate (displayItems f items)
  | .record _ => "[object Object]"
  | .multimap _ => "[object Object]"
  | .node n => f.brief n

/-- Missing items are empty. -/
def displayItems (f : Forest) : List Datum → List String
  | [] => []
  | d :: ds => (if d.isMissing then "" else display f d) :: displayItems f ds

end

/-! ## JSON -/

/-- A node as JSON: its own fields, and its link with the node that the link leads to, down to the
given depth. -/
def nodeJson (f : Forest) : Nat → NodeId → Json
  | 0, _ => .null
  | depth + 1, n =>
    let node := f.node n
    let value := if node.value.isUnset then [] else [("value", node.value.toJson)]
    let link := match node.link with
      | .detached => [("nature", .text "detached")]
      | .child p => [("nature", .text "child"), ("parent", nodeJson f depth p)]
      | .scope none => [("nature", .text "scope")]
      | .scope (some outer) => [("nature", .text "scope"), ("inherits", nodeJson f depth outer)]
    .object (value ++
      [ ("flags", .number (.ofInt node.flags)), ("nodeKey", .text node.key), ("link", .object link),
        ("childMap", .object []), ("childOrder", .array ((f.keys n).map .text)) ])

mutual

def toJson (f : Forest) : Datum → Json
  | .absent => .null
  | .null => .null
  | .text s => .text s
  | .number x => .ofNumber x
  | .bool b => .bool b
  | .duration d => .text d.text
  | .date t => if t.isValid then .text t.isoText else .null
  | .list items => .array (toJsons f items)
  | .record fields => .object (toJsonFields f fields)
  | .multimap m => m.toJson
  | .node n => nodeJson f (f.size + 1) n

def toJsons (f : Forest) : List Datum → List Json
  | [] => []
  | d :: ds => toJson f d :: toJsons f ds

/-- A field without a datum is left out. -/
def toJsonFields (f : Forest) : List (String × Datum) → List (String × Json)
  | [] => []
  | (_, .absent) :: fs => toJsonFields f fs
  | (k, d) :: fs => (k, toJson f d) :: toJsonFields f fs

end

/-! ## Rendering -/

mutual

def render (f : Forest) : Datum → String
  | .multimap m => m.toJson.print
  | .list items => ",".intercalate (renderItems f items)
  | .date t => t.isoText
  | .record fields => (toJson f (.record fields)).print
  | d => display f d

def renderItems (f : Forest) : List Datum → List String
  | [] => []
  | d :: ds => render f d :: renderItems f ds

end

end Datum

end LayeredConf.Template
