import LayeredConf.Lookup
import LayeredConf.Multimap
import LayeredConf.Text.Escaped

/-!
# Switches

A group of settings is a switch: its children are the cases, tried in order.  A case with a
`default` child always matches and its payload is the default.  A case with a `keys` child reads
each listed key at the evaluated node and looks for what it read, followed by `value`, below itself;
what it finds there is its payload.  The first match ends the group unless the case has a true
`continue`.

A payload lists pairs `key:text`, or texts for the key `value`, between commas; a backslash before a
comma or a colon takes its meaning away.

    payload? f context case     the payload of a case that matches
    payloads f context cases    the payloads of the cases that count
    evalSwitches f n parts      what all groups at a path give
-/

namespace LayeredConf

namespace Switch

/-- The key of a text without a key of its own. -/
def valueKey : String := "value"

/-! ## Payloads -/

/-- A part of a payload: the text up to the first colon and the text behind it. -/
def pairOf (part : List Char) : String × String :=
  match Text.splitN [':'] ['\\'] part 2 with
  | [k, v] => (String.ofList k, String.ofList v)
  | parts => (valueKey, String.ofList (parts.headD []))

def pairsOf (payload : String) : List (String × String) :=
  (Text.split [','] ['\\'] payload.toList).map pairOf

/-- The key of what a group gives; with a group's key in front it is `group` or `group_key`. -/
def outputKey (group : Option String) (k : String) : String :=
  match group with
  | none => k
  | some g => if k = valueKey then g else g ++ "_" ++ k

end Switch

namespace Forest

/-! ## Cases -/

/-- What a listed key reads at the node: its value, or with a question mark in front whether there
is a node. -/
def probe (f : Forest) (context : NodeId) (name : String) : String :=
  match name.toList with
  | '?' :: rest =>
    Value.boolText (f.find? (some context) (keysOf rest)).isSome
  | cs =>
    match f.find? (some context) (keysOf cs) with
    | some m => (f.value m).asText
    | none => ""

/-- The path that a list of keys selects below its case. -/
def probePath (f : Forest) (context list : NodeId) : List String :=
  ((f.childIds list).map fun m => f.probe context (f.value m).asText).flatMap dottedKeys ++
    [Switch.valueKey]

def payload? (f : Forest) (context case : NodeId) : Option String :=
  match f.child case "default" with
  | some m => some (f.value m).asText
  | none =>
    match f.child case "keys" with
    | none => none
    | some list =>
      (f.find? (some case) (f.probePath context list)).map fun m => (f.value m).asText

/-- Does a case that matches leave the rest of its group to be tried? -/
def continues (f : Forest) (case : NodeId) : Bool :=
  match f.child case "continue" with
  | some m => readBool? (f.value m).asText = some true
  | none => false

/-- The payloads of the cases of a group up to the first match that ends it. -/
def payloads (f : Forest) (context : NodeId) : List NodeId → List String
  | [] => []
  | case :: cases =>
    match f.payload? context case with
    | none => payloads f context cases
    | some p => p :: if f.continues case then payloads f context cases else []

/-! ## Groups -/

def groupPairs (f : Forest) (context : NodeId) (named : Bool) (group : NodeId) :
    List (String × String) :=
  let name := if named then some (f.key group) else none
  (f.payloads context (f.childIds group)).flatMap fun p =>
    (Switch.pairsOf p).map fun (k, v) => (Switch.outputKey name k, v)

/-- Evaluates the groups at a path.  If the path ends in `*`, keys carry the key of their group. -/
def evalSwitches (f : Forest) (n : Option NodeId) (parts : List PathPart) : Multimap :=
  match n with
  | none => .empty
  | some n =>
    if parts = [] then .empty
    else
      let path := keyPath parts
      .ofPairs ((f.findAll (some n) path 0).flatMap (f.groupPairs n (endsInWildcard path)))

end Forest

end LayeredConf
