import LayeredConf.Selection
import LayeredConf.Switch
import LayeredConf.Template.Expand

/-!
# Templates over a node

The reads of a node as template functions.  A path reads the value at it; functions that the caller
gives come before those of the node.

    functions f n                    `get`, `getnodes`, `getvalues`, `getmap` and `getsettings`
    expandOver f n more missing s    the template `s` over the node
-/

namespace LayeredConf.Template

/-- An argument as part of a path; what is no text, number or truth value counts by its text. -/
def pathPart (f : Forest) : Datum → PathPart
  | .text s => .text s
  | .number x => .number x
  | .bool b => .bool b
  | d => .text (d.display f)

def functions (f : Forest) (n : NodeId) : List (String × Function) :=
  let read (g : List PathPart → Datum) : Function := fun args => .ok (g (args.map (pathPart f)))
  [ ("get", read fun parts => .ofValue (f.get (some n) parts)),
    ("getnodes", read fun parts => .list ((f.nodesAt (some n) parts).map .node)),
    ("getvalues", read fun parts => .list (Datum.ofValues (f.valuesAt (some n) parts))),
    ("getmap", read fun parts =>
      .record ((f.keyedValues (some n) parts).map fun (k, v) => (k, .ofValue v))),
    ("getsettings", read fun parts => .multimap (f.evalSwitches (some n) parts)) ]

def expandOver (f : Forest) (n : NodeId) (more : List (String × Function))
    (missing : Missing) (template : String) : Except Failure String :=
  expand
    { functions := more ++ functions f n
      readPath := fun segments => .ok (.ofValue (f.get (some n) (segments.map .text)))
      render := Datum.render f
      missing }
    template

end LayeredConf.Template
