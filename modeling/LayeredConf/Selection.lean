import LayeredConf.Failure
import LayeredConf.Lookup
import LayeredConf.Value.Kind

/-!
# Selections of nodes

Nodes are read at a path, the first match or all of them.  Each read of one node comes in four forms
that differ in what they answer when there is no node, or its value does not convert: `read` the
failure, `getD` a fallback, `get` the zero of the kind, and `require` a failure that names the key.
To read from no node at all finds nothing.  The values of listed nodes can be converted in place.

    readAs f kind n parts         the value of the first match, converted
    keyedValues f n parts         values by the key at the last `*` of a path
    convertAll f kind only ns     the values of these nodes as values of a kind
-/

namespace LayeredConf.Forest

/-! ## Single reads -/

def nodeAt? (f : Forest) (n : Option NodeId) (parts : List PathPart) : Option NodeId :=
  f.find? n (keyPath parts)

def readNode (f : Forest) (n : Option NodeId) (parts : List PathPart) : Except Failure NodeId :=
  match f.nodeAt? n parts with
  | some m => .ok m
  | none => .error (.notFound (keyPath parts))

def read (f : Forest) (n : Option NodeId) (parts : List PathPart) : Except Failure Value :=
  (f.readNode n parts).map f.value

def readAs (f : Forest) (kind : Kind) (n : Option NodeId) (parts : List PathPart) :
    Except Failure Value :=
  (f.read n parts).bind kind.convert

def getNodeD (f : Forest) (fallback : Option NodeId) (n : Option NodeId)
    (parts : List PathPart) : Option NodeId :=
  (f.nodeAt? n parts).or fallback

/-- The fallback counts only when there is no node; a node without a value is unset. -/
def getD (f : Forest) (fallback : Value) (n : Option NodeId) (parts : List PathPart) : Value :=
  (f.read n parts).toOption.getD fallback

def get (f : Forest) (n : Option NodeId) (parts : List PathPart) : Value :=
  f.getD .unset n parts

def getAsD (f : Forest) (kind : Kind) (fallback : Value) (n : Option NodeId)
    (parts : List PathPart) : Value :=
  (f.readAs kind n parts).toOption.getD fallback

def getAs (f : Forest) (kind : Kind) (n : Option NodeId) (parts : List PathPart) : Value :=
  f.getAsD kind kind.zero n parts

def requireNode (f : Forest) (n : Option NodeId) (parts : List PathPart) : Except Failure NodeId :=
  (f.readNode n parts).mapError (.missingKey (keyPath parts))

def require (f : Forest) (n : Option NodeId) (parts : List PathPart) : Except Failure Value :=
  (f.requireNode n parts).map f.value

def requireAs (f : Forest) (kind : Kind) (n : Option NodeId) (parts : List PathPart) :
    Except Failure Value :=
  (f.readAs kind n parts).mapError (.missingKey (keyPath parts))

/-! ## Reads of many nodes -/

def nodesAt (f : Forest) (n : Option NodeId) (parts : List PathPart) : List NodeId :=
  f.findAll n (keyPath parts) 0

/-- The values of the leaves among the matches. -/
def valuesAt (f : Forest) (n : Option NodeId) (parts : List PathPart) : List Value :=
  ((f.nodesAt n parts).filter f.isLeaf).map f.value

def textsAt (f : Forest) (n : Option NodeId) (parts : List PathPart) : List String :=
  (f.nodesAt n parts).map fun m => (f.value m).asText

/-- A path up to its last `*`, or up to its first key if there is none, and the rest. -/
def splitAtWildcard (path : List String) : List String × List String :=
  let tail := (path.reverse.takeWhile (· ≠ wildcard)).reverse
  let count := if wildcard ∈ path then path.length - tail.length else 1
  (path.take count, path.drop count)

/-- The first field for each name. -/
def firstFields {α : Type} (fields : List (String × α)) : List (String × α) :=
  fields.foldl (fun r (k, v) => if (r.lookup k).isSome then r else r ++ [(k, v)]) []

/-- Values by key: the keys are those of the nodes that match up to the last `*`, and the value of
each is found below it at the rest of the path.  A node without the rest is left out, and a nearer
node hides a farther one with its key. -/
def keyedValues (f : Forest) (n : Option NodeId) (parts : List PathPart) : Record Value :=
  let path := if parts = [] then [wildcard] else keyPath parts
  let (head, tail) := splitAtWildcard path
  let found := (f.findAll n head 0).filterMap fun m =>
    (f.find? (some m) tail).map fun v => (f.key m, f.value v)
  Record.ofAssigned (firstFields found)

def keyedTexts (f : Forest) (n : Option NodeId) (parts : List PathPart) : Record String :=
  (f.keyedValues n parts).map fun (k, v) => (k, v.asText)

/-! ## Lists of nodes -/

/-- Replaces the values of the nodes whose keys are listed, or of all nodes if no key is. -/
def mapValues (f : Forest) (convert : Node → Value) (only : List String)
    (ns : List NodeId) : Forest :=
  ns.foldl (fun f n =>
    if only = [] ∨ f.key n ∈ only then f.setValue n (convert (f.node n)) else f) f

/-- Converts values to a kind; one that does not convert becomes the kind's zero. -/
def convertAll (f : Forest) (kind : Kind) (only : List String) (ns : List NodeId) : Forest :=
  f.mapValues (fun node => (kind.convert node.value).toOption.getD kind.zero) only ns

def withValue (f : Forest) (v : Value) (ns : List NodeId) : List NodeId :=
  ns.filter fun n => (f.value n).same v

def leavesOf (f : Forest) (ns : List NodeId) : List NodeId := ns.filter f.isLeaf

end LayeredConf.Forest
