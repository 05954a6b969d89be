import LayeredConf.Forest.Structure
import LayeredConf.Record

/-!
# Writing values

Writing at a path creates the nodes on the way to it.  An unset value leaves the node's value as it
is, so that writing an unset value only makes sure that the node is there.

    ensurePath f n path    the node at the path, created if need be
    set f n parts v        the node at the path of the parts, with value `v`
    push f n               a new last child, under the next integer that is free
    fill f n key v         adds a value to those at a key, as a list from the second on
    stack f n args         a new scope on top of the node's tree
-/

namespace LayeredConf.Forest

/-- A new last child with no value. -/
def addChild (f : Forest) (n : NodeId) (k : String) : Forest × NodeId :=
  let (f, c) := f.newNode k .unset
  (f.insertChild n c, c)

/-- The child under a key, created if need be. -/
def ensureChild (f : Forest) (n : NodeId) (k : String) : Forest × NodeId :=
  match f.child n k with
  | some c => (f, c)
  | none => f.addChild n k

def ensurePath (f : Forest) (n : NodeId) : List String → Forest × NodeId
  | [] => (f, n)
  | k :: ks =>
    let (f, c) := f.ensureChild n k
    ensurePath f c ks

/-- An unset value changes nothing. -/
def assign (f : Forest) (n : NodeId) (v : Value) : Forest :=
  if v.isUnset then f else f.setValue n v

def setPath (f : Forest) (n : NodeId) (path : List String) (v : Value) : Forest × NodeId :=
  let (f, m) := f.ensurePath n path
  (f.assign m v, m)

/-- Writes at the path of the parts; no parts name no node. -/
def set (f : Forest) (n : NodeId) (parts : List PathPart) (v : Value) : Forest × Option NodeId :=
  match keyPath parts with
  | [] => (f, none)
  | path =>
    let (f, m) := f.setPath n path v
    (f, some m)

def setDotted (f : Forest) (n : NodeId) (key : String) (v : Value) : Forest × NodeId :=
  f.setPath n (dottedKeys key) v

/-- Key and value pairs in enumeration order; a key is a dotted path. -/
abbrev Assignments := Record Value

def setAll (f : Forest) (n : NodeId) (args : Assignments) : Forest :=
  args.foldl (fun f (key, v) => (f.setDotted n key v).1) f

def ofArgs (f : Forest) (args : Assignments) : Forest × NodeId :=
  let (f, root) := f.newRoot
  (f.setAll root args, root)

/-! ## Lists -/

/-- The first of the numbers from `start` on whose text is not taken.  Of one number more than there
are texts, one is free. -/
def freeIndex (taken : List String) : Nat → Nat → Nat
  | 0, start => start
  | tries + 1, start =>
    if toString start ∈ taken then freeIndex taken tries (start + 1) else start

/-- The count begins behind the number of listed children; a key is taken if the map has it. -/
def pushKey (f : Forest) (n : NodeId) : String :=
  let taken := (f.children n).childMap.map (·.1)
  toString (freeIndex taken taken.length ((f.children n).length + 1))

def push (f : Forest) (n : NodeId) : Forest × NodeId := f.addChild n (f.pushKey n)

def pushValue (f : Forest) (n : NodeId) (v : Value) : Forest × NodeId :=
  let (f, c) := f.push n
  (f.setValue c v, c)

def pushAll (f : Forest) (n : NodeId) (vs : List Value) : Forest :=
  vs.foldl (fun f v => (f.pushValue n v).1) f

/-- The first value at a key stays there; at the second one the node becomes a list of both.
Returns the node that holds the value. -/
def fill (f : Forest) (n : NodeId) (key : String) (v : Value) : Forest × NodeId :=
  let (f, m) := f.ensurePath n (dottedKeys key)
  if f.isLeaf m then
    let old := f.value m
    if old.isUnset then (f.setValue m v, m)
    else
      let f := (f.pushValue m old).1
      (f.setValue m .unset).pushValue m v
  else f.pushValue m v

/-! ## Scopes -/

/-- A new scope on top of the tree of a node.  Below the root the arguments are written at the
node's own path. -/
def stack (f : Forest) (n : NodeId) (args : List Assignments) : Forest × NodeId :=
  let root := f.root n
  let path := f.path n
  let (f, scope) := f.alloc "" .unset (.scope (some root))
  let (f, target) := if root = n then (f, scope) else f.ensurePath scope path
  (args.foldl (fun f a => f.setAll target a) f, scope)

end LayeredConf.Forest
