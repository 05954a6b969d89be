import LayeredConf.KeyPath
import LayeredConf.Record
import LayeredConf.Value.Basic

/-!
# The forest of nodes

Configuration nodes live in a forest and are named by their place in it.  A node keeps a map of its
children and their order, and a link to what it belongs to: nothing, the node it is a child of, or,
for the root of a scope, the root of the tree from which the scope inherits.  Map and order are
changed one by one, and nothing but these changes holds them together.

    child f n k        the child of `n` under `k`
    keys f n           the keys of the children in order
    lineage f n        `n`, its parent, the parent's parent, up to the root
    path f n           the keys from the root down to `n`
-/

namespace LayeredConf

abbrev NodeId := Nat

/-! ## Children -/

structure Children where
  /-- One entry for each key. -/
  childMap : List (String × NodeId) := []
  childOrder : List String := []
  deriving DecidableEq, Inhabited, Repr

namespace Children

/-- How many are listed. -/
def length (c : Children) : Nat := c.childOrder.length

def get? (c : Children) (k : String) : Option NodeId := c.childMap.lookup k

/-- A listed key that has no entry is passed over. -/
def nodes (c : Children) : List NodeId := c.childOrder.filterMap c.get?

/-- An entry that is there keeps its place in the map and gets the new node. -/
def insert (c : Children) (k : String) (n : NodeId) : Children :=
  { childMap := Record.put c.childMap k n
    childOrder := c.childOrder ++ [k] }

/-- The key is taken out of the order where it is listed first. -/
def erase (c : Children) (k : String) : Children :=
  { childMap := c.childMap.filter (·.1 ≠ k)
    childOrder := c.childOrder.erase k }

end Children

/-! ## Nodes -/

inductive Link where
  | detached
  | child (parent : NodeId)
  /-- A root of a scope and the root of the tree it inherits from, if any. -/
  | scope (inherits : Option NodeId)
  deriving DecidableEq, Repr

structure Node extends Children where
  key : String := ""
  value : Value := .unset
  /-- How the node is serialized; the bits are `Tree.forcesMap` and `Tree.forcesArray`. -/
  flags : Int := 0
  link : Link := .detached
  deriving Inhabited

structure Forest where
  nodes : Array Node := #[]
  deriving Inhabited

namespace Forest

/-! ## Reading nodes -/

def size (f : Forest) : Nat := f.nodes.size

def node (f : Forest) (n : NodeId) : Node := f.nodes.getD n {}

def key (f : Forest) (n : NodeId) : String := (f.node n).key

def value (f : Forest) (n : NodeId) : Value := (f.node n).value

def children (f : Forest) (n : NodeId) : Children := (f.node n).toChildren

def keys (f : Forest) (n : NodeId) : List String := (f.children n).childOrder

def childIds (f : Forest) (n : NodeId) : List NodeId := (f.children n).nodes

def child (f : Forest) (n : NodeId) (k : String) : Option NodeId := (f.children n).get? k

def isLeaf (f : Forest) (n : NodeId) : Bool := (f.keys n).isEmpty

def parent? (f : Forest) (n : NodeId) : Option NodeId :=
  match (f.node n).link with
  | .child p => some p
  | _ => none

/-- Is the node the root of a scope? -/
def isScope (f : Forest) (n : NodeId) : Bool :=
  match (f.node n).link with
  | .scope _ => true
  | _ => false

/-- The root of the tree from which a root inherits. -/
def inherited? (f : Forest) (n : NodeId) : Option NodeId :=
  match (f.node n).link with
  | .scope outer => outer
  | _ => none

/-! ## Climbing -/

def climb (f : Forest) : Nat → NodeId → List NodeId
  | 0, n => [n]
  | fuel + 1, n =>
    match f.parent? n with
    | some p => n :: climb f fuel p
    | none => [n]

/-- No lineage is longer than the forest has nodes. -/
def lineage (f : Forest) (n : NodeId) : List NodeId := f.climb f.size n

def root (f : Forest) (n : NodeId) : NodeId := (f.lineage n).getLastD n

def depth (f : Forest) (n : NodeId) : Nat := (f.lineage n).length - 1

/-- The keys from the root, exclusive, down to the node; empty keys are left out. -/
def path (f : Forest) (n : NodeId) : List String :=
  ((f.lineage n).dropLast.map f.key).reverse.filter (· ≠ "")

/-! ## Writing nodes -/

def modify (f : Forest) (n : NodeId) (g : Node → Node) : Forest := ⟨f.nodes.modify n g⟩

def modifyChildren (f : Forest) (n : NodeId) (g : Children → Children) : Forest :=
  f.modify n fun x => { x with toChildren := g x.toChildren }

def setValue (f : Forest) (n : NodeId) (v : Value) : Forest := f.modify n ({ · with value := v })

def setFlags (f : Forest) (n : NodeId) (flags : Int) : Forest :=
  f.modify n ({ · with flags := flags })

/-- A new node, detached unless a link is given. -/
def alloc (f : Forest) (key : String) (value : Value) (link : Link) : Forest × NodeId :=
  (⟨f.nodes.push { key, value, link }⟩, f.size)

def newNode (f : Forest) (key : String) (value : Value) : Forest × NodeId :=
  f.alloc key value .detached

/-- A new, empty scope that inherits from nothing. -/
def newRoot (f : Forest) : Forest × NodeId := f.alloc "" .unset (.scope none)

end Forest

end LayeredConf
