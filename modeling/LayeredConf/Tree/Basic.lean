import LayeredConf.Forest.Basic
import LayeredConf.Forest.Sorting

/-!
# Trees

What a node holds, with all that lies below it: the view of a forest that printing and copying work
on.

    Forest.view f n        the tree at the node `n`
-/

namespace LayeredConf

inductive Tree where
  | node (key : String) (value : Value) (flags : Int) (children : List Tree)

namespace Tree

instance : Inhabited Tree := ⟨.node "" .unset 0 []⟩

def key : Tree → String
  | .node k _ _ _ => k

def value : Tree → Value
  | .node _ v _ _ => v

def flags : Tree → Int
  | .node _ _ b _ => b

def children : Tree → List Tree
  | .node _ _ _ cs => cs

/-- The first bit: written as an object even if all keys are integers. -/
def forcesMap (flags : Int) : Bool := flags % 2 = 1

/-- The second bit: written as an array whatever the keys are. -/
def forcesArray (flags : Int) : Bool := flags / 2 % 2 = 1

end Tree

namespace Forest

/-- The tree at a node down to the given depth. -/
def viewDown (f : Forest) : Nat → NodeId → Tree
  | 0, n => .node (f.key n) (f.value n) (f.node n).flags []
  | depth + 1, n =>
    .node (f.key n) (f.value n) (f.node n).flags ((f.childIds n).map (viewDown f depth))

/-- No node lies deeper than the forest has nodes. -/
def view (f : Forest) (n : NodeId) : Tree := f.viewDown f.size n

end Forest

end LayeredConf
