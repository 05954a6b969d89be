import LayeredConf.Forest.Sorting
import LayeredConf.Forest.Writing
import LayeredConf.Tree.Basic

/-!
# Merging trees

A tree is merged under a node at the tree's own key.  Values are overwritten, also by unset ones;
children that the tree does not have are kept; a node that gains a child is sorted.  The tree is a
view taken before anything is written, so a node can be merged into itself or below itself.
-/

namespace LayeredConf.Forest

/-- The child that a tree goes to, created and sorted in if need be. -/
def place (f : Forest) (n : NodeId) (k : String) : Forest × NodeId :=
  match f.child n k with
  | some c => (f, c)
  | none =>
    let (f, c) := f.addChild n k
    (f.sort n, c)

mutual

/-- Copies a tree under a node and returns the copy's node. -/
def graft (f : Forest) (n : NodeId) : Tree → Forest × NodeId
  | .node k v _ children =>
    let (f, c) := f.place n k
    (graftAll (f.setValue c v) c children, c)

def graftAll (f : Forest) (n : NodeId) : List Tree → Forest
  | [] => f
  | t :: ts => graftAll (f.graft n t).1 n ts

end

def merge (f : Forest) (n source : NodeId) : Forest × NodeId := f.graft n (f.view source)

end LayeredConf.Forest
