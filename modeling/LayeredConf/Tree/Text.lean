import LayeredConf.Tree.Basic

/-!
# Trees as text

A tree in one line, `{a={b=1},c=2}`, or in one line `path=value` for each leaf.  The value of the
top node shows in neither form unless it is a leaf, and in the short form not even then.

    brief t            the short form
    listing path t     the long form of the tree of a node at a path
-/

namespace LayeredConf.Tree

mutual

/-- A node below the top: its key, its value and its children in braces. -/
def briefNode : Tree → String
  | .node k v _ [] => k ++ "=" ++ v.asText
  | .node k v _ (c :: cs) =>
    k ++ "=" ++ v.asText ++ "\x7b" ++ ",".intercalate (briefNodes (c :: cs)) ++ "\x7d"

def briefNodes : List Tree → List String
  | [] => []
  | t :: ts => briefNode t :: briefNodes ts

end

/-- The short form. -/
def brief (t : Tree) : String := "\x7b" ++ ",".intercalate (briefNodes t.children) ++ "\x7d"

mutual

/-- The lines of the leaves, for a node at a path. -/
def leafLines (path : List String) : Tree → List String
  | .node _ v _ [] => [dotted path ++ "=" ++ v.asText ++ "\n"]
  | .node _ _ _ (c :: cs) => childLines path (c :: cs)

def childLines (path : List String) : List Tree → List String
  | [] => []
  | .node k v b cs :: ts =>
    leafLines (if k = "" then path else path ++ [k]) (.node k v b cs) ++ childLines path ts

end

/-- The long form of the tree of a node at a path. -/
def listing (path : List String) (t : Tree) : String := String.join (leafLines path t)

end LayeredConf.Tree

namespace LayeredConf.Forest

def brief (f : Forest) (n : NodeId) : String := (f.view n).brief

/-- Paths start at the root of the node's tree. -/
def listing (f : Forest) (n : NodeId) : String := (f.view n).listing (f.path n)

end LayeredConf.Forest
