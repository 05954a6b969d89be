import LayeredConf.Forest.Basic

/-!
# Looking up nodes

A path is matched below a node first and then, scope by scope, in the trees that the node's tree
inherits from; nearer scopes come first.  In one scope `*` matches every child in order, and any
other key matches the child under that key and then a child under the key `*`.  A path from below
the root of its scope is matched further out as a path from the root.

    matchBelow f limit path n found    adds the matches below `n` until `limit` is reached
    findAll f n path limit             all matches, or as many as the limit asks for
    find? f n path                     the first match
-/

namespace LayeredConf.Forest

/-- Has a search found all that it may?  No search is full when there is no limit, which is written
0. -/
def isFull (limit : Nat) (found : List NodeId) : Bool := 0 < limit && limit ≤ found.length

/-- The matches of a path below a node come after those found so far.  A full search stops. -/
def matchBelow (f : Forest) (limit : Nat) : List String → NodeId → List NodeId → List NodeId
  | [], n, found => found ++ [n]
  | k :: ks, n, found =>
    let follow (found : List NodeId) (c : NodeId) : List NodeId :=
      if isFull limit found then found else matchBelow f limit ks c found
    if k = wildcard then (f.childIds n).foldl follow found
    else
      let found := ((f.child n k).map (follow found)).getD found
      ((f.child n wildcard).map (follow found)).getD found

/-- The path to match in the scope outside of the scope of `n`. -/
def outerPath (f : Forest) (n : NodeId) (path : List String) : List String :=
  if f.isScope n then path else f.path n ++ path

/-- The root of the tree that the node's tree inherits from. -/
def outer? (f : Forest) (n : NodeId) : Option NodeId := f.inherited? (f.root n)

/-- Matches in the scope of `n` and in up to `scopes` scopes outside of it. -/
def matchScopes (f : Forest) (limit : Nat) :
    Nat → NodeId → List String → List NodeId → List NodeId
  | 0, n, path, found => f.matchBelow limit path n found
  | scopes + 1, n, path, found =>
    let found := f.matchBelow limit path n found
    if isFull limit found then found
    else
      match f.outer? n with
      | none => found
      | some outer => matchScopes f limit scopes outer (f.outerPath n path) found

/-- Scopes to search at most.  A chain of scopes that ends has no more scopes than there are nodes;
in one that leads back into itself, more rounds than there are nodes and results asked for find
nothing new. -/
def scopeBound (f : Forest) (limit : Nat) : Nat := (f.size + 1) * (f.size + 1 + limit)

/-- The nodes at a path, nearest scope first; the empty path is the node itself. -/
def findAll (f : Forest) (n : Option NodeId) (path : List String) (limit : Nat) : List NodeId :=
  match n with
  | none => []
  | some n => if path = [] then [n] else f.matchScopes limit (f.scopeBound limit) n path []

def find? (f : Forest) (n : Option NodeId) (path : List String) : Option NodeId :=
  (f.findAll n path 1).head?

end LayeredConf.Forest
