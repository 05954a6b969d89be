import LayeredConf.Failure
import LayeredConf.Forest.Basic

/-!
# Moving nodes

A node is a child of at most one node, under its own key, and no node lies below itself: `release`
takes a child away from its parent, `insertChild` gives a node a new parent, and `attach` refuses to
put a node below itself.

    release f p k          `p` without its child under `k`, which is detached with all below it
    insertChild f p c      `c` becomes the last child of `p`, in place of a child with its key
    attach f p c           `insertChild`, unless `c` is `p` or above it
-/

namespace LayeredConf.Forest

/-- Takes the child under a key away from its parent, intact. -/
def release (f : Forest) (p : NodeId) (k : String) : Forest :=
  match f.child p k with
  | none => f
  | some c =>
    (f.modifyChildren p (·.erase k)).modify c ({ · with link := .detached })

/-- Takes the node away from its parent, if it has one. -/
def detach (f : Forest) (n : NodeId) : Forest :=
  match f.parent? n with
  | some p => f.release p (f.key n)
  | none => f

/-- Makes `c` the last child of `p`: it leaves its parent, and a child of `p` with its key is
released. -/
def insertChild (f : Forest) (p c : NodeId) : Forest :=
  let k := f.key c
  let f := (f.detach c).release p k
  (f.modifyChildren p (·.insert k c)).modify c ({ · with link := .child p })

def attach (f : Forest) (p c : NodeId) : Except Failure Forest :=
  if c ∈ f.lineage p then .error (.ownSubtree (f.key c)) else .ok (f.insertChild p c)

/-- Changes the key of a child, which becomes the last child of its parent; any other node keeps
its key. -/
def rekey (f : Forest) (n : NodeId) (k : String) : Forest :=
  match f.parent? n with
  | some p => ((f.release p (f.key n)).modify n ({ · with key := k })).insertChild p n
  | none => f

/-- The node that a path of children leads to. -/
def walk (f : Forest) (n : NodeId) : List String → Option NodeId
  | [] => some n
  | k :: ks =>
    match f.child n k with
    | some c => walk f c ks
    | none => none

/-- Releases the node at a path and returns it, if there is one. -/
def erase (f : Forest) (n : NodeId) (path : List String) : Forest × Option NodeId :=
  match path.getLast? with
  | none => (f, none)
  | some k =>
    match f.walk n path.dropLast with
    | none => (f, none)
    | some owner => (f.release owner k, f.child owner k)

end LayeredConf.Forest
