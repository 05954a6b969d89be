import LayeredConf.Forest.Basic
import LayeredConf.Text.Escaped

/-!
# The order of children

Children are ordered by number when all their keys are integers of 64 bits, and by sixteen-bit units
otherwise.  Keys that are equal as numbers keep their order.  Only the order of a node's children is
sorted; their map is not touched.
-/

namespace LayeredConf

/-- The number of a key of digits with an optional sign, within 64 bits. -/
def keyNumber? (k : String) : Option Int :=
  match Decimal.readInteger? k.toList with
  | some (negative, n) =>
    let n : Int := if negative then -n else n
    if -9223372036854775808 ≤ n ∧ n ≤ 9223372036854775807 then some n else none
  | none => none

def onlyIntegerKeys (keys : List String) : Bool := keys.all fun k => (keyNumber? k).isSome

/-- May the key `a` stand before the key `b` among these keys? -/
def keyOrder (keys : List String) (a b : String) : Bool :=
  if onlyIntegerKeys keys then decide ((keyNumber? a).getD 0 ≤ (keyNumber? b).getD 0)
  else !Text.unitLess b.toList a.toList

def sortKeys (keys : List String) : List String := keys.mergeSort (keyOrder keys)

def Children.sort (c : Children) : Children := { c with childOrder := sortKeys c.childOrder }

namespace Forest

def sort (f : Forest) (n : NodeId) : Forest := f.modifyChildren n Children.sort

/-- Sorts the children of a node and of all nodes below it, down to the given depth.  Below a node
the children are taken as the map has them. -/
def sortDown : Nat → Forest → NodeId → Forest
  | 0, f, n => f.sort n
  | depth + 1, f, n =>
    let f := f.sort n
    ((f.children n).childMap.map (·.2)).foldl
      (fun f c => if f.isLeaf c then f else sortDown depth f c) f

/-- No node lies deeper than the forest has nodes. -/
def sortAll (f : Forest) (n : NodeId) : Forest := sortDown f.size f n

end Forest

end LayeredConf
