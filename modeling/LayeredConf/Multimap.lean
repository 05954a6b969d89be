import LayeredConf.Json.Basic
import LayeredConf.Value.Kind

/-!
# Multimaps

A multimap has a list of texts for each of its keys and keeps the keys in the order in which they
came.
-/

namespace LayeredConf

structure Multimap where
  entries : List (String × List String) := []
  deriving DecidableEq, Repr, Inhabited

namespace Multimap

def empty : Multimap := {}

def has (m : Multimap) (k : String) : Bool := (m.entries.lookup k).isSome

def keys (m : Multimap) : List String := m.entries.map (·.1)

def size (m : Multimap) : Nat := m.entries.length

/-- All values for a key. -/
def values (m : Multimap) (k : String) : List String := (m.entries.lookup k).getD []

/-- Replaces the values for a key; a new key comes last. -/
def set (m : Multimap) (k : String) (vs : List String) : Multimap := ⟨Record.put m.entries k vs⟩

/-- Adds values to those for a key. -/
def add (m : Multimap) (k : String) (vs : List String) : Multimap := m.set k (m.values k ++ vs)

def ofRecord (fields : Record (List String)) : Multimap :=
  fields.foldl (fun m (k, vs) => m.set k vs) empty

/-- One value for each pair, in the order of the pairs. -/
def ofPairs (pairs : List (String × String)) : Multimap :=
  pairs.foldl (fun m (k, v) => m.add k [v]) empty

/-! ## First values -/

def first (m : Multimap) (k : String) : String := (m.values k).headD ""

def firstInt (m : Multimap) (k : String) : Number := (readInt? (m.first k)).getD (.zero false)

def firstBool (m : Multimap) (k : String) : Bool := readBool? (m.first k) = some true

def toJson (m : Multimap) : Json :=
  .object ((Record.ofPairs m.entries).map fun (k, vs) => (k, .array (vs.map .text)))

end Multimap

end LayeredConf
