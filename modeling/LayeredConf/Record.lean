/-!
# Records

A record is a list of fields with distinct names in enumeration order: first the names that are
array indexes, ascending, then the others in the order in which they were first given.  A name given
again keeps its place and takes the new value.

    ofPairs fields       the record of a list of fields
    ofAssigned fields    the same by assignment, which sets no field for the inherited name
-/

namespace LayeredConf

abbrev Record (α : Type) := List (String × α)

namespace Record

/-- The number a name stands for as an array index: canonical decimal, below `2^32 - 1`. -/
def arrayIndex? (name : String) : Option Nat :=
  let ds := name.toList
  let n := Nat.ofDigitChars 10 ds 0
  if ds ≠ [] ∧ ds.all Char.isDigit ∧ ds = Nat.toDigits 10 n ∧ n < 4294967295 then some n else none

/-- Sets a field: a present name keeps its place, a new one comes last. -/
def put {α : Type} (fields : List (String × α)) (name : String) (value : α) : List (String × α) :=
  match fields with
  | [] => [(name, value)]
  | (n, v) :: rest => if n = name then (n, value) :: rest else (n, v) :: put rest name value

/-- Array indexes first, ascending; the others as they come. -/
def enumerate {α : Type} (fields : List (String × α)) : Record α :=
  let indexed := fields.filterMap fun (name, value) => (arrayIndex? name).map (·, name, value)
  (indexed.mergeSort fun a b => a.1 ≤ b.1).map (·.2) ++
    fields.filter fun (name, _) => (arrayIndex? name).isNone

def ofPairs {α : Type} (fields : List (String × α)) : Record α :=
  enumerate (fields.foldl (fun r (name, value) => put r name value) [])

/-- The name of what a record inherits from, which is no field that can be assigned. -/
def inheritedName : String := "__proto__"

/-- The record that is assigned field by field. -/
def ofAssigned {α : Type} (fields : List (String × α)) : Record α :=
  ofPairs (fields.filter (·.1 ≠ inheritedName))

end Record

end LayeredConf
