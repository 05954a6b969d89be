import LayeredConf.Tree.Json
import LayeredConf.Proofs.Json.Reading

/-!
# The two encodings of a tree agree

The text of a tree is the text of the value that has its children as they come.  A record puts the
indexes first, so reading this text gives the JSON value of the tree.

    ordered t             the JSON value of a tree with the children in their own order
    jsonChars_eq          the text of a tree is the text of that value
    asRead_ordered        which stands for the value of the tree
    read?_jsonChars       reading the text of a tree gives its value
-/

namespace LayeredConf

namespace Json

mutual

/-- The value with one zero for both. -/
def unsignZeros : Json → Json
  | .number x => .number x.unsignZero
  | .array items => .array (unsignZerosItems items)
  | .object fields => .object (unsignZerosFields fields)
  | v => v

def unsignZerosItems : List Json → List Json
  | [] => []
  | v :: vs => unsignZeros v :: unsignZerosItems vs

def unsignZerosFields : List (String × Json) → List (String × Json)
  | [] => []
  | (name, v) :: fs => (name, unsignZeros v) :: unsignZerosFields fs

end

mutual

/-- Are the fields of all objects in it those of a record: distinct names, indexes first and
ascending? -/
def Enumerated : Json → Prop
  | .array items => EnumeratedItems items
  | .object fields =>
    (fields.map (·.1)).Nodup ∧ Record.IndexesFirst (fields.map (·.1)) ∧ EnumeratedFields fields
  | _ => True

def EnumeratedItems : List Json → Prop
  | [] => True
  | v :: vs => Enumerated v ∧ EnumeratedItems vs

def EnumeratedFields : List (String × Json) → Prop
  | [] => True
  | (_, v) :: fs => Enumerated v ∧ EnumeratedFields fs

end

theorem unsignZerosFields_eq (fs : List (String × Json)) :
    unsignZerosFields fs = fs.map fun e => (e.1, e.2.unsignZeros) := by
  induction fs with
  | nil => rfl
  | cons e fs ih => exact congrArg ((e.1, e.2.unsignZeros) :: ·) ih

theorem enumeratedItems_iff {vs : List Json} : EnumeratedItems vs ↔ ∀ v ∈ vs, v.Enumerated := by
  induction vs with
  | nil => simp [EnumeratedItems]
  | cons v vs ih => simp [EnumeratedItems, ih]

theorem enumeratedFields_iff {fs : List (String × Json)} :
    EnumeratedFields fs ↔ ∀ e ∈ fs, e.2.Enumerated := by
  induction fs with
  | nil => simp [EnumeratedFields]
  | cons e fs ih => simp [EnumeratedFields, ih]

end Json

namespace Value

mutual

/-- A value has no number in it that text cannot hold, but for the negative zero. -/
theorem asRead_toJson (v : Value) : v.toJson.asRead = v.toJson.unsignZeros := by
  cases v with
  | number x =>
    rw [toJson, Json.ofNumber]
    split
    · next hx => rw [Json.asRead, if_pos hx, Json.unsignZeros]
    · rfl
  | date t =>
    rw [toJson]
    split <;> rfl
  | list items => exact congrArg Json.array (asReadItems_toJsons items)
  | unset => rfl
  | text s => rfl
  | bool b => rfl
  | duration d => rfl

theorem asReadItems_toJsons (vs : List Value) :
    Json.asReadItems (toJsons vs) = Json.unsignZerosItems (toJsons vs) := by
  cases vs with
  | nil => rfl
  | cons v vs =>
    rw [toJsons, Json.asReadItems, Json.unsignZerosItems, asRead_toJson v, asReadItems_toJsons vs]

end

mutual

theorem enumerated_toJson (v : Value) : v.toJson.Enumerated := by
  cases v with
  | number x =>
    rw [toJson, Json.ofNumber]
    split <;> trivial
  | date t =>
    rw [toJson]
    split <;> trivial
  | list items => exact Json.enumeratedItems_iff.mpr (enumerated_toJsons items)
  | unset => trivial
  | text s => trivial
  | bool b => trivial
  | duration d => trivial

theorem enumerated_toJsons (vs : List Value) : ∀ v ∈ toJsons vs, v.Enumerated := by
  cases vs with
  | nil => simp [toJsons]
  | cons v vs => exact List.forall_mem_cons.mpr ⟨enumerated_toJson v, enumerated_toJsons vs⟩

end

end Value

namespace Tree

mutual

/-- No key below the root is the inherited name. -/
def Assignable : Tree → Prop
  | .node _ _ _ children => AssignableAll children

def AssignableAll : List Tree → Prop
  | [] => True
  | t :: ts => t.key ≠ Record.inheritedName ∧ Assignable t ∧ AssignableAll ts

end

mutual

/-- The JSON value whose objects have the children of a node in their own order. -/
def ordered : Tree → Json
  | .node _ v flags children =>
    match encodingOf flags (keys children) with
    | .leaf => v.toJson
    | .array => .array (orderedItems children)
    | .object => .object ((keys children).zip (orderedItems children))

def orderedItems : List Tree → List Json
  | [] => []
  | t :: ts => ordered t :: orderedItems ts

end

/-! ## The text is that of the ordered value -/

mutual

theorem jsonChars_eq (t : Tree) : t.jsonChars = t.ordered.chars := by
  obtain ⟨k, v, flags, children⟩ := t
  rw [jsonChars, ordered]
  cases encodingOf flags (keys children) with
  | leaf => rfl
  | array => exact congrArg (fun s => '[' :: ([','].intercalate s ++ [']'])) (jsonItems_eq children)
  | object =>
    exact congrArg (fun s => '\x7b' :: ([','].intercalate s ++ ['\x7d'])) (jsonFields_eq children)

theorem jsonItems_eq (ts : List Tree) : jsonItems ts = Json.itemChars (orderedItems ts) := by
  cases ts with
  | nil => rfl
  | cons t ts => rw [jsonItems, orderedItems, Json.itemChars, jsonChars_eq t, jsonItems_eq ts]

theorem jsonFields_eq (ts : List Tree) :
    jsonFields ts = Json.fieldChars ((keys ts).zip (orderedItems ts)) := by
  cases ts with
  | nil => rfl
  | cons t ts =>
    obtain ⟨k, v, flags, children⟩ := t
    rw [jsonFields, jsonChars_eq (.node k v flags children), jsonFields_eq ts]
    rfl

end

/-! ## The ordered value stands for the value -/

theorem keys_ne_of_assignableAll {ts : List Tree} (h : AssignableAll ts) :
    ∀ k ∈ keys ts, k ≠ Record.inheritedName := by
  induction ts with
  | nil => simp [keys]
  | cons t ts ih =>
    intro k hk
    rcases List.mem_cons.mp hk with rfl | hk
    · exact h.1
    · exact ih h.2.2 k hk

theorem ofAssigned_eq {α : Type} {ts : List Tree} (h : AssignableAll ts) (vs : List α) :
    Record.ofAssigned ((keys ts).zip vs) = Record.ofPairs ((keys ts).zip vs) := by
  have hall : ∀ e ∈ (keys ts).zip vs, decide (e.1 ≠ Record.inheritedName) = true := fun e he =>
    decide_eq_true (keys_ne_of_assignableAll h e.1 (List.of_mem_zip he).1)
  rw [Record.ofAssigned, List.filter_eq_self.mpr hall]

mutual

theorem asRead_ordered (t : Tree) (h : t.Assignable) : t.ordered.asRead = t.toJson.unsignZeros := by
  obtain ⟨k, v, flags, children⟩ := t
  rw [ordered, toJson]
  cases encodingOf flags (keys children) with
  | leaf => exact v.asRead_toJson
  | array => exact congrArg Json.array (asReadItems_ordered children h)
  | object =>
    simp only [Json.asRead, Json.unsignZeros, Json.unsignZerosFields_eq, ofAssigned_eq h]
    rw [← Record.ofPairs_map, asReadFields_ordered children h]

theorem asReadItems_ordered (ts : List Tree) (h : AssignableAll ts) :
    Json.asReadItems (orderedItems ts) = Json.unsignZerosItems (toJsons ts) := by
  cases ts with
  | nil => rfl
  | cons t ts =>
    rw [orderedItems, toJsons, Json.asReadItems, Json.unsignZerosItems, asRead_ordered t h.2.1,
      asReadItems_ordered ts h.2.2]

theorem asReadFields_ordered (ts : List Tree) (h : AssignableAll ts) :
    Json.asReadFields ((keys ts).zip (orderedItems ts)) =
      ((keys ts).zip (toJsons ts)).map fun e => (e.1, e.2.unsignZeros) := by
  cases ts with
  | nil => rfl
  | cons t ts =>
    simp only [keys, List.map_cons, orderedItems, toJsons, List.zip_cons_cons, Json.asReadFields,
      asRead_ordered t h.2.1]
    exact congrArg _ (asReadFields_ordered ts h.2.2)

end

/-! ## The value is enumerated -/

mutual

theorem enumerated_toJson (t : Tree) : t.toJson.Enumerated := by
  obtain ⟨k, v, flags, children⟩ := t
  rw [toJson]
  cases encodingOf flags (keys children) with
  | leaf => exact v.enumerated_toJson
  | array => exact Json.enumeratedItems_iff.mpr (enumerated_toJsons children)
  | object =>
    obtain ⟨hnodup, horder⟩ := Record.names_ofPairs
      (((keys children).zip (toJsons children)).filter (·.1 ≠ Record.inheritedName))
    refine ⟨hnodup, horder, Json.enumeratedFields_iff.mpr fun e he => ?_⟩
    have hmem := List.mem_of_mem_filter (Record.mem_of_mem_ofPairs he)
    exact enumerated_toJsons children e.2 (List.of_mem_zip hmem).2

theorem enumerated_toJsons (ts : List Tree) : ∀ v ∈ toJsons ts, v.Enumerated := by
  cases ts with
  | nil => simp [toJsons]
  | cons t ts => exact List.forall_mem_cons.mpr ⟨enumerated_toJson t, enumerated_toJsons ts⟩

end

/-- **The text of a tree reads as its JSON value**, fields in the order of a record. -/
theorem read?_jsonChars (t : Tree) (h : t.Assignable) :
    Json.read? (String.ofList t.jsonChars) = some t.toJson.unsignZeros ∧ t.toJson.Enumerated := by
  refine ⟨?_, enumerated_toJson t⟩
  have hread := Json.read?_print t.ordered
  rwa [Json.print, ← jsonChars_eq, asRead_ordered t h] at hread

/-- An object whose second key is an index, below it an array that a flag forces. -/
def sample : Tree :=
  .node "" .unset 0
    [.node "a\"" (.list [.date .invalid, .number .nan, .text "\n"]) 0 [],
     .node "7" .unset 2 [.node "z" (.number (.zero true)) 0 []]]

/-- The index comes first, and the zero has lost its sign. -/
theorem read?_jsonChars_sample :
    sample.Assignable ∧ Json.read? (String.ofList sample.jsonChars) = some (.object
      [("7", .array [.number (.zero false)]), ("a\"", .array [.null, .null, .text "\n"])]) := by
  have hassignable : sample.Assignable := by
    simp [sample, Assignable, AssignableAll, key, Record.inheritedName]
  have hindex : Record.arrayIndex? "7" = some 7 := by decide +kernel
  have hname : Record.arrayIndex? "a\"" = none := by decide +kernel
  have henum (v w : Json) : Record.ofPairs [("a\"", v), ("7", w)] = [("7", w), ("a\"", v)] := by
    simp [Record.ofPairs, Record.put, Record.enumerate, hindex, hname]
  have hvalue : sample.toJson = .object
      [("7", .array [.number (.zero true)]), ("a\"", .array [.null, .null, .text "\n"])] := by
    have hencoding : encodingOf 0 ["a\"", "7"] = .object := by decide +kernel
    have hassigned (v w : Json) : Record.ofAssigned [("a\"", v), ("7", w)] =
        [("7", w), ("a\"", v)] := by
      rw [← henum]
      rfl
    simp only [sample, toJson, toJsons, keys, key, List.map_cons, List.map_nil, hencoding,
      List.zip_cons_cons, List.zip_nil_right, hassigned]
    rfl
  have hzero : (Number.zero true).unsignZero = .zero false := by
    rw [Number.unsignZero, Number.zero, Number.isZero_finite]
    rfl
  have hread := (read?_jsonChars sample hassignable).1
  rw [hvalue] at hread
  simp only [Json.unsignZeros, Json.unsignZerosFields, Json.unsignZerosItems, hzero] at hread
  exact ⟨hassignable, hread⟩

end Tree

end LayeredConf
