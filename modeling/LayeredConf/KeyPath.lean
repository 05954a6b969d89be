import LayeredConf.Number.Decimal

/-!
# Key paths

A node is reached by a path of keys.  A caller gives a path in parts; each part is split at its
dots, so a path has at least as many keys as parts.
-/

namespace LayeredConf

/-- The key that matches every child. -/
def wildcard : String := "*"

/-- A piece of a path as callers write it. -/
inductive PathPart where
  | text (s : String)
  | number (x : Number)
  | bool (b : Bool)
  deriving DecidableEq

def PathPart.chars : PathPart → List Char
  | .text s => s.toList
  | .number x => x.chars
  | .bool true => "true".toList
  | .bool false => "false".toList

/-- The keys of a dotted text. -/
def keysOf (s : List Char) : List String := (s.splitOn '.').map String.ofList

def dottedKeys (s : String) : List String := keysOf s.toList

def keyPath (parts : List PathPart) : List String := parts.flatMap fun p => keysOf p.chars

def endsInWildcard (path : List String) : Bool := path.getLast? = some wildcard

def dotted (path : List String) : String := ".".intercalate path

theorem keysOf_ne_nil (s : List Char) : keysOf s ≠ [] :=
  mt List.map_eq_nil_iff.mp (List.splitOn_ne_nil '.' s)

/-- A text without dots is one key. -/
theorem keysOf_eq_singleton {s : List Char} (h : '.' ∉ s) : keysOf s = [String.ofList s] := by
  have hsplit := List.splitOn_intercalate '.' (List.forall_mem_singleton.mpr h)
    (List.cons_ne_nil s [])
  rw [List.intercalate_singleton] at hsplit
  rw [keysOf, hsplit, List.map_singleton]

theorem dottedKeys_eq_singleton {k : String} (h : '.' ∉ k.toList) : dottedKeys k = [k] := by
  rw [dottedKeys, keysOf_eq_singleton h, String.ofList_toList]

/-- Numbers have keys of their own. -/
theorem eq_of_toString_eq {i j : Nat} (h : toString i = toString j) : i = j := by
  have hdigits : Nat.toDigits 10 i = Nat.toDigits 10 j := by
    rw [← Nat.toList_repr, ← Nat.toList_repr]
    exact congrArg String.toList h
  rw [← Nat.ofDigitChars_ten_toDigits (n := i), hdigits, Nat.ofDigitChars_ten_toDigits]

theorem keyPath_ne_nil {parts : List PathPart} (h : parts ≠ []) : keyPath parts ≠ [] := by
  cases parts with
  | nil => exact absurd rfl h
  | cons part parts =>
    rw [keyPath, List.flatMap_cons]
    exact List.append_ne_nil_of_left_ne_nil (keysOf_ne_nil _) _

end LayeredConf
