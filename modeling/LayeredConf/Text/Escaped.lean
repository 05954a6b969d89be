/-!
# Escaped splitting

A separator with the escape text directly before it does not split, and in the parts the escape is
dropped there.  The escape is looked for only after the last separator seen, so one escape serves
one separator.

A position in a text, like the order of keys, counts sixteen-bit units: a character beyond the basic
plane is a pair of units, the first of which lies below the units `U+E000` to `U+FFFF`.

    units c                        the units of a character
    cutEscaped? sep esc s          the text before and after the first separator that splits
    splitAtMost cuts sep esc s     the parts after at most `cuts` cuts
    join sep esc parts             the text that splits into `parts`
-/

namespace LayeredConf.Text

/-! ## Sixteen-bit units -/

/-- The units of a character: itself, or a surrogate pair. -/
def units (c : Char) : List Nat :=
  let n := c.toNat
  if n < 0x10000 then [n]
  else [0xD800 + (n - 0x10000) / 0x400, 0xDC00 + (n - 0x10000) % 0x400]

def unitLength (s : List Char) : Nat := (s.flatMap units).length

/-- Lexicographic order by units. -/
def unitLess (s t : List Char) : Bool := decide (s.flatMap units < t.flatMap units)

/-! ## Algorithm -/

/-- The text before and after the first occurrence of `sep`. -/
def cut? (sep : List Char) (s : List Char) : Option (List Char × List Char) :=
  if sep.isPrefixOf s then some ([], s.drop sep.length)
  else
    match s with
    | [] => none
    | c :: r => (cut? sep r).map fun (before, after) => (c :: before, after)

/-- A cut loses nothing but the separator. -/
theorem append_of_cut? {sep s before after : List Char} (h : cut? sep s = some (before, after)) :
    before ++ sep ++ after = s := by
  induction s generalizing before after with
  | nil =>
    unfold cut? at h
    split at h
    · next hp =>
      have := List.isPrefixOf_iff_prefix.1 hp
      obtain ⟨t, ht⟩ := this
      simp_all
    · simp at h
  | cons c r ih =>
    unfold cut? at h
    split at h
    · next hp =>
      obtain ⟨t, ht⟩ := List.isPrefixOf_iff_prefix.1 hp
      simp only [Option.some.injEq, Prod.mk.injEq] at h
      obtain ⟨rfl, rfl⟩ := h
      rw [← ht]
      simp
    · simp only [Option.map_eq_some_iff, Prod.exists, Prod.mk.injEq] at h
      obtain ⟨b, a, hb, rfl, rfl⟩ := h
      simp [← ih hb]

/-- The text before and after the first separator without an escape before it. -/
def cutEscaped? (sep esc : List Char) (s : List Char) : Option (List Char × List Char) :=
  match _h : cut? sep s with
  | none => none
  | some (before, after) =>
    if _he : esc ≠ [] ∧ esc.isSuffixOf before then
      (cutEscaped? sep esc after).map fun (more, rest) => (before ++ sep ++ more, rest)
    else some (before, after)
termination_by s.length
decreasing_by
  have hs := append_of_cut? _h
  obtain ⟨t, ht⟩ := List.isSuffixOf_iff_suffix.1 _he.2
  have : 0 < esc.length := List.length_pos_iff.2 _he.1
  rw [← hs, ← ht]
  simp
  omega

/-- The position, in units, of the first separator that splits, or -1. -/
def splitPosition (sep esc s : List Char) : Int :=
  match cutEscaped? sep esc s with
  | some (before, _) => unitLength before
  | none => -1

/-- Every occurrence of `old`, from the left, becomes `new`. -/
def replaceAll (old new : List Char) (s : List Char) : List Char :=
  if _ho : old = [] then s
  else
    match _h : cut? old s with
    | none => s
    | some (before, after) => before ++ new ++ replaceAll old new after
termination_by s.length
decreasing_by
  have hs := append_of_cut? _h
  have : 0 < old.length := List.length_pos_iff.2 _ho
  rw [← hs]
  simp
  omega

def unescape (sep esc s : List Char) : List Char :=
  if esc = [] then s else replaceAll (esc ++ sep) sep s

/-- The parts after at most `cuts` cuts; nothing is cut from an empty rest. -/
def splitAtMost (sep esc : List Char) : Nat → List Char → List (List Char)
  | 0, s => [unescape sep esc s]
  | cuts + 1, s =>
    if s = [] then [unescape sep esc s]
    else
      match cutEscaped? sep esc s with
      | none => [unescape sep esc s]
      | some (before, after) => unescape sep esc before :: splitAtMost sep esc cuts after

/-- All parts: a text has no more cuts than characters. -/
def split (sep esc s : List Char) : List (List Char) := splitAtMost sep esc s.length s

/-- At most `n` parts; -1 asks for all of them. -/
def splitN (sep esc s : List Char) (n : Int) : List (List Char) :=
  if n = -1 then split sep esc s
  else if n = 0 then []
  else splitAtMost sep esc (n.toNat - 1) s

/-- Each part with its separators escaped, joined by the separator. -/
def join (sep esc : List Char) (parts : List (List Char)) : List Char :=
  sep.intercalate (parts.map (replaceAll sep (esc ++ sep)))

end LayeredConf.Text
