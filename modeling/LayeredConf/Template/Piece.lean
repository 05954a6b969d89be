import LayeredConf.Template.Token
import LayeredConf.Text.Escaped

/-!
# Pieces of a template

A template is plain text with expressions between `$` and a brace, and a closing brace.  A brace
inside quotes does not close; an expression that nothing closes is plain text with all that follows.

    pieces s         the pieces of a template
    source p         the text that a piece was read from
-/

namespace LayeredConf.Template

inductive Piece where
  | text (s : List Char)
  | expr (body : List Char)
  deriving DecidableEq, Repr

def opening : List Char := ['$', '\x7b']

def Piece.source : Piece → List Char
  | .text s => s
  | .expr body => opening ++ body ++ ['\x7d']

/-- The text up to the closing brace and what follows it; `quote` is the quote that is open. -/
def takeBody? (quote : Option Char) : List Char → Option (List Char × List Char)
  | [] => none
  | c :: r =>
    match quote with
    | some q =>
      if c = '\\' then
        match r with
        | [] => none
        | d :: r => (takeBody? quote r).map fun (s, rest) => (c :: d :: s, rest)
      else
        (takeBody? (if c = q then none else quote) r).map fun (s, rest) => (c :: s, rest)
    | none =>
      if isQuote c then (takeBody? (some c) r).map fun (s, rest) => (c :: s, rest)
      else if c = '\x7d' then some ([], r)
      else (takeBody? none r).map fun (s, rest) => (c :: s, rest)

/-- Nothing but the closing brace is lost. -/
theorem append_of_takeBody? {quote : Option Char} {s body rest : List Char}
    (h : takeBody? quote s = some (body, rest)) : body ++ '\x7d' :: rest = s := by
  fun_induction takeBody? quote s generalizing body rest
  case case1 | case2 => simp at h
  case case6 => simp_all
  case case3 ih | case4 ih | case5 ih | case7 ih =>
    -- the body is that of the tail with what was read in front
    simp only [Option.map_eq_some_iff, Prod.exists, Prod.mk.injEq] at h
    obtain ⟨b, t, hb, rfl, rfl⟩ := h
    simp [ih hb]

/-- A piece of plain text, unless it is empty. -/
def textPiece (s : List Char) : List Piece := if s = [] then [] else [.text s]

def pieces (s : List Char) : List Piece :=
  match _h : Text.cut? opening s with
  | none => textPiece s
  | some (before, after) =>
    match _hb : takeBody? none after with
    | none => textPiece s
    | some (body, rest) => textPiece before ++ .expr body :: pieces rest
termination_by s.length
decreasing_by
  have hs := Text.append_of_cut? _h
  have hr := append_of_takeBody? _hb
  rw [← hs, ← hr]
  simp
  omega

end LayeredConf.Template
