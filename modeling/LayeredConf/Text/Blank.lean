/-!
# Blanks and line ends

Which characters count as white space around keys, values and template expressions, and which of
them end a line.
-/

namespace LayeredConf.Text

/-- White space: the ASCII blanks, the Unicode space separators, the two Unicode line ends and the
byte order mark. -/
def isBlank (c : Char) : Bool :=
  let n := c.toNat
  (9 ≤ n && n ≤ 13) || n = 32 || n = 0xA0 || n = 0x1680 || (0x2000 ≤ n && n ≤ 0x200A) ||
    n = 0x2028 || n = 0x2029 || n = 0x202F || n = 0x205F || n = 0x3000 || n = 0xFEFF

/-- A character that a value never spans. -/
def isLineEnd (c : Char) : Bool :=
  c = '\n' || c = '\r' || c = '\u2028' || c = '\u2029'

def trimLeft (s : List Char) : List Char := s.dropWhile isBlank

def trimRight (s : List Char) : List Char := (s.reverse.dropWhile isBlank).reverse

def trim (s : List Char) : List Char := trimRight (trimLeft s)

/-- Every run of blanks becomes one space. -/
def collapse : List Char → List Char
  | [] => []
  | c :: r =>
    if isBlank c then
      match r with
      | d :: _ => if isBlank d then collapse r else ' ' :: collapse r
      | [] => [' ']
    else c :: collapse r

/-- The lines of a text; a line ends at a line feed, with or without a carriage return before it.
The text after the last line end is a line too, and keeps its carriage return. -/
def lines : List Char → List (List Char)
  | [] => [[]]
  | '\n' :: r => [] :: lines r
  | '\r' :: '\n' :: r => [] :: lines r
  | c :: r =>
    match lines r with
    | l :: ls => (c :: l) :: ls
    | [] => [[c]]

end LayeredConf.Text
