import LayeredConf.Number.Decimal
import LayeredConf.Text.Blank

/-!
# Tokens of template expressions

A token is a quoted text, an identifier, a number, or any other single character that is not blank.
Quotes are single or double, and a backslash in them stands for the character behind it; quotes that
do not close reach to the end.

    tokens s        the tokens of an expression's text
-/

namespace LayeredConf.Template

inductive Token where
  | quoted (s : List Char)
  /-- An identifier, a number or a character by itself. -/
  | plain (s : List Char)
  deriving DecidableEq, Repr

def isQuote (c : Char) : Bool := c = '"' || c = '\''

def isIdentStart (c : Char) : Bool := c.isAlpha || c = '_'

def isIdentChar (c : Char) : Bool := c.isAlphanum || c = '_' || c = '-'

/-- The text up to the closing quote, and the rest. -/
def takeQuoted (quote : Char) : List Char → List Char × List Char
  | [] => ([], [])
  | '\\' :: c :: r =>
    let (s, rest) := takeQuoted quote r
    (c :: s, rest)
  | c :: r =>
    if c = quote then ([], r)
    else
      let (s, rest) := takeQuoted quote r
      (c :: s, rest)

/-- A point and the digits behind it, if there are digits. -/
def takePoint : List Char → List Char × List Char
  | '.' :: r =>
    let (ds, rest) := Decimal.takeDigits r
    if ds = [] then ([], '.' :: r) else ('.' :: ds, rest)
  | s => ([], s)

def takeMinus : List Char → List Char × List Char
  | '-' :: r => (['-'], r)
  | s => ([], s)

/-- A number: a minus sign that may be absent, digits, and a point with digits that may be absent.
Nothing if there are no digits. -/
def takeNumber (s : List Char) : List Char × List Char :=
  let (sign, r) := takeMinus s
  let (ds, r) := Decimal.takeDigits r
  if ds = [] then ([], s)
  else
    let (part, rest) := takePoint r
    (sign ++ ds ++ part, rest)

/-- A token by itself.  A character beyond the basic plane counts as the two halves of its pair of
units. -/
def single (c : Char) : List Token :=
  if c.toNat < 0x10000 then [.plain [c]] else [.plain ['\uFFFD'], .plain ['\uFFFD']]

/-- The tokens that the text `c :: r` begins with, and the rest. -/
def nextTokens (c : Char) (r : List Char) : List Token × List Char :=
  if Text.isBlank c then ([], r)
  else if isQuote c then
    let (s, rest) := takeQuoted c r
    ([.quoted s], rest)
  else if isIdentStart c then
    ([.plain (c :: r.takeWhile isIdentChar)], r.dropWhile isIdentChar)
  else
    match takeNumber (c :: r) with
    | ([], _) => (single c, r)
    | (number, rest) => ([.plain number], rest)

/-! ## The rest is shorter -/

theorem length_takeQuoted (quote : Char) (s : List Char) :
    (takeQuoted quote s).2.length ≤ s.length := by
  fun_induction takeQuoted quote s <;> simp_all <;> omega

theorem takeDigits_append (s : List Char) :
    (Decimal.takeDigits s).1 ++ (Decimal.takeDigits s).2 = s := by
  simp [Decimal.takeDigits]

theorem takePoint_append (s : List Char) : (takePoint s).1 ++ (takePoint s).2 = s := by
  unfold takePoint
  split
  · next r =>
    have h := takeDigits_append r
    dsimp only
    split
    · simp
    · simp [h]
  · simp

theorem takeMinus_append (s : List Char) : (takeMinus s).1 ++ (takeMinus s).2 = s := by
  unfold takeMinus
  split <;> simp

theorem takeNumber_append (s : List Char) : (takeNumber s).1 ++ (takeNumber s).2 = s := by
  have hm := takeMinus_append s
  have hd := takeDigits_append (takeMinus s).2
  have hp := takePoint_append (Decimal.takeDigits (takeMinus s).2).2
  unfold takeNumber
  dsimp only
  split
  · simp
  · simp [hp, hd, hm]

theorem length_nextTokens (c : Char) (r : List Char) : (nextTokens c r).2.length ≤ r.length := by
  unfold nextTokens
  split
  · simp
  · split
    · exact length_takeQuoted c r
    · split
      · exact (List.dropWhile_suffix isIdentChar).length_le
      · have h := takeNumber_append (c :: r)
        split
        · simp
        · next number rest hne heq =>
          rw [heq] at h
          have hl := congrArg List.length h
          have : number ≠ [] := hne
          have := List.length_pos_iff.2 this
          simp at hl
          simp
          omega

/-! ## Algorithm -/

def tokens : List Char → List Token
  | [] => []
  | c :: r => (nextTokens c r).1 ++ tokens (nextTokens c r).2
termination_by s => s.length
decreasing_by
  have := length_nextTokens c r
  simp
  omega

end LayeredConf.Template
