/-!
# Quoted text

JSON text in double quotes.  Writing escapes the quote, the backslash and the control characters;
reading takes every escape there is.

    quote s              `s` in quotes
    readQuoted? r        the text up to the closing quote, and what follows it
-/

namespace LayeredConf.Json

/-! ## Writing -/

/-- Four hexadecimal digits. -/
def hexDigits (n : Nat) : List Char :=
  [n / 4096 % 16, n / 256 % 16, n / 16 % 16, n % 16].map Nat.digitChar

def quoteChar (c : Char) : List Char :=
  match c with
  | '"' => ['\\', '"']
  | '\\' => ['\\', '\\']
  | '\n' => ['\\', 'n']
  | '\r' => ['\\', 'r']
  | '\t' => ['\\', 't']
  | '\x08' => ['\\', 'b']
  | '\x0c' => ['\\', 'f']
  | c => if c.toNat < 0x20 then '\\' :: 'u' :: hexDigits c.toNat else [c]

def quoteChars (s : List Char) : List Char := '"' :: (s.flatMap quoteChar ++ ['"'])

def quote (s : String) : String := String.ofList (quoteChars s.toList)

/-! ## Reading -/

def hexValue? (c : Char) : Option Nat :=
  if c.isDigit then some (c.toNat - '0'.toNat)
  else if 'a' ≤ c ∧ c ≤ 'f' then some (c.toNat - 'a'.toNat + 10)
  else if 'A' ≤ c ∧ c ≤ 'F' then some (c.toNat - 'A'.toNat + 10)
  else none

/-- A unit written as four hexadecimal digits. -/
def unit? (a b c d : Char) : Option Nat := do
  pure ((((← hexValue? a) * 16 + (← hexValue? b)) * 16 + (← hexValue? c)) * 16 + (← hexValue? d))

/-- The character of an escape letter. -/
def escapeChar? : Char → Option Char
  | '"' => some '"'
  | '\\' => some '\\'
  | '/' => some '/'
  | 'b' => some '\x08'
  | 'f' => some '\x0c'
  | 'n' => some '\n'
  | 'r' => some '\r'
  | 't' => some '\t'
  | _ => none

/-- The character of a pair of units, if they are the two halves of one. -/
def pairChar? (high low : Nat) : Option Char :=
  if 0xD800 ≤ high ∧ high < 0xDC00 ∧ 0xDC00 ≤ low ∧ low < 0xE000 then
    some (Char.ofNat (0x10000 + (high - 0xD800) * 0x400 + (low - 0xDC00)))
  else none

/-- The character of a single unit; half of a pair stands for no character. -/
def unitChar (n : Nat) : Char := if 0xD800 ≤ n ∧ n < 0xE000 then '\uFFFD' else Char.ofNat n

/-- A text without its opening quote: what it holds up to the closing quote, and the rest.  Control
characters have to be escaped. -/
def readQuoted? : List Char → Option (List Char × List Char)
  | [] => none
  | '"' :: r => some ([], r)
  | '\\' :: 'u' :: a :: b :: c :: d :: '\\' :: 'u' :: e :: f :: g :: h :: r =>
    match unit? a b c d, unit? e f g h with
    | some high, some low =>
      match pairChar? high low with
      | some p => (readQuoted? r).map fun (s, r) => (p :: s, r)
      | none =>
        (readQuoted? ('\\' :: 'u' :: e :: f :: g :: h :: r)).map fun (s, r) =>
          (unitChar high :: s, r)
    | _, _ => none
  | '\\' :: 'u' :: a :: b :: c :: d :: r =>
    match unit? a b c d with
    | some n => (readQuoted? r).map fun (s, r) => (unitChar n :: s, r)
    | none => none
  | '\\' :: c :: r =>
    match escapeChar? c with
    | some e => (readQuoted? r).map fun (s, r) => (e :: s, r)
    | none => none
  | ['\\'] => none
  | c :: r =>
    if c.toNat < 0x20 then none else (readQuoted? r).map fun (s, r) => (c :: s, r)

end LayeredConf.Json
