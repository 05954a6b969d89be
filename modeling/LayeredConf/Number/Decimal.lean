import LayeredConf.Number.Basic

/-!
# Decimal text of numbers

A number is written with the fewest digits that read back as it; of two such texts of equal length
the nearer one, and of two equally near ones the even one.  `shortest` tries ever finer decimal
grids, on each of them the two neighbours of the exact value, and takes a neighbour only if it reads
back, so that what is written is always read back.

    Decimal.read?     signed decimal text, with a point and an exponent
    Number.chars      the text of a number
-/

namespace LayeredConf

/-- The decimal `digits · 10^exponent`. -/
structure Decimal where
  digits : Nat
  exponent : Int
  deriving DecidableEq, Repr

namespace Decimal

/-- The double nearest to a decimal.  A decimal of `d` digits lies below `10^(d + exponent)`, so an
exponent far outside the range of doubles decides without the power of ten. -/
def toNumber (negative : Bool) (d : Decimal) : Number :=
  if d.digits = 0 then .zero negative
  else if 400 < d.exponent then .infinite negative
  else if d.exponent < -(401 + (d.digits.log2 : Int)) then .zero negative
  else .round negative (d.digits * (10 : Rat) ^ d.exponent)

/-! ## Reading -/

/-- The leading digits of a text and the rest. -/
def takeDigits (s : List Char) : List Char × List Char :=
  (s.takeWhile Char.isDigit, s.dropWhile Char.isDigit)

def digitsValue (ds : List Char) : Nat := Nat.ofDigitChars 10 ds 0

/-- A sign that may be absent: is it negative, and the rest. -/
def takeSign : List Char → Bool × List Char
  | '+' :: r => (false, r)
  | '-' :: r => (true, r)
  | s => (false, s)

/-- Digits with an optional sign, up to the end of the text: is it negative, and the magnitude. -/
def readInteger? (s : List Char) : Option (Bool × Nat) :=
  let (negative, ds) := takeSign s
  if ds ≠ [] ∧ ds.all Char.isDigit then some (negative, digitsValue ds) else none

/-- A point, if there is one, must have digits behind it: they and the rest. -/
def takeFraction? : List Char → Option (List Char × List Char)
  | '.' :: r =>
    let (ds, rest) := takeDigits r
    if ds = [] then none else some (ds, rest)
  | s => some ([], s)

/-- An exponent, if there is one, must have digits: its value and the rest.  Without one it is 0. -/
def takeExponent? : List Char → Option (Int × List Char)
  | c :: r =>
    if c = 'e' ∨ c = 'E' then
      let (negative, r) := takeSign r
      let (ds, rest) := takeDigits r
      if ds = [] then none
      else some (if negative then -(digitsValue ds : Int) else digitsValue ds, rest)
    else some (0, c :: r)
  | [] => some (0, [])

/-- Digits with an optional point, at least one digit in all, then an optional exponent. -/
def readUnsigned? (s : List Char) : Option Decimal :=
  let (whole, r) := takeDigits s
  let (part, r) := match r with
    | '.' :: r => takeDigits r
    | r => ([], r)
  if whole = [] ∧ part = [] then none
  else
    match takeExponent? r with
    | some (e, []) => some ⟨digitsValue (whole ++ part), e - part.length⟩
    | _ => none

/-- A decimal number with an optional sign, such as `-12`, `+.5`, `1.` or `2e-3`. -/
def read? (s : List Char) : Option Number :=
  let (negative, r) := takeSign s
  (readUnsigned? r).map (toNumber negative)

/-! ## Writing -/

/-- Of the two neighbours of `q` on the grid `10^exponent`, the one to write for `x`, if any. -/
def neighbour? (x : Number) (q : Rat) (exponent : Int) : Option Decimal :=
  let low := (q / (10 : Rat) ^ exponent).floor.toNat
  let below : Decimal := ⟨low, exponent⟩
  let above : Decimal := ⟨low + 1, exponent⟩
  match decide (below.toNumber x.isNegative = x), decide (above.toNumber x.isNegative = x) with
  | true, true =>
    let rest := q / (10 : Rat) ^ exponent - low
    some (if rest < 1 / 2 ∨ rest = 1 / 2 ∧ low % 2 = 0 then below else above)
  | true, false => some below
  | false, true => some above
  | false, false => none

/-- The first grid at or below `exponent` with a neighbour that reads back. -/
def shortestFrom? (x : Number) (q : Rat) : Nat → Int → Option Decimal
  | 0, _ => none
  | grids + 1, exponent =>
    match neighbour? x q exponent with
    | some d => some d
    | none => shortestFrom? x q grids (exponent - 1)

/-- All digits of the exact value; every double has such a decimal. -/
def exact (mantissa : Nat) (exponent : Int) : Decimal :=
  if 0 ≤ exponent then ⟨mantissa * Nat.pow 2 exponent.toNat, 0⟩
  else ⟨mantissa * Nat.pow 5 (-exponent).toNat, exponent⟩

/-- The digits to write for a finite number other than zero.  `30103 / 100000` is just above the
decimal logarithm of 2, so the first grid is no finer than the number's leading digit. -/
def shortest (x : Number) (mantissa : Nat) (exponent : Int) : Decimal :=
  let q := Number.scaled mantissa exponent
  let start := (Number.binaryExponent q + 1) * 30103 / 100000 + 2
  (shortestFrom? x q 24 start).getD (exact mantissa exponent)

/-- Numbers from `10^-6` up to below `10^21` are written positionally, the others with an exponent
after the first digit. -/
def layout (d : Decimal) : List Char :=
  let ds := Nat.toDigits 10 d.digits
  let point : Int := ds.length + d.exponent
  if 0 < point ∧ point ≤ 21 then
    let whole := ds.take point.toNat ++ List.replicate (point.toNat - ds.length) '0'
    match ds.drop point.toNat with
    | [] => whole
    | part => whole ++ '.' :: part
  else if -6 < point ∧ point ≤ 0 then
    '0' :: '.' :: (List.replicate (-point).toNat '0' ++ ds)
  else
    let e := point - 1
    let tail := 'e' :: (if e < 0 then '-' else '+') :: Nat.toDigits 10 e.natAbs
    match ds with
    | [] => tail
    | [c] => c :: tail
    | c :: r => c :: '.' :: (r ++ tail)

end Decimal

namespace Number

/-- The text of a number; both zeros are written `0`. -/
def chars : Number → List Char
  | .nan => "NaN".toList
  | .infinite true => "-Infinity".toList
  | .infinite false => "Infinity".toList
  | x@(.finite negative m e _) =>
    if m = 0 then ['0']
    else
      let body := (Decimal.shortest x m e).layout
      if negative then '-' :: body else body

def text (x : Number) : String := String.ofList x.chars

end Number

end LayeredConf
