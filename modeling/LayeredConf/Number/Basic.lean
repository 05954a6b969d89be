/-!
# Numbers

A configuration number is a double: a sign and a mantissa below `2^53` scaled by a power of two,
an infinity, or not a number.  Each finite number has exactly one such form (`Canonical`), so two
numbers are equal as terms when they are the same number with the same sign of zero.

    round negative q     the double nearest to the magnitude `q`, a tie going to the even mantissa
    toRat x              the exact value of a finite number
-/

namespace LayeredConf

/-- The first number that needs all 53 bits of a mantissa, `2^52`. -/
abbrev fullMantissa : Nat := 0x10000000000000

/-- The first number that is too large for a mantissa, `2^53`. -/
abbrev mantissaBound : Nat := 0x20000000000000

/-- The one form of a finite double: a full mantissa, or any mantissa at the least exponent. -/
def Canonical (mantissa : Nat) (exponent : Int) : Prop :=
  mantissa < mantissaBound ∧ -1074 ≤ exponent ∧ exponent ≤ 971 ∧
    (fullMantissa ≤ mantissa ∨ exponent = -1074)

instance (mantissa : Nat) (exponent : Int) : Decidable (Canonical mantissa exponent) :=
  inferInstanceAs (Decidable (_ ∧ _ ∧ _ ∧ (_ ∨ _)))

/-- A double; zero keeps its sign. -/
inductive Number where
  | nan
  | infinite (negative : Bool)
  | finite (negative : Bool) (mantissa : Nat) (exponent : Int)
      (canonical : Canonical mantissa exponent)
  deriving DecidableEq

namespace Number

/-! ## Exact values -/

def zero (negative : Bool) : Number := .finite negative 0 (-1074) (by decide)

instance : Inhabited Number := ⟨zero false⟩

/-- The value of `mantissa · 2^exponent`. -/
def scaled (mantissa : Nat) (exponent : Int) : Rat := mantissa * (2 : Rat) ^ exponent

/-- The exact value of a finite number; the others have none and read as 0. -/
def toRat : Number → Rat
  | .finite true m e _ => -scaled m e
  | .finite false m e _ => scaled m e
  | _ => 0

def isFinite : Number → Bool
  | .finite .. => true
  | _ => false

def isNegative : Number → Bool
  | .nan => false
  | .infinite s => s
  | .finite s .. => s

/-! ## Rounding -/

/-- The integer nearest to `q ≥ 0`, a tie going to the even one. -/
def nearestEven (q : Rat) : Nat :=
  let low := q.floor.toNat
  let rest := q - low
  if rest < 1 / 2 ∨ rest = 1 / 2 ∧ low % 2 = 0 then low else low + 1

/-- The greatest `k` with `2^k ≤ q`, for `q > 0`. -/
def binaryExponent (q : Rat) : Int :=
  let k : Int := (q.num.natAbs.log2 : Int) - q.den.log2
  if (2 : Rat) ^ k ≤ q then k else k - 1

/-- The number with this mantissa and exponent, or an infinity when they exceed every double. -/
def ofParts (negative : Bool) (mantissa : Nat) (exponent : Int) : Number :=
  if h : Canonical mantissa exponent then .finite negative mantissa exponent h
  else .infinite negative

/-- The double nearest to the magnitude `q ≥ 0`.  A mantissa rounded up to its bound carries into
the exponent. -/
def round (negative : Bool) (q : Rat) : Number :=
  if q = 0 then zero negative
  else
    let e := max (binaryExponent q - 52) (-1074)
    let m := nearestEven (q / (2 : Rat) ^ e)
    if m = mantissaBound then ofParts negative fullMantissa (e + 1) else ofParts negative m e

/-- The double nearest to `q`; zero is positive. -/
def ofRat (q : Rat) : Number := round (decide (q < 0)) q.abs

def ofInt (n : Int) : Number := ofRat n

def ofNat (n : Nat) : Number := round false n

/-! ## Integers -/

def toInt? : Number → Option Int
  | x@(.finite ..) => if x.toRat.den = 1 then some x.toRat.num else none
  | _ => none

/-- An integer below `2^53` either way; each of them is a double. -/
def isExactInteger (x : Number) : Bool :=
  match x.toInt? with
  | some n => decide (n.natAbs < mantissaBound)
  | none => false

/-- The integer part, toward zero. -/
def truncate (x : Number) : Option Int :=
  if x.isFinite then
    some (if x.isNegative then -x.toRat.abs.floor else x.toRat.abs.floor)
  else none

end Number

end LayeredConf
