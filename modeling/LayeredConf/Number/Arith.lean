import LayeredConf.Number.Basic

/-!
# Arithmetic on numbers

Each operation is exact on the rationals and rounded once.  What has no value is `nan`: the
difference of two infinities, an infinity times zero, a remainder by zero.
-/

namespace LayeredConf.Number

instance : Neg Number where
  neg
    | .nan => .nan
    | .infinite s => .infinite !s
    | .finite s m e h => .finite (!s) m e h

def abs : Number → Number
  | .nan => .nan
  | .infinite _ => .infinite false
  | .finite _ m e h => .finite false m e h

/-- A sum that cancels is a positive zero, unless both addends were negative. -/
protected def add : Number → Number → Number
  | .nan, _ => .nan
  | _, .nan => .nan
  | .infinite s, .infinite t => if s = t then .infinite s else .nan
  | .infinite s, _ => .infinite s
  | _, .infinite t => .infinite t
  | x@(.finite s _ _ _), y@(.finite t _ _ _) =>
    let q := x.toRat + y.toRat
    if q = 0 then zero (s && t) else ofRat q

instance : Add Number := ⟨Number.add⟩

instance : Sub Number := ⟨fun x y => x + -y⟩

/-- True of both zeros. -/
def isZero (x : Number) : Bool := x.isFinite && x.toRat = 0

protected def mul (x y : Number) : Number :=
  match x, y with
  | .nan, _ => .nan
  | _, .nan => .nan
  | .infinite s, y => if y.isZero then .nan else .infinite (s != y.isNegative)
  | x, .infinite t => if x.isZero then .nan else .infinite (x.isNegative != t)
  | x, y => round (x.isNegative != y.isNegative) (x.toRat * y.toRat).abs

instance : Mul Number := ⟨Number.mul⟩

protected def div (x y : Number) : Number :=
  match x, y with
  | .nan, _ => .nan
  | _, .nan => .nan
  | .infinite _, .infinite _ => .nan
  | .infinite s, y => .infinite (s != y.isNegative)
  | x, .infinite t => zero (x.isNegative != t)
  | x, y =>
    if y.isZero then
      if x.isZero then .nan else .infinite (x.isNegative != y.isNegative)
    else round (x.isNegative != y.isNegative) (x.toRat / y.toRat).abs

instance : Div Number := ⟨Number.div⟩

/-- The remainder of truncated division; it has the sign of the dividend. -/
protected def mod (x y : Number) : Number :=
  match x, y with
  | .nan, _ => .nan
  | _, .nan => .nan
  | .infinite _, _ => .nan
  | x, .infinite _ => x
  | x, y =>
    if y.isZero then .nan
    else
      let a := x.toRat.abs
      let b := y.toRat.abs
      round x.isNegative (a - b * ((a / b).floor : Rat))

instance : Mod Number := ⟨Number.mod⟩

/-- The greatest integer not above the number. -/
def floor : Number → Number
  | x@(.finite s _ _ _) =>
    let n := x.toRat.floor
    if n = 0 then zero s else ofInt n
  | x => x

/-- Order by value; `nan` is below and above nothing. -/
def lt : Number → Number → Bool
  | .nan, _ => false
  | _, .nan => false
  | .infinite s, .infinite t => s && !t
  | .infinite s, _ => s
  | _, .infinite t => !t
  | x, y => x.toRat < y.toRat

/-- Equality by value: the zeros are equal and `nan` differs from itself. -/
def eqv : Number → Number → Bool
  | .nan, _ => false
  | _, .nan => false
  | .infinite s, .infinite t => s = t
  | .infinite _, _ => false
  | _, .infinite _ => false
  | x, y => x.toRat = y.toRat

end LayeredConf.Number
