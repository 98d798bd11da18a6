namespace RegisterMachine

structure Double where
  bits : UInt64
deriving DecidableEq, Inhabited

namespace Double

def ofFloat (x : Float) : Double := ⟨x.toBits⟩

def toFloat (d : Double) : Float := Float.ofBits d.bits

def zero : Double := ⟨0⟩
def one : Double := ⟨0x3ff0000000000000⟩
def nan : Double := ⟨0x7ff8000000000000⟩
def infinity : Double := ⟨0x7ff0000000000000⟩

def infinityMagnitude : Nat := 0x7ff0000000000000

def signBit : Nat := 0x8000000000000000

-- The value of the digit before the point, which the bits of normal numbers leave out.
def leadingDigit : Nat := 0x10000000000000

def magnitude (d : Double) : Nat := d.bits.toNat % signBit

def isNegative (d : Double) : Bool := signBit ≤ d.bits.toNat

def ofMagnitude (negative : Bool) (magnitude : Nat) : Double :=
  ⟨UInt64.ofNat (if negative then magnitude + signBit else magnitude)⟩

def isNaN (d : Double) : Bool := infinityMagnitude < d.magnitude

def isInfinite (d : Double) : Bool := d.magnitude == infinityMagnitude

def isFinite (d : Double) : Bool := d.magnitude < infinityMagnitude

-- Position on the line of numbers; both zeros stand at 0.
def position (d : Double) : Int :=
  if d.isNegative then -(d.magnitude : Int) else d.magnitude

def same (left right : Double) : Bool :=
  !left.isNaN && !right.isNaN && left.position == right.position

def less (left right : Double) : Bool :=
  !left.isNaN && !right.isNaN && decide (left.position < right.position)

def atMost (left right : Double) : Bool :=
  !left.isNaN && !right.isNaN && decide (left.position ≤ right.position)

def compare? (left right : Double) : Option Ordering :=
  if left.isNaN || right.isNaN then none else some (compare left.position right.position)

def abs (d : Double) : Double := ofMagnitude false d.magnitude

def neg (d : Double) : Double := ofMagnitude (!d.isNegative) d.magnitude

def isZero (d : Double) : Bool := d.magnitude == 0

-- The absolute value of a finite double is `significand * 2 ^ exponent`.
def significand (d : Double) : Nat :=
  if d.magnitude < leadingDigit then d.magnitude else d.magnitude % leadingDigit + leadingDigit

def exponent (d : Double) : Int :=
  if d.magnitude < leadingDigit then -1074 else (d.magnitude / leadingDigit : Nat) - 1075

def numerator (d : Double) : Nat := d.significand * Nat.pow 2 d.exponent.toNat

def denominator (d : Double) : Nat := Nat.pow 2 (-d.exponent).toNat

def roundQuotient (num den : Nat) : Nat :=
  let floor := num / den
  let rest := 2 * (num % den)
  if rest > den || (rest == den && floor % 2 == 1) then floor + 1 else floor

-- Magnitude of the double nearest to `num / den`, ties to even; too large a quotient is infinite.
-- The candidates for the exponent are those that leave fifty-three binary digits.
def nearestMagnitude (num den : Nat) : Nat :=
  if num = 0 then 0 else
  let scaled (e : Int) : Nat × Nat := (num * Nat.pow 2 (-e).toNat, den * Nat.pow 2 e.toNat)
  let low : Int := (num.log2 : Int) - den.log2 - 53
  let (n, d) := scaled low
  let e := max (if n / d < 2 * leadingDigit then low else low + 1) (-1074)
  let (n, d) := scaled e
  min ((e + 1074).toNat * leadingDigit + roundQuotient n d) infinityMagnitude

def ofRatio (negative : Bool) (num den : Nat) : Double :=
  ofMagnitude negative (nearestMagnitude num den)

def ofNat (n : Nat) : Double := ofRatio false n 1

def ofInt (i : Int) : Double := ofRatio (i < 0) i.natAbs 1

-- The double nearest to `digits * 10 ^ power`. Far outside the range of doubles the result is
-- infinite or zero, whatever the digits.
def ofDecimal (negative : Bool) (digits : Nat) (power : Int) : Double :=
  if digits = 0 then ofMagnitude negative 0
  else if power > 400 then ofMagnitude negative infinityMagnitude
  else if power + ((digits.log2 + 1 : Nat) : Int) < -400 then ofMagnitude negative 0
  else ofRatio negative (digits * Nat.pow 10 power.toNat) (Nat.pow 10 (-power).toNat)

def add (left right : Double) : Double := ofFloat (left.toFloat + right.toFloat)
def sub (left right : Double) : Double := ofFloat (left.toFloat - right.toFloat)
def mul (left right : Double) : Double := ofFloat (left.toFloat * right.toFloat)
def div (left right : Double) : Double := ofFloat (left.toFloat / right.toFloat)

def remainder (left right : Double) : Double :=
  if left.isNaN || right.isNaN || left.isInfinite || right.isZero then nan
  else if right.isInfinite then left
  else
    let e := min left.exponent right.exponent
    let rest := left.significand * Nat.pow 2 (left.exponent - e).toNat %
      (right.significand * Nat.pow 2 (right.exponent - e).toNat)
    ofRatio left.isNegative (rest * Nat.pow 2 e.toNat) (Nat.pow 2 (-e).toNat)

def truncate (d : Double) : Double :=
  let field := d.magnitude / leadingDigit
  if field < 1023 then ofMagnitude d.isNegative 0
  else if field < 1075 then
    let unit := Nat.pow 2 (1075 - field)
    ofMagnitude d.isNegative (d.magnitude / unit * unit)
  else d

def fraction (d : Double) : Double := d.sub d.truncate

def isIntegral (d : Double) : Bool := d.isFinite && d.truncate == d

def wholePart (d : Double) : Nat := d.numerator / d.denominator

-- The nearest integer toward zero that lies within the bounds; NaN is 0.
def toIntWithin (low high : Int) (d : Double) : Int :=
  if d.isNaN then 0
  else max low (min high (if d.isNegative then -(d.wholePart : Int) else d.wholePart))

def toInt32 (d : Double) : Int32 :=
  Int32.ofInt (d.toIntWithin (-0x80000000) 0x7fffffff)

def toSize (d : Double) : Nat := (d.toIntWithin 0 0xffffffffffffffff).toNat

end Double

end RegisterMachine
