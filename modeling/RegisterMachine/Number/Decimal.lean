import RegisterMachine.Number.Double
import RegisterMachine.Text.Basic

namespace RegisterMachine.Double

def signed (d : Double) (text : String) : String :=
  if d.isNegative then "-" ++ text else text

def fixed (places : Nat) (d : Double) : String :=
  let digits := toString (roundQuotient (d.numerator * Nat.pow 10 places) d.denominator)
  if places = 0 then d.signed digits
  else
    let digits := (Text.padLeft (places + 1) '0' digits).toList
    let whole := digits.length - places
    d.signed (String.ofList (digits.take whole ++ '.' :: digits.drop whole))

def digitCount (n : Nat) : Nat := (toString n).length

-- The decimal exponent `k` with `10 ^ k ≤ num / den < 10 ^ (k + 1)`, for a positive fraction.
def decimalExponent (num den : Nat) : Int :=
  if den ≤ num then (digitCount (num / den) : Int) - 1
  else
    let places := digitCount (den / num)
    if num * Nat.pow 10 (places - 1) = den then 1 - (places : Int) else -(places : Int)

-- A finite nonzero double as one digit, `places` digits after the point and a decimal exponent
-- of at least two digits.
def scientific (places : Nat) (d : Double) : String :=
  let power := decimalExponent d.numerator d.denominator
  let shift := (places : Int) - power
  let rounded := roundQuotient
    (d.numerator * Nat.pow 10 shift.toNat) (d.denominator * Nat.pow 10 (-shift).toNat)
  let (rounded, power) :=
    if rounded = Nat.pow 10 (places + 1) then (Nat.pow 10 places, power + 1) else (rounded, power)
  let digits := (toString rounded).toList
  let mantissa := String.ofList (digits.take 1 ++ '.' :: digits.drop 1)
  let mark := if power < 0 then "E-" else "E+"
  d.signed (mantissa ++ mark ++ Text.padLeft 2 '0' (toString power.natAbs))

def withoutFinalZeros (text : String) : String :=
  let kept := text.toList.reverse.dropWhile (· == '0')
  String.ofList (kept.dropWhile (· == '.')).reverse

def tenBillion : Double := ofNat 10000000000
def millionth : Double := ofRatio false 1 1000000

-- Display form of a number: integers without a point, other numbers with at most six places, and
-- a decimal exponent above ten billion and below a millionth.
def display (d : Double) : String :=
  if d.isNaN then "NaN"
  else if d.isInfinite then d.signed "INF"
  else if tenBillion.less d.abs || (d.abs.less millionth && !d.isZero) then d.scientific 6
  else if d.isIntegral then d.fixed 0
  else withoutFinalZeros (d.fixed 6)

end RegisterMachine.Double
