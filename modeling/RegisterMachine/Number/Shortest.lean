import RegisterMachine.Number.Double

namespace RegisterMachine.Double

structure Decimal where
  digits : Nat
  power : Int

def readsBack (d : Double) (decimal : Decimal) : Bool :=
  (ofDecimal d.isNegative decimal.digits decimal.power).magnitude == d.magnitude

-- The two neighbours of the value on the grid of multiples of `10 ^ power`.
def gridNeighbours (d : Double) (power : Int) : Nat × Nat × Bool :=
  let num := d.numerator * Nat.pow 10 (-power).toNat
  let den := d.denominator * Nat.pow 10 power.toNat
  let floor := num / den
  (floor, floor + 1, 2 * (num % den) > den || (2 * (num % den) == den && floor % 2 == 1))

def onGrid? (d : Double) (power : Int) : Option Decimal :=
  let (below, above, nearerAbove) := d.gridNeighbours power
  let (first, second) := if nearerAbove then (above, below) else (below, above)
  if 0 < first && d.readsBack ⟨first, power⟩ then some ⟨first, power⟩
  else if 0 < second && d.readsBack ⟨second, power⟩ then some ⟨second, power⟩
  else none

-- Grids from coarse to fine; seventeen digits always read back.
def searchGrids (d : Double) : Nat → Int → Decimal
  | 0, power => ⟨(d.gridNeighbours power).1, power⟩
  | tries + 1, power =>
    match d.onGrid? power with
    | some decimal => decimal
    | none => searchGrids d tries (power - 1)

def shortest (d : Double) : Decimal :=
  let top : Int := (toString (d.numerator / d.denominator)).length
  let start := if d.denominator ≤ d.numerator then top
    else 1 - ((toString (d.denominator / d.numerator)).length : Int)
  searchGrids d 18 start

-- Text of a finite double that a JSON reader takes for a fraction: positional from a hundred
-- thousandth up to sixteen digits, with a signed exponent outside.
def json (d : Double) : String :=
  let sign := if d.isNegative then "-" else ""
  if d.isZero then sign ++ "0.0" else
  let decimal := d.shortest
  let digits := (toString decimal.digits).toList
  let length : Int := digits.length
  let point := length + decimal.power
  let body : List Char :=
    if 0 ≤ decimal.power && point ≤ 16 then
      digits ++ List.replicate decimal.power.toNat '0' ++ ".0".toList
    else if 0 < point && point ≤ 16 then
      digits.take point.toNat ++ '.' :: digits.drop point.toNat
    else if -5 < point && point ≤ 0 then
      "0.".toList ++ List.replicate (-point).toNat '0' ++ digits
    else
      let mantissa := if digits.length = 1 then digits else digits.take 1 ++ '.' :: digits.drop 1
      let exponentSign := if 0 < point then '+' else '-'
      mantissa ++ 'e' :: exponentSign :: (toString (point - 1).natAbs).toList
  sign ++ String.ofList body

end RegisterMachine.Double
