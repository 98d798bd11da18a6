import RegisterMachine.Json.Raw
import RegisterMachine.Number.Shortest

namespace RegisterMachine.Json

inductive Number where
  | integer (value : Int)
  | double (value : Double)
deriving DecidableEq

def takeDigits (value : Nat) : List Nat → Nat × List Nat
  | [] => (value, [])
  | digit :: rest =>
    if value * 10 + digit ≤ 0xffffffffffffffff then takeDigits (value * 10 + digit) rest
    else (value, digit :: rest)

def powerOfTen (n : Nat) : Double := .ofDecimal false 1 n

-- Powers of ten end at 308, so smaller numbers take several divisions.
def scale? : Nat → Double → Int → Option Double
  | 0, _, _ => none
  | tries + 1, d, power =>
    if power.natAbs ≤ 308 then
      if 0 ≤ power then
        let scaled := d.mul (powerOfTen power.toNat)
        if scaled.isInfinite then none else some scaled
      else some (d.div (powerOfTen power.natAbs))
    else if d.isZero then some d
    else if 0 ≤ power then none
    else scale? tries (d.div (powerOfTen 308)) (power + 308)

def signedDouble (negative : Bool) (d : Double) : Double := if negative then d.neg else d

-- The double of a significand and a written exponent on top of the power its digits imply.
def doubleOf? (negative : Bool) (significand : Nat) (power : Int) :
    Option (Bool × Nat) → Option Double
  | none => (scale? 4 (.ofNat significand) power).map (signedDouble negative)
  | some (below, exponent) =>
    if exponent > 0x7fffffff then
      if significand ≠ 0 ∧ !below then none else some (signedDouble negative .zero)
    else
      let power := if below then power - exponent else power + exponent
      (scale? 4 (.ofNat significand) power).map (signedDouble negative)

def Literal.value? (literal : Literal) : Option Number :=
  let (significand, rest) := takeDigits 0 literal.whole
  let power : Int := rest.length
  match literal.fraction with
  | some digits =>
    let (significand, rest) := takeDigits significand digits
    let power := power - (digits.length - rest.length : Nat)
    (doubleOf? literal.negative significand power literal.exponent).map .double
  | none =>
    if rest.isEmpty && literal.exponent.isNone then
      if !literal.negative then some (.integer significand)
      else if significand = 0 ∨ significand > 0x8000000000000000 then
        some (.double (Double.ofNat significand).neg)
      else some (.integer (-(significand : Int)))
    else (doubleOf? literal.negative significand power literal.exponent).map .double

def Number.text : Number → String
  | .integer value => toString value
  | .double value => value.json

end RegisterMachine.Json
