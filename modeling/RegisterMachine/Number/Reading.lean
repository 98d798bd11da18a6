import RegisterMachine.Number.Double

namespace RegisterMachine.Double

def digitsValue (digits : List Char) : Nat :=
  digits.foldl (fun value c => value * 10 + (c.toNat - '0'.toNat)) 0

def readSign : List Char → Bool × List Char
  | '-' :: rest => (true, rest)
  | '+' :: rest => (false, rest)
  | rest => (false, rest)

-- The exponent written at the end of a number; no text is the exponent 0.
def readExponent? : List Char → Option Int
  | [] => some 0
  | c :: rest =>
    if c = 'e' || c = 'E' then
      let (negative, digits) := readSign rest
      if digits.isEmpty || !digits.all Char.isDigit then none
      else if negative then some (-(digitsValue digits : Int)) else some (digitsValue digits)
    else none

def readFraction : List Char → List Char × List Char
  | '.' :: rest => (rest.takeWhile Char.isDigit, rest.dropWhile Char.isDigit)
  | rest => ([], rest)

def readDigits? (negative : Bool) (text : List Char) : Option Double :=
  let whole := text.takeWhile Char.isDigit
  let (places, rest) := readFraction (text.dropWhile Char.isDigit)
  if whole.isEmpty && places.isEmpty then none
  else (readExponent? rest).map fun power =>
    ofDecimal negative (digitsValue (whole ++ places)) (power - (places.length : Int))

def ofText? (text : String) : Option Double :=
  let (negative, unsigned) := readSign text.toList
  let word := String.ofList (unsigned.map Char.toLower)
  if word = "inf" || word = "infinity" then some (ofMagnitude negative infinityMagnitude)
  else if word = "nan" then some (ofMagnitude negative nan.magnitude)
  else readDigits? negative unsigned

end RegisterMachine.Double
