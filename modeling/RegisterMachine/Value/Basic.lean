import RegisterMachine.Number.Double

namespace RegisterMachine

structure ShortText where
  text : String
  fits : text.utf8ByteSize ≤ 5
deriving DecidableEq

namespace ShortText

def ofString? (text : String) : Option ShortText :=
  if fits : text.utf8ByteSize ≤ 5 then some ⟨text, fits⟩ else none

def empty : ShortText := ⟨"", by decide⟩

end ShortText

structure Handle where
  index : Nat
  generation : UInt32
deriving DecidableEq, Inhabited

-- A dynamically typed value. Equality of values is identity: doubles by their bits, heap values
-- by their handles.
inductive Value where
  | null
  | int (number : Int32)
  | double (number : Double)
  | short (text : ShortText)
  | str (handle : Handle)
  | list (handle : Handle)
  | map (handle : Handle)
  | funcRef (handle : Handle)
deriving DecidableEq, Inhabited

inductive Kind where
  | null | int | double | string | list | map | funcRef
deriving DecidableEq, Repr

def Kind.name : Kind → String
  | .null => "null"
  | .int | .double => "number"
  | .string => "string"
  | .list => "list"
  | .map => "map"
  | .funcRef => "funcRef"

namespace Value

def kind : Value → Kind
  | null => .null
  | int _ => .int
  | double _ => .double
  | short _ | str _ => .string
  | list _ => .list
  | map _ => .map
  | funcRef _ => .funcRef

def kindName (v : Value) : String := v.kind.name

def isNull : Value → Bool
  | null => true
  | _ => false

def isNumber : Value → Bool
  | int _ | double _ => true
  | _ => false

def isString : Value → Bool
  | short _ | str _ => true
  | _ => false

def isList : Value → Bool
  | list _ => true
  | _ => false

def isMap : Value → Bool
  | map _ => true
  | _ => false

def isFuncRef : Value → Bool
  | funcRef _ => true
  | _ => false

def handle? : Value → Option Handle
  | str r | list r | map r | funcRef r => some r
  | _ => none

-- Reading as an integer: doubles lose their fraction, and what is no number reads as 0.
def asInt : Value → Int32
  | int i => i
  | double d => d.toInt32
  | _ => 0

def asDouble : Value → Double
  | int i => .ofInt i.toInt
  | double d => d
  | _ => .zero

def same : Value → Value → Bool
  | double x, double y => x.same y
  | v, w => v == w

def ofBool (b : Bool) : Value := int (if b then 1 else 0)

def ofNat (n : Nat) : Value := int (Int32.ofNat n)

def fitsInt (i : Int) : Bool := -0x80000000 ≤ i && i ≤ 0x7fffffff

-- An exact integer result: an int where it fits, else the nearest double.
def ofInt (i : Int) : Value :=
  if fitsInt i then int (Int32.ofInt i) else double (.ofInt i)

-- A number: doubles without a fraction become ints where they fit.
def number (d : Double) : Value :=
  if d.isIntegral then
    let i : Int := if d.isNegative then -(d.wholePart : Int) else d.wholePart
    if fitsInt i then int (Int32.ofInt i) else double d
  else double d

def shortText (text : String) : Value :=
  match ShortText.ofString? text with
  | some t => short t
  | none => null

end Value

end RegisterMachine
