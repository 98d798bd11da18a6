import RegisterMachine.Instruction.Opcode
import RegisterMachine.Text.Basic

namespace RegisterMachine

abbrev Word := UInt32

-- The number with a sign that `bits` stand for, `half` of whose patterns are not negative.
def signed (half bits : Nat) : Int :=
  if bits < half then bits else (bits : Int) - 2 * half

namespace Word

def slice (word : Word) (shift width : Nat) : Nat := word.toNat / Nat.pow 2 shift % Nat.pow 2 width

def opcodeByte (word : Word) : Nat := word.toNat / 0x1000000
def a (word : Word) : Nat := word.toNat / 0x10000 % 0x100
def b (word : Word) : Nat := word.toNat / 0x100 % 0x100
def c (word : Word) : Nat := word.toNat % 0x100
def ab (word : Word) : Nat := word.toNat / 0x100 % 0x10000
def bc (word : Word) : Nat := word.toNat % 0x10000
def abc (word : Word) : Nat := word.toNat % 0x1000000

def aSigned (word : Word) : Int := signed 0x80 word.a
def bSigned (word : Word) : Int := signed 0x80 word.b
def cSigned (word : Word) : Int := signed 0x80 word.c
def abSigned (word : Word) : Int := signed 0x8000 word.ab
def bcSigned (word : Word) : Int := signed 0x8000 word.bc
def abcSigned (word : Word) : Int := signed 0x800000 word.abc

def opcode? (word : Word) : Option Opcode := Opcode.ofByte? word.opcodeByte

-- Fields fill the bits below `shift` from the left; operands beyond the fields are left out, and
-- of each only the bits that fit its field count.
def packBelow : Nat → List Nat → List Int → Nat
  | shift, width :: widths, operand :: operands =>
    (operand % Nat.pow 2 width).toNat * Nat.pow 2 (shift - width) +
      packBelow (shift - width) widths operands
  | _, _, _ => 0

def pack (op : Opcode) (widths : List Nat) (operands : List Int) : Word :=
  UInt32.ofNat (op.byte * 0x1000000 + packBelow 24 widths operands)

end Word

inductive EncodeError where
  | shapeMismatch (op : Opcode) (expected got : Nat)
  | operandOutOfRange (op : Opcode) (index : Nat) (value : Int)
  | constantPoolFull (limit : Nat)
deriving DecidableEq, Repr

def EncodeError.message : EncodeError → String
  | shapeMismatch op expected got =>
    op.mnemonic ++ s!" takes {expected} operand(s), got {got}"
  | operandOutOfRange op index value =>
    s!"operand {index} of " ++ op.mnemonic ++ s!" out of range: {value}"
  | constantPoolFull limit => s!"constant pool full (limit {limit})"

namespace Field

-- Registers and constants are numbers without a sign; an immediate may be given with one or
-- without.
def accepts (field : Field) (operand : Int) : Bool :=
  let low : Int := if field.role = .immediate then -Nat.pow 2 (field.width - 1) else 0
  low ≤ operand && operand < Nat.pow 2 field.width

-- The operand that the bits of a field stand for; immediates have a sign.
def read (field : Field) (bits : Nat) : Int :=
  if field.role = .immediate then signed (Nat.pow 2 (field.width - 1)) bits else bits

end Field

namespace Instruction

-- The word of an opcode, with what does not fit cut off.
def encodeUnchecked (op : Opcode) (operands : List Int) : Word :=
  Word.pack op (op.fields.map Field.width) operands

def firstRejected? (fields : List Field) (operands : List Int) : Option (Nat × Int) :=
  ((fields.zip operands).zipIdx.find? fun ((field, operand), _) => !field.accepts operand).map
    fun ((_, operand), i) => (i, operand)

def encode (op : Opcode) (operands : List Int) : Except EncodeError Word :=
  if op.fields.length ≠ operands.length then
    .error (.shapeMismatch op op.fields.length operands.length)
  else match firstRejected? op.fields operands with
    | some (i, operand) => .error (.operandOutOfRange op i operand)
    | none => .ok (encodeUnchecked op operands)

def readFields (word : Word) : Nat → List Field → List Int
  | _, [] => []
  | shift, field :: rest =>
    let shift := shift - field.width
    field.read (word.slice shift field.width) :: readFields word shift rest

def decode? (word : Word) : Option (Opcode × List Int) :=
  word.opcode?.map fun op => (op, readFields word 24 op.fields)

def format (word : Word) : String :=
  match decode? word with
  | none => "??? 0x" ++ Text.hexadecimal 8 word.toNat
  | some (op, operands) =>
    let operand := fun ((field, value) : Field × Int) =>
      match field.role with
      | .immediate => toString value
      | role => role.letter ++ toString value
    match (op.fields.zip operands).map operand with
    | [] => op.label
    | shown => Text.padRight 7 op.label ++ " " ++ Text.join ", " shown

end Instruction

end RegisterMachine
