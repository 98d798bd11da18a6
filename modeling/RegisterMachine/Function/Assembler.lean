import RegisterMachine.Function.Basic
import RegisterMachine.Heap.Allocate

namespace RegisterMachine

structure Assembler where
  function : Function
  checked : Bool := true

namespace Assembler

def maxConstants : Nat := 65536

def new (name : String) (checked : Bool) : Assembler :=
  { function := { name }, checked }

def parameter (a : Assembler) (name default : Value) : Assembler :=
  let f := { a.function with parameters := a.function.parameters.push { name, default } }
  { a with function := f.reserve (min f.parameters.size 255) }

def constant (a : Assembler) (v : Value) : Except EncodeError (Nat × Assembler) :=
  match a.function.constants.toList.findIdx? (· == v) with
  | some i => .ok (i, a)
  | none =>
    let count := a.function.constants.size
    if count ≥ maxConstants then .error (.constantPoolFull maxConstants)
    else .ok (count, { a with function.constants := a.function.constants.push v })

def textConstant (a : Assembler) (h : Heap) (text : String) :
    Except EncodeError (Nat × Assembler) × Heap :=
  let (v, h) := h.intern text
  (a.constant v, h)

def word (a : Assembler) (op : Opcode) (operands : List Int) : Except EncodeError Word :=
  if a.checked then Instruction.encode op operands
  else .ok (Instruction.encodeUnchecked op operands)

def clampRegister (operand : Int) : Nat := (min operand 255).toNat

-- Reserves the registers that the operands name; a slice also reads the register after its last
-- operand.
def reserveOperands (f : Function) (op : Opcode) (operands : List Int) : Function :=
  let f := (op.fields.zip operands).foldl
    (fun f (field, operand) =>
      if field.role = .register then f.reserve (clampRegister operand) else f) f
  if op = .slice then
    match operands[2]? with
    | some c => f.reserve (clampRegister (Int.bmod (c + 1) 0x100000000))
    | none => f
  else f

def emitWord (a : Assembler) (word : Word) : Nat × Assembler :=
  (a.function.code.size, { a with function.code := a.function.code.push word })

def emit (a : Assembler) (op : Opcode) (operands : List Int) :
    Except EncodeError (Nat × Assembler) :=
  match a.word op operands with
  | .error e => .error e
  | .ok word => .ok ({ a with function := reserveOperands a.function op operands }.emitWord word)

def patch (a : Assembler) (position : Nat) (op : Opcode) (operands : List Int) :
    Except EncodeError Assembler :=
  match a.word op operands with
  | .error e => .error e
  | .ok word => .ok { a with function.code := a.function.code.setIfInBounds position word }

def reserveRegisters (a : Assembler) (count : Nat) : Assembler :=
  { a with function.registers := max a.function.registers count }

end Assembler

end RegisterMachine
