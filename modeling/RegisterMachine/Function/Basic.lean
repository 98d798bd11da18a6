import RegisterMachine.Function.Native
import RegisterMachine.Heap.Rendering
import RegisterMachine.Instruction.Word

namespace RegisterMachine

structure Parameter where
  name : Value
  default : Value
deriving DecidableEq, Inhabited

structure Function where
  name : String
  code : Array Word := #[]
  constants : Array Value := #[]
  registers : Nat := 0
  parameters : Array Parameter := #[]
  native : Option Native := none
deriving DecidableEq, Inhabited

namespace Function

def reserve (f : Function) (register : Nat) : Function :=
  { f with registers := max f.registers (register + 1) }

def signature (f : Function) (h : Heap) : String :=
  let parameter := fun (p : Parameter) =>
    if p.default.isNull then h.display p.name else h.display p.name ++ "=" ++ h.literal p.default
  f.name ++ "(" ++ Text.join ", " (f.parameters.toList.map parameter) ++ ")"

def constantLine (h : Heap) (entry : Value × Nat) : String :=
  "  k" ++ Text.padRight 4 (toString entry.2) ++ " " ++ h.literal entry.1 ++ "\n"

def codeLine (entry : Word × Nat) : String :=
  "  " ++ Text.padLeft 4 '0' (toString entry.2) ++ "  " ++ Instruction.format entry.1 ++ "\n"

def listing (f : Function) (h : Heap) : String :=
  let header := f.signature h ++ " [regs " ++ toString f.registers ++ "]\n"
  if f.native.isSome then header ++ "  <native>\n"
  else
    header ++ String.join (f.constants.toList.zipIdx.map (constantLine h)) ++
      String.join (f.code.toList.zipIdx.map codeLine)

end Function

end RegisterMachine
