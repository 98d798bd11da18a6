import RegisterMachine.Function.Assembler
import RegisterMachine.Program.Description

namespace RegisterMachine

inductive ProgramError where
  | malformed
  | unknownMnemonic (function : String) (position : Nat) (mnemonic : String)
  | encoding (function : String) (position : Nat) (cause : EncodeError)
  | unsupportedConstant (function : String) (shown : String)
deriving DecidableEq

def ProgramError.message : ProgramError → String
  | malformed => "malformed program: not a program description"
  | unknownMnemonic function position mnemonic =>
    s!"in function '{function}' at {position}: unknown opcode '{mnemonic}'"
  | encoding function position cause => s!"in function '{function}' at {position}: " ++ cause.message
  | unsupportedConstant function shown => s!"in function '{function}': unsupported constant {shown}"

abbrev BuildM := EStateM ProgramError Heap

namespace Program

def internText (text : String) : BuildM Value := fun h =>
  let (v, h) := h.intern text
  .ok v h

-- The value of a constant; a double without a fraction becomes an int where it fits.
def constant (function : String) : Json.Data → BuildM Value
  | .null => pure .null
  | .bool b => pure (.ofBool b)
  | .number (.integer i) =>
    pure (if Value.fitsInt i then .int (Int32.ofInt i) else .number (.ofInt i))
  | .number (.double d) => pure (.number d)
  | .string text => internText text
  | data => throw (.unsupportedConstant function data.compact)

def addParameters (function : String) : List ParameterText → Assembler → BuildM Assembler
  | [], a => pure a
  | p :: rest, a => do
    let default ← constant function p.default
    let name ← internText p.name
    addParameters function rest (a.parameter name default)

def addInstruction (function : String) (position : Nat) (a : Assembler) :
    InstructionText → Except ProgramError Assembler
  | .word word => .ok (a.emitWord word).2
  | .named mnemonic operands =>
    match Opcode.ofMnemonic? mnemonic with
    | none => .error (.unknownMnemonic function position mnemonic)
    | some op => match a.emit op operands with
      | .ok (_, a) => .ok a
      | .error cause => .error (.encoding function position cause)

def addCode (function : String) (position : Nat) :
    List InstructionText → Assembler → Except ProgramError Assembler
  | [], a => .ok a
  | instruction :: rest, a =>
    match addInstruction function position a instruction with
    | .ok a => addCode function (position + 1) rest a
    | .error e => .error e

def constants (function : String) : List Json.Data → Array Value → BuildM (Array Value)
  | [], built => pure built
  | data :: rest, built => do
    let v ← constant function data
    constants function rest (built.push v)

-- Parameters, code and constants of a function, in this order.
def buildFunction (checked : Bool) (f : FunctionText) : BuildM Function := do
  let a ← addParameters f.name f.parameters (.new f.name checked)
  let a ← match addCode f.name 0 f.code a with
    | .ok a => pure a
    | .error e => throw e
  let a := match f.registers with
    | some count => a.reserveRegisters count
    | none => a
  let pool ← constants f.name f.constants #[]
  pure { a.function with constants := pool }

def buildFunctions (checked : Bool) : List FunctionText → Array Function → BuildM (Array Function)
  | [], built => pure built
  | f :: rest, built => do
    let f ← buildFunction checked f
    buildFunctions checked rest (built.push f)

def build (p : Program) (checked : Bool) : BuildM (Array Function) :=
  buildFunctions checked p.functions #[]

end Program

end RegisterMachine
