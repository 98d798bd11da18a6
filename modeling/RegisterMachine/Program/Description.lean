import RegisterMachine.Json.Data

namespace RegisterMachine

open Json (Raw Data)

structure ParameterText where
  name : String
  default : Data

inductive InstructionText where
  | word (word : UInt32)
  | named (mnemonic : String) (operands : List Int)

structure FunctionText where
  name : String
  registers : Option Nat
  parameters : List ParameterText
  constants : List Data
  code : List InstructionText

structure Program where
  functions : List FunctionText

namespace Program

-- Containers inside containers beyond this number are not read.
def maxNesting : Nat := 127

def member? (members : List (Option String × Raw)) (name : String) : Option (Option Raw) :=
  match members.filter (·.1 == some name) with
  | [] => some none
  | [(_, value)] => some (some value)
  | _ => none

def objectMembers? (names : List String) : Raw → Option (List (Option Raw))
  | .object members =>
    if members.all (·.1.isSome) then names.mapM (member? members) else none
  | _ => none

def members? (names : List String) : Raw → Option (List (Option Raw))
  | .array items =>
    if items.length ≤ names.length then
      some (items.map some ++ List.replicate (names.length - items.length) none)
    else none
  | value => objectMembers? names value

def text? : Raw → Option String
  | .string text => text
  | _ => none

def items? : Option Raw → Option (List Raw)
  | none => some []
  | some (.array items) => some items
  | some _ => none

def integer? : Raw → Option Int
  | .number literal => match literal.value? with
    | some (.integer value) => some value
    | _ => none
  | _ => none

def data? (outside : Nat) (value : Raw) : Option Data :=
  if outside + value.depth ≤ maxNesting then Data.ofRaw? value else none

def registerCount? : Option Raw → Option (Option Nat)
  | none | some .null => some none
  | some value => (integer? value).bind fun n =>
    if 0 ≤ n ∧ n ≤ 0xffff then some (some n.toNat) else none

def parameter? (value : Raw) : Option ParameterText :=
  match members? ["name", "default"] value with
  | some [some name, default] => do
    let name ← text? name
    let default ← match default with
      | some value => data? 5 value
      | none => some .null
    some { name, default }
  | _ => none

def operand? (value : Raw) : Option Int :=
  (integer? value).bind fun n => if -0x80000000 ≤ n ∧ n ≤ 0x7fffffff then some n else none

def instruction? (value : Raw) : Option InstructionText := do
  let _ ← data? 4 value
  match value with
  | .string (some mnemonic) => some (.named mnemonic [])
  | .number _ =>
    let n ← integer? value
    if 0 ≤ n ∧ n ≤ 0xffffffff then some (.word (UInt32.ofNat n.toNat)) else none
  | _ => match objectMembers? ["op", "args"] value with
    | some [some mnemonic, operands] => do
      let mnemonic ← text? mnemonic
      let operands ← (← items? operands).mapM operand?
      some (.named mnemonic operands)
    | _ => none

def function? (value : Raw) : Option FunctionText :=
  match members? ["name", "max_regs", "params", "constants", "code"] value with
  | some [some name, registers, parameters, constants, code] => do
    let name ← text? name
    let registers ← registerCount? registers
    let parameters ← (← items? parameters).mapM parameter?
    let constants ← (← items? constants).mapM (data? 4)
    let code ← (← items? code).mapM instruction?
    some { name, registers, parameters, constants, code }
  | _ => none

def ofRaw? (value : Raw) : Option Program :=
  match members? ["functions"] value with
  | some [some (.array functions)] => (functions.mapM function?).map Program.mk
  | _ => none

def parse? (text : String) : Option Program := (Raw.parse? text).bind ofRaw?

end Program

end RegisterMachine
