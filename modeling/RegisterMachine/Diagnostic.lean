import RegisterMachine.Json.Data
import RegisterMachine.Machine.Run
import RegisterMachine.Text.Blank

namespace RegisterMachine

inductive Severity where
  | error | warning
deriving DecidableEq

def Severity.name : Severity → String
  | .error => "error"
  | .warning => "warning"

structure Location where
  function : String
  pc : Nat
deriving DecidableEq

structure Diagnostic where
  severity : Severity := .error
  code : Option String := none
  message : String
  location : Option Location := none
  instruction : Option String := none
  notes : List String := []
  suggestion : Option String := none
deriving DecidableEq

namespace Diagnostic

def ofError (e : Error) : Diagnostic :=
  let d : Diagnostic := { message := e.message, code := some e.code }
  match e with
  | .tooManyArguments _ expected =>
    { d with notes := [s!"the callee accepts at most {expected} argument(s)"] }
  | .callStackOverflow =>
    { d with suggestion := some "check for unbounded recursion, or raise --call-slots" }
  | .stackOverflow _ _ => { d with suggestion := some "raise --stack-slots" }
  | .undefinedIdentifier _ =>
    { d with notes := ["looked in the closure, the globals and the intrinsics"] }
  | .outOfMemory _ => { d with notes := ["a forced collection did not free enough memory"] }
  | _ => d

-- The diagnostic of a fault, with the word at its place in the first function of its name.
def ofFault (functions : Array Function) (f : Fault) : Diagnostic :=
  let word := (functions.find? (·.name == f.function)).bind (·.code[f.pc]?)
  { ofError f.error with
    location := some { function := f.function, pc := f.pc }
    instruction := word.map Instruction.format }

def styled (color : Bool) (style text : String) : String :=
  if color then "\x1b[" ++ style ++ "m" ++ text ++ "\x1b[0m" else text

def bold (color : Bool) (text : String) : String := styled color "1" text
def boldRed (color : Bool) (text : String) : String := styled color "1;31" text
def cyan (color : Bool) (text : String) : String := styled color "36" text
def dim (color : Bool) (text : String) : String := styled color "2" text

def label (d : Diagnostic) (color : Bool) : String :=
  let text := d.severity.name ++ (match d.code with
    | some code => "[" ++ code ++ "]"
    | none => "")
  match d.severity with
  | .error => boldRed color text
  | .warning => bold color (cyan color text)

def instructionLines (color : Bool) (pc : Nat) (instruction : String) : String :=
  let number := Text.padLeft 4 '0' (toString pc)
  let pad := Text.replicate number.length " "
  let pipe := cyan color "|"
  let width := match Text.firstWord? instruction with
    | some word => word.utf8ByteSize
    | none => 1
  pad ++ " " ++ pipe ++ "\n" ++
    cyan color number ++ " " ++ pipe ++ " " ++ instruction ++ "\n" ++
    pad ++ " " ++ pipe ++ " " ++ boldRed color (Text.replicate width "^") ++ "\n"

def locationLines (d : Diagnostic) (color : Bool) : String :=
  match d.location with
  | none => ""
  | some place =>
    "  " ++ cyan color "-->" ++ " " ++ place.function ++ ":" ++ toString place.pc ++ "\n" ++
      (match d.instruction with
        | some instruction => instructionLines color place.pc instruction
        | none => "")

def remark (color : Bool) (kind text : String) : String :=
  "  " ++ dim color "=" ++ " " ++ kind ++ ": " ++ text ++ "\n"

def render (d : Diagnostic) (color : Bool) : String :=
  d.label color ++ ": " ++ bold color d.message ++ "\n" ++ d.locationLines color ++
    String.join (d.notes.map (remark color "note")) ++
    (match d.suggestion with
      | some text => remark color "suggestion" text
      | none => "")

open Json (Data)

def optionalText (key : String) : Option String → List (String × Data)
  | some text => [(key, .string text)]
  | none => []

def data (d : Diagnostic) : Data :=
  let location := match d.location with
    | some place =>
      [("location", Data.object (Data.sortMembers (
        [("function", .string place.function), ("pc", .nat place.pc)] ++
          optionalText "instruction" d.instruction)))]
    | none => []
  .object (Data.sortMembers (
    [("severity", .string d.severity.name), ("message", .string d.message),
     ("notes", .array (d.notes.map .string))] ++
    optionalText "code" d.code ++ location ++ optionalText "suggestion" d.suggestion))

def json (d : Diagnostic) : String := d.data.compact

end Diagnostic

end RegisterMachine
