namespace RegisterMachine

inductive Error where
  | tooManyArguments (got expected : Nat)
  | callStackOverflow
  | stackOverflow (needed available : Nat)
  | undefinedIdentifier (name : String)
  | indexOutOfRange (index : Int) (length : Nat)
  | keyNotFound (key : String)
  | typeMismatch (expected found : String)
  | notIndexable (container : String)
  | notIndexAssignable (container : String)
  | notSliceable (container : String)
  | noLength (container : String)
  | frozenMutation (kind : String)
  | sequencing (text : String)
  | unknownFunction (name : String)
  | invalidFunction (index : Nat)
  | unknownOpcode (byte : Nat)
  | pcOutOfBounds (function : String)
  | noEntryFunction
  | emptyEntryFunction
  | staleReference
  | outOfMemory (requested : Nat)
  | native (text : String)
deriving DecidableEq, Repr, Inhabited

namespace Error

def message : Error → String
  | tooManyArguments got expected => s!"Too many arguments: got {got}, expected {expected}"
  | callStackOverflow => "Call stack overflow"
  | stackOverflow needed available =>
    s!"Stack overflow: frame needs {needed} slots, stack has {available}"
  | undefinedIdentifier name => s!"Undefined Identifier: '{name}' is unknown in this context"
  | indexOutOfRange index length => s!"Index Error: index {index} out of range (size {length})"
  | keyNotFound key => s!"Key Not Found: '{key}' not found in map"
  | typeMismatch expected found => s!"Type Error: expected {expected}, got {found}"
  | notIndexable container => s!"Can't index into {container}"
  | notIndexAssignable container => s!"Can't set indexed value in {container}"
  | notSliceable container => s!"Can't slice {container}"
  | noLength container => s!"Can't get len of {container}"
  | frozenMutation kind => s!"Attempt to modify a frozen {kind}"
  | sequencing text => text
  | unknownFunction name => s!"Unknown function '{name}'"
  | invalidFunction index => s!"Invalid function index {index}"
  | unknownOpcode byte => s!"unknown opcode: {byte}"
  | pcOutOfBounds function => s!"PC out of bounds in {function}"
  | noEntryFunction => "No @main function found"
  | emptyEntryFunction => "Entry function has no code"
  | staleReference => "stale heap reference"
  | outOfMemory requested =>
    s!"Out of memory: allocation of {requested} bytes exceeds the heap limit"
  | native text => text

def code : Error → String
  | tooManyArguments .. => "R001"
  | callStackOverflow | stackOverflow .. => "R002"
  | undefinedIdentifier _ => "R003"
  | indexOutOfRange .. => "R004"
  | keyNotFound _ => "R005"
  | typeMismatch .. | notIndexable _ | notIndexAssignable _ | notSliceable _ | noLength _ => "R006"
  | frozenMutation _ => "R007"
  | sequencing _ | unknownOpcode _ | pcOutOfBounds _ | invalidFunction _ => "R008"
  | unknownFunction _ | noEntryFunction | emptyEntryFunction => "R009"
  | staleReference => "R010"
  | outOfMemory _ => "R011"
  | native _ => "R012"

end Error

end RegisterMachine
