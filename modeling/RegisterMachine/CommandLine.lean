import RegisterMachine.Diagnostic
import RegisterMachine.Program.Build
import RegisterMachine.Text.Terminal

namespace RegisterMachine.CommandLine

inductive ErrorFormat where
  | ansi | json
deriving DecidableEq

structure RunOptions where
  maxCycles : Option Nat := none
  trace : Bool := false
  stress : Bool := false
  stackSlots : Nat := 1024
  callSlots : Nat := 256
  errorFormat : ErrorFormat := .ansi

structure SourceFile where
  path : String
  text : Except String String

structure Outcome where
  code : Nat
  stdout : String
  stderr : String
deriving DecidableEq

def exitSuspended : Nat := 3

def emit (format : ErrorFormat) (color : Bool) (d : Diagnostic) : String :=
  match format with
  | .ansi => d.render color
  | .json => d.json ++ "\n"

def load (file : SourceFile) (h : Heap) : Except Diagnostic (Array Function) × Heap :=
  match file.text with
  | .error reason => (.error { message := "cannot read " ++ file.path ++ ": " ++ reason }, h)
  | .ok text => match Program.parse? text with
    | none => (.error { message := ProgramError.malformed.message }, h)
    | some program => match program.build true h with
      | .ok functions h => (.ok functions, h)
      | .error e h => (.error { message := e.message }, h)

def levelName : LogLevel → String
  | .error => "ERROR"
  | .warn => "WARN "
  | .debug => "DEBUG"
  | .trace => "TRACE"

def logLine (level : LogLevel) (source text : String) : String :=
  Text.Terminal.plain
    ("[" ++ levelName level ++ " " ++ source ++ "] " ++ Text.replace text "\n" "\n    " ++ "\n")

def collectionLine (c : Collection) : String :=
  let freed := c.freedBytes
  let objects := c.freedObjects
  let remaining := c.remaining
  let threshold := c.threshold
  logLine .debug "scriptvm::gc"
    (s!"gc: freed {freed} bytes ({objects} objects), {remaining} bytes remaining, " ++
      s!"threshold now {threshold}")

def isShown (trace : Bool) (level : LogLevel) : Bool :=
  trace || level == .error || level == .warn

-- The lines of the machine, with the collections between them when these are shown.
def mergeLog (trace : Bool) (history : List Collection) (seen : Nat) : List LogLine → List String
  | [] => if trace then history.map collectionLine else []
  | line :: rest =>
    let due := line.collections - seen
    let before := if trace then (history.take due).map collectionLine else []
    let shown := if isShown trace line.level then [logLine line.level "scriptvm::vm" line.text] else []
    before ++ shown ++ mergeLog trace (history.drop due) line.collections rest

def logText (trace : Bool) (m : Machine) : String :=
  String.join (mergeLog trace m.heap.history.toList 0 m.log.toList)

def consoleText : ConsoleEvent → String
  | .printed text => text ++ "\n"
  | .asked prompt => prompt

def transcript (m : Machine) : String :=
  String.join (m.console.toList.map consoleText)

def inputLines (text : String) : List String :=
  let lines := text.splitOn "\n"
  let lines := if lines.getLast? = some "" then lines.dropLast else lines
  lines.map fun line =>
    String.ofList (line.toList.reverse.dropWhile (· == '\r')).reverse

def conclude (options : RunOptions) (result : Value) (m : Machine) :
    Nat × String × Option Diagnostic :=
  match m.state with
  | .returned => (0, if result.isNull then "" else m.heap.display result ++ "\n", none)
  | .suspended =>
    let cycles := options.maxCycles.getD 0
    (exitSuspended, "",
      some { severity := .warning, message := s!"program suspended after {cycles} cycles"
             location := some { function := m.functionName m.function, pc := m.pc } })
  | _ => (1, "", m.fault.map (Diagnostic.ofFault m.functions))

def config (options : RunOptions) : MachineConfig :=
  { stackSlots := options.stackSlots, callSlots := options.callSlots, trace := options.trace
    heap := { stress := options.stress } }

def run (options : RunOptions) (color : Bool) (file : SourceFile) (stdin : String) : Outcome :=
  let m := Machine.new (config options)
  let (loaded, heap) := load file m.heap
  let m := { m with heap, inputs := inputLines stdin }
  match loaded with
  | .error d => { code := 1, stdout := "", stderr := emit options.errorFormat color d }
  | .ok functions =>
    let count := functions.size
    let path := file.path
    let announced :=
      if options.trace then logLine .debug "scriptvm" s!"loaded {count} functions from {path}"
      else ""
    match Machine.reset functions m with
    | .error e m =>
      { code := 1
        stdout := ""
        stderr := announced ++ logText options.trace m ++
          emit options.errorFormat color (Diagnostic.ofError e) }
    | .ok _ m =>
      let (result, m) := m.run (options.maxCycles.getD Machine.unlimited)
      let (code, shown, diagnostic) := conclude options result m
      { code
        stdout := transcript m ++ shown
        stderr := announced ++ logText options.trace m ++
          (match diagnostic with
            | some d => emit options.errorFormat color d
            | none => "") }

inductive Command where
  | run (path : String) (options : RunOptions)
  | list (path : String)

def readOptions (options : RunOptions) (paths : List String) :
    List String → Except String (RunOptions × List String)
  | [] => .ok (options, paths.reverse)
  | "--trace" :: rest => readOptions { options with trace := true } paths rest
  | "--gc-stress" :: rest => readOptions { options with stress := true } paths rest
  | "--error-format" :: "ansi" :: rest => readOptions { options with errorFormat := .ansi } paths rest
  | "--error-format" :: "json" :: rest => readOptions { options with errorFormat := .json } paths rest
  | "--max-cycles" :: count :: rest => match count.toNat? with
    | some n => readOptions { options with maxCycles := some n } paths rest
    | none => .error s!"invalid value '{count}' for '--max-cycles'"
  | "--stack-slots" :: count :: rest => match count.toNat? with
    | some n => readOptions { options with stackSlots := n } paths rest
    | none => .error s!"invalid value '{count}' for '--stack-slots'"
  | "--call-slots" :: count :: rest => match count.toNat? with
    | some n => readOptions { options with callSlots := n } paths rest
    | none => .error s!"invalid value '{count}' for '--call-slots'"
  | argument :: rest =>
    if argument.startsWith "--" then .error s!"unexpected argument '{argument}'"
    else readOptions options (argument :: paths) rest

def Command.ofArguments : List String → Except String Command
  | "run" :: rest => match readOptions {} [] rest with
    | .ok (options, [path]) => .ok (.run path options)
    | .ok _ => .error "run takes one program"
    | .error reason => .error reason
  | ["dis", path] => .ok (.list path)
  | _ => .error "usage: run PROGRAM [options] | dis PROGRAM"

def list (color : Bool) (file : SourceFile) : Outcome :=
  match load file (Heap.new {}) with
  | (.error d, _) => { code := 1, stdout := "", stderr := emit .ansi color d }
  | (.ok functions, h) =>
    { code := 0, stdout := Text.join "\n" (functions.toList.map (·.listing h)), stderr := "" }

end RegisterMachine.CommandLine
