import RegisterMachine.CommandLine

namespace RegisterMachine.Main

open CommandLine

def readSource (path : String) : IO SourceFile := do
  try
    return { path, text := .ok (← IO.FS.readFile path) }
  catch
    | .noFileOrDirectory .. =>
      return { path, text := .error "No such file or directory (os error 2)" }
    | e => return { path, text := .error (toString e) }

partial def readAll (stream : IO.FS.Stream) (read : String) : IO String := do
  let line ← stream.getLine
  if line.isEmpty then return read else readAll stream (read ++ line)

def perform : Command → IO Outcome
  | .run path options => do
    let file ← readSource path
    return run options (← (← IO.getStderr).isTty) file (← readAll (← IO.getStdin) "")
  | .list path => do
    return list (← (← IO.getStderr).isTty) (← readSource path)

end RegisterMachine.Main

def main (arguments : List String) : IO UInt32 := do
  match RegisterMachine.CommandLine.Command.ofArguments arguments with
  | .error reason =>
    IO.eprintln ("error: " ++ reason)
    return 2
  | .ok command =>
    let outcome ← RegisterMachine.Main.perform command
    IO.print outcome.stdout
    IO.eprint outcome.stderr
    return UInt32.ofNat outcome.code
