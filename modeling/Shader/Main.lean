import Shader.CommandLine

/-! The program: reads the files, runs and prints. -/

open Shader

def printNotice : CommandLine.Notice → IO Unit
  | .line text => IO.eprintln text
  | .report r => do
    IO.eprintln r.heading
    match r.place with
    | some (location, message) => IO.eprintln s!"  at {location}: {message}"
    | none => pure ()
  | .tree unit => do
    IO.eprintln "=== AST ==="
    IO.eprintln (toString (repr unit))
    IO.eprintln "=== End AST ===\n"

def readInput (path : String) : IO (String × Except String String) := do
  try
    let source ← IO.FS.readFile path
    return (path, .ok source)
  catch e =>
    match e with
    | .noFileOrDirectory _ _ _ => return (path, .error "No such file or directory (os error 2)")
    | _ => return (path, .error (toString e))

def main (args : List String) : IO UInt32 := do
  let files ← (CommandLine.inputs args).mapM readInput
  let read : CommandLine.Reader := fun path => (files.lookup path).getD (.error "not read")
  let run := CommandLine.run args read
  run.notices.forM printNotice
  IO.print run.output
  return UInt32.ofNat run.exit
