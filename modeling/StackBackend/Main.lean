import StackBackend.CommandLine.Run

/-! The command line. -/

namespace StackBackend.Main

def fileContent (path : String) : IO (Except String String) := do
  try
    pure (.ok (← IO.FS.readFile path))
  catch e =>
    pure (.error (toString e))

def reportError (e : RunError) : IO UInt32 := do
  IO.eprint e.report
  pure e.exitCode.toUInt32

def writeOutput (output : Output) : IO UInt32 := do
  match output.path with
  | none =>
    IO.print output.text
    pure 0
  | some path =>
    try
      IO.FS.writeFile path output.text
      pure 0
    catch e =>
      reportError (.unwritable path (toString e))

def runInvocation (i : Invocation) : IO UInt32 := do
  let files ← i.paths.mapM fun path => do pure (path, ← fileContent path)
  let read : ReadFile := fun path => (files.lookup path).getD (.error "not read")
  match i.run read with
  | .ok output => writeOutput output
  | .error e => reportError e

def answer (args : List String) : IO UInt32 := do
  match parseArgs args with
  | .error misuse =>
    IO.eprint ("error: " ++ misuse.message ++ "\n")
    pure 2
  | .ok (.help level) =>
    IO.print level.helpText
    pure 0
  | .ok .version =>
    IO.print versionText
    pure 0
  | .ok (.run i) => runInvocation i

end StackBackend.Main

def main (args : List String) : IO UInt32 := StackBackend.Main.answer args
