import StackBackend.CommandLine.Arguments
import StackBackend.Compile
import StackBackend.Listing
import StackBackend.Stored.Program

/-! What a command does: everything but touching files and printing. -/

namespace StackBackend

def programName : String := "gyre"

def versionText : String := programName ++ " 0.1.0\n"

def configHelp : String := "  -c, --config <CONFIG>  Compile options (TOML)\n"

def commandHelp (about usage : String) (options : List String) : String :=
  about ++ "\n\nUsage: " ++ programName ++ " " ++ usage ++
    " [OPTIONS] <INPUT>\n\nArguments:\n  <INPUT>  Input program (JSON)\n\nOptions:\n" ++
    String.join options ++ "  -h, --help             Print help\n"

def Level.helpText : Level → String
  | .top =>
    "Gyre compiler back end\n\nUsage: " ++ programName ++ " [OPTIONS] <COMMAND>\n\n" ++
      "Commands:\n" ++
      "  lower  Lower a program to bytecode\n" ++
      "  check  Run every pass and report errors without writing output\n" ++
      "  help   Print this message or the help of the given subcommand(s)\n\n" ++
      "Options:\n" ++ configHelp ++
      "  -h, --help             Print help\n" ++
      "  -V, --version          Print version\n"
  | .lower =>
    commandHelp "Lower a program to bytecode" "lower"
      [configHelp, "  -o, --output <OUTPUT>  Output file; standard output when omitted\n",
        "      --text             Print a disassembly instead of JSON\n"]
  | .check =>
    commandHelp "Run every pass and report errors without writing output" "check" [configHelp]
  | .help =>
    "Print this message or the help of the given subcommand(s)\n\nUsage: " ++ programName ++
      " help [COMMAND]...\n\nArguments:\n  [COMMAND]...  Print help for the subcommand(s)\n"

inductive RunError where
  | unreadable (path cause : String)
  | unwritable (path cause : String)
  | badOptions
  | notAProgram (path : String)
  | rejected (error : CompileError)
  /-- The program refers to an entry that is not there. -/
  | dangling (table : Table) (index : Nat)

namespace RunError

def message : RunError → String
  | .unreadable path _ => "failed to read " ++ path
  | .unwritable path _ => "failed to write " ++ path
  | .badOptions => "Invalid compile options"
  | .notAProgram path => path ++ " is not a valid program"
  | .rejected e => e.message
  | .dangling table index => "no entry " ++ (Ref.mk index : Ref table).text

def cause? : RunError → Option String
  | .unreadable _ cause | .unwritable _ cause => some cause
  | _ => none

def report (e : RunError) : String :=
  "Error: " ++ e.message ++ "\n" ++
    (e.cause?.map fun cause => "\nCaused by:\n    " ++ cause ++ "\n").getD ""

/-- A dangling reference stops the program in its tracks. -/
def exitCode : RunError → Nat
  | .dangling .. => 101
  | _ => 1

end RunError

/-- The content of a file, or why there is none. -/
abbrev ReadFile := String → Except String String

/-- What is left to do after a command: print a text or write it to a file. -/
structure Output where
  path : Option String
  text : String
deriving DecidableEq, Repr

namespace Invocation

def inputPath (i : Invocation) : String :=
  match i.command with
  | .lower input _ _ | .check input => input

def paths (i : Invocation) : List String := i.config.toList ++ [i.inputPath]

def readFile (read : ReadFile) (path : String) : Except RunError String :=
  match read path with
  | .ok text => pure text
  | .error cause => throw (.unreadable path cause)

def options (read : ReadFile) : Option String → Except RunError CompileOptions
  | none => pure .standard
  | some path => do
    match CompileOptions.ofToml? (← readFile read path) with
    | some options => pure options
    | none => throw .badOptions

def compiled (read : ReadFile) (options : CompileOptions) (path : String) :
    Except RunError Program := do
  match Program.ofText? (← readFile read path) with
  | none => throw (.notAProgram path)
  | some p =>
    match p.compile options with
    | .ok lowered => pure lowered
    | .error (.rejected e) => throw (.rejected e)
    | .error (.dangling table index) => throw (.dangling table index)

def listing (p : Program) : Except RunError String :=
  match p.listing with
  | .ok text => pure text
  | .error (.rejected e) => throw (.rejected e)
  | .error (.dangling table index) => throw (.dangling table index)

/-- The line that says that a program is fine. -/
def summary (path : String) (p : Program) : String :=
  path ++ ": ok (" ++ toString p.classes.size ++ " classes, " ++
    toString p.loweredCount ++ " functions lowered)\n"

/-- Runs a command. Printed text ends its line; a file holds the text alone. -/
def run (read : ReadFile) (i : Invocation) : Except RunError Output := do
  let options ← options read i.config
  let p ← compiled read options i.inputPath
  match i.command with
  | .check input => pure ⟨none, summary input p⟩
  | .lower _ output text =>
    let rendered ← if text then listing p else pure p.toText
    match output with
    | some path => pure ⟨some path, rendered⟩
    | none => pure ⟨none, rendered ++ "\n"⟩

end Invocation

end StackBackend
