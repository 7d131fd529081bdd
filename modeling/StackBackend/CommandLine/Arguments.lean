/-! Reading the arguments of a command. Options stand anywhere, the configuration
also before the command. -/

namespace StackBackend

inductive Command where
  | lower (input : String) (output : Option String) (text : Bool)
  | check (input : String)
deriving DecidableEq, Repr

structure Invocation where
  config : Option String
  command : Command
deriving DecidableEq, Repr

inductive Level where
  | top
  | lower
  | check
  | help
deriving DecidableEq, Repr

inductive Request where
  | run (invocation : Invocation)
  | help (level : Level)
  | version
deriving DecidableEq, Repr

inductive Misuse where
  | noCommand
  | unknownCommand (name : String)
  | unexpected (arg : String)
  | missingValue (option : String)
  | emptyValue (option : String)
  | repeated (option : String)
  | missingInput
deriving DecidableEq, Repr

def Misuse.message : Misuse → String
  | .noCommand => "a command is required"
  | .unknownCommand name => "unrecognized command '" ++ name ++ "'"
  | .unexpected arg => "unexpected argument '" ++ arg ++ "'"
  | .missingValue option => "a value is required for '" ++ option ++ "'"
  | .emptyValue option => "the value of '" ++ option ++ "' is empty"
  | .repeated option => "'" ++ option ++ "' cannot be used more than once"
  | .missingInput => "an input is required"

inductive Flag where
  | config
  | output
  | text
  | help
  | version
deriving DecidableEq, Repr

namespace Flag

def long : Flag → String
  | .config => "config"
  | .output => "output"
  | .text => "text"
  | .help => "help"
  | .version => "version"

def short? : Flag → Option Char
  | .config => some 'c'
  | .output => some 'o'
  | .text => none
  | .help => some 'h'
  | .version => some 'V'

def takesValue (f : Flag) : Bool := f = .config || f = .output

def name (f : Flag) : String := "--" ++ f.long

end Flag

def Level.flags : Level → List Flag
  | .top => [.config, .help, .version]
  | .lower => [.config, .output, .text, .help]
  | .check => [.config, .help]
  | .help => []

inductive Word where
  /-- A flag, with a value if one is attached to it. -/
  | flag (f : Flag) (attached : Option String)
  | plain
  /-- Everything after it is plain. -/
  | escape
  | unknown

namespace Word

def ofLong (level : Level) (cs : List Char) : Word :=
  let (name, rest) := cs.span (· ≠ '=')
  match level.flags.find? (·.long = String.ofList name), rest with
  | some f, [] => .flag f none
  | some f, _ :: value => if f.takesValue then .flag f (some (String.ofList value)) else .unknown
  | none, _ => .unknown

/-- A value may follow a short flag at once or after an equals sign. -/
def ofShort (level : Level) (c : Char) (rest : List Char) : Word :=
  match level.flags.find? (·.short? = some c), rest with
  | some f, [] => .flag f none
  | some f, '=' :: value => .flag f (some (String.ofList value))
  | some f, value => .flag f (some (String.ofList value))
  | none, _ => .unknown

def ofArg (level : Level) (arg : String) : Word :=
  match arg.toList with
  | ['-', '-'] => .escape
  | '-' :: '-' :: cs => ofLong level cs
  | '-' :: c :: rest => ofShort level c rest
  | _ => .plain

end Word

/-- Whether an argument can be the value of the option before it. -/
def isValue (arg : String) : Bool := arg = "-" || !arg.startsWith "-"

/-- What has been given at one level. A value that is an argument of its own waits to
be accepted until the next argument is read. -/
structure Given where
  config : Option String
  output : Option String
  text : Bool
  input : Option String
  waiting : Option (Flag × String)

namespace Given

def nothing : Given := ⟨none, none, false, none, none⟩

def fill (name : String) (old : Option String) (value : String) :
    Except Misuse (Option String) :=
  if value.isEmpty then throw (.emptyValue name)
  else if old.isSome then throw (.repeated name)
  else pure (some value)

def set (g : Given) (f : Flag) (value : String) : Except Misuse Given :=
  match f with
  | .config => do pure { g with config := ← fill f.name g.config value }
  | .output => do pure { g with output := ← fill f.name g.output value }
  | _ => throw (.unexpected f.name)

def settle (g : Given) : Except Misuse Given :=
  match g.waiting with
  | some (f, value) => set { g with waiting := none } f value
  | none => pure g

def setText (g : Given) : Except Misuse Given :=
  if g.text then throw (.repeated Flag.text.name) else pure { g with text := true }

def setInput (g : Given) (arg : String) : Except Misuse Given :=
  if g.input.isSome then throw (.unexpected arg)
  else do pure { g with input := ← fill "<INPUT>" none arg }

end Given

/-- How the arguments of a level end. -/
inductive Ending where
  | done
  | command (name : String) (rest : List String)
  | request (r : Request)

/-- Reads the arguments of a level. At the top a plain word is the command, whose own
arguments are read before the value that waits is accepted. -/
def scanArgs (level : Level) : Given → List String → Except Misuse (Given × Ending)
  | g, [] => do pure (← g.settle, .done)
  | g, arg :: rest =>
    match Word.ofArg level arg with
    | .unknown => throw (.unexpected arg)
    | .flag .help _ => do pure (← g.settle, .request (.help level))
    | .flag .version _ => do pure (← g.settle, .request .version)
    | .flag .text _ => do scanArgs level (← (← g.settle).setText) rest
    | .flag f (some value) => do scanArgs level (← (← g.settle).set f value) rest
    | .flag f none =>
      match rest with
      | [] => throw (.missingValue f.name)
      | value :: rest =>
        if isValue value then do
          scanArgs level { (← g.settle) with waiting := some (f, value) } rest
        else throw (.missingValue f.name)
    | .escape =>
      if level = .top then throw .noCommand
      else do pure (← rest.foldlM Given.setInput (← g.settle), .done)
    | .plain =>
      if level = .top then pure (g, .command arg rest)
      else do scanArgs level (← (← g.settle).setInput arg) rest

def parseHelp : List String → Except Misuse Request
  | [] => pure (.help .top)
  | ["lower"] => pure (.help .lower)
  | ["check"] => pure (.help .check)
  | ["help"] => pure (.help .help)
  | name :: _ => throw (.unknownCommand name)

/-- The arguments of a command, after what was given before it. A configuration given
here is the one that counts, and a request made here is met whatever value waits. -/
def parseCommand (level : Level) (before : Given) (args : List String)
    (command : Given → String → Command) : Except Misuse Request := do
  let (g, ending) ← scanArgs level .nothing args
  match ending, g.input with
  | .request r, _ => pure r
  | _, none => throw .missingInput
  | _, some input => do
    let before ← before.settle
    pure (.run ⟨g.config.or before.config, command g input⟩)

def parseArgs (args : List String) : Except Misuse Request := do
  let (g, ending) ← scanArgs .top .nothing args
  match ending with
  | .done => throw .noCommand
  | .request r => pure r
  | .command "lower" rest =>
    parseCommand .lower g rest fun g input => .lower input g.output g.text
  | .command "check" rest => parseCommand .check g rest fun _ input => .check input
  | .command "help" rest => parseHelp rest
  | .command name _ => throw (.unknownCommand name)

end StackBackend
