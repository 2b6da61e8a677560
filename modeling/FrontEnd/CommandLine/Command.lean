import FrontEnd.Statement
import FrontEnd.Trace

/-!
The arguments of the command line. They are read from left to right: the first one that asks for
help or for the version is obeyed at once, and so is the first one that makes no sense refused.
Options that may be given once are counted when all arguments have been read.
-/

namespace FrontEnd.CommandLine

structure Options where
  file : Option String
  mode : Mode
  values : Values
  level : Level

inductive Command
  | help
  | version
  | run (options : Options)

inductive UsageError
  | unknown (argument : String)
  | secondFile (argument : String)
  | repeated (option : String)

namespace UsageError

def message : UsageError → String
  | .unknown argument => "unknown argument " ++ Text.quoted argument
  | .secondFile argument => "second file " ++ Text.quoted argument
  | .repeated option => "option " ++ option ++ " given more than once"

end UsageError

/-- What the arguments read so far amount to. -/
structure Tally where
  file : Option String
  asts : Nat
  skips : Nat
  verbosity : Nat

/-- Why no more arguments are read. -/
inductive Halt
  | obeyed (command : Command)
  | refused (error : UsageError)

namespace Tally

def empty : Tally :=
  ⟨none, 0, 0, 0⟩

def addFile (t : Tally) (argument : String) : Except Halt Tally :=
  match t.file with
  | none => .ok { t with file := some argument }
  | some _ => .error (.refused (.secondFile argument))

/-- One letter of an argument that starts with a single dash. -/
def addLetter (argument : String) (t : Tally) : Char → Except Halt Tally
  | 'v' => .ok { t with verbosity := t.verbosity + 1 }
  | 'h' => .error (.obeyed .help)
  | 'V' => .error (.obeyed .version)
  | _ => .error (.refused (.unknown argument))

/-- An argument that starts with two dashes. -/
def addLong (t : Tally) (argument : String) : Except Halt Tally :=
  if argument = "--ast" then .ok { t with asts := t.asts + 1 }
  else if argument = "--skip-values" then .ok { t with skips := t.skips + 1 }
  else if argument = "--verbose" then .ok { t with verbosity := t.verbosity + 1 }
  else if argument = "--help" then .error (.obeyed .help)
  else if argument = "--version" then .error (.obeyed .version)
  else .error (.refused (.unknown argument))

/-- A dash by itself is the name of a file. -/
def addArgument (t : Tally) (argument : String) : Except Halt Tally :=
  match argument.toList with
  | '-' :: '-' :: _ => t.addLong argument
  | '-' :: letter :: letters => (letter :: letters).foldlM (addLetter argument) t
  | _ => t.addFile argument

/-- After two dashes by themselves every argument is the name of a file. -/
def addArguments (t : Tally) : List String → Except Halt Tally
  | [] => .ok t
  | argument :: rest =>
      if argument = "--" then rest.foldlM addFile t
      else t.addArgument argument >>= fun t => t.addArguments rest

def options (t : Tally) : Except UsageError Options :=
  if 1 < t.asts then .error (.repeated "--ast")
  else if 1 < t.skips then .error (.repeated "--skip-values")
  else
    .ok {
      file := t.file
      mode := if t.asts = 0 then .tokens else .program
      values := if t.skips = 0 then .parsed else .skipped
      level := match t.verbosity with
        | 0 => .warn
        | 1 => .info
        | 2 => .debug
        | _ => .trace }

end Tally

def Command.ofArguments (arguments : List String) : Except UsageError Command :=
  match Tally.empty.addArguments arguments with
  | .ok t => .run <$> t.options
  | .error (.obeyed command) => .ok command
  | .error (.refused error) => .error error

end FrontEnd.CommandLine
