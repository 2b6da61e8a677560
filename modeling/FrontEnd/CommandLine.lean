import FrontEnd.CommandLine.Command
import FrontEnd.CommandLine.Directory
import FrontEnd.Prompt

/-!
One run of the program, as a function of its arguments and surroundings. With a file, the file is
parsed and its program printed, or its diagnostics; without one, the prompt runs on the input.
-/

namespace FrontEnd.CommandLine

/-- How a run ended: its exit code, and all that it wrote. -/
structure Exit where
  code : UInt32
  output : String
  errors : String
  /-- The lines of the log, apart from what was written to report errors. -/
  log : List String

/-- What a run can see of the world. -/
structure Surroundings where
  directory : Directory
  input : List UInt8
  user : Option String
  username : Option String

def versionText : String := "coklang " ++ Prompt.version ++ "\n"

def helpText : String :=
  versionText ++ String.join (List.map (· ++ "\n") [
    "Lexer and Pratt parser front end for the COKLang toy language",
    "",
    "USAGE:",
    "    coklang [OPTIONS] [FILE]",
    "",
    "ARGS:",
    "    <FILE>    Source file to parse",
    "",
    "OPTIONS:",
    "        --ast            In the prompt, print the parsed program instead of tokens",
    "    -h, --help           Print help information",
    "        --skip-values    Discard the right-hand side of `let` and `return` instead of parsing it",
    "    -v, --verbose        Increase log verbosity (-v info, -vv debug, -vvv trace)",
    "    -V, --version        Print version information"])

/-- The last words of a run that failed, with the cause if there is one. -/
def failure (what : String) (cause : Option String) : String :=
  "Error: " ++ what ++ "\n" ++
    (cause.map fun c => "\nCaused by:\n    " ++ c ++ "\n").getD ""

/-- The exit code and the last words of a run that something ended early. -/
def ending : Prompt.Failure → UInt32 × String
  | .unreadable e => (1, failure e.message none)
  | .unshown e => (101, e.message ++ "\n")

/-- Parses a file, given its content unless it is no regular file. -/
def runFile (file : String) (content : Option (List UInt8)) (options : Options) : Exit :=
  match content with
  | none => ⟨1, "", failure "Input file must be a file!" none, []⟩
  | some bytes =>
      match Text.decode bytes with
      | .error e => ⟨1, "", failure ("failed to read " ++ file) (some e.message), []⟩
      | .ok source =>
          let (program, parser) := parse source (some file) options.values
          let log := options.level.shown parser.log
          if parser.diagnostics.isEmpty then ⟨0, program.text ++ "\n", "", log⟩
          else
            match Diagnostic.reports source parser.diagnostics with
            | (shown, none) =>
                let count := toString parser.diagnostics.length ++ " error(s) found while parsing"
                ⟨1, "", shown ++ failure count none, log⟩
            | (shown, some e) =>
                let (code, words) := ending (.unshown e)
                ⟨code, "", shown ++ words, log⟩

/-- Whom the prompt greets. -/
def greeted (user username : Option String) : Except String String :=
  match user <|> username with
  | some name => .ok name
  | none =>
      .error (failure "could not resolve the current user" (some "environment variable not found"))

def runPrompt (s : Surroundings) (options : Options) : Exit :=
  match greeted s.user s.username with
  | .error errors => ⟨1, "", errors, []⟩
  | .ok name =>
      let session := Prompt.session options.mode options.values s.input
      let output := Prompt.welcome name ++ session.output
      let log := options.level.shown session.log
      match session.failure with
      | none => ⟨0, output, "", log⟩
      | some e => ⟨(ending e).1, output, (ending e).2, log⟩

def run (s : Surroundings) (arguments : List String) : Exit :=
  match Command.ofArguments arguments with
  | .error e => ⟨2, "", "error: " ++ e.message ++ "\n", []⟩
  | .ok .help => ⟨0, helpText, "", []⟩
  | .ok .version => ⟨0, versionText, "", []⟩
  | .ok (.run options) =>
      match options.file with
      | some file => runFile file (s.directory.read? file) options
      | none => runPrompt s options

end FrontEnd.CommandLine
