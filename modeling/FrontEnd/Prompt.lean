import FrontEnd.Parser
import FrontEnd.Report
import FrontEnd.Text.Utf8

/-!
The interactive prompt: a mark before every line is read, and an answer after it. Lines are
answered one by one, each as a source of its own. A line that is not UTF-8 ends the session with its
mark as the last output, and a diagnostic that cannot be shown ends it in the middle of an answer.
-/

namespace FrontEnd.Prompt

def mark : String := ">> "

def version : String := "0.1.0"

def logo : String :=
  String.join <| List.map (· ++ "\n") [
    "",
    "_________  ________   ____  __. .____       _____    _______    ________",
    "\\_   ___ \\ \\_____  \\ |    |/ _| |    |     /  _  \\   \\      \\  /  _____/",
    "/    \\  \\/  /   |   \\|      <   |    |    /  /_\\  \\  /   |   \\/   \\  ___",
    "\\     \\____/    |    \\    |  \\  |    |___/    |    \\/    |    \\    \\_\\  \\",
    " \\______  /\\_______  /____|__ \\ |_______ \\____|__  /\\____|__  /\\______  /",
    "        \\/         \\/        \\/         \\/       \\/         \\/        \\/"]

/-- What is printed before the first mark. -/
def welcome (user : String) : String :=
  logo ++ "\nhello " ++ user ++ "! welcome to the COKLang REPL v" ++ version ++
    "\nFeel free to type commands\n"

def lineFeed : UInt8 := 10

def carriageReturn : UInt8 := 13

/-- One carriage return is dropped from the end of a line that a line feed ends. -/
def dropReturn (line : List UInt8) : List UInt8 :=
  if line.getLast? = some carriageReturn then line.dropLast else line

/-- The first line of an input without its end, and the input after it. -/
def splitLine (input : List UInt8) : List UInt8 × List UInt8 :=
  match input.dropWhile (· ≠ lineFeed) with
  | [] => (input, [])
  | _ :: rest => (dropReturn (input.takeWhile (· ≠ lineFeed)), rest)

theorem splitLine_rest_length_lt {input : List UInt8} (h : input ≠ []) :
    (splitLine input).2.length < input.length := by
  have hs : (input.dropWhile (· ≠ lineFeed)).length ≤ input.length :=
    (List.dropWhile_suffix _).length_le
  unfold splitLine
  split
  · simpa using List.length_pos_iff.mpr h
  · next hd => rw [hd] at hs; exact hs

/-- The lines of an input without their ends. What follows the last line feed is a line unless it
is empty. -/
def lines (input : List UInt8) : List (List UInt8) :=
  if input = [] then [] else (splitLine input).1 :: lines (splitLine input).2
termination_by input.length
decreasing_by exact splitLine_rest_length_lt (by assumption)

/-- Why a session ended before its input did. -/
inductive Failure
  | unreadable (e : Text.ReadError)
  | unshown (e : ReportError)
deriving DecidableEq

/-- A session as far as it went: all that was printed, why it ended before the input did, and what
was recorded, the earliest first. -/
structure Session where
  output : String
  failure : Option Failure
  log : List Record

/-- The part of a session that answers a line. -/
def answer (mode : Mode) (values : Values) (line : String) : Session :=
  match mode with
  | .tokens =>
      let tokens := (Lexer.ofText line none).drain.1
      ⟨String.join (tokens.map (·.text ++ "\n")), none, Record.ofTokens tokens⟩
  | .program =>
      let (program, parser) := parse line none values
      if parser.diagnostics.isEmpty then
        ⟨program.text ++ "\n", none, parser.log⟩
      else
        let (shown, failure) := Diagnostic.reports line parser.diagnostics
        ⟨shown, failure.map .unshown, parser.log⟩

/-- Answers lines until the input ends or something fails. -/
def converse (mode : Mode) (values : Values) : List (List UInt8) → Session
  | [] => ⟨mark, none, []⟩
  | line :: rest =>
      match Text.decode line with
      | .error e => ⟨mark, some (.unreadable e), []⟩
      | .ok line =>
          let s := answer mode values line
          match s.failure with
          | some e => ⟨mark ++ s.output, some e, s.log⟩
          | none =>
              let later := converse mode values rest
              ⟨mark ++ s.output ++ later.output, later.failure, s.log ++ later.log⟩

def session (mode : Mode) (values : Values) (input : List UInt8) : Session :=
  let s := converse mode values (lines input)
  { s with log := .started mode :: s.log }

end FrontEnd.Prompt
